import TiFlash.DM.RoughSet
import TiFlash.Lib.ThreeValued

/-!
# Proofs: the rough set index

The index bounds the rows without a delete mark, and the checks are right about these: `None` means that the
comparison is false (not `NULL`) on each, so the answers survive a negation.
-/

namespace TiFlash.DM

open TiFlash.Lib List

/-! ## The bounds -/

section Bounds

variable {T : Type*} [LinearOrder T]

/-- The cells that are not deleted -/
def liveCells (column : List (Cell T)) : List (Cell T) := column.filter fun c => !c.delMark

/-- `mn` and `mx` are the smallest and the largest value of the cells. -/
structure IsBounds (cells : List (Cell T)) (mn mx : T) : Prop where
  le : ∀ c ∈ cells, mn ≤ c.value
  ge : ∀ c ∈ cells, c.value ≤ mx
  attained : (∃ c ∈ cells, c.value = mn) ∧ ∃ c ∈ cells, c.value = mx

omit [LinearOrder T] in
theorem mem_liveCells {column : List (Cell T)} {c : Cell T} :
    c ∈ liveCells column ↔ c ∈ column ∧ c.delMark = false := by
  simp [liveCells]

/-- What the loop of `details::minmax` knows about the rows it has seen. -/
def MinmaxInv (seen : List (Cell T)) : Option (T × T) → Prop
  | none => liveCells seen = []
  | some (mn, mx) => IsBounds (liveCells seen) mn mx

theorem IsBounds.append {cells : List (Cell T)} {mn mx : T} (h : IsBounds cells mn mx) (c : Cell T) :
    IsBounds (cells ++ [c]) (min c.value mn) (max mx c.value) := by
  obtain ⟨hle, hge, ⟨a, ha, rfl⟩, b, hb, rfl⟩ := h
  refine ⟨forall_mem_append.2 ⟨fun d hd => (min_le_right _ _).trans (hle d hd), ?_⟩,
    forall_mem_append.2 ⟨fun d hd => (hge d hd).trans (le_max_left _ _), ?_⟩, ?_, ?_⟩
  · exact forall_mem_singleton.2 (min_le_left _ _)
  · exact forall_mem_singleton.2 (le_max_right _ _)
  · rcases min_choice c.value a.value with hmin | hmin
    · exact ⟨c, by simp, hmin.symm⟩
    · exact ⟨a, mem_append_left _ ha, hmin.symm⟩
  · rcases max_choice b.value c.value with hmax | hmax
    · exact ⟨b, mem_append_left _ hb, hmax.symm⟩
    · exact ⟨c, by simp, hmax.symm⟩

theorem minmaxStep_inv {seen : List (Cell T)} {batch : Option (T × T)} (c : Cell T)
    (h : MinmaxInv seen batch) : MinmaxInv (seen ++ [c]) (minmaxStep batch c) := by
  unfold minmaxStep
  cases hc : c.delMark with
  | true =>
    have hlive : liveCells (seen ++ [c]) = liveCells seen := by simp [liveCells, hc]
    rcases batch with _ | ⟨mn, mx⟩ <;> simpa [MinmaxInv, hlive] using h
  | false =>
    have hlive : liveCells (seen ++ [c]) = liveCells seen ++ [c] := by simp [liveCells, hc]
    rcases batch with _ | ⟨mn, mx⟩
    · have hnil : liveCells seen = [] := h
      refine ⟨?_, ?_, ?_⟩ <;> simp [hlive, hnil]
    · simp only [MinmaxInv, hlive, Bool.false_eq_true, if_false, ← min_def_lt, ← max_def_lt]
      exact IsBounds.append h c

variable (column : List (Cell T))

theorem foldl_minmaxStep_inv {seen : List (Cell T)} {batch : Option (T × T)} (h : MinmaxInv seen batch) :
    MinmaxInv (seen ++ column) (column.foldl minmaxStep batch) := by
  induction column generalizing seen batch with
  | nil => simpa using h
  | cons c column ih =>
    have := ih (minmaxStep_inv c h)
    simpa using this

theorem minmax_inv : MinmaxInv column (minmax column) := by
  have h0 : MinmaxInv ([] : List (Cell T)) none := rfl
  simpa [minmax] using foldl_minmaxStep_inv column h0

/-- What the index says about a pack. -/
structure PackMinMax.Describes (p : PackMinMax T) (column : List (Cell T)) : Prop where
  null : p.hasNull = false → ∀ c ∈ liveCells column, c.isNull = false
  empty : p.hasValue = false → liveCells column = []
  bounds : p.hasValue = true → IsBounds (liveCells column) p.min p.max

theorem addPack_describes [Inhabited T] :
    (addPack column).Describes column := by
  have hnull : (column.any fun c => !c.delMark && c.isNull) = false →
      ∀ c ∈ liveCells column, c.isNull = false := by
    intro h c hc
    obtain ⟨hmem, hdel⟩ := mem_liveCells.1 hc
    simpa [hdel] using any_eq_false.1 h c hmem
  have hinv := minmax_inv column
  unfold addPack
  cases hm : minmax column with
  | none =>
    rw [hm] at hinv
    exact ⟨hnull, fun _ => hinv, fun h => by simp at h⟩
  | some b =>
    rw [hm] at hinv
    exact ⟨hnull, fun h => by simp at h, fun _ => hinv⟩

end Bounds

/-! ## Right answers -/

/-- The answer of a rough check is right about `rows`, of which `truth` says what is the case. -/
structure Answers {ρ : Type*} (res : RSResult) (rows : List ρ) (truth : ρ → Option Bool) : Prop where
  none : res = .none → ∀ r ∈ rows, truth r = some false
  all : res = .all → ∀ r ∈ rows, truth r = some true

namespace Answers

variable {ρ : Type*} {rows : List ρ} {truth truth' : ρ → Option Bool} {res res' : RSResult}

theorem of_some : Answers .some rows truth := ⟨by simp, by simp⟩

theorem of_nil : Answers res [] truth := ⟨by simp, by simp⟩

section

variable (h : Answers res rows truth)
include h

theorem congr (ht : ∀ r ∈ rows, truth r = truth' r) :
    Answers res rows truth' :=
  ⟨fun hr r hm => (ht r hm).symm.trans (h.none hr r hm), fun hr r hm => (ht r hm).symm.trans (h.all hr r hm)⟩

theorem not : Answers res.not rows fun r => not3 (truth r) := by
  constructor <;> intro hr r hm <;> rw [not3_eq_some_iff]
  · exact h.all (by cases res <;> simp_all [RSResult.not]) r hm
  · exact h.none (by cases res <;> simp_all [RSResult.not]) r hm

theorem and (h' : Answers res' rows truth') :
    Answers (res.and res') rows fun r => and3 (truth r) (truth' r) := by
  constructor <;> intro hr r hm
  · have hcases : res = .none ∨ res' = .none := by
      cases res <;> cases res' <;> simp_all [RSResult.and]
    rw [and3_eq_false_iff]
    rcases hcases with hn | hn
    · exact .inl (h.none hn r hm)
    · exact .inr (h'.none hn r hm)
  · have hcases : res = .all ∧ res' = .all := by
      cases res <;> cases res' <;> simp_all [RSResult.and]
    exact and3_eq_true_iff.2 ⟨h.all hcases.1 r hm, h'.all hcases.2 r hm⟩

theorem or (h' : Answers res' rows truth') :
    Answers (res.or res') rows fun r => or3 (truth r) (truth' r) := by
  constructor <;> intro hr r hm
  · have hcases : res = .none ∧ res' = .none := by
      cases res <;> cases res' <;> simp_all [RSResult.or]
    exact or3_eq_false_iff.2 ⟨h.none hcases.1 r hm, h'.none hcases.2 r hm⟩
  · have hcases : res = .all ∨ res' = .all := by
      cases res <;> cases res' <;> simp_all [RSResult.or]
    rw [or3_eq_true_iff]
    rcases hcases with hn | hn
    · exact .inl (h.all hn r hm)
    · exact .inr (h'.all hn r hm)

end

end Answers

/-! ## Negating an operator -/

namespace RSResult

variable {a b : RSResult}

theorem not_not (a : RSResult) : a.not.not = a := by
  cases a <;> rfl

theorem not_and (a b : RSResult) : (a.and b).not = a.not.or b.not := by
  cases a <;> cases b <;> rfl

theorem not_or (a b : RSResult) : (a.or b).not = a.not.and b.not := by
  cases a <;> cases b <;> rfl

theorem none_and (b : RSResult) : RSResult.none.and b = .none := by
  cases b <;> rfl

theorem not_eq_none_iff : a.not = .none ↔ a = .all := by
  cases a <;> decide

theorem not_eq_all_iff : a.not = .all ↔ a = .none := by
  cases a <;> decide

theorem eq_some_iff : a = .some ↔ a ≠ .none ∧ a ≠ .all := by
  cases a <;> decide

theorem not_eq_self_iff : a.not = a ↔ a = .some := by
  cases a <;> simp [not]

theorem and_eq_none_iff : a.and b = .none ↔ a = .none ∨ b = .none := by
  cases a <;> cases b <;> decide

theorem and_eq_all_iff : a.and b = .all ↔ a = .all ∧ b = .all := by
  cases a <;> cases b <;> decide

/-- The loop of `NotIn::roughCheck` leaves `Some` if no value decides it and one value does not rule itself out. -/
theorem foldl_and_not_eq_some_iff {α : Type} (f : α → RSResult) (l : List α) (x : α) :
    l.foldl (fun res y => res.and (f y).not) (f x).not = .some ↔
      (∀ y ∈ x :: l, f y ≠ .all) ∧ ∃ y ∈ x :: l, f y ≠ .none := by
  have hloop : ∀ res : RSResult,
      (l.foldl (fun res y => res.and (f y).not) res = .none ↔ res = .none ∨ ∃ y ∈ l, f y = .all) ∧
      (l.foldl (fun res y => res.and (f y).not) res = .all ↔ res = .all ∧ ∀ y ∈ l, f y = .none) := by
    induction l with
    | nil => simp
    | cons y l ih =>
      intro res
      rw [foldl_cons, (ih _).1, (ih _).2, and_eq_none_iff, and_eq_all_iff, not_eq_none_iff, not_eq_all_iff]
      simp [or_assoc, and_assoc]
  obtain ⟨hnone, hall⟩ := hloop (f x).not
  rw [eq_some_iff, ne_eq, ne_eq, hnone, hall, not_eq_none_iff, not_eq_all_iff]
  grind

theorem not_foldl_or {α : Type} (f : α → RSResult) (l : List α) (res : RSResult) :
    (l.foldl (fun res x => res.or (f x)) res).not = l.foldl (fun res x => res.and (f x).not) res.not := by
  induction l generalizing res with
  | nil => rfl
  | cons x l ih => rw [List.foldl_cons, List.foldl_cons, ih, not_or]

end RSResult

/-! ## A literal and the bounds of a pack -/

section

variable {T : Type*} [LinearOrder T] {v : Option T} {mn mx : T}

theorem RoughCheck.checkEqual_eq_all_iff : checkEqual v mn mx = .all ↔ v = some mn ∧ mn = mx := by
  cases v with
  | none => simp [checkEqual]
  | some v =>
    rw [checkEqual]
    split_ifs <;> grind

theorem RoughCheck.checkEqual_eq_none_iff :
    checkEqual v mn mx = .none ↔ ∃ w, v = some w ∧ ¬ (mn ≤ w ∧ w ≤ mx) := by
  cases v with
  | none => simp [checkEqual]
  | some v =>
    rw [checkEqual]
    split_ifs <;> grind

end

namespace PackMinMax

/-- The literal is the only value of the pack, as far as the bounds tell. A string is compared with what
`stringFromFirstByte` makes of the bounds. -/
def Only : (t : DataType) → PackMinMax t.Carrier → Field → Prop := fun t pack value =>
  pack.hasNull = false ∧ value ≠ .null ∧ pack.hasValue = true ∧
    match t, pack with
    | .uint _, p | .int _, p | .myDate, p | .myDateTime, p => value.asNumber = some p.min ∧ p.min = p.max
    | .string, p => value.asString = some (stringFromFirstByte p.min) ∧
      stringFromFirstByte p.min = stringFromFirstByte p.max
    | .nullable _, _ | .other _, _ => False

/-- The literal lies outside the bounds of the pack, which holds no `NULL`, or the pack has no value. -/
def Excludes : (t : DataType) → PackMinMax t.Carrier → Field → Prop := fun t pack value =>
  pack.hasNull = false ∧ value ≠ .null ∧ (pack.hasValue = true →
    match t, pack with
    | .uint _, p | .int _, p | .myDate, p | .myDateTime, p =>
      ∃ w, value.asNumber = some w ∧ ¬ (p.min ≤ w ∧ w ≤ p.max)
    | .string, p => ∃ w, value.asString = some w ∧
      ¬ (stringFromFirstByte p.min ≤ w ∧ w ≤ stringFromFirstByte p.max)
    | .nullable _, _ | .other _, _ => False)

variable {t : DataType} (p : PackMinMax t.Carrier) (v : Field)

theorem checkEqual_eq_all_iff : MinMaxIndex.checkEqual t p v = .all ↔ Only t p v := by
  unfold MinMaxIndex.checkEqual MinMaxIndex.check Only
  by_cases hnull : (p.hasNull || decide (v = .null)) = true
  · rw [if_pos hnull]
    exact iff_of_false (by simp) fun h => by simp_all
  · rw [if_neg hnull]
    obtain ⟨hn, hv⟩ : p.hasNull = false ∧ v ≠ .null := by simpa using hnull
    cases hvalue : p.hasValue
    · simp
    · simp only [hn, hv, ne_eq, not_false_iff, true_and, Bool.not_true, Bool.false_eq_true, if_false]
      cases t with
      | nullable | other => simp
      | string | uint | int | myDate | myDateTime => exact RoughCheck.checkEqual_eq_all_iff

theorem checkEqual_eq_none_iff : MinMaxIndex.checkEqual t p v = .none ↔ Excludes t p v := by
  unfold MinMaxIndex.checkEqual MinMaxIndex.check Excludes
  by_cases hnull : (p.hasNull || decide (v = .null)) = true
  · rw [if_pos hnull]
    exact iff_of_false (by simp) fun h => by simp_all
  · rw [if_neg hnull]
    obtain ⟨hn, hv⟩ : p.hasNull = false ∧ v ≠ .null := by simpa using hnull
    cases hvalue : p.hasValue
    · simp [hn, hv]
    · simp only [hn, hv, ne_eq, not_false_iff, true_and, Bool.not_true, Bool.false_eq_true, if_false, true_imp_iff]
      cases t with
      | nullable | other => simp
      | string | uint | int | myDate | myDateTime => exact RoughCheck.checkEqual_eq_none_iff

end PackMinMax

namespace RSOperator

variable {param : RSCheckParam} {packId : Nat}

/-- A result that is negated behind the lookup of the index can be negated in front of it. -/
theorem not_withIndex (attr : Attr) (check : (t : DataType) → PackMinMax t.Carrier → RSResult) :
    (withIndex param packId attr check).not = withIndex param packId attr fun t p => (check t p).not := by
  unfold withIndex
  cases param attr.colId with
  | none => rfl
  | some rsindex =>
    by_cases htype : rsindex.type ≠ attr.type
    · simp only [if_pos htype]
      rfl
    · simp only [if_neg htype]
      cases rsindex.minmax[packId]? with
      | none | some pack => rfl

theorem andChildren_none (cs : List RSOperator) : andChildren param packId .none cs = .none := by
  cases cs with
  | nil => rfl
  | cons c cs => simp [andChildren, RSResult.none_and]

theorem andChildren_cons (res : RSResult) (c : RSOperator) (cs : List RSOperator) :
    andChildren param packId res (c :: cs)
      = andChildren param packId (res.and (c.roughCheck param packId)) cs := by
  rw [andChildren]
  by_cases hnone : res.and (c.roughCheck param packId) = .none
  · simp only [if_pos hnone]
    rw [hnone, andChildren_none]
  · simp only [if_neg hnone]

theorem roughCheck_and (c : RSOperator) (cs : List RSOperator) :
    (and c cs).roughCheck param packId = andChildren param packId (c.roughCheck param packId) cs := by
  rw [roughCheck]
  by_cases hnone : c.roughCheck param packId = .none
  · simp only [if_pos hnone]
    rw [hnone, andChildren_none]
  · simp only [if_neg hnone]

/-! ## Trees -/

variable (param packId)

/-- The index leaves open whether the column has one of the values: the pack is not indexed, or none of them is its
only value and one of them is not excluded. -/
def LeavesOpen (attr : Attr) (values : List Field) : Prop :=
  ∀ rsindex, param attr.colId = some rsindex → rsindex.type = attr.type →
    ∀ pack, rsindex.minmax[packId]? = some pack →
      (∀ v ∈ values, ¬ pack.Only rsindex.type v) ∧ ∃ v ∈ values, ¬ pack.Excludes rsindex.type v

mutual

/-- The index leaves every `NotIn` open that `applyNot` comes to. It does not look below a `Not`. -/
def NotInsLeftOpen : RSOperator → Prop
  | notIn attr v vs => LeavesOpen param packId attr (v :: vs)
  | and c cs | or c cs => NotInsLeftOpen c ∧ ChildrenLeftOpen cs
  | _ => True

/-- The same for each of the children. -/
def ChildrenLeftOpen : List RSOperator → Prop
  | [] => True
  | c :: cs => NotInsLeftOpen c ∧ ChildrenLeftOpen cs

end

variable {param packId} in
theorem roughCheck_notIn_eq_some_iff {attr : Attr} {v : Field} {vs : List Field} :
    (notIn attr v vs).roughCheck param packId = .some ↔ LeavesOpen param packId attr (v :: vs) := by
  rw [roughCheck, withIndex, LeavesOpen]
  cases hparam : param attr.colId with
  | none => simp
  | some rsindex =>
    by_cases htype : rsindex.type = attr.type
    · cases hpack : rsindex.minmax[packId]? with
      | none => simp [hpack]
      | some pack =>
        simp [htype, hpack, RSResult.foldl_and_not_eq_some_iff, PackMinMax.checkEqual_eq_all_iff,
          PackMinMax.checkEqual_eq_none_iff]
    · simp [htype]

mutual

theorem roughCheck_applyNot_of_leftOpen : (op : RSOperator) → op.NotInsLeftOpen param packId →
    op.applyNot.roughCheck param packId = (op.roughCheck param packId).not
  | equal attr v, _ | greater attr v, _ | greaterEqual attr v, _ => by
    simp only [applyNot, roughCheck, not_withIndex]
  | notEqual attr v, _ | less attr v, _ | lessEqual attr v, _ => by
    simp only [applyNot, roughCheck, not_withIndex, RSResult.not_not]
  | isIn attr v vs, _ => by
    simp only [applyNot, roughCheck, not_withIndex, RSResult.not_foldl_or]
  | notIn attr v vs, h => by
    rw [applyNot, roughCheck_notIn_eq_some_iff.2 h]
    rfl
  | like attr v, _ | notLike attr v, _ | unsupported, _ => by
    simp only [applyNot, roughCheck, RSResult.not]
  | and c cs, h => by
    obtain ⟨hc, hcs⟩ := h
    rw [applyNot, roughCheck_and, roughCheck, roughCheck_applyNot_of_leftOpen c hc]
    exact orChildren_applyNot cs hcs _
  | or c cs, h => by
    obtain ⟨hc, hcs⟩ := h
    rw [applyNot, roughCheck_and, roughCheck, roughCheck_applyNot_of_leftOpen c hc]
    exact andChildren_applyNot cs hcs _
  | not c, _ => by
    rw [applyNot, roughCheck, RSResult.not_not]

theorem orChildren_applyNot : (cs : List RSOperator) → ChildrenLeftOpen param packId cs → (res : RSResult) →
    orChildren param packId res.not (applyNotChildren cs) = (andChildren param packId res cs).not
  | [], _, _ => rfl
  | c :: cs, ⟨hc, hcs⟩, res => by
    rw [applyNotChildren, orChildren, andChildren_cons, roughCheck_applyNot_of_leftOpen c hc,
      ← RSResult.not_and]
    exact orChildren_applyNot cs hcs _

theorem andChildren_applyNot : (cs : List RSOperator) → ChildrenLeftOpen param packId cs → (res : RSResult) →
    andChildren param packId res.not (applyNotChildren cs) = (orChildren param packId res cs).not
  | [], _, _ => rfl
  | c :: cs, ⟨hc, hcs⟩, res => by
    rw [applyNotChildren, orChildren, andChildren_cons, roughCheck_applyNot_of_leftOpen c hc,
      ← RSResult.not_or]
    exact andChildren_applyNot cs hcs _

end

/-- The column 7 is an `Int64`, and all values of the pack are 3. -/
def threesParam : RSCheckParam := fun col =>
  if col = 7 then some ⟨.int 64, [⟨false, true, (3 : Int), (3 : Int)⟩]⟩ else none

end RSOperator

end TiFlash.DM
