import TiFlash.DM.Proofs.RoughSetProofs
import TiFlash.DM.Proofs.RowKeyRangeProofs

/-!
# Proofs: pack selection by row key range

What `handle_res` says about a pack, in terms of its rows without a delete mark, and the exact condition
under which it is right about all of them.
-/

namespace TiFlash.DM

open List MinMaxIndex RoughCheck RowKeyRange

section Bounds

variable {T : Type*} [LinearOrder T] {p : PackMinMax T} {column : List (Cell T)}

theorem checkGreaterEqual_eq_none_iff (h : p.Describes column) (v : T) :
    (if !p.hasValue then RSResult.none else checkGreaterEqual (some v) p.min p.max) = .none ↔
      ∀ x ∈ liveCells column, x.value < v := by
  cases hv : p.hasValue with
  | false => simp [h.empty hv]
  | true =>
    obtain ⟨hle, hge, -, b, hb, hbmax⟩ := h.bounds hv
    simp only [Bool.not_true, Bool.false_eq_true, if_false, RoughCheck.checkGreaterEqual]
    constructor
    · intro hres x hx
      split_ifs at hres with hgt
      exact (hge x hx).trans_lt hgt
    · intro hall
      rw [if_pos (hbmax ▸ hall b hb)]

theorem checkGreaterEqual_eq_all_iff (h : p.Describes column) (v : T) :
    (if !p.hasValue then RSResult.none else checkGreaterEqual (some v) p.min p.max) = .all ↔
      liveCells column ≠ [] ∧ ∀ x ∈ liveCells column, v ≤ x.value := by
  cases hv : p.hasValue with
  | false => simp [h.empty hv]
  | true =>
    obtain ⟨hle, hge, ⟨a, ha, hamin⟩, -⟩ := h.bounds hv
    simp only [Bool.not_true, Bool.false_eq_true, if_false, RoughCheck.checkGreaterEqual]
    constructor
    · intro hres
      split_ifs at hres with hgt hle'
      exact ⟨ne_nil_of_mem ha, fun x hx => hle'.trans (hle x hx)⟩
    · rintro ⟨-, hall⟩
      have hmin : v ≤ p.min := hamin ▸ hall a ha
      have hmax : ¬ v > p.max := not_lt.2 (hmin.trans (hamin ▸ hge a ha))
      rw [if_neg hmax, if_pos hmin]

end Bounds

variable {c : Bool} {D : Type*}

def HasLive (rows : List (Row (RowKey c) D)) : Prop := ∃ r ∈ rows, r.tag = false

/-- Every row of the pack that is not delete-marked has a key with the property. -/
def AllLive (rows : List (Row (RowKey c) D)) (p : RowKey c → Prop) : Prop :=
  ∀ r ∈ rows, r.tag = false → p r.handle

variable (rows : List (Row (RowKey c) D))

theorem forall_liveCells_iff (p : (handleType c).Carrier → Prop) :
    (∀ x ∈ liveCells (rows.map handleCell), p x.value) ↔ AllLive rows fun k => p (handleValue k) := by
  simp only [mem_liveCells, mem_map, AllLive]
  constructor
  · intro h r hr ht
    exact h (handleCell r) ⟨⟨r, hr, rfl⟩, ht⟩
  · rintro h _ ⟨⟨r, hr, rfl⟩, ht⟩
    exact h r hr ht

theorem liveCells_ne_nil_iff :
    liveCells (rows.map handleCell) ≠ [] ↔ HasLive rows := by
  simp only [ne_eq, eq_nil_iff_forall_not_mem, mem_liveCells, mem_map, HasLive, not_forall, not_not]
  constructor
  · rintro ⟨_, ⟨r, hr, rfl⟩, ht⟩
    exact ⟨r, hr, ht⟩
  · rintro ⟨r, hr, ht⟩
    exact ⟨handleCell r, ⟨r, hr, rfl⟩, ht⟩

theorem hasNull_handle :
    (addPack (rows.map handleCell)).hasNull = false := by
  unfold addPack
  split <;> simp [handleCell]

theorem checkGreaterEqual_handle {p : PackMinMax (handleType c).Carrier} (hp : p.hasNull = false)
    (k : RowKey c) : checkGreaterEqual (handleType c) p (keyField k)
      = if !p.hasValue then .none
        else checkGreaterEqual (some (handleValue k)) p.min p.max := by
  cases k with
  | int v | common s =>
    simp only [MinMaxIndex.checkGreaterEqual, MinMaxIndex.check, hp, keyField, reduceCtorEq, decide_false,
      Bool.or_false, Bool.false_eq_true, if_false]
    rfl

theorem handleValue_lt_iff {k l : RowKey c} : handleValue k < handleValue l ↔ k < l := by
  cases k with
  | int v => cases l with
    | int w => exact RowKey.int_lt_int.symm
  | common s => cases l with
    | common t => exact RowKey.common_lt_common.symm

theorem handleValue_le_iff {k l : RowKey c} : handleValue k ≤ handleValue l ↔ k ≤ l := by
  rw [← not_lt, handleValue_lt_iff, not_lt]

/-- `handle >= k` against the index of a pack. -/
def handleGe (rows : List (Row (RowKey c) D)) (k : RowKey c) : RSResult :=
  checkGreaterEqual (handleType c) (addPack (rows.map handleCell)) (keyField k)

theorem handleGe_eq_none_iff (k : RowKey c) :
    handleGe rows k = .none ↔ AllLive rows fun h => h < k := by
  rw [handleGe, checkGreaterEqual_handle (hasNull_handle rows),
    checkGreaterEqual_eq_none_iff (addPack_describes _),
    forall_liveCells_iff rows fun v => v < handleValue k]
  simp only [handleValue_lt_iff]

theorem handleGe_eq_all_iff (k : RowKey c) :
    handleGe rows k = .all ↔ HasLive rows ∧ AllLive rows fun h => k ≤ h := by
  rw [handleGe, checkGreaterEqual_handle (hasNull_handle rows),
    checkGreaterEqual_eq_all_iff (addPack_describes _), liveCells_ne_nil_iff,
    forall_liveCells_iff rows fun v => handleValue k ≤ v]
  simp only [handleValue_le_iff]

section HandleRes

variable {range : RowKeyRange c} {packs : List (List (Row (RowKey c) D))} {i : Nat}
  {rows : List (Row (RowKey c) D)}

section

variable (hi : packs[i]? = some rows)
include hi

theorem handleRes_of_not_all (hall : range.all = false) :
    handleRes range packs i
      = (handleGe rows range.start.key).and (handleGe rows range.stop.key).not := by
  have hindex : ∀ check : (t : DataType) → PackMinMax t.Carrier → RSResult,
      withIndex (handleParam packs) i ⟨extraHandleColumnId, handleType c⟩ check
        = check (handleType c) (addPack (rows.map handleCell)) := by
    intro check
    simp [withIndex, handleParam, handleIndex, hi]
  simp only [handleRes, hall, toFilter, RSOperator.roughCheck, RSOperator.andChildren, hindex,
    Bool.false_eq_true, if_false]
  rw [← handleGe, ← handleGe]
  cases handleGe rows range.start.key <;> cases handleGe rows range.stop.key <;> rfl

/-- The filter answers `None` when the rows it knows are all before or all behind the range. -/
theorem handleRes_eq_none_iff (hall : range.all = false) :
    handleRes range packs i = .none ↔
      AllLive rows (fun h => h < range.start.key) ∨ AllLive rows (fun h => range.stop.key ≤ h) := by
  rw [handleRes_of_not_all hi hall, ← handleGe_eq_none_iff]
  by_cases hlive : HasLive rows
  · have hstop : handleGe rows range.stop.key = .all ↔ AllLive rows fun h => range.stop.key ≤ h := by
      rw [handleGe_eq_all_iff]; simp [hlive]
    rw [← hstop]
    cases handleGe rows range.start.key <;> cases handleGe rows range.stop.key <;>
      simp [RSResult.and, RSResult.not]
  · have hstart : handleGe rows range.start.key = .none :=
      (handleGe_eq_none_iff ..).2 fun r hr ht => absurd ⟨r, hr, ht⟩ hlive
    simp [hstart, RSResult.and]

theorem handleRes_eq_all_iff (hall : range.all = false) :
    handleRes range packs i = .all ↔
      HasLive rows ∧ AllLive rows fun h => range.start.key ≤ h ∧ h < range.stop.key := by
  have hand : AllLive rows (fun h => range.start.key ≤ h ∧ h < range.stop.key) ↔
      (AllLive rows fun h => range.start.key ≤ h) ∧ AllLive rows fun h => h < range.stop.key :=
    ⟨fun h => ⟨fun r hr ht => (h r hr ht).1, fun r hr ht => (h r hr ht).2⟩,
      fun h r hr ht => ⟨h.1 r hr ht, h.2 r hr ht⟩⟩
  rw [handleRes_of_not_all hi hall, hand, ← and_assoc, ← handleGe_eq_all_iff, ← handleGe_eq_none_iff]
  cases handleGe rows range.start.key <;> cases handleGe rows range.stop.key <;>
    simp [RSResult.and, RSResult.not]

end

/-- `handle_res[i]` is right about all rows of the pack, deleted or not. -/
def HandleResSound (range : RowKeyRange c) (packs : List (List (Row (RowKey c) D))) (i : Nat)
    (rows : List (Row (RowKey c) D)) : Prop :=
  (handleRes range packs i = .none → ∀ r ∈ rows, range.check r.handle = false) ∧
  (handleRes range packs i = .all → ∀ r ∈ rows, range.check r.handle = true)

/-- A pack on which none of the three shortcuts of the pack filter misleads it. -/
structure PackSuitsRange (range : RowKeyRange c) (rows : List (Row (RowKey c) D)) : Prop where
  /-- Where `all()` skips the index, no key lies outside of the range. -/
  whole : range.all = true → ∀ r ∈ rows, range.check r.handle = true
  /-- Where the other rows are all before or all behind the range, or there are none, no
  delete-marked row lies in it. -/
  deletedOut : range.all = false →
    (AllLive rows (fun h => h < range.start.key) ∨ AllLive rows fun h => range.stop.key ≤ h) →
    ∀ r ∈ rows, r.tag = true → range.check r.handle = false
  /-- Where the other rows are all in the range, so is every delete-marked row. -/
  deletedIn : range.all = false → HasLive rows →
    AllLive rows (fun h => range.start.key ≤ h ∧ h < range.stop.key) →
    ∀ r ∈ rows, r.tag = true → range.check r.handle = true
  /-- The rows are not all at the largest integer handle of a range that goes on to "+infinity". -/
  maxHandle : range.all = false → range.stop.IsInf → AllLive rows RowKey.IsMax →
    AllLive rows fun h => range.check h = false

theorem check_iff (k : RowKey c) : range.check k = true ↔
    (range.start.key ≤ k ∧ ¬ (k.IsMax ∧ range.start.IsInf)) ∧
      (k < range.stop.key ∨ (k.IsMax ∧ range.stop.IsInf)) := by
  rw [RowKeyRange.check, Bool.and_eq_true, RowKeyRange.checkStart_iff, RowKeyRange.checkEnd_iff]

/-- The pack filter is right about a pack exactly when the pack suits the range. -/
theorem handleRes_sound_iff (hi : packs[i]? = some rows) :
    HandleResSound range packs i rows ↔ PackSuitsRange range rows := by
  cases hall : range.all with
  | true =>
    have hres : handleRes range packs i = .all := by simp [handleRes, hall]
    constructor
    · intro h
      exact ⟨fun _ => h.2 hres, by simp [hall], by simp [hall], by simp [hall]⟩
    · intro h
      exact ⟨by simp [hres], fun _ => h.whole hall⟩
  | false =>
    constructor
    · rintro ⟨hnone, hin⟩
      refine ⟨by simp [hall], fun _ hout r hr _ => ?_, fun _ hlive hbetween r hr _ => ?_, ?_⟩
      · exact hnone ((handleRes_eq_none_iff hi hall).2 hout) r hr
      · exact hin ((handleRes_eq_all_iff hi hall).2 ⟨hlive, hbetween⟩) r hr
      · intro _ hinf hmax r hr ht
        refine hnone ((handleRes_eq_none_iff hi hall).2 (.inr fun x hx hxt => ?_)) r hr
        exact not_lt.1 (hmax x hx hxt).not_lt_key
    · intro h
      refine ⟨fun hres r hr => ?_, fun hres r hr => ?_⟩
      · have hout := (handleRes_eq_none_iff hi hall).1 hres
        cases ht : r.tag with
        | true => exact h.deletedOut hall hout r hr ht
        | false =>
          rw [Bool.eq_false_iff]
          intro hcheck
          obtain ⟨⟨hstart, -⟩, hend⟩ := (check_iff r.handle).1 hcheck
          rcases hout with hbefore | hbehind
          · exact absurd (hbefore r hr ht) (not_lt.2 hstart)
          · rcases hend with hlt | ⟨hm, hinf⟩
            · exact absurd hlt (not_lt.2 (hbehind r hr ht))
            · -- only the largest handle is both behind the number of the end and before the end
              have hmax : AllLive rows RowKey.IsMax := fun x hx hxt => hinf.isMax_of_key_le (hbehind x hx hxt)
              simp [h.maxHandle hall hinf hmax r hr ht] at hcheck
      · obtain ⟨hlive, hbetween⟩ := (handleRes_eq_all_iff hi hall).1 hres
        cases ht : r.tag with
        | true => exact h.deletedIn hall hlive hbetween r hr ht
        | false =>
          obtain ⟨hstart, hend⟩ := hbetween r hr ht
          exact (check_iff r.handle).2 ⟨⟨hstart, fun hm => hm.1.not_lt_key hend⟩, .inl hend⟩

/-- It skips the handles 5 (deleted) and 10 when `[0, 7)` is read, and the largest handle when `[0, +inf)` is
read, and it takes the key `a` for one in the range from `b` on. -/
theorem handleRes_unsound :
    let key (v : Int) (h : -(2 ^ 63) ≤ v ∧ v < 2 ^ 63) : RowKey false := .int ⟨v, h⟩
    let deleted : List (Row (RowKey false) Unit) :=
      [⟨key 5 (by decide), 1, true, ()⟩, ⟨key 10 (by decide), 1, false, ()⟩]
    let largest : List (Row (RowKey false) Unit) := [⟨.int intHandleMax, 1, false, ()⟩]
    let common : List (Row (RowKey true) Unit) := [⟨.common [1, 97], 1, false, ()⟩]
    ¬ HandleResSound ⟨.ofKey (key 0 (by decide)), .ofKey (key 7 (by decide)), 1⟩ [deleted] 0 deleted ∧
    ¬ HandleResSound ⟨.ofKey (key 0 (by decide)), .intHandleMaxKey, 1⟩ [largest] 0 largest ∧
    ¬ HandleResSound ⟨.common [1, 98], .common [250], 1⟩ [common] 0 common := by
  intro key deleted largest common
  refine ⟨fun h => ?_, fun h => ?_, fun h => ?_⟩
  · exact absurd (h.1 (by decide) _ mem_cons_self) (by decide)
  · exact absurd (h.1 (by decide) _ mem_cons_self) (by decide)
  · exact absurd (h.2 (by decide) _ mem_cons_self) (by decide)

/-- The handles 5 (deleted between 3 and 10) and a read of `[0, 7)`. -/
theorem handleRes_sound_iff_range :
    let key (v : Int) (h : -(2 ^ 63) ≤ v ∧ v < 2 ^ 63) : RowKey false := .int ⟨v, h⟩
    let rows : List (Row (RowKey false) Unit) := [⟨key 3 (by decide), 1, false, ()⟩,
      ⟨key 5 (by decide), 1, true, ()⟩, ⟨key 10 (by decide), 1, false, ()⟩]
    HandleResSound ⟨.ofKey (key 0 (by decide)), .ofKey (key 7 (by decide)), 1⟩ [rows] 0 rows := by
  intro key rows
  refine (handleRes_sound_iff rfl).2 ⟨by decide, ?_, ?_, ?_⟩
  · rintro - (h | h)
    · exact absurd (h _ mem_cons_self rfl) (by decide)
    · exact absurd (h _ mem_cons_self rfl) (by decide)
  · intro _ _ h
    have hten : (⟨key 10 (by decide), 1, false, ()⟩ : Row (RowKey false) Unit) ∈ rows := by simp [rows]
    exact absurd (h _ hten rfl) (by decide)
  · rintro - ⟨h, -⟩
    exact absurd h (by decide)

end HandleRes

end TiFlash.DM
