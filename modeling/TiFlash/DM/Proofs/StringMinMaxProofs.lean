import TiFlash.DM.Proofs.PackFilterProofs
import TiFlash.Lib.Offsets

/-!
# Proofs: the min-max index of a String column

`checkGreaterEqual` sees the stored bounds. `checkEqual` and `checkGreater` see, for each, the string that
repeats a character as often as the first byte of the bound says.
-/

namespace TiFlash.DM

open TiFlash.Lib List RoughCheck

/-! ## The strings of a column -/

section Offsets

variable {α : Type} {g : α → Bytes} {as : List α}

theorem getD_endsFrom (start : Nat) {ns : List Nat} {i : Nat} (hi : i < ns.length) :
    (endsFrom start ns).getD i 0 = start + (ns.take (i + 1)).sum := by
  induction ns generalizing start i with
  | nil => exact absurd hi (Nat.not_lt_zero _)
  | cons n ns ih =>
    cases i with
    | zero => simp [endsFrom]
    | succ i =>
      have hrest := ih (start + n) (Nat.lt_of_succ_lt_succ hi)
      rw [endsFrom, getD_cons_succ, hrest, take_succ_cons, sum_cons, Nat.add_assoc]

theorem drop_flatMap (i : Nat) :
    (as.flatMap g).drop ((as.map fun a => (g a).length).take i).sum = (as.drop i).flatMap g := by
  have hlen : ((as.map fun a => (g a).length).take i).sum = ((as.take i).flatMap g).length := by
    rw [← map_take, length_flatMap]
  conv_lhs => rw [hlen, ← take_append_drop i as, flatMap_append]
  rw [take_append_drop, drop_left]

end Offsets

namespace ColumnString

def ofStrings (ss : List Bytes) : ColumnString := ss.foldl insertData ⟨[], []⟩

theorem ofStrings_eq (ss : List Bytes) : ofStrings ss
    = ⟨ss.flatMap (· ++ [0]), endsFrom 0 (ss.map fun s => (s ++ [0]).length)⟩ := by
  induction ss using reverseRecOn with
  | nil => rfl
  | append_singleton ss s ih =>
    rw [ofStrings, foldl_append, ← ofStrings, ih, foldl_cons, foldl_nil, insertData,
      map_append, map_singleton, endsFrom_append, flatMap_append, length_flatMap]
    simp

variable {ss : List Bytes} {i : Nat} {s : Bytes}

section

variable (h : ss[i]? = some s)
include h

theorem prevOffset_ofStrings :
    (ofStrings ss).prevOffset i = ((ss.map fun s => (s ++ [0]).length).take i).sum := by
  obtain ⟨hi, -⟩ := List.getElem?_eq_some_iff.1 h
  cases i with
  | zero => rfl
  | succ i =>
    rw [prevOffset, if_neg (Nat.succ_ne_zero i), ofStrings_eq, Nat.succ_sub_one,
      getD_endsFrom 0 (by rw [length_map]; omega), Nat.zero_add]

theorem sizeAt_ofStrings : (ofStrings ss).sizeAt i = s.length := by
  obtain ⟨hi, hs⟩ := List.getElem?_eq_some_iff.1 h
  have htake : (ss.map fun s => (s ++ [0]).length).take (i + 1)
      = (ss.map fun s => (s ++ [0]).length).take i ++ [(s ++ [0]).length] := by
    rw [take_add_one, getElem?_map, h]
    rfl
  rw [sizeAt, prevOffset_ofStrings h, ofStrings_eq]
  rw [getD_endsFrom 0 (by rwa [length_map]), htake, sum_append, sum_singleton,
    length_append, length_singleton]
  omega

theorem drop_chars_ofStrings :
    (ofStrings ss).chars.drop ((ofStrings ss).prevOffset i) = s ++ 0 :: (ss.drop (i + 1)).flatMap (· ++ [0]) := by
  obtain ⟨hi, hs⟩ := List.getElem?_eq_some_iff.1 h
  rw [prevOffset_ofStrings h, ofStrings_eq]
  rw [drop_flatMap, drop_eq_getElem_cons hi, hs, flatMap_cons, append_assoc]
  rfl

theorem stringAt_ofStrings : (ofStrings ss).stringAt i = s := by
  rw [stringAt, drop_chars_ofStrings h, sizeAt_ofStrings h, take_left]

theorem repeatedAt_ofStrings :
    (ofStrings ss).repeatedAt i = stringFromFirstByte s := by
  have hfirst : (ofStrings ss).chars.getD ((ofStrings ss).prevOffset i) 0 = s.headD 0 := by
    have hdrop := congrArg (·[0]?.getD 0) (drop_chars_ofStrings h)
    simp only [getElem?_drop, Nat.add_zero] at hdrop
    rw [getD_eq_getElem?_getD, hdrop]
    cases s <;> rfl
  rw [repeatedAt, sizeAt_ofStrings h, hfirst]
  rfl

end

end ColumnString

/-! ## The checks -/

namespace StringMinMaxIndex

open ColumnString

theorem ofPacks_eq (packs : List (List (Cell Bytes))) : ofPacks packs
    = ⟨packs.map fun column => (DM.addPack column).hasNull, packs.map fun column => (DM.addPack column).hasValue,
      ofStrings (packs.flatMap fun column => [(DM.addPack column).min, (DM.addPack column).max])⟩ := by
  induction packs using reverseRecOn with
  | nil => rfl
  | append_singleton packs column ih =>
    rw [ofPacks, foldl_append, ← ofPacks, ih, foldl_cons, foldl_nil, addPack, ofStrings,
      ofStrings, flatMap_append, foldl_append, map_append, map_append]
    rfl

variable {packs : List (List (Cell Bytes))} {packId : Nat} {column : List (Cell Bytes)}

theorem getElem?_bounds (h : packs[packId]? = some column) :
    (packs.flatMap fun column => [(DM.addPack column).min, (DM.addPack column).max])[packId * 2]?
        = some (DM.addPack column).min ∧
      (packs.flatMap fun column => [(DM.addPack column).min, (DM.addPack column).max])[packId * 2 + 1]?
        = some (DM.addPack column).max := by
  induction packs generalizing packId with
  | nil => simp at h
  | cons first packs ih =>
    cases packId with
    | zero =>
      obtain rfl : first = column := by simpa using h
      exact ⟨rfl, rfl⟩
    | succ i =>
      obtain ⟨hmin, hmax⟩ := ih (by simpa using h)
      rw [Nat.succ_mul]
      exact ⟨hmin, hmax⟩

/-- A check sees what was stored for the pack, as far as `seen` leaves it as it is. -/
theorem check_ofPacks {bound : ColumnString → Nat → Bytes} (seen : Bytes → Bytes)
    (hbound : ∀ {ss : List Bytes} {i : Nat} {s : Bytes}, ss[i]? = some s → bound (ofStrings ss) i = seen s)
    (rough : Option Bytes → Bytes → Bytes → RSResult) (v : Bytes) (h : packs[packId]? = some column) :
    check bound rough (ofPacks packs) packId (.string v)
      = if (DM.addPack column).hasNull then .some
        else if !(DM.addPack column).hasValue then .none
        else rough (some v) (seen (DM.addPack column).min) (seen (DM.addPack column).max) := by
  obtain ⟨hmin, hmax⟩ := getElem?_bounds h
  have hgetD : ∀ f : List (Cell Bytes) → Bool, (packs.map f).getD packId false = f column := by
    intro f
    rw [getD_eq_getElem?_getD, getElem?_map, h]
    rfl
  rw [check, ofPacks_eq]
  simp only [hgetD, hbound hmin, hbound hmax]
  simp [Field.asString]

end StringMinMaxIndex

theorem exists_null_of_hasNull {column : List (Cell Bytes)} (h : (addPack column).hasNull = true) :
    ∃ c ∈ liveCells column, c.isNull = true := by
  have hany : (column.any fun c => !c.delMark && c.isNull) = true := by
    unfold addPack at h
    cases hm : minmax column <;> simpa [hm] using h
  obtain ⟨c, hc, hcnull⟩ := any_eq_true.1 hany
  rw [Bool.and_eq_true, Bool.not_eq_true'] at hcnull
  exact ⟨c, mem_liveCells.2 ⟨hc, hcnull.1⟩, hcnull.2⟩

/-- The answer of a check is right about the values of a pack that are not delete-marked. -/
structure RSResult.RightAbout (res : RSResult) (column : List (Cell Bytes)) (holds : Bytes → Prop) : Prop where
  none : res = .none → ∀ c ∈ liveCells column, ¬ holds c.value
  all : res = .all → ∀ c ∈ liveCells column, holds c.value

/-- The repetitions that are seen in the place of the bounds of a pack mislead no comparison with `v`. -/
structure RepeatsSuffice (column : List (Cell Bytes)) (v : Bytes) : Prop where
  equal : (∃ c ∈ liveCells column, c.value = v) →
    stringFromFirstByte (addPack column).min ≤ v ∧ v ≤ stringFromFirstByte (addPack column).max
  allEqual : stringFromFirstByte (addPack column).min = v → stringFromFirstByte (addPack column).max = v →
    (addPack column).min = v ∧ (addPack column).max = v
  greater : stringFromFirstByte (addPack column).max ≤ v → (addPack column).max ≤ v
  allGreater : v < stringFromFirstByte (addPack column).min → v < stringFromFirstByte (addPack column).max →
    v < (addPack column).min

section Right

variable {column : List (Cell Bytes)} {mn mx mn' mx' v : Bytes}

section

variable (h : IsBounds (liveCells column) mn mx)
include h

theorem checkEqual_rightAbout_iff :
    (checkEqual (some v) mn' mx').RightAbout column (· = v) ↔
      ((∃ c ∈ liveCells column, c.value = v) → mn' ≤ v ∧ v ≤ mx') ∧
        (mn' = v → mx' = v → mn = v ∧ mx = v) := by
  obtain ⟨hle, hge, ⟨a, ha, hamn⟩, b, hb, hbmx⟩ := h
  constructor
  · rintro ⟨hnone, hall⟩
    refine ⟨?_, ?_⟩
    · rintro ⟨c, hc, hcv⟩
      by_contra hout
      refine hnone ?_ c hc hcv
      rw [checkEqual, if_neg (by rintro ⟨rfl, rfl⟩; exact hout ⟨le_rfl, le_rfl⟩), if_neg hout]
    · rintro rfl hmx
      have hres : checkEqual (some mn') mn' mx' = .all := by
        rw [checkEqual, if_pos ⟨hmx.symm, rfl⟩]
      exact ⟨hamn ▸ hall hres a ha, hbmx ▸ hall hres b hb⟩
  · rintro ⟨hin, heq⟩
    simp only [checkEqual]
    refine ⟨?_, ?_⟩
    · intro hres c hc hcv
      split_ifs at hres with hp hout
      exact hout (hin ⟨c, hc, hcv⟩)
    · intro hres c hc
      split_ifs at hres with hp
      obtain ⟨rfl, rfl⟩ := heq hp.2.symm (hp.1.symm.trans hp.2.symm)
      exact le_antisymm (hge c hc) (hle c hc)

theorem checkGreater_rightAbout_iff :
    (checkGreater (some v) mn' mx').RightAbout column (v < ·) ↔
      (mx' ≤ v → mx ≤ v) ∧ (v < mn' → v < mx' → v < mn) := by
  obtain ⟨hle, hge, ⟨a, ha, hamn⟩, b, hb, hbmx⟩ := h
  simp only [checkGreater]
  constructor
  · rintro ⟨hnone, hall⟩
    refine ⟨?_, ?_⟩
    · intro hmx
      exact hbmx ▸ not_lt.1 (hnone (if_pos hmx) b hb)
    · intro hmn hmx
      exact hamn ▸ hall (by rw [if_neg (not_le.2 hmx), if_pos hmn]) a ha
  · rintro ⟨hmax, hmin⟩
    refine ⟨?_, ?_⟩
    · intro hres c hc
      split_ifs at hres with hmx
      exact not_lt.2 ((hge c hc).trans (hmax hmx))
    · intro hres c hc
      split_ifs at hres with hmx hmn
      exact (hmin hmn (not_le.1 hmx)).trans_le (hle c hc)

theorem checkGreaterEqual_rightAbout :
    (checkGreaterEqual (some v) mn mx).RightAbout column (v ≤ ·) := by
  simp only [checkGreaterEqual]
  refine ⟨?_, ?_⟩
  · intro hres c hc
    split_ifs at hres with hgt
    exact not_le.2 ((h.ge c hc).trans_lt hgt)
  · intro hres c hc
    split_ifs at hres with hgt hmn
    exact hmn.trans (h.le c hc)

end

end Right

namespace StringMinMaxIndex

/-- The checks are right iff there is a null among the rows (the bounds are not looked at then), all rows are
delete-marked, or the repetitions of the bounds do not mislead; `checkGreaterEqual` always is. -/
theorem checks_rightAbout_iff (packs : List (List (Cell Bytes))) (packId : Nat) (column : List (Cell Bytes))
    (v : Bytes) (h : packs[packId]? = some column) :
    (((ofPacks packs).checkEqual packId (.string v)).RightAbout column (· = v) ∧
      ((ofPacks packs).checkGreater packId (.string v)).RightAbout column (v < ·) ∧
      ((ofPacks packs).checkGreaterEqual packId (.string v)).RightAbout column (v ≤ ·)) ↔
    (∃ c ∈ liveCells column, c.isNull) ∨ liveCells column = [] ∨ RepeatsSuffice column v := by
  rw [checkEqual, checkGreater, checkGreaterEqual,
    check_ofPacks stringFromFirstByte ColumnString.repeatedAt_ofStrings _ v h,
    check_ofPacks stringFromFirstByte ColumnString.repeatedAt_ofStrings _ v h,
    check_ofPacks id ColumnString.stringAt_ofStrings _ v h]
  have hdesc := addPack_describes column
  cases hnull : (DM.addPack column).hasNull with
  | true =>
    have hsome : ∀ holds : Bytes → Prop, RSResult.some.RightAbout column holds :=
      fun _ => ⟨fun h => (by cases h), fun h => (by cases h)⟩
    exact iff_of_true ⟨hsome _, hsome _, hsome _⟩ (.inl (exists_null_of_hasNull hnull))
  | false =>
    have hnulls : ¬ ∃ c ∈ liveCells column, c.isNull = true := by
      rintro ⟨c, hc, hcnull⟩
      exact absurd (hdesc.null hnull c hc) (by simp [hcnull])
    cases hvalue : (DM.addPack column).hasValue with
    | false =>
      have hempty := hdesc.empty hvalue
      have hright : ∀ (res : RSResult) (holds : Bytes → Prop), res.RightAbout column holds :=
        fun _ _ => ⟨fun _ c hc => (by simp [hempty] at hc), fun _ c hc => (by simp [hempty] at hc)⟩
      exact iff_of_true ⟨hright _ _, hright _ _, hright _ _⟩ (.inr (.inl hempty))
    | true =>
      have hbounds := hdesc.bounds hvalue
      obtain ⟨a, ha, -⟩ := hbounds.attained.1
      have hlive : ¬ liveCells column = [] := ne_nil_of_mem ha
      simp only [Bool.false_eq_true, if_false, Bool.not_true, hnulls, hlive, false_or, id]
      rw [checkEqual_rightAbout_iff hbounds, checkGreater_rightAbout_iff hbounds,
        and_iff_left (checkGreaterEqual_rightAbout hbounds), and_assoc]
      exact ⟨fun ⟨h₁, h₂, h₃, h₄⟩ => ⟨h₁, h₂, h₃, h₄⟩, fun ⟨h₁, h₂, h₃, h₄⟩ => ⟨h₁, h₂, h₃, h₄⟩⟩

/-- The string of one character with code 1 is its own repetition. -/
theorem checks_rightAbout_own_repeat :
    ((ofPacks [[⟨false, [1], false⟩]]).checkEqual 0 (.string [1])).RightAbout [⟨false, [1], false⟩] (· = [1]) ∧
      ((ofPacks [[⟨false, [1], false⟩]]).checkGreater 0 (.string [1])).RightAbout [⟨false, [1], false⟩] ([1] < ·) ∧
      ((ofPacks [[⟨false, [1], false⟩]]).checkGreaterEqual 0 (.string [1])).RightAbout [⟨false, [1], false⟩]
        ([1] ≤ ·) :=
  (checks_rightAbout_iff [[⟨false, [1], false⟩]] 0 [⟨false, [1], false⟩] [1] rfl).2
    (.inr (.inr ⟨fun _ => by decide, by decide, by decide, by decide⟩))

/-- A pack with the one value `b` is not searched for `b`: `checkEqual` sees the character with code 1
repeated 98 times. -/
theorem checkEqual_own_value_none :
    (ofPacks [[⟨false, [98], false⟩]]).checkEqual 0 (.string [98]) = .none ∧
      ¬ ((ofPacks [[⟨false, [98], false⟩]]).checkEqual 0 (.string [98])).RightAbout [⟨false, [98], false⟩]
        (· = [98]) := by
  have hres : (ofPacks [[⟨false, [98], false⟩]]).checkEqual 0 (.string [98]) = .none := by decide +kernel
  exact ⟨hres, fun h => h.none hres ⟨false, [98], false⟩ (by simp [liveCells]) rfl⟩

end StringMinMaxIndex

end TiFlash.DM
