import TiFlash.Interpreters.Proofs.JoinResultProofs

/-!
# When a join returns the result of SQL

The row filter is right for every kind of join. What can go wrong is the other condition: its column may be
constant, `applyNegatedNullMap` takes every byte but 1 as false, and `filter` takes bytes from 128 on as
negative. Keys are compared by their bytes, which SQL may take as equal when they differ.
-/

namespace TiFlash.Interpreters

open List

variable {w : Nat} {K V L : Type*} [DecidableEq K]

theorem flatMap_ite_singleton {α β : Type*} (p : α → Bool) (f : α → β) (as : List α) :
    (as.flatMap fun a => if p a then [f a] else []) = (as.filter p).map f := by
  induction as with
  | nil => rfl
  | cons a as ih =>
    rw [flatMap_cons, filter_cons, ih]
    by_cases h : p a <;> simp [h]

theorem flatMap_perm {α β : Type*} {f g : α → List β} (h : ∀ a, (f a).Perm (g a)) (as : List α) :
    (as.flatMap f).Perm (as.flatMap g) := by
  induction as with
  | nil => exact List.Perm.refl _
  | cons a as ih => exact (h a).append ih

theorem of_countP_eq {α : Type*} {p q : α → Bool} (hpq : ∀ a, p a → q a) {as : List α}
    (h : as.countP q = as.countP p) : ∀ a ∈ as, q a → p a := by
  induction as with
  | nil => exact fun a ha => by cases ha
  | cons b as ih =>
    have hle : as.countP p ≤ as.countP q := countP_mono_left fun a _ => hpq a
    intro a ha hq
    rw [countP_cons, countP_cons] at h
    rcases mem_cons.mp ha with rfl | ha
    · by_contra hp
      rw [if_pos hq, if_neg hp] at h
      omega
    · refine ih ?_ a ha hq
      have hb := hpq b
      split_ifs at h <;> first | omega | exact absurd (hb ‹_›) ‹_›

/-- Replacing columns by `NULL`s changes a list of rows, unless there was nothing to replace. -/
theorem nulled_perm_iff {α : Type*} {row : α → L} {old new : α → Cells w V}
    (hnew : ∀ a, new a = old a ∨ new a = nulls) (as : List α) :
    (as.map fun a => (row a, new a)).Perm (as.map fun a => (row a, old a)) ↔ ∀ a ∈ as, new a = old a := by
  classical
  constructor
  · intro hperm a ha
    have hcount := hperm.countP_eq fun x => decide (x.2 ≠ nulls)
    rw [countP_map, countP_map] at hcount
    have hsame := of_countP_eq (p := fun a => decide (new a ≠ nulls)) (q := fun a => decide (old a ≠ nulls))
      (fun b hb => by
        rcases hnew b with heq | hnull
        · simpa [heq] using hb
        · simp [hnull] at hb) hcount.symm a ha
    by_cases hold : old a = nulls
    · rcases hnew a with heq | hnull
      · exact heq
      · rw [hnull, hold]
    · have hne : new a ≠ nulls := by simpa using hsame (by simpa using hold)
      exact (hnew a).resolve_right hne
  · intro h
    rw [map_congr_left fun a ha => by rw [h a ha]]

theorem applyNegatedNullMap_eq_or (b : UInt8) (cells : Cells w V) :
    applyNegatedNullMap b cells = cells ∨ applyNegatedNullMap b cells = nulls := by
  unfold applyNegatedNullMap
  split_ifs
  · exact .inl rfl
  · exact .inr rfl

theorem xor_eq_zero_iff {b : UInt8} : 1 ^^^ b = 0 ↔ b = 1 := by
  constructor
  · intro h
    have h1 : b = 1 ^^^ (1 ^^^ b) := by rw [← UInt8.xor_assoc, UInt8.xor_self, UInt8.zero_xor]
    rw [h1, h]
    rfl
  · rintro rfl
    rfl

theorem applyNegatedNullMap_eq_iff (b : UInt8) (cells : Cells w V) :
    applyNegatedNullMap b cells = cells ↔ b = 1 ∨ cells = nulls := by
  unfold applyNegatedNullMap
  split_ifs with h
  · simp [xor_eq_zero_iff.mp h]
  · have hb : b ≠ 1 := fun hb => h (xor_eq_zero_iff.mpr hb)
    simp [hb, eq_comm]

section Result

variable {j : Join w V L} {rights : List (RightRow w K V)} {lefts : List (LeftRow K L)}

theorem joinRows_semi (hk : j.kind = .inner) (hs : j.originalStrictness = .any) :
    (joinRows j rights lefts).map (·.1)
      = (lefts.filter fun l => !(j.matchRows rights l).isEmpty).map (·.row) := by
  cases hc : j.otherCondition with
  | none =>
    rw [joinRows_any rights hc hs (by rw [hk]; decide)]
    unfold selected
    simp only [hk, if_true]
  | some condition =>
    rw [joinRows_groups hc (chunksKept_of_any hc hs), map_flatMap]
    simp only [keptGroup_semi rights _ hc hk hs]
    exact flatMap_ite_singleton _ _ _

theorem joinRows_anti (hk : j.kind = .anti) (hs : j.originalStrictness = .any) :
    (joinRows j rights lefts).map (·.1)
      = (lefts.filter fun l => (j.matchRows rights l).isEmpty).map (·.row) := by
  cases hc : j.otherCondition with
  | none =>
    rw [joinRows_any rights hc hs (by rw [hk]; decide)]
    unfold selected
    simp [hk]
  | some condition =>
    rw [joinRows_groups hc (chunksKept_of_any hc hs), map_flatMap]
    simp only [keptGroup_anti rights _ hc hk]
    exact flatMap_ite_singleton _ _ _

theorem chunksKept_of_none (hc : j.otherCondition = none) : j.ChunksKept rights lefts := by
  intro condition hcondition
  rw [hc] at hcondition
  cases hcondition

theorem joinRows_inner_iff (hk : j.kind = .inner) (hs : j.originalStrictness = .all) :
    (joinRows j rights lefts).Perm (lefts.flatMap fun l => (j.matchRows rights l).map (l.row, ·)) ↔
      j.ChunksKept rights lefts := by
  cases hc : j.otherCondition with
  | none =>
    rw [joinRows_all rights hc hs]
    exact iff_of_true (flatMap_perm (fun l => (group_inner rights l hc hk hs).map _) lefts)
      (chunksKept_of_none hc)
  | some condition =>
    have hspec := flatMap_perm (fun l => keptGroup_inner rights l hc hk hs) lefts
    constructor
    · exact fun hperm => chunksKept_of_length hc (hspec.trans hperm.symm).length_eq.le
    · intro hkept
      rw [joinRows_groups hc hkept]
      exact hspec

/-- The rows of the outer join, with the left row each one belongs to. -/
def outerPairs (j : Join w V L) (rights : List (RightRow w K V)) (lefts : List (LeftRow K L)) :
    List (LeftRow K L × Cells w V) :=
  lefts.flatMap fun l => (j.outerRows rights l).map (l, ·)

theorem outerPairs_map (row : L → Cells w V → Cells w V) :
    ((outerPairs j rights lefts).map fun x => (x.1.row, row x.1.row x.2))
      = lefts.flatMap fun l => (j.outerRows rights l).map fun cells => (l.row, row l.row cells) := by
  unfold outerPairs
  rw [map_flatMap]
  simp only [map_map, Function.comp_def]

theorem mem_outerPairs {l : LeftRow K L} {cells : Cells w V} :
    (l, cells) ∈ outerPairs j rights lefts ↔
      l ∈ lefts ∧ (cells ∈ j.matchRows rights l ∨ (j.matchRows rights l = [] ∧ cells = nulls)) := by
  unfold outerPairs Join.outerRows
  simp only [mem_flatMap, mem_map, Prod.mk.injEq]
  constructor
  · rintro ⟨l', hl, cells', hmem, rfl, rfl⟩
    refine ⟨hl, ?_⟩
    split_ifs at hmem with hempty
    · exact .inr ⟨isEmpty_iff.mp hempty, mem_singleton.mp hmem⟩
    · exact .inl hmem
  · rintro ⟨hl, hmem | ⟨hempty, rfl⟩⟩
    · refine ⟨l, hl, cells, ?_, rfl, rfl⟩
      rw [if_neg fun h => ne_nil_of_mem hmem (isEmpty_iff.mp h)]
      exact hmem
    · refine ⟨l, hl, nulls, ?_, rfl, rfl⟩
      rw [if_pos (isEmpty_iff.mpr hempty)]
      exact mem_singleton.mpr rfl

/-- No pair of the outer join is changed exactly when every matching pair has the byte 1. -/
theorem shown_eq_iff {condition : L → Cells w V → Option UInt8}
    (hc : j.otherCondition = some condition) (hk : j.kind = .left) :
    (∀ x ∈ outerPairs j rights lefts, shown j condition x.1.row x.2 = x.2) ↔ j.TrueIsOne rights lefts := by
  simp only [shown, if_pos hk, applyNegatedNullMap_eq_iff]
  constructor
  · intro h condition' hc' l hl r hr hmatch
    obtain rfl : condition = condition' := Option.some.inj (hc.symm.trans hc')
    have hmem : r.columns ∈ j.matchRows rights l :=
      mem_map_of_mem (mem_filter.mpr ⟨hr, decide_eq_true hmatch⟩)
    refine (h (l, r.columns) (mem_outerPairs.mpr ⟨hl, .inl hmem⟩)).imp_left fun hone => ?_
    unfold value at hone
    cases hv : condition l.row r.columns with
    | none => rw [hv] at hone; cases hone
    | some b => rw [hv] at hone; rw [show b = 1 from hone]
  · rintro h ⟨l, cells⟩ hx
    obtain ⟨hl, hmem | ⟨-, hnull⟩⟩ := mem_outerPairs.mp hx
    · obtain ⟨r, hr, rfl⟩ := mem_map.mp hmem
      obtain ⟨hr, hmatch⟩ := mem_filter.mp hr
      refine (h condition hc l hl r hr (of_decide_eq_true hmatch)).imp_left fun hone => ?_
      unfold value
      rw [hone]
      rfl
    · exact .inr hnull

theorem joinRows_outer_iff (hk : j.kind = .left) (hs : j.originalStrictness = .all) :
    (joinRows j rights lefts).Perm (lefts.flatMap fun l => (j.outerRows rights l).map (l.row, ·)) ↔
      j.ChunksKept rights lefts ∧ j.TrueIsOne rights lefts := by
  cases hc : j.otherCondition with
  | none =>
    rw [joinRows_all rights hc hs]
    refine iff_of_true (flatMap_perm (fun l => (group_outer rights l hc hk hs).map _) lefts)
      ⟨chunksKept_of_none hc, fun condition hcondition => ?_⟩
    rw [hc] at hcondition
    cases hcondition
  | some condition =>
    have hgroups : (lefts.flatMap fun l => keptGroup j condition rights l).Perm
        ((outerPairs j rights lefts).map fun x => (x.1.row, shown j condition x.1.row x.2)) := by
      rw [outerPairs_map]
      exact flatMap_perm (fun l => keptGroup_outer rights l hc hk hs) lefts
    have hspec : ((outerPairs j rights lefts).map fun x => (x.1.row, x.2))
        = lefts.flatMap fun l => (j.outerRows rights l).map (l.row, ·) :=
      outerPairs_map fun _ cells => cells
    have hnew : ∀ x : LeftRow K L × Cells w V,
        shown j condition x.1.row x.2 = x.2 ∨ shown j condition x.1.row x.2 = nulls := by
      intro x
      unfold shown
      rw [if_pos hk]
      exact applyNegatedNullMap_eq_or _ _
    rw [← hspec]
    constructor
    · intro hperm
      have hkept := chunksKept_of_length hc
        (hgroups.length_eq.trans (by rw [hperm.length_eq, length_map, length_map])).le
      rw [joinRows_groups hc hkept, hgroups.congr_left, nulled_perm_iff hnew, shown_eq_iff hc hk] at hperm
      exact ⟨hkept, hperm⟩
    · rintro ⟨hkept, hone⟩
      rw [joinRows_groups hc hkept, hgroups.congr_left, nulled_perm_iff hnew, shown_eq_iff hc hk]
      exact hone

theorem joinRows_isSqlResult_iff (hplanned : j.Planned) :
    j.IsSqlResult rights lefts (joinRows j rights lefts) ↔
      j.ChunksKept rights lefts ∧ (j.kind = .left → j.TrueIsOne rights lefts) := by
  have hany : j.originalStrictness = .any → j.ChunksKept rights lefts := fun hs => by
    cases hc : j.otherCondition with
    | none => exact chunksKept_of_none hc
    | some condition => exact chunksKept_of_any hc hs
  unfold Join.IsSqlResult
  rcases hplanned with hk | ⟨hk, hs⟩ | ⟨hk, hs⟩
  · cases hs : j.originalStrictness with
    | any => simp [hk, joinRows_semi hk hs, hany hs]
    | all =>
      simp only [hk, joinRows_inner_iff hk hs]
      simp
  · simp only [hk, hs, joinRows_outer_iff hk hs]
    simp
  · simp [hk, hs, joinRows_anti hk hs, hany hs]

theorem recordFails_eq_false_iff {α : Type*} {filterColumn : Bool} {form : ColumnForm} {rows : List α} :
    ¬ recordFails filterColumn form rows.length = true ↔ (filterColumn → form = .constNullable → rows = []) := by
  cases filterColumn <;> cases form <;> simp [recordFails]

theorem joinBlock_eq_ok_iff {out : List (L × Cells w V)} : joinBlock j rights lefts = .ok out ↔
    j.ColumnsRead rights lefts ∧ joinRows j rights lefts = out := by
  have hcond : ¬ (j.otherCondition.isSome ∧ j.conditionForm ≠ .full) ↔
      (j.otherCondition.isSome → j.conditionForm = .full) := by
    rw [not_and, not_not]
  unfold joinBlock
  constructor
  · intro h
    split_ifs at h with hright hleft hform
    exact ⟨⟨recordFails_eq_false_iff.mp hright, recordFails_eq_false_iff.mp hleft, hcond.mp hform⟩,
      Except.ok.inj h⟩
  · rintro ⟨⟨hright, hleft, hform⟩, rfl⟩
    rw [if_neg (recordFails_eq_false_iff.mpr hright), if_neg (recordFails_eq_false_iff.mpr hleft),
      if_neg (hcond.mpr hform)]

end Result

/-! ## Keys -/

section Keys

variable {K' : Type*} [DecidableEq K'] {sqlKey : K → K'} {j : Join w V L} {rights : List (RightRow w K V)}
  {lefts : List (LeftRow K L)}

omit [DecidableEq K] [DecidableEq K'] in
theorem candidate_mapKeys_iff (hkeys : KeysAgree sqlKey rights lefts) {l : LeftRow K L} (hl : l ∈ lefts)
    {r : RightRow w K V} (hr : r ∈ rights) :
    j.Candidate (l.mapKeys sqlKey) (r.mapKeys sqlKey) ↔ j.Candidate l r := by
  unfold Join.Candidate LeftRow.mapKeys RightRow.mapKeys
  simp only [forall_mem_map, Option.isSome_map]
  refine and_congr_right fun hsome => and_congr_right fun _ => and_congr_left fun _ => ?_
  exact ⟨hkeys l hl r hr hsome, congrArg _⟩

theorem matchRows_mapKeys (hkeys : KeysAgree sqlKey rights lefts) {l : LeftRow K L} (hl : l ∈ lefts) :
    j.matchRows (rights.map (·.mapKeys sqlKey)) (l.mapKeys sqlKey) = j.matchRows rights l := by
  unfold Join.matchRows
  rw [filter_map, map_map]
  refine congrArg (map _) (filter_congr fun r hr => decide_eq_decide.mpr ?_)
  exact and_congr_left fun _ => candidate_mapKeys_iff hkeys hl hr

theorem isSqlResult_mapKeys_iff (hkeys : KeysAgree sqlKey rights lefts) {out : List (L × Cells w V)} :
    j.IsSqlResult (rights.map (·.mapKeys sqlKey)) (lefts.map (·.mapKeys sqlKey)) out ↔
      j.IsSqlResult rights lefts out := by
  have hrows : ∀ l ∈ lefts, j.matchRows (rights.map (·.mapKeys sqlKey)) (l.mapKeys sqlKey)
      = j.matchRows rights l := fun l hl => matchRows_mapKeys hkeys hl
  have hflat : ∀ g : List (Cells w V) → List (Cells w V), ((lefts.map (·.mapKeys sqlKey)).flatMap fun l =>
      (g (j.matchRows (rights.map (·.mapKeys sqlKey)) l)).map (l.row, ·))
        = lefts.flatMap fun l => (g (j.matchRows rights l)).map (l.row, ·) := by
    intro g
    rw [flatMap_map]
    refine flatMap_congr fun l hl => ?_
    rw [hrows l hl]
    rfl
  have hfilter : ∀ p : List (Cells w V) → Bool, ((lefts.map (·.mapKeys sqlKey)).filter fun l =>
      p (j.matchRows (rights.map (·.mapKeys sqlKey)) l)).map (·.row)
        = (lefts.filter fun l => p (j.matchRows rights l)).map (·.row) := by
    intro p
    rw [filter_map, map_map]
    refine congrArg (map _) (filter_congr fun l hl => ?_)
    rw [Function.comp_apply, hrows l hl]
  have hall := hfilter fun _ => true
  rw [filter_true, filter_true] at hall
  unfold Join.IsSqlResult Join.outerRows
  cases j.kind with
  | inner => cases j.originalStrictness <;> simp only [hflat fun rows => rows, hfilter fun rows => !rows.isEmpty]
  | left =>
    cases j.originalStrictness <;>
      simp only [hall, hflat fun rows => if rows.isEmpty then [nulls] else rows]
  | anti => simp only [hfilter fun rows => rows.isEmpty]

end Keys

/-- `t1 JOIN t2 ON t1.a = t2.a AND ifNull(t2.flag, 0)`, where `flag` is the one column `t2` adds. -/
def flagJoin (kind : Kind) (form : ColumnForm) : Join 1 UInt8 Nat :=
  ⟨kind, .all, false, false, some fun _ cells => some ((cells (Fin.last 0)).getD 0), fun _ => none, .full, .full, form⟩

/-- The left row `a = 1` -/
def keyedLeft : LeftRow Nat Nat := ⟨[some 1], none, 7⟩

/-- The right row `a = 1` with a flag -/
def keyedRight (flag : UInt8) : RightRow 1 Nat UInt8 := ⟨[some 1], none, fun _ => some flag⟩

/-- `t1 JOIN t2 ON t1.a = t2.a` -/
def plainJoin : Join 1 UInt8 Nat :=
  ⟨.inner, .all, false, false, none, fun _ => none, .full, .full, .full⟩

/-- A `Float64` by its bits: those of `-0.0` stand for zero as well. -/
def floatKey (bits : Nat) : Nat := if bits = 2 ^ 63 then 0 else bits

end TiFlash.Interpreters
