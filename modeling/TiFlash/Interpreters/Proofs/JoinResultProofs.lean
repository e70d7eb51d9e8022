import TiFlash.Interpreters.Proofs.JoinProofs

/-!
# The result of a join for one left row

With an other condition the row filter keeps, of the candidates of a left row, what the kind of the
join asks for; without one the probe alone decides.
-/

namespace TiFlash.Interpreters

open TiFlash.Lib List

variable {w : Nat} {K V L : Type*} [DecidableEq K]

section Groups

variable (j : Join w V L) (rights : List (RightRow w K V)) (l : LeftRow K L)

/-! ## The group of one left row -/

/-- A group holds the candidates; without any, a placeholder unless the join is an inner one. -/
theorem group_cases (hs : j.strictness = .all) :
    ((find j (buildMap j rights) l).isSome ∧ candidates j rights l ≠ [] ∧
        (group j rights l).Perm (candidates j rights l)) ∨
      (find j (buildMap j rights) l = none ∧ candidates j rights l = [] ∧
        group j rights l = if j.kind = .inner then [] else [j.placeholder]) := by
  have hfind := find_holds j rights l
  unfold group
  cases hf : find j (buildMap j rights) l with
  | none =>
    rw [hf] at hfind
    refine .inr ⟨rfl, hfind, ?_⟩
    cases hk : j.kind <;> simp [addedOf, hs, hk]
  | some it =>
    rw [hf] at hfind
    refine .inl ⟨rfl, ne_nil_of_mem hfind.1, ?_⟩
    have hadded : addedOf j (some it) = it.toList := by
      cases hk : j.kind <;> simp [addedOf, hs, hk]
    rw [hadded]
    exact hfind.2 hs

theorem matchRows_perm (hs : j.strictness = .all) (hkind : j.kind = .inner) :
    ((group j rights l).filter (j.conditionTrue l.row)).Perm (j.matchRows rights l) := by
  rw [matchRows_eq]
  refine List.Perm.filter _ ?_
  rcases group_cases j rights l hs with ⟨-, -, hperm⟩ | ⟨-, hnone, hgroup⟩
  · exact hperm
  · rw [hgroup, if_pos hkind, hnone]

end Groups

/-! ## With an other condition -/

section Condition

variable {j : Join w V L} {condition : L → Cells w V → Option UInt8}

section

variable (hc : j.otherCondition = some condition)
include hc

theorem strictness_of_condition : j.strictness = .all := by
  simp [Join.strictness, hc]

theorem conditionTrue_eq (l : L) :
    j.conditionTrue l = fun cells => value condition l cells != 0 := by
  funext cells
  unfold Join.conditionTrue
  rw [hc]
  exact isTrue_eq_value condition l cells

end

/-- The right columns `handleOtherConditions` shows for a row of the block. -/
def shown (j : Join w V L) (condition : L → Cells w V → Option UInt8) (l : L) (cells : Cells w V) :
    Cells w V :=
  if j.kind = .left then applyNegatedNullMap (value condition l cells) cells else cells

/-- The filter for the candidates of a left row -/
def groupFilter (j : Join w V L) (condition : L → Cells w V → Option UInt8)
    (rights : List (RightRow w K V)) (l : LeftRow K L) : List UInt8 :=
  if j.kind = .inner ∧ j.originalStrictness = .all then (group j rights l).map (value condition l.row)
  else rowFilterGroup j (antiByte j rights l) ((group j rights l).map (value condition l.row))

/-- The candidates of a left row that their bytes keep -/
def keptGroup (j : Join w V L) (condition : L → Cells w V → Option UInt8)
    (rights : List (RightRow w K V)) (l : LeftRow K L) : List (L × Cells w V) :=
  keep (groupFilter j condition rights l)
    ((group j rights l).map fun cells => (l.row, shown j condition l.row cells))

theorem groupFilter_length (rights : List (RightRow w K V)) (l : LeftRow K L) :
    (groupFilter j condition rights l).length = (group j rights l).length := by
  unfold groupFilter
  split_ifs
  · exact length_map ..
  · rw [rowFilterGroup_length, length_map]

omit [DecidableEq K] in
theorem block_values (condition : L → Cells w V → Option UInt8) (g : LeftRow K L → List (Cells w V))
    (lefts : List (LeftRow K L)) :
    (lefts.flatMap fun l => (g l).map (l.row, ·)).map (fun x => value condition x.1 x.2)
      = lefts.flatMap fun l => (g l).map (value condition l.row) := by
  rw [map_flatMap]
  simp only [map_map, Function.comp_def]

variable {rights : List (RightRow w K V)} {lefts : List (LeftRow K L)}

theorem length_flatMap_groupFilter : (lefts.flatMap (groupFilter j condition rights)).length
    = (lefts.flatMap fun l => (group j rights l).map fun cells => (l.row, shown j condition l.row cells)).length := by
  simp only [length_flatMap, groupFilter_length, length_map]

theorem flatMap_keptGroup : (lefts.flatMap fun l => keptGroup j condition rights l)
    = keep (lefts.flatMap (groupFilter j condition rights))
      (lefts.flatMap fun l => (group j rights l).map fun cells => (l.row, shown j condition l.row cells)) :=
  (keep_flatMap _ _ _ fun l _ => by rw [groupFilter_length, length_map]).symm

section

variable (hc : j.otherCondition = some condition)
include hc

theorem conditionFilter_eq :
    conditionFilter j condition (probe j (buildMap j rights) lefts).filter
        (probe j (buildMap j rights) lefts).offsetsToReplicate
        (expandedBlock j (probe j (buildMap j rights) lefts) lefts)
      = lefts.flatMap (groupFilter j condition rights) := by
  have hall := strictness_of_condition hc
  have hcut : cutAt 0 (probe j (buildMap j rights) lefts).offsetsToReplicate
      (lefts.flatMap fun l => (group j rights l).map (value condition l.row))
        = lefts.map fun l => (group j rights l).map (value condition l.row) := by
    have hcuts := cutAt_endsFrom 0 (fun l => (group j rights l).map (value condition l.row)) lefts
    simp only [length_map] at hcuts
    rw [(probe_probed j (buildMap j rights) lefts).offsets hall]
    exact hcuts
  unfold conditionFilter groupFilter
  simp only [block_eq j rights hall, block_values]
  split_ifs
  · rfl
  · rw [hcut, rowFilter_eq j rights hall]

theorem joinRows_eq_filterColumn : joinRows j rights lefts
    = filterColumn (lefts.flatMap (groupFilter j condition rights))
      (lefts.flatMap fun l => (group j rights l).map fun cells => (l.row, shown j condition l.row cells)) := by
  unfold joinRows handleOtherConditions
  simp only [hc]
  rw [conditionFilter_eq hc, block_eq j rights (strictness_of_condition hc), block_values]
  by_cases hleft : j.kind = .left
  · rw [if_pos hleft, zipWith_flatMap _ _ _ _ fun l _ => by simp]
    simp only [zipWith_map, zipWith_self, shown, if_pos hleft]
  · simp only [shown, if_neg hleft]

theorem chunksKept_iff : j.ChunksKept rights lefts ↔
    Join.keptChunks ((lefts.flatMap (groupFilter j condition rights)).length / 16)
      (lefts.flatMap (groupFilter j condition rights)) = true := by
  rw [← conditionFilter_eq hc]
  constructor
  · exact fun h => h condition hc
  · intro h condition' hc'
    obtain rfl : condition = condition' := Option.some.inj (hc.symm.trans hc')
    exact h

theorem joinRows_groups (h : j.ChunksKept rights lefts) :
    joinRows j rights lefts = lefts.flatMap fun l => keptGroup j condition rights l := by
  rw [joinRows_eq_filterColumn hc, flatMap_keptGroup]
  exact filterColumn_eq_keep ((chunksKept_iff hc).mp h) length_flatMap_groupFilter

/-- A chunk that is dropped is missing in the result. -/
theorem chunksKept_of_length
    (h : (lefts.flatMap fun l => keptGroup j condition rights l).length ≤ (joinRows j rights lefts).length) :
    j.ChunksKept rights lefts := by
  rw [joinRows_eq_filterColumn hc, flatMap_keptGroup] at h
  by_contra hnot
  rw [chunksKept_iff hc, Bool.not_eq_true] at hnot
  exact absurd h (not_le.mpr (filterColumn_length_lt hnot length_flatMap_groupFilter))

theorem chunksKept_of_any (hs : j.originalStrictness = .any) : j.ChunksKept rights lefts := by
  refine (chunksKept_iff hc).mpr (keptChunks_of_lt _ fun b hb => ?_)
  obtain ⟨l, -, hb⟩ := mem_flatMap.mp hb
  unfold groupFilter at hb
  rw [if_neg (by rw [hs]; simp)] at hb
  exact rowFilterGroup_lt j hs _ _ b hb

end

/-! ## One left row of a semi join, an anti join and an outer join -/

variable (rights) (l : LeftRow K L)

section

variable (hc : j.otherCondition = some condition)
include hc

theorem matchRows_isEmpty (hfound : (group j rights l).Perm (candidates j rights l)) :
    (j.matchRows rights l).isEmpty
      = !((group j rights l).map (value condition l.row)).any (· != 0) := by
  rw [matchRows_eq, conditionTrue_eq hc, Bool.eq_iff_iff, List.isEmpty_iff, Bool.not_eq_true',
    List.any_eq_false, List.filter_eq_nil_iff]
  simp [hfound.mem_iff]

theorem keptGroup_inner (hk : j.kind = .inner) (hs : j.originalStrictness = .all) :
    (keptGroup j condition rights l).Perm ((j.matchRows rights l).map (l.row, ·)) := by
  have hkept : keptGroup j condition rights l
      = ((group j rights l).filter (j.conditionTrue l.row)).map (l.row, ·) := by
    unfold keptGroup groupFilter shown
    rw [if_pos ⟨hk, hs⟩, conditionTrue_eq hc]
    simp only [hk, reduceCtorEq, if_false]
    exact keep_map ..
  rw [hkept]
  exact (matchRows_perm j rights l (strictness_of_condition hc) hk).map _

theorem keptGroup_semi (hk : j.kind = .inner) (hs : j.originalStrictness = .any) :
    (keptGroup j condition rights l).map (·.1)
      = if !(j.matchRows rights l).isEmpty then [l.row] else [] := by
  have hperm := matchRows_perm j rights l (strictness_of_condition hc) hk
  rw [conditionTrue_eq hc] at hperm
  have hkept : keptGroup j condition rights l
      = (((group j rights l).filter fun cells => value condition l.row cells != 0).take 1).map
        fun cells => (l.row, shown j condition l.row cells) := by
    unfold keptGroup groupFilter rowFilterGroup keptRows
    simp only [hk, hs, reduceCtorEq, and_false, if_false]
    exact keep_keepFirst _ _ _
  rw [hkept, map_map]
  cases hf : (group j rights l).filter fun cells => value condition l.row cells != 0 with
  | nil =>
    rw [hf] at hperm
    rw [hperm.symm.eq_nil]
    rfl
  | cons cells rest =>
    rw [hf] at hperm
    have hne : j.matchRows rights l ≠ [] := fun hnil => by
      rw [hnil] at hperm
      cases hperm.eq_nil
    simp [hne]

theorem keptGroup_anti (hk : j.kind = .anti) :
    (keptGroup j condition rights l).map (·.1)
      = if (j.matchRows rights l).isEmpty then [l.row] else [] := by
  have hall := strictness_of_condition hc
  unfold keptGroup groupFilter rowFilterGroup antiByte
  simp only [hk, reduceCtorEq, false_and, if_false]
  rcases group_cases j rights l hall with ⟨hsome, hne, hperm⟩ | ⟨hnone, hcand, hgroup⟩
  · have hbyte : (flagOf j (find j (buildMap j rights) l)).headD 0 = 0 := by
      simp [flagOf, hall, hk, hsome]
    rw [hbyte, if_neg (by decide), matchRows_isEmpty rights l hc hperm, keptRows_any]
    by_cases hany : ((group j rights l).map (value condition l.row)).any (· != 0) = true
    · rw [if_pos hany, hany, keep_eq_nil (by simp)]
      rfl
    · have hzero : ∀ b ∈ keptRows j ((group j rights l).map (value condition l.row)), b = 0 := by
        rw [← keptRows_any j, any_eq_true] at hany
        intro b hb
        by_contra hb0
        exact hany ⟨b, hb, by simpa using hb0⟩
      rw [if_neg hany, keep_setStart hzero (by rw [keptRows_length, length_map, length_map])]
      have hgroup : group j rights l ≠ [] := fun hnil => hne (by rw [hnil] at hperm; exact hperm.symm.eq_nil)
      obtain ⟨cells, rest, hcons⟩ := exists_cons_of_ne_nil hgroup
      rw [Bool.not_eq_true] at hany
      rw [hany, hcons]
      rfl
  · have hbyte : (flagOf j (find j (buildMap j rights) l)).headD 0 = 1 := by
      simp [flagOf, hall, hk, hnone]
    rw [hbyte, if_pos (by decide), hgroup, if_neg (by rw [hk]; decide), matchRows_eq, hcand]
    cases hs : j.originalStrictness <;> simp [keptRows, hs, keepFirst, setStart]

end

theorem applyNegatedNullMap_nulls (b : UInt8) : applyNegatedNullMap b (nulls : Cells w V) = nulls := by
  unfold applyNegatedNullMap
  split_ifs <;> rfl

theorem keptGroup_outer (hc : j.otherCondition = some condition) (hk : j.kind = .left)
    (hs : j.originalStrictness = .all) :
    (keptGroup j condition rights l).Perm
      ((j.outerRows rights l).map fun cells => (l.row, shown j condition l.row cells)) := by
  have hall := strictness_of_condition hc
  have hshown : shown j condition l.row nulls = nulls := by
    unfold shown
    rw [if_pos hk, applyNegatedNullMap_nulls]
  unfold keptGroup groupFilter rowFilterGroup keptRows Join.outerRows
  simp only [hk, hs, reduceCtorEq, false_and, if_false]
  rcases group_cases j rights l hall with ⟨-, hne, hperm⟩ | ⟨-, hcand, hgroup⟩
  · rw [matchRows_isEmpty rights l hc hperm]
    by_cases hany : ((group j rights l).map (value condition l.row)).any (· != 0) = true
    · rw [if_pos hany, hany, keep_map, matchRows_eq, conditionTrue_eq hc]
      exact (hperm.filter _).map _
    · have hzero : ∀ b ∈ (group j rights l).map (value condition l.row), b = 0 := by
        rw [any_eq_true] at hany
        intro b hb
        by_contra hb0
        exact hany ⟨b, hb, by simpa using hb0⟩
      rw [if_neg hany, keep_setStart hzero (by rw [length_map, length_map])]
      have hgroup : group j rights l ≠ [] := fun hnil => hne (by rw [hnil] at hperm; exact hperm.symm.eq_nil)
      obtain ⟨cells, rest, hcons⟩ := exists_cons_of_ne_nil hgroup
      have hcells : value condition l.row cells = 0 :=
        hzero _ (mem_map_of_mem (by rw [hcons]; exact mem_cons_self))
      -- the row that stands for the unmatched left row has a false condition, so its columns are NULL
      have hfirst : shown j condition l.row cells = nulls := by
        unfold shown applyNegatedNullMap
        rw [if_pos hk, hcells, if_neg (by decide)]
      rw [Bool.not_eq_true] at hany
      rw [hany, hcons]
      simp [hfirst, hshown]
  · have hone : group j rights l = [nulls] := by
      rw [hgroup, if_neg (by rw [hk]; decide), Join.placeholder, if_pos hk]
    rw [hone, matchRows_eq, hcand]
    by_cases hv : value condition l.row nulls = 0 <;> simp [hv, hshown, setStart]

end Condition

/-! ## Without an other condition -/

section Plain

variable {j : Join w V L} (rights : List (RightRow w K V)) (l : LeftRow K L)

section

variable (hc : j.otherCondition = none)
include hc

theorem strictness_of_none : j.strictness = j.originalStrictness := by
  simp [Join.strictness, hc]

theorem matchRows_of_none :
    j.matchRows rights l = candidates j rights l := by
  rw [matchRows_eq]
  refine filter_eq_self.mpr fun cells _ => ?_
  unfold Join.conditionTrue
  rw [hc]

theorem group_inner (hk : j.kind = .inner) (hs : j.originalStrictness = .all) :
    (group j rights l).Perm (j.matchRows rights l) := by
  rw [matchRows_of_none rights l hc]
  rcases group_cases j rights l ((strictness_of_none hc).trans hs) with ⟨-, -, hperm⟩ | ⟨-, hnone, hgroup⟩
  · exact hperm
  · rw [hgroup, if_pos hk, hnone]

theorem group_outer (hk : j.kind = .left) (hs : j.originalStrictness = .all) :
    (group j rights l).Perm (j.outerRows rights l) := by
  unfold Join.outerRows
  rw [matchRows_of_none rights l hc]
  rcases group_cases j rights l ((strictness_of_none hc).trans hs) with ⟨-, hne, hperm⟩ | ⟨-, hnone, hgroup⟩
  · rw [if_neg (by rwa [List.isEmpty_iff])]
    exact hperm
  · rw [hnone, hgroup, if_neg (by rw [hk]; decide), Join.placeholder, if_pos hk]
    rfl

theorem joinRows_all (hs : j.originalStrictness = .all) (lefts : List (LeftRow K L)) :
    joinRows j rights lefts = lefts.flatMap fun l => (group j rights l).map (l.row, ·) := by
  unfold joinRows
  simp only [hc]
  exact block_eq j rights ((strictness_of_none hc).trans hs) lefts

end

/-- A semi join keeps a left row that was found, an anti join one that was not. -/
def selected (j : Join w V L) (rights : List (RightRow w K V)) (l : LeftRow K L) : Bool :=
  if j.kind = .inner then !(j.matchRows rights l).isEmpty else (j.matchRows rights l).isEmpty

section

variable (hc : j.otherCondition = none)
include hc

theorem find_isSome :
    (find j (buildMap j rights) l).isSome = !(j.matchRows rights l).isEmpty := by
  rw [matchRows_of_none rights l hc, Bool.eq_iff_iff, (find_holds j rights l).isSome_iff]
  simp

theorem flagOf_selected (hs : j.originalStrictness = .any) (hk : j.kind ≠ .left) :
    flagOf j (find j (buildMap j rights) l) = [if selected j rights l then 1 else 0] := by
  have hfound := find_isSome rights l hc
  unfold selected flagOf
  rw [strictness_of_none hc, hs]
  cases hkind : j.kind with
  | left => exact absurd hkind hk
  | inner => simp [hfound]
  | anti => cases hm : (j.matchRows rights l).isEmpty <;> simp [hfound, hm]

theorem addedOf_selected (hs : j.originalStrictness = .any) (hk : j.kind ≠ .left) :
    (addedOf j (find j (buildMap j rights) l)).length = if selected j rights l then 1 else 0 := by
  have hfound := find_isSome rights l hc
  have hstrict := (strictness_of_none hc).trans hs
  unfold selected
  rw [show (j.matchRows rights l).isEmpty = !(find j (buildMap j rights) l).isSome by simp [hfound]]
  cases hkind : j.kind with
  | left => exact absurd hkind hk
  | inner | anti => cases hf : find j (buildMap j rights) l <;> simp [addedOf, hstrict, hkind]

end

theorem sum_ite_eq_length_filter {α : Type*} (p : α → Bool) (as : List α) :
    (as.map fun a => if p a then 1 else 0).sum = (as.filter p).length := by
  induction as with
  | nil => rfl
  | cons a as ih =>
    rw [map_cons, sum_cons, filter_cons, ih]
    by_cases h : p a
    · rw [if_pos h, if_pos h, length_cons, Nat.add_comm]
    · rw [if_neg h, if_neg h, Nat.zero_add]

theorem joinRows_any (hc : j.otherCondition = none) (hs : j.originalStrictness = .any)
    (hk : j.kind ≠ .left) (lefts : List (LeftRow K L)) :
    (joinRows j rights lefts).map (·.1) = (lefts.filter (selected j rights)).map (·.row) := by
  have hp := probe_probed j (buildMap j rights) lefts
  have hfilter : (probe j (buildMap j rights) lefts).filter
      = lefts.map fun l => if selected j rights l then 1 else 0 := by
    rw [hp.filter, map_eq_flatMap]
    simp only [flagOf_selected rights _ hc hs hk]
  have hleft : leftColumns j (probe j (buildMap j rights) lefts) lefts
      = (lefts.filter (selected j rights)).map (·.row) := by
    have hcolumns : leftColumns j (probe j (buildMap j rights) lefts) lefts
        = filterColumn (probe j (buildMap j rights) lefts).filter (lefts.map (·.row)) := by
      unfold leftColumns
      rw [strictness_of_none hc, hs]
      cases hkind : j.kind with
      | left => exact absurd hkind hk
      | inner | anti => rfl
    rw [hcolumns, hfilter, filterColumn_eq_keep (keptChunks_of_lt _ ?_) (by simp), keep_map]
    · congr 1
      refine filter_congr fun l _ => ?_
      cases selected j rights l <;> rfl
    · intro b hb
      obtain ⟨l, -, rfl⟩ := mem_map.mp hb
      split_ifs <;> decide
  have hlen : (probe j (buildMap j rights) lefts).addedColumns.length
      = (lefts.filter (selected j rights)).length := by
    rw [hp.added, length_flatMap]
    simp only [addedOf_selected rights _ hc hs hk]
    exact sum_ite_eq_length_filter (selected j rights) lefts
  unfold joinRows
  simp only [hc]
  rw [expandedBlock, hleft]
  exact map_fst_zip (by rw [length_map, hlen])

end Plain

end TiFlash.Interpreters
