import TiFlash.DM.ShouldPlace
import TiFlash.DM.Proofs.PlaceInsertProofs
import TiFlash.DM.Proofs.RowKeyRangeUtilsProofs
import TiFlash.DM.Proofs.VersionFilterProofs

/-!
# Proofs: a read that does not place the delta

The rows that are not placed are out of the ranges of the read or too new for it. A row that one of them
replaces has its handle and version, so the visible rows are the same with and without them, and the version
filter depends on these only.
-/

namespace TiFlash.DM

open TiFlash.Lib List

variable {c : Bool} {D τ : Type}

/-! ## The rows that are not placed -/

theorem findPack_spec (packs : List (SnapshotPack c D)) (offset : Nat) :
    let start := findPack (packs.map fun p => p.rows.length) offset
    ((packs.drop start.1).flatMap SnapshotPack.rows).drop start.2
        = (packs.flatMap SnapshotPack.rows).drop offset ∧
      ∀ p ∈ (packs.drop start.1).head?, start.2 ≤ p.rows.length := by
  induction packs generalizing offset with
  | nil => simp [findPack]
  | cons p packs ih =>
    by_cases hlt : offset < p.rows.length
    · simp [findPack, hlt, hlt.le]
    · obtain ⟨hrows, hhead⟩ := ih (offset - p.rows.length)
      simp only [findPack, map_cons, hlt, if_false, drop_succ_cons, flatMap_cons]
      refine ⟨?_, hhead⟩
      rw [drop_append, drop_eq_nil_of_le (not_lt.1 hlt), nil_append]
      exact hrows

theorem anyRelevant_eq_false {range : RowKeyRange c} {maxVersion : Nat} {packs : List (SnapshotPack c D)}
    {start : Nat} (h : anyRelevant range maxVersion packs start = .ok false)
    (hstart : ∀ p ∈ packs.head?, start ≤ p.rows.length) :
    ∀ r ∈ (packs.flatMap SnapshotPack.rows).drop start,
      ¬ (r.version ≤ maxVersion ∧ range.check r.handle = true) := by
  induction packs generalizing start with
  | nil => simp
  | cons p packs ih =>
    cases p with
    | deleteRange _ => cases h
    | block rows =>
      have hle : start ≤ rows.length := hstart _ rfl
      rw [anyRelevant] at h
      split_ifs at h with hany
      · cases h
      · intro r hr
        rw [flatMap_cons, SnapshotPack.rows, drop_append_of_le_length hle] at hr
        rcases mem_append.1 hr with hr | hr
        · intro hvis
          exact hany (any_eq_true.2 ⟨r, hr, by simpa using hvis⟩)
        · exact ih h (fun _ _ => Nat.zero_le _) r hr

/-- When `shouldPlace` returns false, no row that is not placed concerns the read. -/
theorem shouldPlace_eq_false {snap : DeltaSnapshot c D} {placedRows placedDeletes limitRows maxVersion : Nat}
    {segmentRange relevantRange : RowKeyRange c}
    (h : snap.shouldPlace placedRows placedDeletes limitRows segmentRange relevantRange maxVersion = .ok false) :
    ∀ r ∈ snap.valueSpace.drop placedRows,
      ¬ (r.version ≤ maxVersion ∧ relevantRange.check r.handle = true) := by
  unfold DeltaSnapshot.shouldPlace at h
  split_ifs at h with hplaced hmust
  · rw [drop_eq_nil_of_le hplaced.1]
    simp
  · cases h
  · obtain ⟨hrows, hhead⟩ := findPack_spec snap.packs placedRows
    have hall := anyRelevant_eq_false h hhead
    rwa [hrows] at hall

/-! ## The range of a read -/

namespace RowKeyRange

/-- A range starts before "+infinity", or every range that starts behind it is empty. -/
def StartsCovered (ranges : List (RowKeyRange c)) : Prop :=
  (∃ r ∈ ranges, r.start.value < intHandleMaxKeyValue) ∨
    ∀ r ∈ ranges, r.start.AtMostInf ∨ ∀ k, r.check k = false

theorem value_start_widen (a r : RowKeyRange c) :
    (a.widen r).start.value = min a.start.value r.start.value := by
  rw [widen, apply_ite RowKeyValue.value, min_def_lt]
  congr

theorem value_stop_widen (a r : RowKeyRange c) : (a.widen r).stop.value = max a.stop.value r.stop.value := by
  rw [widen, apply_ite RowKeyValue.value, max_def']

theorem foldl_widen_iff (ranges : List (RowKeyRange c)) (a : RowKeyRange c) (v : Bytes) :
    (v ≤ (ranges.foldl widen a).start.value ↔ v ≤ a.start.value ∧ ∀ r ∈ ranges, v ≤ r.start.value) ∧
    ((ranges.foldl widen a).stop.value ≤ v ↔ a.stop.value ≤ v ∧ ∀ r ∈ ranges, r.stop.value ≤ v) := by
  induction ranges generalizing a with
  | nil => simp
  | cons r ranges ih =>
    rw [foldl_cons, (ih _).1, (ih _).2, value_start_widen, value_stop_widen, le_min_iff, max_le_iff,
      forall_mem_cons, forall_mem_cons, and_assoc, and_assoc]
    exact ⟨Iff.rfl, Iff.rfl⟩

/-- The union has the keys of all ranges exactly if the starts are covered. -/
theorem check_mergeRanges_iff {ranges : List (RowKeyRange c)} (hstops : ∀ r ∈ ranges, r.stop.AtMostInf) (n : Nat) :
    (∀ r ∈ ranges, ∀ k, r.check k = true → (mergeRanges ranges n).check k = true) ↔ StartsCovered ranges := by
  have hiff := foldl_widen_iff ranges (newNone c n)
  obtain ⟨-, hstart⟩ := (hiff (mergeRanges ranges n).start.value).1.1 le_rfl
  obtain ⟨-, hstop⟩ := (hiff (mergeRanges ranges n).stop.value).2.1 le_rfl
  constructor
  · intro hunion
    by_contra hcovered
    obtain ⟨hbehind, r, hr, hinf, k, hk⟩ : (∀ r ∈ ranges, intHandleMaxKeyValue ≤ r.start.value) ∧
        ∃ r ∈ ranges, ¬ r.start.AtMostInf ∧ ∃ k, r.check k = true := by
      simpa [StartsCovered] using hcovered
    cases c with
    | true => exact hinf (by cases r.start; trivial)
    | false =>
      -- the union starts at "+infinity", behind the largest handle
      have hvalue : (mergeRanges ranges n).start.value = intHandleMaxKeyValue :=
        le_antisymm ((hiff _).1.1 le_rfl).1 ((hiff _).1.2 ⟨le_rfl, hbehind⟩)
      have hmax : (mergeRanges ranges n).start = .intHandleMaxKey := RowKeyValue.value_injective hvalue
      have hle := ((check_iff _ k).1 (hunion r hr k hk)).1
      have hpos : RowKeyValue.intHandleMaxKey.pos = intHandleMaxKeyValue := (canonical_newAll false n).stop
      rw [hmax, hpos] at hle
      cases k with
      | int v => exact absurd hle (not_le.2 (encodeInt64_lt_intHandleMaxKeyValue v))
  · intro hcovered r hr k hk
    have hatMost : (mergeRanges ranges n).stop.AtMostInf := by
      cases c with
      | true => cases (mergeRanges ranges n).stop; trivial
      | false =>
        have hvalue : ∀ v : RowKeyValue false, v.AtMostInf ↔ v.value ≤ intHandleMaxKeyValue := by
          rintro ⟨⟩
          rfl
        exact (hvalue _).2 ((hiff _).2.2 ⟨(encodeInt64_lt_intHandleMaxKeyValue _).le,
          fun r hr => (hvalue _).1 (hstops r hr)⟩)
    rw [check_iff] at hk ⊢
    refine ⟨le_trans ?_ hk.1, hk.2.trans_le (hatMost.pos_le_pos (hstop r hr))⟩
    rcases hcovered with ⟨r', hr', hlt⟩ | hcovered
    · exact RowKeyValue.pos_le_pos_of_ne (hstart r hr) fun h => absurd h ((hstart r' hr').trans_lt hlt).ne
    · rcases hcovered r hr with hinf | hempty
      · exact hinf.pos_le_pos (hstart r hr)
      · exact absurd ((check_iff r k).2 hk) (by rw [hempty k]; exact Bool.false_ne_true)

end RowKeyRange

/-! ## What the read sees -/

theorem filterNext_mvcc_visible {H : Type} [LinearOrder H] {rows : List (Row H D)} (hs : SortedByPk rows)
    (limit : Nat) : filterNext (checkRow .mvcc limit) (rows.filter fun r => r.version ≤ limit) none
      = filterNext (checkRow .mvcc limit) rows none := by
  have hfilter : ∀ rows : List (Row H D), rows.filter (fun r => r.version ≤ limit)
      = filterNext (fun r _ => decide (r.version ≤ limit)) rows none := by
    intro rows
    induction rows with
    | nil => rfl
    | cons a t ih => simp only [filter_cons, filterNext, ih]
  rw [hfilter]
  refine filterNext_filterNext hs fun a t hat => ?_
  rw [Bool.eq_iff_iff, Bool.and_eq_true, checkRow_mvcc_iff, checkRow_mvcc_iff, decide_eq_true_eq]
  constructor
  · rintro ⟨-, htag, hv, hns⟩
    refine ⟨htag, hv, fun hsup => hns ?_⟩
    obtain ⟨n, hn, hhandle, hversion⟩ := hsup
    cases t with
    | nil => cases hn
    | cons b t =>
      obtain rfl : b = n := Option.some.inj hn
      exact ⟨b, head?_filterNext_of_pos (by simpa using hversion), hhandle, hversion⟩
  · rintro ⟨htag, hv, hns⟩
    exact ⟨hv, htag, hv, not_superseded_filterNext _ hat hns⟩

/-- Handle and version -/
def Row.sortKey (r : Row (RowKey c) D) : SortKey c := toLex (r.handle, r.version)

theorem filter_foldl_upsertRow {K : Type} [LinearOrder K] {key : ViewRow → K} {view : List ViewRow}
    (hview : (view.map key).Pairwise (· < ·)) {tupleIds : List Nat} {vis : K → Bool}
    (hids : ∀ id ∈ tupleIds, vis (key (.delta id)) = false) :
    (tupleIds.foldl (upsertRow key) view).filter (fun r => vis (key r)) = view.filter fun r => vis (key r) := by
  have hview' := pairwise_foldl_upsertRow hview tupleIds
  rw [pairwise_map] at hview hview'
  have hmem : ∀ r, r ∈ (tupleIds.foldl (upsertRow key) view).filter (fun r => vis (key r)) ↔
      r ∈ view.filter fun r => vis (key r) := by
    intro r
    rw [mem_filter, mem_filter, mem_foldl_upsertRow]
    constructor
    · rintro ⟨⟨hr, -⟩ | ⟨earlier, id, later, rfl, rfl, -⟩, hvis⟩
      · exact ⟨hr, hvis⟩
      · rw [hids id (by simp)] at hvis
        cases hvis
    · rintro ⟨hr, hvis⟩
      refine ⟨.inl ⟨hr, fun id hid heq => ?_⟩, hvis⟩
      rw [← heq, hids id hid] at hvis
      cases hvis
  have hnodup : ∀ {l : List ViewRow}, l.Pairwise (fun a b => key a < key b) → l.Nodup :=
    fun h => h.imp fun hab heq => (heq ▸ hab).ne rfl
  refine ((perm_ext_iff_of_nodup (hnodup (hview'.filter _)) (hnodup (hview.filter _))).2
    hmem).eq_of_pairwise ?_ (hview'.filter _) (hview.filter _)
  exact fun a b _ _ hab hba => absurd hba hab.not_gt

/-- A row of the stable with the handle 3 and the version 2, and one of the delta with the version 9 -/
def newerRow : ViewRow → Row (RowKey false) Unit
  | .stable _ => ⟨.int 3, 2, false, ()⟩
  | .delta _ => ⟨.int 3, 9, false, ()⟩

end TiFlash.DM
