import TiFlash.DM.DeltaIndex
import TiFlash.DM.Proofs.PlaceDeleteProofs
import TiFlash.DM.Proofs.ShouldPlaceProofs

/-!
# Proofs: placing the packs of a delta

However a delta is grouped into blocks, placing all packs in order leads to the same rows: a row is in the
view exactly when no later delete range covers it. `PlaceInv` says this of a delta placed in part, allowing
for rows to be placed once more.
-/

namespace TiFlash.DM

open TiFlash.Lib List

variable {c : Bool} {D : Type}

/-! ## The order of the packs -/

section Packs

variable {packs : List (SnapshotPack c D)} {deletes i : Nat} {row : Nat × Row (RowKey c) D}

theorem tag_bounds (h : row ∈ taggedRows deletes packs) :
    deletes ≤ row.1 ∧ row.1 ≤ deletes + (deleteRanges packs).length := by
  induction packs generalizing deletes with
  | nil => exact absurd h not_mem_nil
  | cons p packs ih =>
    cases p with
    | block rows =>
      rcases mem_append.1 h with h | h
      · obtain ⟨x, -, rfl⟩ := mem_map.1 h
        exact ⟨le_rfl, Nat.le_add_right _ _⟩
      · exact ih h
    | deleteRange range =>
      have := ih h
      simp only [deleteRanges, length_cons]
      omega

theorem pairwise_taggedRows (deletes : Nat) (packs : List (SnapshotPack c D)) :
    (taggedRows deletes packs).Pairwise fun a b => a.1 ≤ b.1 := by
  induction packs generalizing deletes with
  | nil => exact .nil
  | cons p packs ih =>
    cases p with
    | block rows =>
      refine pairwise_append.2 ⟨?_, ih deletes, fun a ha b hb => ?_⟩
      · exact pairwise_map.2 (pairwise_of_forall fun _ _ => le_rfl)
      · obtain ⟨x, -, rfl⟩ := mem_map.1 ha
        exact (tag_bounds hb).1
    | deleteRange range => exact ih (deletes + 1)

end Packs

/-! ## Steps -/

variable (stableRow : Nat → Row (RowKey c) D) (packs : List (SnapshotPack c D))

/-- The key of a row of the view -/
def keyOf (x : ViewRow) : SortKey c := (rowOf stableRow packs x).sortKey

/-- Placing a block of rows or a delete range. The position is the number of rows and of delete ranges
that are placed. -/
inductive PlaceStep : Nat × Nat × List ViewRow → Nat × Nat × List ViewRow → Prop
  | block {rows deletes count : Nat} {view : List ViewRow} {ids : List Nat}
      (hids : ids.Perm (range' rows count))
      (htags : ∀ i ∈ ids, ∃ row, (taggedRows 0 packs)[i]? = some (deletes, row)) :
      PlaceStep (rows, deletes, view)
        (rows + count, deletes, ids.foldl (upsertRow (keyOf stableRow packs)) view)
  | deleteRange {rows deletes : Nat} {view : List ViewRow} {range : RowKeyRange c}
      (hrange : (deleteRanges packs)[deletes]? = some range)
      (htags : ∀ i row, (taggedRows 0 packs)[i]? = some row → (row.1 ≤ deletes ↔ i < rows)) :
      PlaceStep (rows, deletes, view)
        (rows, deletes + 1, view.filter fun x => !range.check (rowOf stableRow packs x).handle)

/-- Placing several blocks and delete ranges, one after the other -/
abbrev PlaceRun := Relation.ReflTransGen (PlaceStep stableRow packs)

/-- A row of the stable, or a row of the delta that is placed -/
def Present (n rows : Nat) : ViewRow → Prop
  | .stable sid => sid < n
  | .delta id => id < rows

def tagOf : ViewRow → Nat
  | .stable _ => 0
  | .delta id => ((taggedRows 0 packs)[id]?.map Prod.fst).getD 0

/-- A row that is placed, and that no delete range behind it covers -/
def Alive (n rows deletes : Nat) (x : ViewRow) : Prop :=
  Present n rows x ∧ ∀ j range, tagOf packs x ≤ j → j < deletes → (deleteRanges packs)[j]? = some range →
    range.check (rowOf stableRow packs x).handle = false

/-- The view of a delta placed up to a position. Unplaced rows before `redo` may stand for keys that are
missing. -/
structure PlaceInv (n redo rows deletes : Nat) (view : List ViewRow) : Prop where
  rows_le : rows ≤ (taggedRows 0 packs).length
  deletes_le : deletes ≤ (deleteRanges packs).length
  earlier : ∀ i row, i < rows → (taggedRows 0 packs)[i]? = some row → row.1 ≤ deletes
  later : ∀ i row, rows ≤ i → (taggedRows 0 packs)[i]? = some row → deletes ≤ row.1
  sorted : (view.map (keyOf stableRow packs)).Pairwise (· < ·)
  sound : ∀ x ∈ view, Alive stableRow packs n rows deletes x
  complete : ∀ x, Alive stableRow packs n rows deletes x →
    keyOf stableRow packs x ∈ view.map (keyOf stableRow packs) ∨
    ∃ i row, rows ≤ i ∧ i < redo ∧ (taggedRows 0 packs)[i]? = some row ∧ row.1 ≤ deletes ∧
      row.2.sortKey = keyOf stableRow packs x

variable {stableRow packs} {n redo rows deletes : Nat} {view : List ViewRow} {row : Nat × Row (RowKey c) D}

theorem rowOf_delta {i : Nat} (h : (taggedRows 0 packs)[i]? = some row) :
    rowOf stableRow packs (.delta i) = row.2 := by
  simp [rowOf, h]

theorem tagOf_delta {i : Nat} (h : (taggedRows 0 packs)[i]? = some row) :
    tagOf packs (.delta i) = row.1 := by
  simp [tagOf, h]

theorem mem_keys_foldl_upsertRow {K : Type} [LinearOrder K] {key : ViewRow → K} {ids : List Nat} {k : K} :
    k ∈ (ids.foldl (upsertRow key) view).map key ↔ k ∈ view.map key ∨ ∃ id ∈ ids, key (.delta id) = k := by
  induction ids generalizing view with
  | nil => simp
  | cons id ids ih =>
    have hone : k ∈ (upsertRow key view id).map key ↔ k ∈ view.map key ∨ key (.delta id) = k := by
      simp only [mem_map, mem_upsertRow]
      constructor
      · rintro ⟨x, ⟨hx, -⟩ | rfl, rfl⟩
        · exact .inl ⟨x, hx, rfl⟩
        · exact .inr rfl
      · by_cases hk : key (.delta id) = k
        · exact fun _ => ⟨.delta id, .inr rfl, hk⟩
        · rintro (⟨x, hx, rfl⟩ | h)
          · exact ⟨x, .inl ⟨hx, Ne.symm hk⟩, rfl⟩
          · exact absurd h hk
    rw [foldl_cons, ih, hone, exists_mem_cons_iff, or_assoc]

theorem Alive.mono {rows' deletes' : Nat} {x : ViewRow} (h : Alive stableRow packs n rows deletes x)
    (hrows : rows ≤ rows') (hdeletes : deletes' ≤ deletes) : Alive stableRow packs n rows' deletes' x := by
  refine ⟨?_, fun j range htag hj => h.2 j range htag (hj.trans_le hdeletes)⟩
  cases x with
  | stable sid => exact h.1
  | delta id => exact lt_of_lt_of_le h.1 hrows

section

variable (h : PlaceInv stableRow packs n redo rows deletes view)
include h

theorem PlaceInv.tagOf_le {x : ViewRow} (hx : Present n rows x) : tagOf packs x ≤ deletes := by
  cases x with
  | stable sid => exact Nat.zero_le _
  | delta id =>
    have hget := getElem?_eq_getElem (lt_of_lt_of_le hx h.rows_le)
    rw [tagOf_delta hget]
    exact h.earlier id _ hx hget

theorem PlaceInv.block {count : Nat} {ids : List Nat} (hids : ids.Perm (range' rows count))
    (htags : ∀ i ∈ ids, ∃ row, (taggedRows 0 packs)[i]? = some (deletes, row)) :
    PlaceInv stableRow packs n redo (rows + count) deletes
      (ids.foldl (upsertRow (keyOf stableRow packs)) view) := by
  have hmem : ∀ i, i ∈ ids ↔ rows ≤ i ∧ i < rows + count := fun i => by
    rw [hids.mem_iff, mem_range'_1]
  refine ⟨?_, h.deletes_le, ?_, ?_, pairwise_foldl_upsertRow h.sorted ids, ?_, ?_⟩
  · rcases Nat.eq_zero_or_pos count with rfl | hpos
    · exact h.rows_le
    · obtain ⟨row, hrow⟩ := htags (rows + count - 1) ((hmem _).2 (by omega))
      have := (List.getElem?_eq_some_iff.1 hrow).1
      omega
  · intro i row hi hrow
    by_cases hold : i < rows
    · exact h.earlier i row hold hrow
    · obtain ⟨row', hrow'⟩ := htags i ((hmem i).2 ⟨not_lt.1 hold, hi⟩)
      rw [Option.some.inj (hrow.symm.trans hrow')]
  · exact fun i row hi hrow => h.later i row (by omega) hrow
  · intro x hx
    rcases mem_foldl_upsertRow.1 hx with ⟨hx, -⟩ | ⟨earlier, id, later, rfl, rfl, -⟩
    · exact (h.sound x hx).mono (Nat.le_add_right _ _) le_rfl
    · have hid : id ∈ earlier ++ id :: later := by simp
      obtain ⟨row, hrow⟩ := htags id hid
      refine ⟨((hmem id).1 hid).2, fun j range htag hj => ?_⟩
      rw [tagOf_delta hrow] at htag
      exact absurd hj (not_lt.2 htag)
  · intro x hx
    rw [mem_keys_foldl_upsertRow]
    by_cases hold : Present n rows x
    · rcases h.complete x ⟨hold, hx.2⟩ with hkey | ⟨i, row, hi, hredo, hrow, htag, hkey⟩
      · exact .inl (.inl hkey)
      · by_cases hnew : i < rows + count
        · refine .inl (.inr ⟨i, (hmem i).2 ⟨hi, hnew⟩, ?_⟩)
          rw [keyOf, rowOf_delta hrow, hkey]
        · exact .inr ⟨i, row, not_lt.1 hnew, hredo, hrow, htag, hkey⟩
    · cases x with
      | stable sid => exact absurd hx.1 hold
      | delta id => exact .inl (.inr ⟨id, (hmem id).2 ⟨not_lt.1 hold, hx.1⟩, rfl⟩)

theorem PlaceInv.deleteRange {range : RowKeyRange c} (hrange : (deleteRanges packs)[deletes]? = some range)
    (htags : ∀ i row, (taggedRows 0 packs)[i]? = some row → (row.1 ≤ deletes ↔ i < rows)) :
    PlaceInv stableRow packs n redo rows (deletes + 1)
      (view.filter fun x => !range.check (rowOf stableRow packs x).handle) := by
  refine ⟨h.rows_le, (List.getElem?_eq_some_iff.1 hrange).1, ?_, ?_, ?_, ?_, ?_⟩
  · exact fun i row hi hrow => (h.earlier i row hi hrow).trans (Nat.le_succ _)
  · exact fun i row hi hrow => not_le.1 fun htag => hi.not_gt ((htags i row hrow).1 htag)
  · exact h.sorted.sublist (filter_sublist.map _)
  · intro x hx
    obtain ⟨hx, hcheck⟩ := mem_filter.1 hx
    refine ⟨(h.sound x hx).1, fun j range' htag hj hrange' => ?_⟩
    rcases Nat.lt_succ_iff_lt_or_eq.1 hj with hj | rfl
    · exact (h.sound x hx).2 j range' htag hj hrange'
    · obtain rfl := Option.some.inj (hrange.symm.trans hrange')
      simpa using hcheck
  · intro x hx
    have hcheck := hx.2 deletes range (h.tagOf_le hx.1) (Nat.lt_succ_self _) hrange
    rcases h.complete x (hx.mono le_rfl (Nat.le_succ _)) with hkey | ⟨i, row, hi, -, hrow, htag, -⟩
    · obtain ⟨y, hy, hyx⟩ := mem_map.1 hkey
      have hhandle : (rowOf stableRow packs y).handle = (rowOf stableRow packs x).handle :=
        congrArg (fun k : SortKey c => (ofLex k).1) hyx
      refine .inl (mem_map.2 ⟨y, mem_filter.2 ⟨hy, ?_⟩, hyx⟩)
      rw [hhandle, hcheck]
      rfl
    · exact absurd ((htags i row hrow).1 htag) (not_lt.2 hi)

end

theorem PlaceInv.run {s t : Nat × Nat × List ViewRow} (hrun : PlaceRun stableRow packs s t)
    (h : PlaceInv stableRow packs n redo s.1 s.2.1 s.2.2) :
    PlaceInv stableRow packs n redo t.1 t.2.1 t.2.2 := by
  induction hrun with
  | refl => exact h
  | tail _ hstep ih =>
    cases hstep with
    | block hids htags => exact ih.block hids htags
    | deleteRange hrange htags => exact ih.deleteRange hrange htags

theorem PlaceInv.stable
    (hstable : (((range n).map ViewRow.stable).map (keyOf stableRow packs)).Pairwise (· < ·)) :
    PlaceInv stableRow packs n redo 0 0 ((range n).map .stable) where
  rows_le := Nat.zero_le _
  deletes_le := Nat.zero_le _
  earlier i _ hi := absurd hi (Nat.not_lt_zero i)
  later _ _ _ _ := Nat.zero_le _
  sorted := hstable
  sound x hx := by
    obtain ⟨sid, hsid, rfl⟩ := mem_map.1 hx
    exact ⟨mem_range.1 hsid, fun j _ _ hj => absurd hj (Nat.not_lt_zero j)⟩
  complete x hx := by
    cases x with
    | stable sid => exact .inl (mem_map_of_mem (mem_map_of_mem (mem_range.2 hx.1)))
    | delta id => exact absurd hx.1 (Nat.not_lt_zero id)

theorem PlaceInv.keys_unique {redo' : Nat} {view' : List ViewRow}
    (h : PlaceInv stableRow packs n redo (taggedRows 0 packs).length deletes view)
    (h' : PlaceInv stableRow packs n redo' (taggedRows 0 packs).length deletes view') :
    view.map (keyOf stableRow packs) = view'.map (keyOf stableRow packs) := by
  have hsub : ∀ {redo₁ redo₂ : Nat} {v w : List ViewRow},
      PlaceInv stableRow packs n redo₁ (taggedRows 0 packs).length deletes v →
      PlaceInv stableRow packs n redo₂ (taggedRows 0 packs).length deletes w →
      ∀ k ∈ v.map (keyOf stableRow packs), k ∈ w.map (keyOf stableRow packs) := by
    intro redo₁ redo₂ v w hv hw k hk
    obtain ⟨x, hx, rfl⟩ := mem_map.1 hk
    rcases hw.complete x (hv.sound x hx) with hkey | ⟨i, row, hi, -, hrow, -⟩
    · exact hkey
    · exact absurd (List.getElem?_eq_some_iff.1 hrow).1 (not_lt.2 hi)
  exact h.sorted.eq_of_mem_iff h'.sorted fun k => ⟨hsub h h' k, hsub h' h k⟩

theorem PlaceInv.exists_run (h : PlaceInv stableRow packs n redo rows deletes view) : ∃ view',
    PlaceRun stableRow packs (rows, deletes, view)
      ((taggedRows 0 packs).length, (deleteRanges packs).length, view') := by
  obtain ⟨k, hk⟩ : ∃ k, k = (taggedRows 0 packs).length - rows + ((deleteRanges packs).length - deletes) :=
    ⟨_, rfl⟩
  induction k using Nat.strong_induction_on generalizing rows deletes view with
  | _ k ih =>
    -- a delete range that comes before every row that is left
    have hdelete : deletes < (deleteRanges packs).length →
        (∀ i row, rows ≤ i → (taggedRows 0 packs)[i]? = some row → deletes < row.1) → ∃ view',
        PlaceRun stableRow packs (rows, deletes, view)
          ((taggedRows 0 packs).length, (deleteRanges packs).length, view') := by
      intro hlt hbehind
      have htags : ∀ i row, (taggedRows 0 packs)[i]? = some row → (row.1 ≤ deletes ↔ i < rows) :=
        fun i row hrow => ⟨fun htag => not_le.1 fun hi => htag.not_gt (hbehind i row hi hrow),
          fun hi => h.earlier i row hi hrow⟩
      have hrange := getElem?_eq_getElem hlt
      obtain ⟨view', hrun⟩ := ih _ (by omega) (h.deleteRange hrange htags) rfl
      exact ⟨view', hrun.head (.deleteRange hrange htags)⟩
    by_cases hrows : rows < (taggedRows 0 packs).length
    · have hget := getElem?_eq_getElem hrows
      rcases (h.later rows _ le_rfl hget).eq_or_lt with htag | htag
      · have hids : [rows].Perm (range' rows 1) := .refl _
        have htags : ∀ i ∈ [rows], ∃ row, (taggedRows 0 packs)[i]? = some (deletes, row) := by
          intro i hi
          obtain rfl := mem_singleton.1 hi
          exact ⟨_, hget.trans (by rw [htag])⟩
        obtain ⟨view', hrun⟩ := ih _ (by omega) (h.block hids htags) rfl
        exact ⟨view', hrun.head (.block hids htags)⟩
      · refine hdelete ?_ fun i row hi hrow => htag.trans_le ?_
        · have := (tag_bounds (getElem_mem hrows)).2
          omega
        · obtain ⟨hilt, rfl⟩ := List.getElem?_eq_some_iff.1 hrow
          rcases hi.eq_or_lt with rfl | hi
          · exact le_rfl
          · exact pairwise_iff_getElem.1 (pairwise_taggedRows 0 packs) rows i hrows hilt hi
    · obtain rfl : rows = (taggedRows 0 packs).length := le_antisymm h.rows_le (not_lt.1 hrows)
      rcases h.deletes_le.eq_or_lt with rfl | hlt
      · exact ⟨view, .refl⟩
      · refine hdelete hlt fun i row hi hrow => ?_
        exact absurd (List.getElem?_eq_some_iff.1 hrow).1 (not_lt.2 hi)

variable {blocks : List (SortKey c × List (SortKey c))} {range : RowKeyRange c} {τ : Type} {tree : τ}

section

variable (T : PlaceTree τ) (hview : ((T.view tree).map (keyOf stableRow packs)).Pairwise (· < ·))
  (hblocks : blockRows blocks = (T.view tree).map (keyOf stableRow packs))
include T hview hblocks

theorem placeInsert_placeStep {block : List (SortKey c)} {rowIdRef : Option (List Nat)}
    (hblock : block.Pairwise (· ≤ ·))
    (hids : (List.range block.length).map (fun i => keyOf stableRow packs (.delta (tupleIdOf rows rowIdRef i)))
      = block) (hall : ∀ k ∈ block, range.check k.handle = true)
    (hperm : ((List.range block.length).map (tupleIdOf rows rowIdRef)).Perm (List.range' rows block.length))
    (htags : ∀ i ∈ range' rows block.length, ∃ row, (taggedRows 0 packs)[i]? = some (deletes, row)) :
    ∃ tree', placeInsert T ⟨0, blocks⟩ block range tree rows rowIdRef = .ok (true, tree') ∧
      PlaceStep stableRow packs (rows, deletes, T.view tree) (rows + block.length, deletes, T.view tree') := by
  obtain ⟨offset, limit, hpos⟩ := getPosRangeOfSorted_isOk (pairwise_handle hblock)
    (forall_mem_map.2 fun k hk => .inl (Bool.and_eq_true_iff.1 (hall k hk)).1)
  obtain ⟨tree', hplace, hview'⟩ := placeInsert_eq T hview hblocks hblock hids hpos
  have hindices : indicesInRange block range = List.range block.length := by
    refine filter_eq_self.2 fun i hi => hall _ ?_
    simp [mem_range.1 hi]
  rw [all_eq_true.2 hall] at hplace
  refine ⟨tree', hplace, ?_⟩
  rw [hview', tupleIdsInRange, hindices]
  exact .block hperm fun i hi => htags i (hperm.mem_iff.1 hi)

/-- The rows of the view in a delete range, placed as a block of deletes. -/
theorem placeDelete_placeStep {relevant : RowKeyRange c}
    (hrange : (deleteRanges packs)[deletes]? = some range)
    (hrelevant : ∀ k, range.check k = true → relevant.check k = true)
    (htags : ∀ i row, (taggedRows 0 packs)[i]? = some row → (row.1 ≤ deletes ↔ i < rows)) :
    ∃ tree', placeDelete T ⟨0, blocks⟩ (((T.view tree).map (keyOf stableRow packs)).filter fun k =>
        range.check k.handle) relevant tree = .ok (true, tree') ∧
      PlaceStep stableRow packs (rows, deletes, T.view tree) (rows, deletes + 1, T.view tree') := by
  have hsorted := hview.filter fun k => range.check k.handle
  obtain ⟨tree', hplace, hview'⟩ := placeDelete_of_foundFirst T _ tree blocks _ relevant hview hblocks
    (hsorted.imp le_of_lt) (fun k hk => hrelevant _ (mem_filter.1 hk).2)
    ⟨_, [], (append_nil _).symm, hsorted, fun k hk => (mem_filter.1 hk).1, by simp⟩
  refine ⟨tree', hplace, ?_⟩
  have hgone : T.view tree' = (T.view tree).filter fun x => !range.check (rowOf stableRow packs x).handle := by
    refine hview'.trans (filter_congr fun x hx => ?_)
    have hiff : keyOf stableRow packs x ∈ ((T.view tree).map (keyOf stableRow packs)).filter
        (fun k => range.check k.handle) ↔ range.check (rowOf stableRow packs x).handle = true :=
      mem_filter.trans (and_iff_right (mem_map_of_mem hx))
    simp [hiff]
  rw [hgone]
  exact .deleteRange hrange htags

end

end TiFlash.DM
