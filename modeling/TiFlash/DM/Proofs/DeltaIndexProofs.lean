import TiFlash.DM.Proofs.PlaceRunProofs

/-!
# Proofs: the index after a flush

`cloneWithUpdates` returns an index of the rewritten packs, placed up to its new position: tuple ids of
wholly placed packs are exchanged for those of the same rows; from a partly placed pack on, rows are taken
out of the tree. A key that such a row had replaced is missing until the row is placed again.
-/

namespace TiFlash.DM

open TiFlash.Lib List FlushedPack

variable {c : Bool} {D τ α : Type} {n : Nat}

/-! ## The view of the tree -/

/-- Erasing the elements with `p`, the last one first -/
theorem foldr_eraseIdx_findIdxs (p : α → Bool) (pre l : List α) :
    (l.findIdxs p pre.length).foldr (fun i l => l.eraseIdx i) (pre ++ l)
      = pre ++ l.filter fun a => !p a := by
  induction l generalizing pre with
  | nil => simp
  | cons a l ih =>
    have ih' := ih (pre ++ [a])
    rw [length_append, length_singleton, append_assoc, singleton_append] at ih'
    by_cases ha : p a
    · rw [findIdxs_cons, if_pos ha, foldr_cons, ih', filter_cons_of_neg (by simp [ha]),
        append_assoc, eraseIdx_append_of_length_le le_rfl, Nat.sub_self]
      rfl
    · rw [findIdxs_cons, if_neg ha, ih', filter_cons_of_pos (by simp [ha]), append_assoc]
      rfl

/-- Whether a row of the view is an insert with a tuple id from `start` on -/
def ViewRow.isFrom (start : Nat) : ViewRow → Bool
  | .stable _ => false
  | .delta id => start ≤ id

variable {entries : List DTEntry} {rows : List ViewRow} {pos : Nat}

theorem insertRids_eq {start first : Nat} {delta : Int} (hvalid : ValidEntries pos entries rows.length)
    (hsingle : ∀ e ∈ entries, e.isInsert = true → e.count = 1) (hrows : ∀ x ∈ rows, x.isFrom start = false)
    (hfirst : (first : Int) = pos + delta) : insertRids start delta entries
      = (mergeEntries .delta pos entries rows).findIdxs (ViewRow.isFrom start) first := by
  induction entries generalizing pos first delta rows with
  | nil => exact (findIdxs_eq_nil_iff.2 hrows).symm
  | cons e entries ih =>
    obtain ⟨hone, hsingle⟩ := forall_mem_cons.1 hsingle
    obtain ⟨hpos, hvalid⟩ := hvalid
    have hrows' : ∀ k, ∀ x ∈ rows.drop k, x.isFrom start = false :=
      fun k x hx => hrows x (mem_of_mem_drop hx)
    have htake : e.sid - pos ≤ rows.length → (rows.take (e.sid - pos)).findIdxs (ViewRow.isFrom start) first = [] ∧
        (rows.take (e.sid - pos)).length = e.sid - pos := fun hle =>
      ⟨findIdxs_eq_nil_iff.2 fun x hx => hrows x (mem_of_mem_take hx), by simp [hle]⟩
    rw [mergeEntries, findIdxs_append]
    by_cases hins : e.isInsert = true
    · simp only [hins, if_true] at hvalid ⊢
      obtain ⟨hle, hvalid⟩ := hvalid
      obtain ⟨hnil, hlen⟩ := htake hle
      have hrid : (e.sid + delta).toNat = first + (e.sid - pos) := by omega
      have hnext : ((first + (e.sid - pos) + 1 : Nat) : Int) = e.sid + (delta + 1) := by omega
      have hrest := ih (by rwa [length_drop]) hsingle (hrows' (e.sid - pos)) hnext
      rw [hnil, hlen, hone hins, nil_append]
      simp [insertRids, hins, ViewRow.isFrom, hrest, hrid]
    · simp only [hins, Bool.false_eq_true, if_false] at hvalid ⊢
      obtain ⟨hle, hvalid⟩ := hvalid
      obtain ⟨hnil, hlen⟩ := htake (by omega)
      have hnext : ((first + (e.sid - pos) : Nat) : Int) = (e.sid + e.count : Nat) + (delta - e.count) := by omega
      have hrest := ih (by rwa [length_drop]) hsingle (hrows' (e.sid - pos + e.count)) hnext
      rw [hnil, hlen, nil_append]
      simp [insertRids, hins, hrest]

theorem view_removeInsertsStartFrom (T : EntryTree n τ) (tree : τ) (start : Nat) :
    T.view (removeInsertsStartFrom T tree start) = (T.view tree).filter fun x => !x.isFrom start := by
  have hfold : ∀ rids : List Nat, T.view (rids.foldr (fun rid t => T.addDelete t rid) tree)
      = rids.foldr (fun rid view => view.eraseIdx rid) (T.view tree) := by
    intro rids
    induction rids with
    | nil => rfl
    | cons rid rids ih => rw [foldr_cons, foldr_cons, T.view_addDelete, ih]
  have hrids : insertRids start 0 (T.entries tree)
      = (T.view tree).findIdxs (ViewRow.isFrom start) := by
    rw [T.view_eq]
    refine insertRids_eq (by simpa using T.valid tree) (T.single tree) ?_ rfl
    intro x hx
    obtain ⟨sid, -, rfl⟩ := mem_map.1 hx
    rfl
  rw [removeInsertsStartFrom, foldl_reverse, hfold, hrids]
  exact foldr_eraseIdx_findIdxs (ViewRow.isFrom start) [] (T.view tree)

/-- The row of the view with another tuple id -/
def ViewRow.rename (f : Nat → Nat) : ViewRow → ViewRow
  | .stable sid => .stable sid
  | .delta id => .delta (f id)

theorem mergeEntries_mapValues {f : Nat → Nat}
    (hsingle : ∀ e ∈ entries, e.isInsert = true → e.count = 1) (hrows : rows.map (ViewRow.rename f) = rows) :
    mergeEntries .delta pos (entries.map fun e => if e.isInsert then { e with value := f e.value } else e) rows
      = (mergeEntries .delta pos entries rows).map (ViewRow.rename f) := by
  induction entries generalizing pos rows with
  | nil => exact hrows.symm
  | cons e entries ih =>
    obtain ⟨hone, hsingle⟩ := forall_mem_cons.1 hsingle
    have htake : ∀ k, (rows.take k).map (ViewRow.rename f) = rows.take k := fun k => by
      rw [map_take, hrows]
    have hdrop : ∀ k, (rows.drop k).map (ViewRow.rename f) = rows.drop k := fun k => by
      rw [map_drop, hrows]
    by_cases hins : e.isInsert = true
    · simp only [map_cons, mergeEntries, hins, if_true, map_append, htake, hone hins,
        range'_one, map_nil, ih hsingle (hdrop _)]
      rfl
    · simp [mergeEntries, hins, htake, ih hsingle (hdrop _)]

theorem view_updateTupleId (T : EntryTree n τ) (tree : τ) (tupleRefs : List Nat) (offset : Nat) :
    T.view (updateTupleId T tree tupleRefs offset)
      = (T.view tree).map (ViewRow.rename (newTupleId tupleRefs offset)) := by
  rw [T.view_eq, T.view_eq, updateTupleId, T.entries_mapValues]
  refine mergeEntries_mapValues (T.single tree) ?_
  rw [map_map]
  rfl

/-- The tuple id of an insert -/
def ViewRow.tupleId? : ViewRow → Option Nat
  | .stable _ => none
  | .delta id => some id

/-- The tuple ids of the inserts of a view, in its order -/
def insertIds (view : List ViewRow) : List Nat :=
  view.filterMap ViewRow.tupleId?

theorem mem_insertIds {view : List ViewRow} {id : Nat} : id ∈ insertIds view ↔ .delta id ∈ view := by
  rw [insertIds, mem_filterMap]
  refine ⟨?_, fun h => ⟨_, h, rfl⟩⟩
  rintro ⟨x, hx, hid⟩
  cases x with
  | stable sid => cases hid
  | delta old => exact Option.some.inj hid ▸ hx

theorem insertIds_map_rename (f : Nat → Nat) (view : List ViewRow) :
    insertIds (view.map (ViewRow.rename f)) = (insertIds view).map f := by
  rw [insertIds, insertIds, filterMap_map, map_filterMap]
  refine filterMap_congr fun x _ => ?_
  cases x <;> rfl

theorem insertIds_filter_isFrom (start : Nat) (view : List ViewRow) :
    insertIds (view.filter fun x => !x.isFrom start) = (insertIds view).filter (· < start) := by
  induction view with
  | nil => rfl
  | cons x view ih =>
    cases x with
    | stable sid => exact ih
    | delta id => by_cases hid : id < start <;> simp_all [insertIds, ViewRow.isFrom, ViewRow.tupleId?]

/-! ## Rewritten packs -/

theorem taggedRows_append (deletes : Nat) (packs packs' : List (SnapshotPack c D)) :
    taggedRows deletes (packs ++ packs')
      = taggedRows deletes packs ++ taggedRows (deletes + (deleteRanges packs).length) packs' := by
  induction packs generalizing deletes with
  | nil => rfl
  | cons p packs ih =>
    cases p with
    | block rows => simp [taggedRows, deleteRanges, ih]
    | deleteRange range => simp [taggedRows, deleteRanges, ih, Nat.add_assoc, Nat.add_comm 1]

theorem deleteRanges_append (packs packs' : List (SnapshotPack c D)) :
    deleteRanges (packs ++ packs') = deleteRanges packs ++ deleteRanges packs' := by
  induction packs with
  | nil => rfl
  | cons p packs ih => cases p <;> simp [deleteRanges, ih]

variable {perm : List Nat} {rows : List α}

theorem getElem?_filterMap_getElem? (h : ∀ i ∈ perm, i < rows.length)
    (pos : Nat) : (perm.filterMap fun i => rows[i]?)[pos]? = perm[pos]?.bind fun i => rows[i]? := by
  induction perm generalizing pos with
  | nil => rfl
  | cons i perm ih =>
    obtain ⟨hi, hperm⟩ := forall_mem_cons.1 h
    rw [filterMap_cons_some (getElem?_eq_getElem hi)]
    cases pos with
    | zero => simp [hi]
    | succ pos => simpa using ih hperm pos

theorem perm_filterMap_getElem? (h : perm.Perm (range rows.length)) :
    (perm.filterMap fun i => rows[i]?).Perm rows := by
  have hself : ((range rows.length).filterMap fun i => rows[i]?) = rows := by
    refine ext_getElem? fun pos => ?_
    rw [getElem?_filterMap_getElem? (by simp)]
    by_cases hpos : pos < rows.length
    · simp [hpos]
    · simp [not_lt.1 hpos]
  exact (h.filterMap _).trans (.of_eq hself)

theorem FlushedPack.rewritten_spec {p : FlushedPack c D} (h : p.Valid) :
    p.rewritten.isDeleteRange = p.pack.isDeleteRange ∧ p.rewritten.rows.Perm p.pack.rows ∧
    (∀ deletes, (taggedRows deletes [p.rewritten]).Perm (taggedRows deletes [p.pack])) ∧
    deleteRanges [p.rewritten] = deleteRanges [p.pack] := by
  obtain ⟨pack, perm⟩ := p
  cases pack with
  | deleteRange range => exact ⟨rfl, .refl _, fun _ => .refl _, rfl⟩
  | block rows =>
    cases perm with
    | none => exact ⟨rfl, .refl _, fun _ => .refl _, rfl⟩
    | some perm =>
      have hperm : (perm.filterMap fun i => rows[i]?).Perm rows := perm_filterMap_getElem? (h perm rfl).2
      refine ⟨rfl, hperm, fun deletes => ?_, rfl⟩
      simpa [taggedRows, rewritten] using hperm.map _

variable {packs : List (FlushedPack c D)}

theorem rewritten_perm (h : ∀ p ∈ packs, p.Valid) (deletes : Nat) :
    (taggedRows deletes (packs.map rewritten)).Perm
        (taggedRows deletes (packs.map pack)) ∧
      deleteRanges (packs.map rewritten) = deleteRanges (packs.map pack) := by
  induction packs generalizing deletes with
  | nil => exact ⟨.refl _, rfl⟩
  | cons p packs ih =>
    obtain ⟨hp, hpacks⟩ := forall_mem_cons.1 h
    obtain ⟨-, -, htags, hdels⟩ := FlushedPack.rewritten_spec hp
    obtain ⟨hperm, hranges⟩ := ih hpacks (deletes + (deleteRanges [p.pack]).length)
    rw [map_cons, map_cons, ← singleton_append, taggedRows_append, hdels,
      ← singleton_append (l := packs.map pack), taggedRows_append, deleteRanges_append,
      deleteRanges_append, hranges, hdels]
    exact ⟨(htags deletes).append hperm, rfl⟩

theorem idxMapping_spec (hperm : perm.Perm (range perm.length))
    (deletesOffset rowsOffset : Nat) :
    let mapping := (IndexUpdate.ofPerm deletesOffset rowsOffset perm).idxMapping
    mapping.length = perm.length ∧ ∀ pos, (hpos : pos < perm.length) → mapping[perm[pos]]? = some pos := by
  have hlt : ∀ pos, (hpos : pos < perm.length) → perm[pos] < perm.length := fun pos hpos =>
    mem_range.1 (hperm.mem_iff.1 (getElem_mem hpos))
  have hnodup : perm.Nodup := hperm.nodup_iff.2 nodup_range
  have hrun : ∀ k ≤ perm.length, ∀ mapping, mapping = (range k).foldl
      (fun mapping pos => mapping.set (perm.getD pos 0) pos) (replicate perm.length 0) →
      mapping.length = perm.length ∧
        ∀ pos, pos < k → (hpos : pos < perm.length) → mapping[perm[pos]]? = some pos := by
    intro k
    induction k with
    | zero =>
      rintro - mapping rfl
      exact ⟨length_replicate, fun pos hpos => absurd hpos (Nat.not_lt_zero pos)⟩
    | succ k ih =>
      intro hk mapping hmapping
      rw [range_succ, foldl_append] at hmapping
      obtain ⟨hlen, hmap⟩ := ih (by omega) _ rfl
      have hgetD : perm.getD k 0 = perm[k] := by simp [show k < perm.length from hk]
      simp only [foldl_cons, foldl_nil, hgetD] at hmapping
      subst hmapping
      refine ⟨by rw [length_set, hlen], fun pos hpos hlt' => ?_⟩
      rcases Nat.lt_succ_iff_lt_or_eq.1 hpos with hpos | rfl
      · have hne : perm[k] ≠ perm[pos] := fun heq => hpos.ne ((hnodup.getElem_inj_iff).1 heq).symm
        rw [getElem?_set_ne hne]
        exact hmap pos hpos hlt'
      · exact getElem?_set_self (by rw [hlen]; exact hlt pos hlt')
  obtain ⟨hlen, hmap⟩ := hrun perm.length le_rfl _ rfl
  exact ⟨hlen, fun pos hpos => hmap pos hpos hpos⟩

/-! ## The invariant for the rewritten packs -/

section Transfer

variable {stableRow : Nat → Row (RowKey c) D} {packs packs' : List (SnapshotPack c D)}
  {redo redo' rows deletes : Nat} {view : List ViewRow}

variable {f : Nat → Nat}

/-- The packs are exchanged for others in which the placed rows have other tuple ids, and the other rows are
the same. -/
theorem PlaceInv.transfer (h : PlaceInv stableRow packs n redo rows deletes view)
    (hlen : (taggedRows 0 packs').length = (taggedRows 0 packs).length)
    (hdel : deleteRanges packs' = deleteRanges packs)
    (hfwd : ∀ i < rows, f i < rows ∧ (taggedRows 0 packs')[f i]? = (taggedRows 0 packs)[i]?)
    (hback : ∀ i < rows, ∃ j < rows, f j = i)
    (hlater : ∀ i row, rows ≤ i → (taggedRows 0 packs')[i]? = some row →
      ∃ j, rows ≤ j ∧ (taggedRows 0 packs)[j]? = some row)
    (hredo : ∀ i row, rows ≤ i → i < redo → (taggedRows 0 packs)[i]? = some row →
      ∃ j, rows ≤ j ∧ j < redo' ∧ (taggedRows 0 packs')[j]? = some row) :
    PlaceInv stableRow packs' n redo' rows deletes (view.map (ViewRow.rename f)) ∧
      ∀ x ∈ view, rowOf stableRow packs' (x.rename f) = rowOf stableRow packs x := by
  have hsame : ∀ x, Present n rows x → rowOf stableRow packs' (x.rename f) = rowOf stableRow packs x ∧
      tagOf packs' (x.rename f) = tagOf packs x ∧ Present n rows (x.rename f) := by
    intro x hx
    cases x with
    | stable sid => exact ⟨rfl, rfl, hx⟩
    | delta id =>
      obtain ⟨hlt, hget⟩ := hfwd id hx
      exact ⟨by simp only [rowOf, ViewRow.rename, hget], by simp only [tagOf, ViewRow.rename, hget], hlt⟩
  have hkey : ∀ x, Present n rows x → keyOf stableRow packs' (x.rename f) = keyOf stableRow packs x :=
    fun x hx => by rw [keyOf, (hsame x hx).1, keyOf]
  have hkeys : (view.map (ViewRow.rename f)).map (keyOf stableRow packs')
      = view.map (keyOf stableRow packs) := by
    rw [map_map]
    exact map_congr_left fun x hx => hkey x (h.sound x hx).1
  refine ⟨⟨hlen ▸ h.rows_le, hdel ▸ h.deletes_le, ?_, ?_, hkeys ▸ h.sorted, ?_, ?_⟩,
    fun x hx => (hsame x (h.sound x hx).1).1⟩
  · intro i row hi hrow
    obtain ⟨j, hj, rfl⟩ := hback i hi
    exact h.earlier j row hj ((hfwd j hj).2 ▸ hrow)
  · intro i row hi hrow
    obtain ⟨j, hj, hrow⟩ := hlater i row hi hrow
    exact h.later j row hj hrow
  · intro y hy
    obtain ⟨x, hx, rfl⟩ := mem_map.1 hy
    obtain ⟨hpresent, halive⟩ := h.sound x hx
    obtain ⟨hrow, htag, hpresent'⟩ := hsame x hpresent
    exact ⟨hpresent', by rw [htag, hrow, hdel]; exact halive⟩
  · intro y hy
    obtain ⟨x, hx, rfl⟩ : ∃ x, Present n rows x ∧ x.rename f = y := by
      cases y with
      | stable sid => exact ⟨.stable sid, hy.1, rfl⟩
      | delta id =>
        obtain ⟨j, hj, rfl⟩ := hback id hy.1
        exact ⟨.delta j, hj, rfl⟩
    obtain ⟨hrow, htag, -⟩ := hsame x hx
    rw [hkeys, hkey x hx]
    have halive : Alive stableRow packs n rows deletes x := by
      refine ⟨hx, ?_⟩
      have := hy.2
      rwa [htag, hrow, hdel] at this
    rcases h.complete x halive with hk | ⟨i, row, hi, hlt, hget, hrowtag, hk⟩
    · exact .inl hk
    · obtain ⟨j, hj, hlt', hget'⟩ := hredo i row hi hlt hget
      exact .inr ⟨j, row, hj, hlt', hget', hrowtag, hk⟩

theorem PlaceInv.insertIds_filter (h : PlaceInv stableRow packs n redo rows deletes view) :
    (insertIds view).filter (· < rows) = insertIds view :=
  filter_eq_self.2 fun _ hid => decide_eq_true (h.sound _ (mem_insertIds.1 hid)).1

theorem map_rename_id (view : List ViewRow) : view.map (ViewRow.rename id) = view := by
  refine (map_congr_left fun x _ => ?_).trans (map_id view)
  cases x <;> rfl

theorem PlaceInv.transfer_behind {pre : List (SnapshotPack c D)}
    (h : PlaceInv stableRow (pre ++ packs) n redo rows deletes view)
    (hrows : rows ≤ (taggedRows 0 pre).length)
    (hperm : ∀ deletes, (taggedRows deletes packs').Perm (taggedRows deletes packs))
    (hdel : deleteRanges packs' = deleteRanges packs) :
    PlaceInv stableRow (pre ++ packs') n (taggedRows 0 (pre ++ packs')).length rows deletes view ∧
      ∀ x ∈ view, rowOf stableRow (pre ++ packs') x = rowOf stableRow (pre ++ packs) x := by
  have hswap : ∀ {p q : List (SnapshotPack c D)},
      (∀ deletes, (taggedRows deletes p).Perm (taggedRows deletes q)) → ∀ i row, rows ≤ i →
      (taggedRows 0 (pre ++ p))[i]? = some row →
      ∃ j, rows ≤ j ∧ (taggedRows 0 (pre ++ q))[j]? = some row := by
    intro p q hpq i row hi hrow
    rw [taggedRows_append] at hrow
    rw [taggedRows_append]
    by_cases hpre : i < (taggedRows 0 pre).length
    · rw [getElem?_append_left hpre] at hrow
      exact ⟨i, hi, by rw [getElem?_append_left hpre, hrow]⟩
    · rw [getElem?_append_right (not_lt.1 hpre)] at hrow
      obtain ⟨j, hj⟩ := getElem?_of_mem ((hpq _).mem_iff.1 (mem_of_getElem? hrow))
      refine ⟨(taggedRows 0 pre).length + j, by omega, ?_⟩
      rw [getElem?_append_right (Nat.le_add_right _ _), Nat.add_sub_cancel_left, hj]
  have hlen : (taggedRows 0 (pre ++ packs')).length = (taggedRows 0 (pre ++ packs)).length := by
    simp only [taggedRows_append, length_append, (hperm _).length_eq]
  have hres := h.transfer hlen (by simp only [deleteRanges_append, hdel]) (f := id)
    (fun i hi => ⟨hi, by
      simp only [taggedRows_append, id_eq]
      rw [getElem?_append_left (hi.trans_le hrows), getElem?_append_left (hi.trans_le hrows)]⟩)
    (fun i hi => ⟨i, hi, rfl⟩) (hswap hperm) fun i row hi _ hrow => by
      obtain ⟨j, hj, hrow'⟩ := hswap (fun d => (hperm d).symm) i row hi hrow
      exact ⟨j, hj, (List.getElem?_eq_some_iff.1 hrow').1, hrow'⟩
  rw [map_rename_id] at hres
  refine ⟨hres.1, fun x hx => ?_⟩
  rw [← hres.2 x hx]
  cases x <;> rfl

/-- Rows are taken out of the view, to be placed once more. -/
theorem PlaceInv.remove (h : PlaceInv stableRow packs n 0 rows deletes view) {start : Nat}
    (hstart : start ≤ rows)
    (hlater : ∀ i row, start ≤ i → (taggedRows 0 packs)[i]? = some row → deletes ≤ row.1) :
    PlaceInv stableRow packs n (taggedRows 0 packs).length start deletes
      (view.filter fun x => !x.isFrom start) := by
  refine ⟨hstart.trans h.rows_le, h.deletes_le, fun i row hi => h.earlier i row (hi.trans_le hstart), hlater,
    h.sorted.sublist (filter_sublist.map _), ?_, ?_⟩
  · intro x hx
    obtain ⟨hx, hfrom⟩ := mem_filter.1 hx
    obtain ⟨hpresent, halive⟩ := h.sound x hx
    refine ⟨?_, halive⟩
    cases x with
    | stable sid => exact hpresent
    | delta id =>
      show id < start
      simpa [ViewRow.isFrom] using hfrom
  · intro x hx
    rcases h.complete x (hx.mono hstart le_rfl) with hk | ⟨i, _, _, hi, _⟩
    · obtain ⟨y, hy, hyx⟩ := mem_map.1 hk
      by_cases hkept : y.isFrom start = false
      · exact .inl (mem_map.2 ⟨y, mem_filter.2 ⟨hy, by simp [hkept]⟩, hyx⟩)
      · -- the key belongs to a row that was taken out
        cases y with
        | stable sid => exact absurd rfl hkept
        | delta id =>
          have hid : start ≤ id := by simpa [ViewRow.isFrom] using hkept
          have hlt : id < rows := (h.sound _ hy).1
          have hget := getElem?_eq_getElem (hlt.trans_le h.rows_le)
          refine .inr ⟨id, _, hid, hlt.trans_le h.rows_le, hget, h.earlier id _ hlt hget, ?_⟩
          rw [← hyx, keyOf, rowOf_delta hget]
    · exact absurd hi (Nat.not_lt_zero i)

theorem getElem?_append_mid (A mid B : List α) {j : Nat} (hj : j < mid.length) :
    (A ++ (mid ++ B))[A.length + j]? = mid[j]? := by
  rw [getElem?_append_right (Nat.le_add_right _ _), Nat.add_sub_cancel_left, getElem?_append_left hj]

theorem getElem?_append_outside (A B : List α) {mid mid' : List α} (hlen : mid'.length = mid.length) {i : Nat}
    (hi : i < A.length ∨ A.length + mid.length ≤ i) : (A ++ (mid' ++ B))[i]? = (A ++ (mid ++ B))[i]? := by
  rcases hi with hi | hi
  · rw [getElem?_append_left hi, getElem?_append_left hi]
  · rw [getElem?_append_right (by omega), getElem?_append_right (by omega),
      getElem?_append_right (by omega), getElem?_append_right (by omega), hlen]

/-- A pack that is placed as a whole is rewritten, and the tree gets the new tuple ids of its rows. -/
theorem PlaceInv.rewrite_pack {pre post : List (SnapshotPack c D)} {p : FlushedPack c D} {perm : List Nat}
    (hp : p.Valid) (hperm : p.perm = some perm)
    (h : PlaceInv stableRow (pre ++ p.pack :: post) n 0 rows deletes view)
    (hrows : (taggedRows 0 pre).length + p.pack.rows.length ≤ rows) (deletesOffset : Nat)
    (hf : f = newTupleId (IndexUpdate.ofPerm deletesOffset (taggedRows 0 pre).length perm).idxMapping
      (taggedRows 0 pre).length) :
    PlaceInv stableRow (pre ++ p.rewritten :: post) n 0 rows deletes (view.map (ViewRow.rename f)) ∧
      ∀ x ∈ view, rowOf stableRow (pre ++ p.rewritten :: post) (x.rename f)
        = rowOf stableRow (pre ++ p.pack :: post) x := by
  obtain ⟨hblock, hrange⟩ := hp perm hperm
  obtain ⟨pack, _⟩ := p
  obtain rfl : _ = some perm := hperm
  cases pack with
  | deleteRange range => cases hblock
  | block prows =>
    have hrange : perm.Perm (range prows.length) := hrange
    have hrows : (taggedRows 0 pre).length + prows.length ≤ rows := hrows
    have hsize : perm.length = prows.length := by simpa using hrange.length_eq
    have hmem : ∀ i ∈ perm, i < prows.length := fun i hi => mem_range.1 (hrange.mem_iff.1 hi)
    obtain ⟨hmaplen, hmapping⟩ := idxMapping_spec (hsize ▸ hrange) deletesOffset (taggedRows 0 pre).length
    have hnewlen : (perm.filterMap fun i => prows[i]?).length = prows.length :=
      (perm_filterMap_getElem? hrange).length_eq
    have htagged : ∀ block, taggedRows 0 (pre ++ .block block :: post) = taggedRows 0 pre ++
        (block.map (0 + (deleteRanges pre).length, ·) ++ taggedRows (0 + (deleteRanges pre).length) post) :=
      fun block => taggedRows_append ..
    generalize taggedRows 0 pre = front at *
    -- the new tuple id of the row at `perm[pos]` of the pack is that of `pos`
    have hinside : ∀ pos, (hpos : pos < perm.length) → f (front.length + perm[pos]) = front.length + pos := by
      intro pos hpos
      have hlt := hmem _ (getElem_mem hpos)
      rw [hf, newTupleId, if_pos ⟨Nat.le_add_right _ _, by rw [hmaplen, hsize]; omega⟩,
        Nat.add_sub_cancel_left, getD_eq_getElem?_getD, hmapping pos hpos, Option.getD_some, Nat.add_comm]
    have houtside : ∀ i, i < front.length ∨ front.length + prows.length ≤ i → f i = i ∧
        (taggedRows 0 (pre ++ .block (perm.filterMap fun i => prows[i]?) :: post))[i]?
          = (taggedRows 0 (pre ++ .block prows :: post))[i]? := by
      intro i hi
      rw [hf, newTupleId, if_neg (by rw [hmaplen, hsize]; omega), htagged, htagged]
      exact ⟨rfl, getElem?_append_outside _ _ (by simp [hnewlen]) (by simpa using hi)⟩
    refine h.transfer (by simp [htagged, hnewlen, rewritten])
      (by simp [deleteRanges_append, deleteRanges, rewritten]) ?_ ?_ ?_
      fun i _ _ hi => absurd hi (Nat.not_lt_zero i)
    · intro i hi
      by_cases hout : i < front.length ∨ front.length + prows.length ≤ i
      · obtain ⟨hself, hkeep⟩ := houtside i hout
        exact ⟨hself.symm ▸ hi, hself.symm ▸ hkeep⟩
      · obtain ⟨j, rfl⟩ := Nat.exists_eq_add_of_le (not_lt.1 fun hlt => hout (.inl hlt))
        have hj : j < prows.length := by omega
        obtain ⟨pos, hpos, rfl⟩ := getElem_of_mem (hrange.mem_iff.2 (mem_range.2 hj))
        rw [hinside pos hpos]
        refine ⟨by omega, ?_⟩
        show (taggedRows 0 (pre ++ .block (perm.filterMap fun i => prows[i]?) :: post))[_]? = _
        rw [htagged, htagged, getElem?_append_mid _ _ _ (by simp [hnewlen]; omega),
          getElem?_append_mid _ _ _ (by simpa using hj), getElem?_map, getElem?_map,
          getElem?_filterMap_getElem? hmem, getElem?_eq_getElem hpos]
        rfl
    · intro i hi
      by_cases hout : i < front.length ∨ front.length + prows.length ≤ i
      · exact ⟨i, hi, (houtside i hout).1⟩
      · obtain ⟨pos, rfl⟩ := Nat.exists_eq_add_of_le (not_lt.1 fun hlt => hout (.inl hlt))
        have hpos : pos < perm.length := by omega
        have hlt := hmem _ (getElem_mem hpos)
        exact ⟨front.length + perm[pos], by omega, hinside pos hpos⟩
    · intro i row hi hrow
      exact ⟨i, hi, (houtside i (.inr (hrows.trans hi))).2.symm.trans hrow⟩

end Transfer

/-! ## `cloneWithUpdates` -/

theorem deleteRangesOffset_le {rowsOffset deletesOffset : Nat} :
    (∀ u ∈ deltaIndexUpdates rowsOffset deletesOffset packs, deletesOffset ≤ u.deleteRangesOffset) ∧
      (deltaIndexUpdates rowsOffset deletesOffset packs).Pairwise fun u v =>
        u.deleteRangesOffset ≤ v.deleteRangesOffset := by
  induction packs generalizing rowsOffset deletesOffset with
  | nil => exact ⟨by simp [deltaIndexUpdates], .nil⟩
  | cons p packs ih =>
    obtain ⟨hle, hpairs⟩ := @ih (rowsOffset + p.pack.rows.length)
      (if p.pack.isDeleteRange then deletesOffset + 1 else deletesOffset)
    have hle' : ∀ u ∈ deltaIndexUpdates (rowsOffset + p.pack.rows.length)
        (if p.pack.isDeleteRange then deletesOffset + 1 else deletesOffset) packs,
        deletesOffset ≤ u.deleteRangesOffset := by
      intro u hu
      have := hle u hu
      split_ifs at this <;> omega
    cases hperm : p.perm with
    | none => simpa [deltaIndexUpdates, hperm] using ⟨hle', hpairs⟩
    | some perm =>
      simp only [deltaIndexUpdates, hperm, Option.map_some, Option.toList_some, singleton_append]
      exact ⟨forall_mem_cons.2 ⟨le_rfl, hle'⟩, pairwise_cons.2 ⟨hle', hpairs⟩⟩

/-- Rows are taken out of the tree only from the position of an update on. -/
theorem le_placedRows_applyUpdates (T : EntryTree n τ) (packs : List (FlushedPack c D))
    (index : DeltaIndex τ) (rowsOffset deletesOffset : Nat) :
    min index.placedRows rowsOffset
      ≤ (applyUpdates T index (deltaIndexUpdates rowsOffset deletesOffset packs)).placedRows := by
  induction packs generalizing index rowsOffset deletesOffset with
  | nil => exact min_le_left ..
  | cons p packs ih =>
    have hnext : ∀ index' : DeltaIndex τ, min index'.placedRows rowsOffset ≤ _ := fun index' =>
      (min_le_min_left _ (Nat.le_add_right rowsOffset p.pack.rows.length)).trans (ih index' _
        (if p.pack.isDeleteRange then deletesOffset + 1 else deletesOffset))
    cases hperm : p.perm with
    | none =>
      rw [deltaIndexUpdates, hperm]
      exact hnext index
    | some perm =>
      rw [deltaIndexUpdates, hperm, Option.map_some, Option.toList_some, singleton_append, applyUpdates]
      split
      · exact min_le_left ..
      split
      · exact min_le_right ..
      · exact hnext { index with deltaTree := updateTupleId T index.deltaTree _ _ }

/-- A pack keeps its tuple ids among themselves. -/
theorem filter_map_newTupleId {perm : List Nat} (hperm : perm.Perm (range perm.length)) (deletesOffset : Nat)
    {rowsOffset bound : Nat} (hbound : rowsOffset + perm.length ≤ bound) (ids : List Nat) :
    let f := newTupleId (IndexUpdate.ofPerm deletesOffset rowsOffset perm).idxMapping rowsOffset
    (ids.map f).filter (· < bound) = (ids.filter (· < bound)).map f := by
  intro f
  rw [filter_map]
  refine congrArg (map f) (filter_congr fun id _ => decide_eq_decide.2 ?_)
  obtain ⟨hlen, hmapping⟩ := idxMapping_spec hperm deletesOffset rowsOffset
  simp only [f, newTupleId, hlen]
  split_ifs with hid
  · obtain ⟨pos, hpos, hget⟩ := getElem_of_mem (hperm.mem_iff.2 (mem_range.2 (by omega : id - rowsOffset < _)))
    rw [getD_eq_getElem?_getD, ← hget, hmapping pos hpos, Option.getD_some]
    omega
  · rfl

/-- An index of rewritten packs: placed up to its position, its inserts point, one by one, to the rows of the
old index's inserts before this position. -/
structure IsRewritten (T : EntryTree n τ) (stableRow : Nat → Row (RowKey c) D)
    (packs packs' : List (SnapshotPack c D)) (index new : DeltaIndex τ) : Prop where
  inv : PlaceInv stableRow packs' n (taggedRows 0 packs').length new.placedRows new.placedDeletes
    (T.view new.deltaTree)
  rows : (insertIds (T.view new.deltaTree)).map (fun id => rowOf stableRow packs' (.delta id))
    = ((insertIds (T.view index.deltaTree)).filter (· < new.placedRows)).map
      fun id => rowOf stableRow packs (.delta id)

variable {stableRow : Nat → Row (RowKey c) D}

/-- The tree keeps its inserts before the new position, with their tuple ids. -/
theorem IsRewritten.of_filter {T : EntryTree n τ}
    {packs packs' : List (SnapshotPack c D)} {index new : DeltaIndex τ}
    (hinv : PlaceInv stableRow packs' n (taggedRows 0 packs').length new.placedRows new.placedDeletes
      (T.view new.deltaTree))
    (hrow : ∀ x ∈ T.view new.deltaTree, rowOf stableRow packs' x = rowOf stableRow packs x)
    (hids : insertIds (T.view new.deltaTree)
      = (insertIds (T.view index.deltaTree)).filter (· < new.placedRows)) :
    IsRewritten T stableRow packs packs' index new := by
  refine ⟨hinv, ?_⟩
  rw [← hids]
  exact map_congr_left fun id hid => hrow _ (mem_insertIds.1 hid)

/-- A pack is placed in part: the rows from it on leave the tree. -/
theorem IsRewritten.of_removed {T : EntryTree n τ} {pre packs packs' : List (SnapshotPack c D)}
    {index : DeltaIndex τ} (h : PlaceInv stableRow (pre ++ packs) n 0 index.placedRows index.placedDeletes
      (T.view index.deltaTree))
    (hrows : (taggedRows 0 pre).length ≤ index.placedRows)
    (hdeletes : index.placedDeletes ≤ (deleteRanges pre).length)
    (hperm : ∀ deletes, (taggedRows deletes packs').Perm (taggedRows deletes packs))
    (hdel : deleteRanges packs' = deleteRanges packs) :
    IsRewritten T stableRow (pre ++ packs) (pre ++ packs') index { index with
      deltaTree := removeInsertsStartFrom T index.deltaTree (taggedRows 0 pre).length
      placedRows := (taggedRows 0 pre).length } := by
  -- the rows from the pack on are behind all delete ranges that are placed
  have hlater : ∀ i row, (taggedRows 0 pre).length ≤ i → (taggedRows 0 (pre ++ packs))[i]? = some row →
      index.placedDeletes ≤ row.1 := by
    intro i row hi hrow
    rw [taggedRows_append, getElem?_append_right hi] at hrow
    have := (tag_bounds (mem_of_getElem? hrow)).1
    omega
  obtain ⟨hinv, hrow⟩ := (h.remove hrows hlater).transfer_behind le_rfl hperm hdel
  rw [← view_removeInsertsStartFrom] at hinv hrow
  refine .of_filter hinv hrow ?_
  rw [view_removeInsertsStartFrom, insertIds_filter_isFrom]

theorem FlushedPack.rewritten_of_none {p : FlushedPack c D} (h : p.perm = none) : p.rewritten = p.pack := by
  obtain ⟨pack, _⟩ := p
  obtain rfl : _ = none := h
  cases pack <;> rfl

theorem length_rewritten_snoc {p : FlushedPack c D} (hp : p.Valid) (done : List (FlushedPack c D)) :
    (taggedRows 0 ((done ++ [p]).map rewritten)).length
        = (taggedRows 0 (done.map rewritten)).length + p.pack.rows.length ∧
      (deleteRanges ((done ++ [p]).map rewritten)).length = if p.pack.isDeleteRange then
        (deleteRanges (done.map rewritten)).length + 1 else (deleteRanges (done.map rewritten)).length := by
  obtain ⟨hkind, hsame, -, -⟩ := rewritten_spec hp
  rw [map_append, map_singleton, taggedRows_append, deleteRanges_append, length_append, length_append,
    ← hkind, ← hsame.length_eq]
  cases p.rewritten <;> simp [taggedRows, deleteRanges, SnapshotPack.rows, SnapshotPack.isDeleteRange]

theorem applyUpdates_isRewritten (T : EntryTree n τ)
    {done todo : List (FlushedPack c D)} (hvalid : ∀ p ∈ todo, p.Valid) {index : DeltaIndex τ}
    {rowsOffset deletesOffset : Nat}
    (hrows : rowsOffset = (taggedRows 0 (done.map rewritten)).length)
    (hdeletes : deletesOffset = (deleteRanges (done.map rewritten)).length)
    (h : PlaceInv stableRow (done.map rewritten ++ todo.map pack) n 0
      index.placedRows index.placedDeletes (T.view index.deltaTree))
    (hplaced : ∀ u ∈ deltaIndexUpdates rowsOffset deletesOffset todo,
      index.placedDeletes ≤ u.deleteRangesOffset) :
    IsRewritten T stableRow (done.map rewritten ++ todo.map pack)
      (done.map rewritten ++ todo.map rewritten) index
      (applyUpdates T index (deltaIndexUpdates rowsOffset deletesOffset todo)) := by
  induction todo generalizing done index rowsOffset deletesOffset with
  | nil =>
    obtain ⟨hinv, hrow⟩ := h.transfer_behind (by simpa using h.rows_le) (fun _ => .refl _) rfl
    exact .of_filter hinv hrow h.insertIds_filter.symm
  | cons p todo ih =>
    obtain ⟨hpermX, hdelX⟩ := forall_and.1 (rewritten_perm hvalid)
    obtain ⟨hp, hvalid⟩ := forall_mem_cons.1 hvalid
    have hrec : ∀ index' : DeltaIndex τ,
        PlaceInv stableRow (done.map rewritten ++ p.rewritten :: todo.map pack) n 0
          index'.placedRows index'.placedDeletes (T.view index'.deltaTree) →
        index'.placedDeletes = index.placedDeletes →
        IsRewritten T stableRow (done.map rewritten ++ p.rewritten :: todo.map pack)
          (done.map rewritten ++ (p :: todo).map rewritten) index'
          (applyUpdates T index' (deltaIndexUpdates (rowsOffset + p.pack.rows.length)
            (if p.pack.isDeleteRange then deletesOffset + 1 else deletesOffset) todo)) ∧
        min index'.placedRows (rowsOffset + p.pack.rows.length)
          ≤ (applyUpdates T index' (deltaIndexUpdates (rowsOffset + p.pack.rows.length)
            (if p.pack.isDeleteRange then deletesOffset + 1 else deletesOffset) todo)).placedRows := by
      intro index' hinv hsamedel
      have hnext := length_rewritten_snoc hp done
      rw [← hrows, ← hdeletes] at hnext
      refine ⟨?_, le_placedRows_applyUpdates ..⟩
      simpa using @ih (done ++ [p]) hvalid index' _ _ hnext.1.symm hnext.2.symm (by simpa using hinv)
        fun u hu => hsamedel ▸ hplaced u (mem_append_right _ hu)
    cases hperm : p.perm with
    | none =>
      have hself := rewritten_of_none hperm
      have hres := (hrec index (by rw [hself]; exact h) rfl).1
      rw [hself] at hres
      rw [deltaIndexUpdates, hperm]
      exact hres
    | some perm =>
      have hupdates : deltaIndexUpdates rowsOffset deletesOffset (p :: todo)
          = .ofPerm deletesOffset rowsOffset perm :: deltaIndexUpdates (rowsOffset + p.pack.rows.length)
            (if p.pack.isDeleteRange then deletesOffset + 1 else deletesOffset) todo := by
        simp [deltaIndexUpdates, hperm]
      have hdel : index.placedDeletes ≤ deletesOffset := by
        rw [hupdates] at hplaced
        exact hplaced _ mem_cons_self
      have hsize : perm.length = p.pack.rows.length := by simpa using (hp perm hperm).2.length_eq
      have hmaplen : (IndexUpdate.ofPerm deletesOffset rowsOffset perm).idxMapping.length = p.pack.rows.length := by
        rw [(idxMapping_spec (hsize ▸ (hp perm hperm).2) deletesOffset rowsOffset).1, hsize]
      have hoffset : (IndexUpdate.ofPerm deletesOffset rowsOffset perm).rowsOffset = rowsOffset := rfl
      rw [hupdates, applyUpdates, hmaplen, hoffset]
      by_cases hnone : index.placedRows ≤ rowsOffset
      · rw [if_pos hnone]
        obtain ⟨hinv, hrow⟩ := h.transfer_behind (hrows ▸ hnone) hpermX (hdelX 0)
        exact .of_filter hinv hrow h.insertIds_filter.symm
      rw [if_neg hnone]
      by_cases hpart : index.placedRows < rowsOffset + p.pack.rows.length
      · rw [if_pos hpart]
        subst hrows hdeletes
        exact .of_removed h (not_le.1 hnone).le hdel hpermX (hdelX 0)
      · rw [if_neg hpart]
        subst hrows
        obtain ⟨hinv, hrow⟩ := h.rewrite_pack hp hperm (not_lt.1 hpart) deletesOffset rfl
        rw [← view_updateTupleId] at hinv
        obtain ⟨⟨hinv', hrow'⟩, hle⟩ := hrec { index with
          deltaTree := updateTupleId T index.deltaTree _ _ } hinv rfl
        -- the later updates take no row of this pack out of the tree
        rw [min_eq_right (not_lt.1 hpart)] at hle
        have hfilter := filter_map_newTupleId (hsize ▸ (hp perm hperm).2) deletesOffset
          ((congrArg (_ + ·) hsize).trans_le hle)
        refine ⟨hinv', hrow'.trans ?_⟩
        rw [view_updateTupleId, insertIds_map_rename, hfilter, map_map]
        exact map_congr_left fun id hid => hrow _ (mem_insertIds.1 (mem_filter.1 hid).1)

/-- The index of `cloneWithUpdates` can be placed to the end of the rewritten packs, which gives the keys of
an index built from scratch, and each insert points to the row it pointed to before. -/
theorem cloneWithUpdates_same_view (T : EntryTree n τ) (stableRow : Nat → Row (RowKey c) D)
    (packs : List (FlushedPack c D)) (index new : DeltaIndex τ) (hvalid : ∀ p ∈ packs, p.Valid)
    (hstable : ((range n).map fun sid => (stableRow sid).sortKey).Pairwise (· < ·))
    (hplaced : PlaceRun stableRow (packs.map pack) (0, 0, (range n).map .stable)
      (index.placedRows, index.placedDeletes, T.view index.deltaTree))
    (hnew : cloneWithUpdates T index (deltaIndexUpdates 0 0 packs) = .ok new) :
    (∃ view, PlaceRun stableRow (packs.map rewritten)
      (new.placedRows, new.placedDeletes, T.view new.deltaTree)
      ((taggedRows 0 (packs.map rewritten)).length, (deleteRanges (packs.map rewritten)).length, view)) ∧
    (∀ view scratch, PlaceRun stableRow (packs.map rewritten)
        (new.placedRows, new.placedDeletes, T.view new.deltaTree)
        ((taggedRows 0 (packs.map rewritten)).length, (deleteRanges (packs.map rewritten)).length, view) →
      PlaceRun stableRow (packs.map rewritten) (0, 0, (range n).map .stable)
        ((taggedRows 0 (packs.map rewritten)).length, (deleteRanges (packs.map rewritten)).length, scratch) →
      view.map (keyOf stableRow (packs.map rewritten))
        = scratch.map (keyOf stableRow (packs.map rewritten))) ∧
    (insertIds (T.view new.deltaTree)).map (fun id => rowOf stableRow (packs.map rewritten) (.delta id))
      = ((insertIds (T.view index.deltaTree)).filter (· < new.placedRows)).map
        fun id => rowOf stableRow (packs.map pack) (.delta id) := by
  have hstart : ∀ (packs : List (SnapshotPack c D)) (redo : Nat),
      PlaceInv stableRow packs n redo 0 0 ((range n).map .stable) := fun packs redo =>
    .stable (by rw [map_map]; exact hstable)
  have hres : IsRewritten T stableRow (packs.map pack) (packs.map rewritten) index new := by
    have hall := @deleteRangesOffset_le c D packs 0 0
    cases hupdates : deltaIndexUpdates 0 0 packs with
    | nil => rw [hupdates] at hnew; cases hnew
    | cons front updates =>
      rw [hupdates, cloneWithUpdates] at hnew
      by_cases hfresh : index.placedDeletes > front.deleteRangesOffset
      · rw [if_pos hfresh] at hnew
        obtain rfl := Except.ok.inj hnew
        have hempty : T.view T.empty = (range n).map .stable := by
          rw [T.view_eq, T.entries_empty]
          rfl
        have hnone : insertIds (T.view T.empty) = [] := by
          rw [hempty, insertIds, filterMap_map]
          exact filterMap_none _
        refine ⟨hempty ▸ hstart _ _, ?_⟩
        simp [hnone]
      · rw [if_neg hfresh, ← hupdates] at hnew
        obtain rfl := Except.ok.inj hnew
        have hdone : 0 = (taggedRows 0 (([] : List (FlushedPack c D)).map rewritten)).length := rfl
        refine applyUpdates_isRewritten T hvalid hdone rfl ((hstart _ 0).run hplaced) fun u hu => ?_
        rw [hupdates] at hu hall
        refine (not_lt.1 hfresh).trans ?_
        rcases mem_cons.1 hu with rfl | hu
        · exact le_rfl
        · exact (pairwise_cons.1 hall.2).1 u hu
  refine ⟨hres.inv.exists_run, fun view scratch hrun hscratch => ?_, hres.rows⟩
  exact (hres.inv.run hrun).keys_unique ((hstart _ 0).run hscratch)

/-! ## A tree for every view of a stable -/

/-- The rows of the stable that are in the view are in their order, from the row `pos` on. -/
def StableInOrder (n : Nat) : (pos : Nat) → List ViewRow → Prop
  | _, [] => True
  | pos, .delta _ :: view => StableInOrder n pos view
  | pos, .stable sid :: view => pos ≤ sid ∧ sid < n ∧ StableInOrder n (sid + 1) view

/-- The entries that lead from the stable to the view, from the row `pos` on -/
def entriesOf (n : Nat) : (pos : Nat) → List ViewRow → List DTEntry
  | pos, [] => if pos < n then [⟨pos, false, n - pos, 0⟩] else []
  | pos, .delta id :: view => ⟨pos, true, 1, id⟩ :: entriesOf n pos view
  | pos, .stable sid :: view =>
    if pos < sid then ⟨pos, false, sid - pos, 0⟩ :: entriesOf n (sid + 1) view else entriesOf n (sid + 1) view

section ViewTree

variable {pos p : Nat} {view : List ViewRow}

section

variable (h : StableInOrder n pos view)
include h

theorem StableInOrder.mono (hp : p ≤ pos) : StableInOrder n p view := by
  induction view generalizing pos with
  | nil => trivial
  | cons x view ih =>
    cases x with
    | delta id => exact ih h hp
    | stable sid => exact ⟨hp.trans h.1, h.2⟩

theorem StableInOrder.eraseIdx (rid : Nat) : StableInOrder n pos (view.eraseIdx rid) := by
  induction view generalizing pos rid with
  | nil => trivial
  | cons x view ih =>
    cases x with
    | delta id =>
      cases rid with
      | zero => exact h
      | succ rid => exact ih h rid
    | stable sid =>
      obtain ⟨hle, hlt, h⟩ := h
      cases rid with
      | zero => exact h.mono (by omega)
      | succ rid => exact ⟨hle, hlt, ih h rid⟩

theorem StableInOrder.insertIdx (rid id : Nat) : StableInOrder n pos (view.insertIdx rid (.delta id)) := by
  induction view generalizing pos rid with
  | nil => cases rid <;> trivial
  | cons x view ih =>
    cases rid with
    | zero => exact h
    | succ rid =>
      cases x with
      | delta _ => exact ih h rid
      | stable sid => exact ⟨h.1, h.2.1, ih h.2.2 rid⟩

theorem StableInOrder.rename (f : Nat → Nat) : StableInOrder n pos (view.map (ViewRow.rename f)) := by
  induction view generalizing pos with
  | nil => trivial
  | cons x view ih =>
    cases x with
    | delta id => exact ih h
    | stable sid => exact ⟨h.1, h.2.1, ih h.2.2⟩

end

theorem stableInOrder_range' (hpos : pos ≤ n) : StableInOrder n pos ((range' pos (n - pos)).map .stable) := by
  induction h : n - pos generalizing pos with
  | zero => trivial
  | succ k ih => exact ⟨le_rfl, by omega, ih (by omega) (by omega)⟩

theorem entriesOf_range' (hpos : pos ≤ n) : entriesOf n pos ((range' pos (n - pos)).map .stable) = [] := by
  induction h : n - pos generalizing pos with
  | zero => exact if_neg (by omega)
  | succ k ih => exact (if_neg (lt_irrefl pos)).trans (ih (by omega) (by omega))

theorem entriesOf_rename (f : Nat → Nat) : entriesOf n pos (view.map (ViewRow.rename f))
    = (entriesOf n pos view).map fun e => if e.isInsert then { e with value := f e.value } else e := by
  induction view generalizing pos with
  | nil => simp [entriesOf, apply_ite]
  | cons x view ih =>
    cases x with
    | delta id => simp [entriesOf, ViewRow.rename, ih]
    | stable sid =>
      simp only [map_cons, ViewRow.rename, entriesOf, ih]
      split_ifs <;> simp

theorem count_entriesOf (e : DTEntry) (he : e ∈ entriesOf n pos view) (hins : e.isInsert = true) :
    e.count = 1 := by
  induction view generalizing pos with
  | nil =>
    simp only [entriesOf] at he
    split_ifs at he <;> simp_all
  | cons x view ih =>
    cases x with
    | delta id =>
      rcases mem_cons.1 he with rfl | he
      · rfl
      · exact ih he
    | stable sid =>
      simp only [entriesOf] at he
      split_ifs at he
      · rcases mem_cons.1 he with rfl | he
        · cases hins
        · exact ih he
      · exact ih he

/-- The entries may follow a part of the stable that is in the view. -/
theorem entriesOf_spec (h : StableInOrder n pos view) (hp : p ≤ pos) (hpos : pos ≤ n) :
    ValidEntries p (entriesOf n pos view) (n - p) ∧
      mergeEntries .delta p (entriesOf n pos view) ((range' p (n - p)).map .stable)
        = (range' p (pos - p)).map .stable ++ view := by
  have hsplit : ∀ p k, p ≤ k → k ≤ n →
      (range' p (n - p)).map ViewRow.stable = (range' p (k - p)).map .stable ++ (range' k (n - k)).map .stable := by
    intro p k hp hk
    rw [← map_append, show n - p = (k - p) + (n - k) by omega, ← range'_append_1, Nat.add_sub_cancel' hp]
  have htake : ∀ p k, p ≤ k → k ≤ n → ((range' p (n - p)).map ViewRow.stable).take (k - p)
      = (range' p (k - p)).map .stable := fun p k hp hk => by
    rw [hsplit p k hp hk, take_left' (by simp)]
  have hdrop : ∀ p k, p ≤ k → k ≤ n → ((range' p (n - p)).map ViewRow.stable).drop (k - p)
      = (range' k (n - k)).map .stable := fun p k hp hk => by
    rw [hsplit p k hp hk, drop_left' (by simp)]
  induction view generalizing pos p with
  | nil =>
    by_cases hlt : pos < n
    · simp only [entriesOf, if_pos hlt, ValidEntries, mergeEntries, htake p pos hp hpos]
      simp
      omega
    · obtain rfl : pos = n := by omega
      simp [entriesOf, ValidEntries, mergeEntries]
  | cons x view ih =>
    cases x with
    | delta id =>
      obtain ⟨hvalid, hmerge⟩ := @ih pos pos h le_rfl hpos
      have hleft : n - p - (pos - p) = n - pos := by omega
      simp only [entriesOf, ValidEntries, mergeEntries, htake p pos hp hpos, hdrop p pos hp hpos, if_true, hmerge, hleft,
        Nat.sub_self, range'_zero, map_nil, nil_append, range'_one, map_cons, singleton_append]
      exact ⟨⟨hp, by omega, hvalid⟩, trivial⟩
    | stable sid =>
      obtain ⟨hle, hlt, h⟩ := h
      by_cases hgap : pos < sid
      · obtain ⟨hvalid, hmerge⟩ := @ih (sid + 1) sid h (Nat.le_succ _) hlt
        have hleft : n - p - (sid - p) = n - sid := by omega
        have hskip : pos - p + (sid - pos) = sid - p := by omega
        simp only [entriesOf, if_pos hgap, ValidEntries, mergeEntries, htake p pos hp hpos, Bool.false_eq_true, if_false,
          hskip, hleft, Nat.add_sub_cancel' hle, hdrop p sid (hp.trans hle) hlt.le, hmerge]
        exact ⟨⟨hp, by omega, hvalid⟩, by simp⟩
      · obtain rfl : pos = sid := by omega
        obtain ⟨hvalid, hmerge⟩ := @ih (pos + 1) p h (by omega) hlt
        rw [entriesOf, if_neg hgap, hmerge, show pos + 1 - p = pos - p + 1 by omega, range'_1_concat,
          Nat.add_sub_cancel' hp, map_append, append_assoc]
        exact ⟨hvalid, rfl⟩

/-- A tree is its view, where the rows of the stable are in order. -/
def viewTree (n : Nat) : EntryTree n { view : List ViewRow // StableInOrder n 0 view } where
  view t := t.1
  addDelete t rid := ⟨t.1.eraseIdx rid, t.2.eraseIdx rid⟩
  addInsert t rid tupleId := ⟨t.1.insertIdx rid (.delta tupleId), t.2.insertIdx rid tupleId⟩
  view_addDelete _ _ := rfl
  view_addInsert _ _ _ _ := rfl
  empty := ⟨(range' 0 (n - 0)).map .stable, stableInOrder_range' (Nat.zero_le n)⟩
  entries t := entriesOf n 0 t.1
  mapValues t f := ⟨t.1.map (ViewRow.rename f), t.2.rename f⟩
  valid t := (entriesOf_spec t.2 le_rfl (Nat.zero_le n)).1
  single _ := count_entriesOf
  view_eq t := by
    rw [range_eq_range']
    exact (entriesOf_spec t.2 le_rfl (Nat.zero_le n)).2.symm
  entries_empty := entriesOf_range' (Nat.zero_le n)
  entries_mapValues _ f := entriesOf_rename f

end ViewTree

/-- A pack with the handles 5 and 3, which the flush sorts -/
def unsortedPack : FlushedPack false Unit :=
  ⟨.block [⟨.int 5, 0, false, ()⟩, ⟨.int 3, 0, false, ()⟩], some [1, 0]⟩

/-- The stable has the handle 4. -/
def handle4 (_ : Nat) : Row (RowKey false) Unit :=
  ⟨.int 4, 0, false, ()⟩

/-- The handles of the view are 3, 4 and 5; the flush exchanges the tuple ids of 3 and 5. -/
theorem cloneWithUpdates_of_unsorted :
    let old : DeltaIndex _ := ⟨⟨[.delta 1, .stable 0, .delta 0], by simp [StableInOrder]⟩, 2, 0⟩
    let new : DeltaIndex _ := ⟨⟨[.delta 0, .stable 0, .delta 1], by simp [StableInOrder]⟩, 2, 0⟩
    cloneWithUpdates (viewTree 1) old (deltaIndexUpdates 0 0 [unsortedPack]) = .ok new ∧
    [0, 1].map (fun id => rowOf handle4 [unsortedPack.rewritten] (.delta id))
      = [1, 0].map fun id => rowOf handle4 [unsortedPack.pack] (.delta id) := by
  intro old new
  have hnew : cloneWithUpdates (viewTree 1) old (deltaIndexUpdates 0 0 [unsortedPack]) = .ok new := rfl
  have hids : [1, 0].Perm (range' 0 2) := by decide
  have htags : ∀ i ∈ [1, 0], ∃ row, (taggedRows 0 [unsortedPack.pack])[i]? = some (0, row) := by
    intro i hi
    rcases mem_pair.1 hi with rfl | rfl <;> exact ⟨_, rfl⟩
  have hstep : PlaceStep handle4 [unsortedPack.pack] (0, 0, [.stable 0]) _ := .block hids htags
  refine ⟨hnew, (cloneWithUpdates_same_view (viewTree 1) handle4 [unsortedPack] old new ?_ (by simp)
    (.single ?_) hnew).2.2⟩
  · intro p hp perm hperm
    obtain rfl := mem_singleton.1 hp
    obtain rfl := Option.some.inj hperm
    exact ⟨rfl, by decide⟩
  · exact hstep

end TiFlash.DM
