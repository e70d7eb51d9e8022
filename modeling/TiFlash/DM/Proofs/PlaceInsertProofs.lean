import TiFlash.DM.Proofs.DeltaPlaceProofs

/-!
# Proofs: placing upserts

Every row id of `placeInsert` is the number of rows before the row in the view that the rows before it
leave, and the flag says whether that view has its key. A row that the next one repeats is at the head of
the rows ahead, in place of the row it has replaced, or between them and the rows passed (`UpsertAt`).
-/

namespace TiFlash.DM

open TiFlash.Lib List

variable {c : Bool} {K τ : Type}

/-! ## Upserting one row into a view -/

section View

variable [LinearOrder K] {key : ViewRow → K}

/-- A view with a row of the delta in its place, instead of the row with the same key. -/
def upsertRow (key : ViewRow → K) (view : List ViewRow) (tupleId : Nat) : List ViewRow :=
  view.filter (fun r => decide (key r < key (.delta tupleId))) ++
    .delta tupleId :: view.filter fun r => decide (key (.delta tupleId) < key r)

variable {view : List ViewRow} {tupleId : Nat} {r : ViewRow}

theorem mem_upsertRow :
    r ∈ upsertRow key view tupleId ↔ (r ∈ view ∧ key r ≠ key (.delta tupleId)) ∨ r = .delta tupleId := by
  simp only [upsertRow, mem_append, mem_cons, mem_filter, decide_eq_true_eq, ne_iff_lt_or_gt]
  tauto

theorem pairwise_upsertRow (h : (view.map key).Pairwise (· < ·)) (tupleId : Nat) :
    ((upsertRow key view tupleId).map key).Pairwise (· < ·) := by
  rw [pairwise_map] at h ⊢
  refine pairwise_append.2 ⟨h.filter _, pairwise_cons.2 ⟨?_, h.filter _⟩, ?_⟩
  · intro r hr
    simpa using (mem_filter.1 hr).2
  · intro a ha b hb
    have ha : key a < key (.delta tupleId) := by simpa using (mem_filter.1 ha).2
    rcases mem_cons.1 hb with rfl | hb
    · exact ha
    · exact ha.trans (by simpa using (mem_filter.1 hb).2)

/-- Between the rows before it and the rows behind it there is room for one row. -/
theorem upsertRow_of_split {before after : List ViewRow} {same : Option ViewRow}
    (hbefore : ∀ r ∈ before, key r < key (.delta tupleId))
    (hafter : ∀ r ∈ after, key (.delta tupleId) < key r)
    (hsame : ∀ r ∈ same, key r = key (.delta tupleId)) :
    upsertRow key (before ++ same.toList ++ after) tupleId = before ++ .delta tupleId :: after := by
  have hlt : before.filter (fun r => decide (key r < key (.delta tupleId))) = before ∧
      before.filter (fun r => decide (key (.delta tupleId) < key r)) = [] :=
    ⟨filter_eq_self.2 (by simpa using hbefore),
      filter_eq_nil_iff.2 (by simpa using fun r hr => (hbefore r hr).le)⟩
  have hgt : after.filter (fun r => decide (key r < key (.delta tupleId))) = [] ∧
      after.filter (fun r => decide (key (.delta tupleId) < key r)) = after :=
    ⟨filter_eq_nil_iff.2 (by simpa using fun r hr => (hafter r hr).le),
      filter_eq_self.2 (by simpa using hafter)⟩
  have hmid : same.toList.filter (fun r => decide (key r < key (.delta tupleId))) = [] ∧
      same.toList.filter (fun r => decide (key (.delta tupleId) < key r)) = [] := by
    cases same with
    | none => exact ⟨rfl, rfl⟩
    | some m => simp [hsame m rfl]
  simp only [upsertRow, filter_append, hlt, hgt, hmid, append_nil, nil_append]

/-- The view after some upserts has the rows of the delta that no later one repeats, and the other rows whose
keys none of them has. -/
theorem mem_foldl_upsertRow {tupleIds : List Nat} :
    r ∈ tupleIds.foldl (upsertRow key) view ↔
      (r ∈ view ∧ ∀ id ∈ tupleIds, key (.delta id) ≠ key r) ∨
      ∃ earlier id later, tupleIds = earlier ++ id :: later ∧ r = .delta id ∧
        ∀ id' ∈ later, key (.delta id') ≠ key r := by
  induction tupleIds generalizing view with
  | nil => simp
  | cons id tupleIds ih =>
    rw [foldl_cons, ih, mem_upsertRow]
    constructor
    · rintro (⟨⟨hr, hne⟩ | rfl, hall⟩ | ⟨earlier, id', later, rfl, rfl, hlater⟩)
      · exact .inl ⟨hr, forall_mem_cons.2 ⟨hne.symm, hall⟩⟩
      · exact .inr ⟨[], id, tupleIds, rfl, rfl, hall⟩
      · exact .inr ⟨id :: earlier, id', later, rfl, rfl, hlater⟩
    · rintro (⟨hr, hall⟩ | ⟨earlier, id', later, hsplit, rfl, hlater⟩)
      · obtain ⟨hne, hall⟩ := forall_mem_cons.1 hall
        exact .inl ⟨.inl ⟨hr, hne.symm⟩, hall⟩
      · cases earlier with
        | nil =>
          obtain ⟨rfl, rfl⟩ := cons.inj hsplit
          exact .inl ⟨.inr rfl, hlater⟩
        | cons x earlier =>
          obtain ⟨rfl, rfl⟩ := cons.inj hsplit
          exact .inr ⟨earlier, id', later, rfl, rfl, hlater⟩

theorem pairwise_foldl_upsertRow (h : (view.map key).Pairwise (· < ·)) (tupleIds : List Nat) :
    ((tupleIds.foldl (upsertRow key) view).map key).Pairwise (· < ·) := by
  induction tupleIds generalizing view with
  | nil => exact h
  | cons id tupleIds ih => exact ih (pairwise_upsertRow h id)

end View

theorem insertIdx_append_length {α : Type} (P Q : List α) (q : α) :
    (P ++ Q).insertIdx P.length q = P ++ q :: Q := by
  induction P with
  | nil => rfl
  | cons p P ih => exact congrArg (p :: ·) ih

theorem view_upsert (T : PlaceTree τ) {tree : τ} {before after : List ViewRow} {same : Option ViewRow}
    (h : T.view tree = before ++ same.toList ++ after) (tupleId : Nat) :
    T.view (T.addInsert (if same.isSome then T.addDelete tree before.length else tree) before.length tupleId)
      = before ++ .delta tupleId :: after := by
  have herase : T.view (if same.isSome then T.addDelete tree before.length else tree)
      = before ++ after := by
    cases same with
    | none => simpa using h
    | some m =>
      simp only [Option.isSome_some, if_true, T.view_addDelete, h, Option.toList_some, append_assoc,
        singleton_append]
      rw [eraseIdx_append_of_length_le le_rfl, Nat.sub_self, eraseIdx_zero, tail_cons]
  rw [T.view_addInsert _ _ _ (by rw [herase]; simp), herase, insertIdx_append_length]

/-! ## The row ids of a block -/

section Rids

variable [LinearOrder K] {key : ViewRow → K} {g : RidGenerator K} {keys : List K}

/-- A generator in a view has passed the rows `P`, and `Q` are ahead. Between them may be the row of the delta
that the next row repeats. -/
structure UpsertAt (key : ViewRow → K) (g : RidGenerator K) (keys : List K) (P : List ViewRow)
    (M : Option ViewRow) (Q : List ViewRow) : Prop where
  rid : g.rid = P.length
  ahead : Q.map key = g.ahead
  sorted : g.ahead.Pairwise (· < ·)
  passed : ∀ r ∈ P, ∀ k ∈ keys, key r < k
  pending : ∀ m ∈ M, g.dupPrev = true ∧ keys.head? = some (key m) ∧ ∀ k ∈ g.ahead, key m < k
  repeated : M = none → g.dupPrev = true → ∃ k, keys.head? = some k ∧ g.ahead.head? = some k

variable {k : K}

theorem lt_of_lt_head (hkeys : keys.Pairwise (· ≤ ·)) (hlt : ∀ y ∈ keys.head?, k < y) :
    ∀ x ∈ keys, k < x := by
  cases keys with
  | nil => simp
  | cons y keys =>
    have hy : k < y := hlt y rfl
    exact forall_mem_cons.2 ⟨hy, fun x hx => hy.trans_le ((pairwise_cons.1 hkeys).1 x hx)⟩

theorem lt_of_head?_ne (hkeys : (k :: keys).Pairwise (· ≤ ·)) (hne : keys.head? ≠ some k) :
    ∀ x ∈ keys, k < x := by
  obtain ⟨hle, hkeys⟩ := pairwise_cons.1 hkeys
  refine lt_of_lt_head hkeys fun y hy => lt_of_le_of_ne (hle y (mem_of_mem_head? hy)) ?_
  rintro rfl
  exact hne hy

variable {tupleId : Nat}

/-- The generator behind a row of the block that the next one does not repeat. -/
theorem UpsertAt.of_passed {g : RidGenerator K} {before after : List ViewRow}
    (hid : key (.delta tupleId) = k) (hlt : ∀ x ∈ keys, k < x) (hbefore : ∀ r ∈ before, key r < k)
    (hrid : g.rid = before.length + 1) (hdup : g.dupPrev = false) (hahead : after.map key = g.ahead)
    (hsorted : g.ahead.Pairwise (· < ·)) :
    UpsertAt key g keys (before ++ [.delta tupleId]) none after where
  rid := by simp [hrid]
  ahead := hahead
  sorted := hsorted
  passed := forall_mem_append.2 ⟨fun r hr x hx => (hbefore r hr).trans (hlt x hx),
    forall_mem_singleton.2 (hid ▸ hlt)⟩
  pending := by simp
  repeated := by simp [hdup]

variable {P Q : List ViewRow} {M : Option ViewRow}

theorem UpsertAt.passed_rows {Q₁ : List ViewRow} {passed : List K}
    (h : UpsertAt key g (k :: keys) P M Q) (hQ₁ : Q₁.map key = passed) (hpassed : ∀ x ∈ passed, x < k) :
    g.rid + passed.length = (P ++ Q₁).length ∧ ∀ r ∈ P ++ Q₁, key r < k := by
  subst hQ₁
  exact ⟨by rw [h.rid, length_append, length_map], forall_mem_append.2
    ⟨fun r hr => h.passed r hr k mem_cons_self, fun r hr => hpassed _ (mem_map_of_mem hr)⟩⟩

/-- One row of the block: its row id is its place in the view, and the flag says whether there is a row
to replace. -/
theorem UpsertAt.step (h : UpsertAt key g (k :: keys) P M Q) (hkeys : (k :: keys).Pairwise (· ≤ ·))
    (hid : key (.delta tupleId) = k) : ∃ before after same P' M' Q',
      P ++ M.toList ++ Q = before ++ Option.toList same ++ after ∧ (∀ r ∈ before, key r < k) ∧
      (∀ r ∈ after, k < key r) ∧ (∀ r ∈ same, key r = k) ∧
      (g.nextForUpsert k (keys.head? = some k)).1 = (before.length, same.isSome) ∧
      P' ++ Option.toList M' ++ Q' = before ++ .delta tupleId :: after ∧
      UpsertAt key (g.nextForUpsert k (keys.head? = some k)).2 keys P' M' Q' := by
  have hle := (pairwise_cons.1 hkeys).1
  have hstep := nextForUpsert_spec k (decide (keys.head? = some k)) g
  have hsorted := h.sorted
  have hahead := h.ahead
  generalize g.nextForUpsert k (decide (keys.head? = some k)) = res at hstep ⊢
  cases hstep with
  | @found passed tail g' hsplit hpassed hdup htail hrid =>
    have hnone : M = none := by
      refine Option.eq_none_iff_forall_not_mem.2 fun m hm => ?_
      obtain ⟨-, hhead, hlt⟩ := h.pending m hm
      obtain rfl : k = key m := Option.some.inj hhead
      exact lt_irrefl _ (hlt _ (by simp [hsplit]))
    rw [hsplit] at hsorted hahead
    obtain ⟨-, hcons, -⟩ := pairwise_append.1 hsorted
    obtain ⟨Q₁, Q', rfl, hQ₁, hQ'⟩ := map_eq_append_iff.1 hahead
    obtain ⟨q, Q₂, rfl, hq, hQ₂⟩ := map_eq_cons_iff.1 hQ'
    obtain ⟨hlen, hbefore⟩ := h.passed_rows hQ₁ hpassed
    have hafter : ∀ r ∈ Q₂, k < key r := fun r hr =>
      (pairwise_cons.1 hcons).1 _ (hQ₂ ▸ mem_map_of_mem hr)
    rw [hlen] at hrid ⊢
    by_cases hnext : keys.head? = some k
    · simp only [hnext, decide_true, if_true] at hdup htail hrid
      refine ⟨P ++ Q₁, Q₂, some q, P ++ Q₁, none, .delta tupleId :: Q₂, by simp [hnone], hbefore, hafter,
        by simp [hq], rfl, by simp, ?_⟩
      exact {
        rid := hrid
        ahead := by rw [htail, map_cons, hid, hQ₂]
        sorted := by rwa [htail]
        passed := fun r hr x hx => (hbefore r hr).trans_le (hle x hx)
        pending := by simp
        repeated := fun _ _ => ⟨k, hnext, by rw [htail, head?_cons]⟩ }
    · simp only [hnext, decide_false, Bool.false_eq_true, if_false] at hdup htail hrid
      refine ⟨P ++ Q₁, Q₂, some q, P ++ Q₁ ++ [.delta tupleId], none, Q₂, by simp [hnone], hbefore, hafter,
        by simp [hq], rfl, by simp, ?_⟩
      exact .of_passed hid (lt_of_head?_ne hkeys hnext) hbefore hrid hdup (by rw [htail, hQ₂])
        (by rw [htail]; exact (pairwise_cons.1 hcons).2)
  | @absent passed tail g' hsplit hpassed hlt hdup htail hrid =>
    rw [hsplit] at hsorted hahead
    obtain ⟨-, htails, -⟩ := pairwise_append.1 hsorted
    obtain ⟨Q₁, Q₂, rfl, hQ₁, hQ₂⟩ := map_eq_append_iff.1 hahead
    have hsame : ∀ m ∈ M, key m = k ∧ passed = [] := by
      intro m hm
      obtain ⟨-, hhead, hmlt⟩ := h.pending m hm
      obtain rfl : k = key m := Option.some.inj hhead
      refine ⟨rfl, eq_nil_iff_forall_not_mem.2 fun x hx => ?_⟩
      exact lt_irrefl x ((hpassed x hx).trans (hmlt x (by simp [hsplit, hx])))
    have htailgt : ∀ x ∈ tail, k < x := lt_of_lt_head (htails.imp le_of_lt) hlt
    have hflag : g.dupPrev = M.isSome := by
      cases hM : M with
      | some m => exact (h.pending m hM).1
      | none =>
        refine Bool.eq_false_iff.2 fun hdup => ?_
        obtain ⟨x, hx, hhead⟩ := h.repeated hM hdup
        obtain rfl : k = x := Option.some.inj hx
        rcases mem_append.1 (hsplit ▸ mem_of_mem_head? hhead) with hk | hk
        · exact lt_irrefl k (hpassed k hk)
        · exact lt_irrefl k (htailgt k hk)
    obtain ⟨hlen, hbefore⟩ := h.passed_rows hQ₁ hpassed
    have hafter : ∀ r ∈ Q₂, k < key r := fun r hr => htailgt _ (hQ₂ ▸ mem_map_of_mem hr)
    have hview : P ++ M.toList ++ (Q₁ ++ Q₂) = P ++ Q₁ ++ M.toList ++ Q₂ := by
      cases hM : M with
      | none => simp
      | some m =>
        have hnil : Q₁ = [] := by rw [← map_eq_nil_iff, hQ₁, (hsame m hM).2]
        simp [hnil]
    rw [hlen, hflag]
    rw [hlen] at hrid
    by_cases hnext : keys.head? = some k
    · simp only [hnext, decide_true, if_true] at hdup hrid
      refine ⟨P ++ Q₁, Q₂, M, P ++ Q₁, some (.delta tupleId), Q₂, hview, hbefore, hafter,
        fun m hm => (hsame m hm).1, rfl, by simp, ?_⟩
      exact {
        rid := hrid
        ahead := by rw [htail, hQ₂]
        sorted := by rwa [htail]
        passed := fun r hr x hx => (hbefore r hr).trans_le (hle x hx)
        pending := by
          rintro m ⟨⟩
          exact ⟨hdup, by rw [hid, hnext], by rwa [hid, htail]⟩
        repeated := by simp }
    · simp only [hnext, decide_false, Bool.false_eq_true, if_false] at hdup hrid
      refine ⟨P ++ Q₁, Q₂, M, P ++ Q₁ ++ [.delta tupleId], none, Q₂, hview, hbefore, hafter,
        fun m hm => (hsame m hm).1, rfl, by simp, ?_⟩
      exact .of_passed hid (lt_of_head?_ne hkeys hnext) hbefore hrid hdup (by rw [htail, hQ₂]) (by rwa [htail])

/-- The whole block: the tree has the rows that the upserts leave, one after the other. -/
theorem view_applyUpserts (T : PlaceTree τ) {tupleIds : List Nat}
    (h : UpsertAt key g keys P M Q) (hkeys : keys.Pairwise (· ≤ ·))
    (hids : tupleIds.map (fun id => key (.delta id)) = keys) {tree : τ}
    (hview : T.view tree = P ++ M.toList ++ Q) :
    T.view (applyUpserts T tree ((upsertRids g keys).zip tupleIds))
      = tupleIds.foldl (upsertRow key) (T.view tree) := by
  induction keys generalizing g P M Q tupleIds tree with
  | nil =>
    obtain rfl : tupleIds = [] := map_eq_nil_iff.1 hids
    rfl
  | cons k keys ih =>
    obtain ⟨tupleId, tupleIds, rfl, hid, hids⟩ := map_eq_cons_iff.1 hids
    obtain ⟨before, after, same, P', M', Q', hold, hbefore, hafter, hsame, hrid, hnew, hat⟩ := h.step hkeys hid
    have hupsert := view_upsert T (hview.trans hold) tupleId
    have hrow : upsertRow key (T.view tree) tupleId = before ++ .delta tupleId :: after := by
      rw [hview, hold, upsertRow_of_split (by rwa [hid]) (by rwa [hid]) (by rwa [hid])]
    rw [upsertRids, zip_cons_cons, applyUpserts, foldl_cons, foldl_cons, hrid, hrow,
      ← hupsert]
    exact ih hat (pairwise_cons.1 hkeys).2 hids (by rw [hupsert, hnew])

end Rids

/-! ## `placeInsert` -/

section PlaceInsert

variable {key : ViewRow → SortKey c} {block : List (SortKey c)} {range : RowKeyRange c}
  {deltaValueSpaceOffset : Nat} {rowIdRef : Option (List Nat)}

def indicesInRange (block : List (SortKey c)) (range : RowKeyRange c) : List Nat :=
  (List.range block.length).filter fun i => range.check (block.getD i default).handle

/-- The tuple ids of the rows of a block that are in the range, in the order of the block -/
def tupleIdsInRange (block : List (SortKey c)) (range : RowKeyRange c) (deltaValueSpaceOffset : Nat)
    (rowIdRef : Option (List Nat)) : List Nat :=
  (indicesInRange block range).map (tupleIdOf deltaValueSpaceOffset rowIdRef)

theorem map_getD_range (block : List (SortKey c)) :
    (List.range block.length).map (fun i => block.getD i default) = block := by
  refine ext_getElem (by simp) fun i h₁ h₂ => ?_
  simp [h₂]

variable {limit offset : Nat}

theorem take_drop_range {n : Nat} (h : limit ≤ n - offset) :
    ((List.range n).drop offset).take limit = (List.range limit).map fun i => offset + i := by
  refine ext_getElem (by simp [h]) fun i h₁ h₂ => ?_
  simp

theorem placeInsert_eq (T : PlaceTree τ) {tree : τ} {blocks : List (SortKey c × List (SortKey c))} (hview : ((T.view tree).map key).Pairwise (· < ·))
    (hblocks : blockRows blocks = (T.view tree).map key)
    (hblock : block.Pairwise (· ≤ ·))
    (hids : (List.range block.length).map (fun i => key (.delta (tupleIdOf deltaValueSpaceOffset rowIdRef i)))
      = block) (hpos : getPosRangeOfSorted range (block.map SortKey.handle) = .ok (offset, limit)) : ∃ tree',
    placeInsert T ⟨0, blocks⟩ block range tree deltaValueSpaceOffset rowIdRef
      = .ok (block.all fun k => range.check k.handle, tree') ∧
    T.view tree' = (tupleIdsInRange block range deltaValueSpaceOffset rowIdRef).foldl (upsertRow key)
      (T.view tree) := by
  have hhandles := pairwise_handle hblock
  obtain ⟨hlimit, hrows⟩ := getPosRangeOfSorted_spec hhandles hpos
  have hcut : ((List.range block.length).drop offset).take limit = indicesInRange block range := by
    refine hrows _ (fun i => (block.getD i default).handle) ?_
    conv_rhs => rw [← map_getD_range block, map_map]
    rfl
  have hkeys : (block.drop offset).take limit = (indicesInRange block range).map fun i => block.getD i default := by
    rw [← hcut, map_take, map_drop, map_getD_range]
  have hfilter : (block.filter fun k => range.check k.handle)
      = (indicesInRange block range).map fun i => block.getD i default := by
    conv_lhs => rw [← map_getD_range block, filter_map]
    rfl
  have hcount : limit = (indicesInRange block range).length := by
    rw [hlimit, filter_map, length_map]
    exact (congrArg length hfilter).trans (length_map _)
  have htupleIds : (List.range limit).map (fun i => tupleIdOf deltaValueSpaceOffset rowIdRef (offset + i))
      = tupleIdsInRange block range deltaValueSpaceOffset rowIdRef := by
    have hle : limit ≤ block.length - offset := by
      have := congrArg length hcut
      rw [length_take, length_drop, length_range, ← hcount] at this
      omega
    rw [tupleIdsInRange, ← hcut, take_drop_range hle, map_map]
    rfl
  have hall : (block.length == limit) = block.all fun k => range.check k.handle := by
    rw [hcount, Bool.eq_iff_iff, beq_iff_eq, all_eq_true, ← length_filter_eq_length_iff, hfilter,
      length_map, eq_comm]
  have hsorted : ((indicesInRange block range).map fun i => block.getD i default).Pairwise (· ≤ ·) :=
    hfilter ▸ hblock.filter _
  have hidkeys : (tupleIdsInRange block range deltaValueSpaceOffset rowIdRef).map (fun id => key (.delta id))
      = (indicesInRange block range).map fun i => block.getD i default := by
    have hpoint := map_inj_left.1 (hids.trans (map_getD_range block).symm)
    rw [tupleIdsInRange, map_map]
    exact map_congr_left fun i hi => hpoint i (mem_filter.1 hi).1
  simp only [placeInsert, hpos, hkeys, bind, Except.bind, htupleIds, hall, checkSorted_of_pairwise hsorted]
  by_cases hzero : limit = 0
  · have hnil : tupleIdsInRange block range deltaValueSpaceOffset rowIdRef = [] := by
      rw [← htupleIds, hzero]
      rfl
    exact ⟨tree, by rw [if_pos hzero]; rfl, by rw [hnil]; rfl⟩
  · refine ⟨_, by rw [if_neg hzero]; rfl, ?_⟩
    refine view_applyUpserts T (P := []) (M := none) (Q := T.view tree) ?_ hsorted hidkeys (by simp)
    rw [← hblocks] at hview
    exact ⟨rfl, hblocks.symm, hview, by simp, by simp, fun _ h => absurd h Bool.false_ne_true⟩

/-- In a strictly increasing view, `placeInsert` puts the rows of the block in the range, of each key the
last, keeps the other rows and returns whether all rows are in the range. It fails exactly for a row that is
neither behind the start nor before the end. -/
theorem placeInsert_merges (T : PlaceTree τ) (key : ViewRow → SortKey c) (tree : τ)
    (blocks : List (SortKey c × List (SortKey c))) (block : List (SortKey c)) (range : RowKeyRange c)
    (deltaValueSpaceOffset : Nat) (rowIdRef : Option (List Nat))
    (hview : ((T.view tree).map key).Pairwise (· < ·)) (hblocks : blockRows blocks = (T.view tree).map key)
    (hblock : block.Pairwise (· ≤ ·))
    (hids : (List.range block.length).map (fun i => key (.delta (tupleIdOf deltaValueSpaceOffset rowIdRef i)))
      = block) :
    ((∃ k ∈ block, range.checkStart k.handle = false ∧ range.checkEnd k.handle = false) →
      placeInsert T ⟨0, blocks⟩ block range tree deltaValueSpaceOffset rowIdRef = .error .lengthError) ∧
    ((∀ k ∈ block, range.checkStart k.handle = true ∨ range.checkEnd k.handle = true) →
      ∃ full tree', placeInsert T ⟨0, blocks⟩ block range tree deltaValueSpaceOffset rowIdRef
          = .ok (full, tree') ∧
        (full = true ↔ ∀ k ∈ block, range.check k.handle = true) ∧
        ((T.view tree').map key).Pairwise (· < ·) ∧
        ∀ r, r ∈ T.view tree' ↔
          (r ∈ T.view tree ∧ ∀ k ∈ block, range.check k.handle = true → k ≠ key r) ∨
          ∃ earlier id later,
            tupleIdsInRange block range deltaValueSpaceOffset rowIdRef = earlier ++ id :: later ∧
            r = .delta id ∧ ∀ id' ∈ later, key (.delta id') ≠ key r) := by
  refine ⟨?_, fun hrange => ?_⟩
  · rintro ⟨k, hk, hstart, hend⟩
    have hpos := getPosRangeOfSorted_fails (pairwise_handle hblock) (mem_map_of_mem hk) hstart hend
    simp only [placeInsert, hpos, bind, Except.bind]
  obtain ⟨offset, limit, hpos⟩ := getPosRangeOfSorted_isOk (pairwise_handle hblock) (forall_mem_map.2 hrange)
  obtain ⟨tree', hplace, hview'⟩ := placeInsert_eq T hview hblocks hblock hids hpos
  refine ⟨_, tree', hplace, by rw [all_eq_true], ?_, fun r => ?_⟩
  · rw [hview']
    exact pairwise_foldl_upsertRow hview _
  · have hpoint := map_inj_left.1 (hids.trans (map_getD_range block).symm)
    have hnone : (∀ id ∈ tupleIdsInRange block range deltaValueSpaceOffset rowIdRef, key (.delta id) ≠ key r) ↔
        ∀ k ∈ block, range.check k.handle = true → k ≠ key r := by
      conv_rhs => rw [← map_getD_range block]
      simp only [tupleIdsInRange, indicesInRange, forall_mem_map, mem_filter, and_imp]
      exact forall₂_congr fun i hi => imp_congr_right fun _ => by rw [hpoint i hi]
    rw [hview', mem_foldl_upsertRow, hnone]

/-- A stable with the handles 1 and 3, and a value space with the handles 2, 3 and 3 -/
def smallRows : ViewRow → SortKey false
  | .stable sid => [toLex (.int 1, 0)].getD sid (toLex (.int 3, 0))
  | .delta id => [toLex (.int 2, 0)].getD id (toLex (.int 3, 0))

/-- The handle 2 is inserted, and the second row with the handle 3 replaces that of the stable. -/
theorem placeInsert_merges_repeated : ∃ full view,
    placeInsert .rows ⟨0, [(smallRows (.stable 0), [smallRows (.stable 1)])]⟩
      [smallRows (.delta 0), smallRows (.delta 1), smallRows (.delta 2)] (.newAll false 1)
      [.stable 0, .stable 1] 0 none = .ok (full, view) ∧ full = true ∧
    ViewRow.delta 2 ∈ view ∧ ViewRow.delta 1 ∉ view ∧ ViewRow.stable 1 ∉ view := by
  obtain ⟨full, view, hplace, hfull, -, hmem⟩ := (placeInsert_merges .rows smallRows [.stable 0, .stable 1]
    [(smallRows (.stable 0), [smallRows (.stable 1)])]
    [smallRows (.delta 0), smallRows (.delta 1), smallRows (.delta 2)] (.newAll false 1) 0 none
    (by decide) rfl (by decide) rfl).2 (by decide)
  have hids : tupleIdsInRange [smallRows (.delta 0), smallRows (.delta 1), smallRows (.delta 2)]
      (.newAll false 1) 0 none = [0, 1, 2] := by decide
  refine ⟨full, view, hplace, hfull.2 (by decide), (hmem _).2 (.inr ?_), fun h => ?_, fun h => ?_⟩
  · exact ⟨[0, 1], 2, [], hids, rfl, by simp⟩
  · rcases (hmem _).1 h with ⟨hview, -⟩ | ⟨earlier, id, later, hsplit, hid, hlater⟩
    · exact absurd hview (by decide)
    · obtain rfl : id = 1 := (ViewRow.delta.inj hid).symm
      rw [hids] at hsplit
      have hlast : 2 ∈ later := by
        rcases earlier with _ | ⟨a, _ | ⟨b, _ | ⟨d, earlier⟩⟩⟩ <;> simp at hsplit
        simp [← hsplit.2]
      exact hlater 2 hlast rfl
  · rcases (hmem _).1 h with ⟨-, hkeys⟩ | ⟨earlier, id, later, hsplit, hid, hlater⟩
    · exact hkeys (smallRows (.delta 1)) (by decide) (by decide) rfl
    · exact ViewRow.noConfusion hid

/-- The range of no keys, which `mergeRanges` gives for no ranges, starts behind its end: the placement
of a block ends in an exception. -/
theorem placeInsert_fails_for_no_range :
    placeInsert .rows ⟨0, []⟩ [smallRows (.delta 0)] (.newNone false 1) [] 0 none
      = .error .lengthError := by
  have hpos : getPosRangeOfSorted (.newNone false 1) [(smallRows (.delta 0)).handle] = .error .lengthError :=
    getPosRangeOfSorted_fails (by decide) mem_cons_self (by decide) (by decide)
  simp only [placeInsert, map_cons, map_nil, hpos, bind, Except.bind]

end PlaceInsert

end TiFlash.DM
