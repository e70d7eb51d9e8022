import TiFlash.DM.Proofs.DeltaPlaceProofs

/-!
# Proofs: placing deletes

`nextForDelete` counts a row that it does not find, so the row ids after it are too large. All rows of a
block are taken out exactly when those that are found come first (`FoundFirst`).
-/

namespace TiFlash.DM

open TiFlash.Lib List RidGenerator

variable {c : Bool} {K τ : Type}

/-! ## Applying row ids -/

theorem view_applyDeletes (T : PlaceTree τ) (tree : τ) (rids : List (Option Nat)) :
    T.view (applyDeletes T tree rids) = applyDeletes .rows (T.view tree) rids := by
  induction rids generalizing tree with
  | nil => rfl
  | cons rid rids ih =>
    cases rid with
    | none => exact ih tree
    | some rid =>
      refine (ih (T.addDelete tree rid)).trans ?_
      rw [T.view_addDelete]
      rfl

theorem eraseIdx_split {α : Type} (P Q₁ Q₂ : List α) (q : α) :
    (P ++ (Q₁ ++ q :: Q₂)).eraseIdx (P.length + Q₁.length) = (P ++ Q₁) ++ Q₂ := by
  rw [← append_assoc, ← length_append, eraseIdx_append_of_length_le le_rfl, Nat.sub_self, eraseIdx_zero,
    tail_cons]

variable {k : K} {passed tail : List K}

/-- The rows of a view whose next keys are `passed`, `k` and `tail`. -/
theorem exists_split {key : ViewRow → K} {Q : List ViewRow}
    (hQ : Q.map key = passed ++ k :: tail) : ∃ Q₁ q Q₂, Q = Q₁ ++ q :: Q₂ ∧ Q₁.map key = passed ∧ key q = k ∧
      Q₂.map key = tail ∧ Q₁.length = passed.length := by
  obtain ⟨Q₁, Q', rfl, hQ₁, hQ'⟩ := map_eq_append_iff.1 hQ
  obtain ⟨q, Q₂, rfl, hq, hQ₂⟩ := map_eq_cons_iff.1 hQ'
  exact ⟨Q₁, q, Q₂, rfl, hQ₁, hq, hQ₂, by rw [← hQ₁, length_map]⟩

theorem mem_of_passed [LinearOrder K] {x : K} (hpassed : ∀ y ∈ passed, y < k)
    (hkx : k ≤ x) (hx : x ∈ passed ++ tail) : x ∈ tail :=
  (mem_append.1 hx).resolve_left fun hp => (hpassed x hp).not_ge hkx

theorem getElem?_applyDeletes {W : List ViewRow} {rids : List (Option Nat)} {i : Nat}
    (h : ∀ rid, some rid ∈ rids → i < rid) : (applyDeletes .rows W rids)[i]? = W[i]? := by
  induction rids generalizing W with
  | nil => rfl
  | cons rid rids ih =>
    have htail : ∀ rid, some rid ∈ rids → i < rid := fun r hr => h r (mem_cons_of_mem _ hr)
    cases rid with
    | none => exact ih htail
    | some rid =>
      refine (ih htail).trans ?_
      exact List.getElem?_eraseIdx_of_lt (h rid mem_cons_self)

/-! ## The row ids of a block -/

section Rids

variable [LinearOrder K] {key : ViewRow → K} {g : RidGenerator K} {keys : List K} {k : K}

theorem deleteRids_cons {rids : List (Option Nat)} :
    deleteRids g (k :: keys) = .ok rids ↔ ∃ rid g' rids', g.nextForDelete k = .ok (rid, g') ∧
      deleteRids g' keys = .ok rids' ∧ rids = rid :: rids' := by
  simp only [deleteRids, Except.bind_eq_ok_iff, Except.pure_eq_ok_iff, Prod.exists]
  constructor
  · rintro ⟨rid, g', hnext, rids', hrids, rfl⟩
    exact ⟨rid, g', rids', hnext, hrids, rfl⟩
  · rintro ⟨rid, g', rids', hnext, hrids, rfl⟩
    exact ⟨rid, g', hnext, rids', hrids, rfl⟩

variable {rids : List (Option Nat)}

theorem le_of_mem_deleteRids (h : deleteRids g keys = .ok rids) {rid : Nat}
    (hrid : some rid ∈ rids) : g.rid ≤ rid := by
  induction keys generalizing g rids with
  | nil =>
    obtain rfl : [] = rids := Except.ok.inj h
    exact absurd hrid not_mem_nil
  | cons k keys ih =>
    obtain ⟨r, g', rids', hnext, hrids, rfl⟩ := deleteRids_cons.1 h
    have hstep := nextForDelete_spec k g
    rw [hnext] at hstep
    cases hstep with
    | found hahead hpassed htail hg' =>
      rcases mem_cons.1 hrid with heq | hmem
      · rw [Option.some.inj heq]
        exact Nat.le_add_right _ _
      · have := ih hrids hmem
        omega
    | absent hahead hpassed hlt htail hg' =>
      rcases mem_cons.1 hrid with heq | hmem
      · exact absurd heq (by simp)
      · have := ih hrids hmem
        omega

/-- Rows that are not found leave the view as it is, as long as the stream does not end. -/
theorem deleteRids_absent (hkeys : keys.Pairwise (· ≤ ·)) (hahead : g.ahead.Pairwise (· < ·))
    (habsent : ∀ k ∈ keys, k ∉ g.ahead ∧ ∃ row ∈ g.ahead, k < row) (W : List ViewRow) :
    ∃ rids, deleteRids g keys = .ok rids ∧ applyDeletes .rows W rids = W := by
  induction keys generalizing g with
  | nil => exact ⟨[], rfl, rfl⟩
  | cons k keys ih =>
    obtain ⟨hle, hkeys⟩ := pairwise_cons.1 hkeys
    obtain ⟨hnot, row, hrow, hlt⟩ := habsent k mem_cons_self
    have hstep := nextForDelete_spec k g
    cases hnext : g.nextForDelete k with
    | error e =>
      rw [hnext] at hstep
      cases hstep with
      | atEnd hpassed => exact absurd (hpassed row hrow) hlt.not_gt
    | ok r =>
      obtain ⟨rid, g'⟩ := r
      rw [hnext] at hstep
      cases hstep with
      | found hsplit hpassed htail hg' => exact absurd (by simp [hsplit]) hnot
      | @absent passed tail k' _ hsplit hpassed hlt' htail hg' =>
        have hahead' : g'.ahead.Pairwise (· < ·) := by
          rw [hsplit, ← htail] at hahead
          exact (pairwise_append.1 hahead).2.1
        have hrest : ∀ x ∈ keys, x ∉ g'.ahead ∧ ∃ row ∈ g'.ahead, x < row := by
          intro x hx
          obtain ⟨hxnot, row, hrow, hxrow⟩ := habsent x (mem_cons_of_mem _ hx)
          rw [hsplit, ← htail, mem_append] at hxnot hrow
          exact ⟨fun h => hxnot (.inr h), row, mem_of_passed hpassed ((hle x hx).trans hxrow.le)
            (mem_append.2 hrow), hxrow⟩
        obtain ⟨rids, hrids, hview⟩ := ih hkeys hahead' hrest
        exact ⟨none :: rids, deleteRids_cons.2 ⟨none, g', rids, hnext, hrids, rfl⟩, hview⟩

/-- The rows of a block that are found come first, each once. The others, not in the view or repetitions, are
before some row of the view. -/
def FoundFirst (view keys : List K) : Prop :=
  ∃ found absent, keys = found ++ absent ∧ found.Pairwise (· < ·) ∧ (∀ k ∈ found, k ∈ view) ∧
    ∀ k ∈ absent, (k ∉ view ∨ k ∈ found) ∧ ∃ row ∈ view, k < row

variable {P Q : List ViewRow}

theorem deleteRids_found {found absent : List K} (hle : (found ++ absent).Pairwise (· ≤ ·))
    (hfound : found.Pairwise (· < ·)) (hahead : g.ahead.Pairwise (· < ·))
    (hmem : ∀ k ∈ found, k ∈ g.ahead)
    (habsent : ∀ k ∈ absent, (k ∉ g.ahead ∨ k ∈ found) ∧ ∃ row ∈ g.ahead, k < row)
    (hrid : g.rid = P.length) (hQ : Q.map key = g.ahead) :
    ∃ rids, deleteRids g (found ++ absent) = .ok rids ∧
      applyDeletes .rows (P ++ Q) rids = P ++ Q.filter fun r => decide (key r ∉ found) := by
  induction found generalizing g P Q with
  | nil =>
    have habsent' : ∀ k ∈ absent, k ∉ g.ahead ∧ ∃ row ∈ g.ahead, k < row :=
      fun k hk => ⟨(habsent k hk).1.resolve_right not_mem_nil, (habsent k hk).2⟩
    obtain ⟨rids, hrids, hview⟩ := deleteRids_absent hle hahead habsent' (P ++ Q)
    exact ⟨rids, hrids, by simp [hview]⟩
  | cons f found ih =>
    obtain ⟨hflt, hfound⟩ := pairwise_cons.1 hfound
    obtain ⟨hfle, hle⟩ := pairwise_cons.1 hle
    have hf := hmem f mem_cons_self
    have hstep := nextForDelete_spec f g
    cases hnext : g.nextForDelete f with
    | error e =>
      rw [hnext] at hstep
      cases hstep with
      | atEnd hpassed => exact absurd (hpassed f hf) (lt_irrefl f)
    | ok r =>
      obtain ⟨rid, g'⟩ := r
      rw [hnext] at hstep
      cases hstep with
      | absent hsplit hpassed hlt htail hg' =>
        rw [hsplit] at hf hahead
        rcases mem_cons.1 (mem_of_passed hpassed le_rfl hf) with rfl | hf
        · exact absurd hlt (lt_irrefl f)
        · have := (pairwise_cons.1 (pairwise_append.1 hahead).2.1).1 f hf
          exact absurd (hlt.trans this) (lt_irrefl f)
      | @found passed tail _ hsplit hpassed htail hg' =>
        rw [hsplit] at hahead hQ
        obtain ⟨-, hcons, -⟩ := pairwise_append.1 hahead
        obtain ⟨hftail, htails⟩ := pairwise_cons.1 hcons
        obtain ⟨Q₁, q, Q₂, rfl, hQ₁, hq, hQ₂, hlen⟩ := exists_split hQ
        have hahead' : g'.ahead.Pairwise (· < ·) := by rwa [htail]
        -- what is behind the row that is found is still ahead
        have hbehind : ∀ k, f < k → k ∈ g.ahead → k ∈ g'.ahead := by
          intro k hk hkg
          rw [hsplit] at hkg
          rw [htail]
          exact (mem_cons.1 (mem_of_passed hpassed hk.le hkg)).resolve_left hk.ne'
        have hmem' : ∀ k ∈ found, k ∈ g'.ahead :=
          fun k hk => hbehind k (hflt k hk) (hmem k (mem_cons_of_mem _ hk))
        have habsent' : ∀ k ∈ absent, (k ∉ g'.ahead ∨ k ∈ found) ∧ ∃ row ∈ g'.ahead, k < row := by
          intro k hk
          have hfk : f ≤ k := hfle k (mem_append_right _ hk)
          obtain ⟨hnot, row, hrow, hkrow⟩ := habsent k hk
          refine ⟨?_, row, hbehind row (hfk.trans_lt hkrow) hrow, hkrow⟩
          rw [htail]
          rcases hnot with hnot | hkf
          · exact .inl fun h => hnot (by simp [hsplit, h])
          · rcases mem_cons.1 hkf with rfl | hkf
            · exact .inl fun h => lt_irrefl k (hftail k h)
            · exact .inr hkf
        obtain ⟨rids, hrids, hview⟩ := ih hle hfound hahead' hmem' habsent' (P := P ++ Q₁) (Q := Q₂)
          (by rw [hg', hrid, length_append, hlen]) (by rw [hQ₂, htail])
        refine ⟨_ :: rids, deleteRids_cons.2 ⟨_, g', rids, hnext, hrids, rfl⟩, ?_⟩
        show applyDeletes .rows ((P ++ (Q₁ ++ q :: Q₂)).eraseIdx _) rids = _
        rw [hrid, ← hlen, eraseIdx_split, hview, append_assoc, filter_append, filter_cons_of_neg (by simp [hq])]
        congr 2
        · refine (filter_eq_self.2 fun r hr => ?_).symm
          have hrf : key r < f := hpassed _ (hQ₁ ▸ mem_map_of_mem hr)
          simp only [mem_cons, not_or, decide_eq_true_eq]
          exact ⟨hrf.ne, fun h => (hrf.trans (hflt _ h)).ne rfl⟩
        · refine filter_congr fun r hr => ?_
          have hrf : f < key r := hftail _ (hQ₂ ▸ mem_map_of_mem hr)
          simp [hrf.ne']

/-- The rows of the view that are passed in the search for a row that is not there -/
theorem exists_passed {g' : RidGenerator K} (hahead : g.ahead.Pairwise (· < ·))
    (hsplit : g.ahead = passed ++ g'.ahead) (hQ : Q.map key = g.ahead) :
    g'.ahead.Pairwise (· < ·) ∧ ∃ Q₁ Q₂, Q = Q₁ ++ Q₂ ∧ Q₂.map key = g'.ahead ∧
      Q₁.length = passed.length := by
  rw [hsplit] at hahead hQ
  obtain ⟨Q₁, Q₂, rfl, hQ₁, hQ₂⟩ := map_eq_append_iff.1 hQ
  exact ⟨(pairwise_append.1 hahead).2.1, Q₁, Q₂, rfl, hQ₂, by rw [← hQ₁, length_map]⟩

/-- A row that is not found, and rows behind it that are not found either. -/
theorem absent_cons {g' : RidGenerator K} {k' : K} {passed tail : List K}
    (hahead : g.ahead.Pairwise (· < ·)) (hsplit : g.ahead = passed ++ k' :: tail)
    (hpassed : ∀ x ∈ passed, x < k) (hlt : k < k') (htail : g'.ahead = k' :: tail)
    (hle : ∀ x ∈ keys, k ≤ x) (hrest : ∀ x ∈ keys, x ∉ g'.ahead ∧ ∃ row ∈ g'.ahead, x < row) :
    ∀ x ∈ k :: keys, x ∉ g.ahead ∧ ∃ row ∈ g.ahead, x < row := by
  rw [hsplit] at hahead ⊢
  rw [htail] at hrest
  have hk : k ∉ k' :: tail ∧ ∃ row ∈ k' :: tail, k < row := by
    refine ⟨fun hmem => ?_, k', mem_cons_self, hlt⟩
    rcases mem_cons.1 hmem with rfl | hmem
    · exact lt_irrefl k hlt
    · have := (pairwise_cons.1 (pairwise_append.1 hahead).2.1).1 k hmem
      exact lt_irrefl k (hlt.trans this)
  intro x hx
  have hkx : k ≤ x := (mem_cons.1 hx).elim (fun h => h.ge) (hle x)
  obtain ⟨hnot, row, hrow, hxrow⟩ : x ∉ k' :: tail ∧ ∃ row ∈ k' :: tail, x < row := by
    rcases mem_cons.1 hx with rfl | hx
    · exact hk
    · exact hrest x hx
  exact ⟨fun hmem => hnot (mem_of_passed hpassed hkx hmem), row, mem_append_right _ hrow, hxrow⟩

section

variable (h : deleteRids g keys = .ok rids) (hkeys : keys.Pairwise (· ≤ ·))
  (hahead : g.ahead.Pairwise (· < ·))
include h hkeys hahead

/-- Behind a row that was not found no other row is: the row ids are too large, and the first row that
is found stays in the view. -/
theorem absent_of_gone (hrid : P.length < g.rid) (hQ : Q.map key = g.ahead)
    (hgone : ∀ r ∈ applyDeletes .rows (P ++ Q) rids, key r ∉ keys) :
    ∀ k ∈ keys, k ∉ g.ahead ∧ ∃ row ∈ g.ahead, k < row := by
  induction keys generalizing g rids P Q with
  | nil => exact fun k hk => absurd hk not_mem_nil
  | cons k keys ih =>
    obtain ⟨hle, hkeys⟩ := pairwise_cons.1 hkeys
    obtain ⟨rid, g', rids', hnext, hrids, rfl⟩ := deleteRids_cons.1 h
    have hstep := nextForDelete_spec k g
    rw [hnext] at hstep
    cases hstep with
    | @found passed tail _ hsplit hpassed htail hg' =>
      -- the row stays at its index: all row ids from here on are behind it
      exfalso
      rw [hsplit] at hQ
      obtain ⟨Q₁, q, Q₂, rfl, -, hq, -, hlen⟩ := exists_split hQ
      have hbehind : ∀ r, some r ∈ some (g.rid + passed.length) :: rids' → (P ++ Q₁).length < r := by
        intro r hr
        rw [length_append, hlen]
        rcases mem_cons.1 hr with heq | hr
        · rw [Option.some.inj heq]; omega
        · have := le_of_mem_deleteRids hrids hr
          omega
      have hstays := getElem?_applyDeletes (W := P ++ (Q₁ ++ q :: Q₂)) hbehind
      rw [← append_assoc, List.getElem?_append_right le_rfl, Nat.sub_self,
        List.getElem?_cons_zero, append_assoc] at hstays
      exact hgone q (mem_of_getElem? hstays) (hq ▸ mem_cons_self)
    | @absent passed tail k' _ hsplit hpassed hlt htail hg' =>
      obtain ⟨hahead', Q₁, Q₂, rfl, hQ₂, hlen⟩ := exists_passed hahead (htail ▸ hsplit) hQ
      have hrest := ih hrids hkeys hahead' (P := P ++ Q₁)
        (by rw [length_append, hlen]; omega) hQ₂
        fun r hr hk => hgone r (by rwa [← append_assoc]) (mem_cons_of_mem _ hk)
      exact absent_cons hahead hsplit hpassed hlt htail hle hrest

theorem foundFirst_of_gone (hrid : g.rid = P.length) (hQ : Q.map key = g.ahead)
    (hgone : ∀ r ∈ applyDeletes .rows (P ++ Q) rids, key r ∉ keys) : FoundFirst g.ahead keys := by
  induction keys generalizing g rids P Q with
  | nil => exact ⟨[], [], rfl, .nil, by simp, by simp⟩
  | cons k keys ih =>
    obtain ⟨hle, hkeys⟩ := pairwise_cons.1 hkeys
    obtain ⟨rid, g', rids', hnext, hrids, rfl⟩ := deleteRids_cons.1 h
    have hstep := nextForDelete_spec k g
    rw [hnext] at hstep
    cases hstep with
    | @found passed tail _ hsplit hpassed htail hg' =>
      rw [hsplit] at hQ hahead ⊢
      obtain ⟨-, hcons, -⟩ := pairwise_append.1 hahead
      obtain ⟨hktail, htails⟩ := pairwise_cons.1 hcons
      obtain ⟨Q₁, q, Q₂, rfl, -, hq, hQ₂, hlen⟩ := exists_split hQ
      have herase : (P ++ (Q₁ ++ q :: Q₂)).eraseIdx (g.rid + passed.length) = (P ++ Q₁) ++ Q₂ := by
        rw [hrid, ← hlen, eraseIdx_split]
      obtain ⟨found, absent, rfl, hfound, hmem, habsent⟩ := ih hrids hkeys (by rwa [htail])
        (P := P ++ Q₁) (Q := Q₂) (by rw [hg', hrid, length_append, hlen]) (by rw [hQ₂, htail])
        fun r hr hkr => hgone r (by rwa [← herase] at hr) (mem_cons_of_mem _ hkr)
      rw [htail] at hmem habsent
      refine ⟨k :: found, absent, rfl, ?_, ?_, ?_⟩
      · exact pairwise_cons.2 ⟨fun f hf => hktail f (hmem f hf), hfound⟩
      · intro f hf
        rcases mem_cons.1 hf with rfl | hf
        · simp
        · exact mem_append_right _ (mem_cons_of_mem _ (hmem f hf))
      · intro x hx
        have hkx : k ≤ x := hle x (mem_append_right _ hx)
        obtain ⟨hnot, row, hrow, hxrow⟩ := habsent x hx
        refine ⟨?_, row, mem_append_right _ (mem_cons_of_mem _ hrow), hxrow⟩
        rcases hnot with hnot | hxf
        · by_cases hxk : x = k
          · exact .inr (hxk ▸ mem_cons_self)
          · exact .inl fun hmem => hnot ((mem_cons.1 (mem_of_passed hpassed hkx hmem)).resolve_left hxk)
        · exact .inr (mem_cons_of_mem _ hxf)
    | @absent passed tail k' _ hsplit hpassed hlt htail hg' =>
      -- from here on the row ids are too large
      obtain ⟨hahead', Q₁, Q₂, rfl, hQ₂, hlen⟩ := exists_passed hahead (htail ▸ hsplit) hQ
      have hrest := absent_of_gone hrids hkeys hahead' (P := P ++ Q₁)
        (by rw [length_append, hlen]; omega) hQ₂
        fun r hr hk => hgone r (by rwa [← append_assoc]) (mem_cons_of_mem _ hk)
      have hall := absent_cons hahead hsplit hpassed hlt htail hle hrest
      exact ⟨[], k :: keys, rfl, .nil, by simp, fun x hx => ⟨.inl (hall x hx).1, (hall x hx).2⟩⟩

end

end Rids

/-! ## `placeDelete` -/

theorem placeDelete_eq (T : PlaceTree τ) (stable : ViewStream (SortKey c)) {block : List (SortKey c)}
    {range : RowKeyRange c} (tree : τ) (hblock : block.Pairwise (· ≤ ·))
    (hrange : ∀ k ∈ block, range.check k.handle = true) : placeDelete T stable block range tree
      = (deleteRids (.init stable) block).map fun rids => (true, applyDeletes T tree rids) := by
  have hhandles := pairwise_handle hblock
  have hall : ∀ k ∈ block.map SortKey.handle, range.check k = true := forall_mem_map.2 hrange
  obtain ⟨offset, limit, hpos⟩ := getPosRangeOfSorted_isOk hhandles fun k hk =>
    .inl (Bool.and_eq_true_iff.1 (hall k hk)).1
  obtain ⟨hlimit, hrows⟩ := getPosRangeOfSorted_spec hhandles hpos
  rw [filter_eq_self.2 hall, length_map] at hlimit
  have hkeys : (block.drop offset).take limit = block := by
    rw [hrows block SortKey.handle rfl, filter_eq_self.2 hrange]
  simp only [placeDelete, hpos, hkeys, checkSorted_of_pairwise hblock, bind, Except.bind]
  subst hlimit
  cases block with
  | nil => rfl
  | cons k keys =>
    simp only [length_cons, Nat.add_eq_zero_iff, one_ne_zero, and_false, if_false, beq_self_eq_true]
    cases deleteRids (.init stable) (k :: keys) with
    | error e | ok rids => rfl

section

variable (T : PlaceTree τ) (key : ViewRow → SortKey c) (tree : τ) (blocks : List (SortKey c × List (SortKey c)))
  (block : List (SortKey c)) (range : RowKeyRange c) (hview : ((T.view tree).map key).Pairwise (· < ·))
  (hblocks : blockRows blocks = (T.view tree).map key) (hblock : block.Pairwise (· ≤ ·))
  (hrange : ∀ k ∈ block, range.check k.handle = true)
include hview hblocks hblock hrange

theorem placeDelete_of_foundFirst (h : FoundFirst ((T.view tree).map key) block) :
    ∃ tree', placeDelete T ⟨0, blocks⟩ block range tree = .ok (true, tree') ∧
      T.view tree' = (T.view tree).filter fun r => decide (key r ∉ block) := by
  have hahead : (init ⟨0, blocks⟩).ahead = (T.view tree).map key := hblocks
  obtain ⟨found, absent, rfl, hfound, hmem, habsent⟩ := h
  rw [← hahead] at hview hmem habsent
  obtain ⟨rids, hrids, happly⟩ := deleteRids_found hblock hfound hview hmem habsent (P := []) rfl hahead.symm
  rw [placeDelete_eq T _ tree hblock hrange, hrids]
  refine ⟨applyDeletes T tree rids, rfl, ?_⟩
  rw [view_applyDeletes]
  refine happly.trans (filter_congr fun r hr => ?_)
  have hiff : key r ∈ found ++ absent ↔ key r ∈ found := by
    rw [mem_append, or_iff_left_iff_imp]
    intro habs
    exact (habsent _ habs).1.resolve_left fun h => h (hahead ▸ mem_map_of_mem hr)
  rw [decide_eq_decide, not_iff_not, hiff]

/-- Placing a block of deletes takes the rows with its keys out of the view exactly when its rows that
are in the view come first. -/
theorem placeDelete_removes_iff :
    (∃ full tree', placeDelete T ⟨0, blocks⟩ block range tree = .ok (full, tree') ∧
      T.view tree' = (T.view tree).filter fun r => decide (key r ∉ block)) ↔
      FoundFirst ((T.view tree).map key) block := by
  refine ⟨?_, fun h => ⟨true, placeDelete_of_foundFirst T key tree blocks block range hview hblocks hblock hrange h⟩⟩
  have hahead : (init ⟨0, blocks⟩).ahead = (T.view tree).map key := hblocks
  rw [placeDelete_eq T _ tree hblock hrange, ← hahead]
  rw [← hahead] at hview
  rintro ⟨full, tree', hplace, hgone⟩
  cases hrids : deleteRids (.init ⟨0, blocks⟩) block with
  | error e => rw [hrids] at hplace; exact absurd hplace (by simp [Except.map])
  | ok rids =>
    rw [hrids] at hplace
    obtain ⟨-, rfl⟩ := Prod.mk.inj (Except.ok.inj hplace)
    rw [view_applyDeletes] at hgone
    refine foundFirst_of_gone hrids hblock hview (P := []) rfl hahead.symm fun r hr => ?_
    rw [nil_append, hgone] at hr
    simpa using (mem_filter.1 hr).2

end

/-- The pair of an integer handle and the version 0 -/
def intSortKey (v : HandleID) : SortKey false := toLex (.int v, 0)

/-- A stable of three rows with the handles 1, 3 and 5 -/
def oddRows : ViewRow → SortKey false
  | .stable sid => [intSortKey 1, intSortKey 3].getD sid (intSortKey 5)
  | .delta _ => intSortKey 0

/-- Deleting the handles 1 and 2 from 1, 3 and 5 leaves 3 and 5. -/
theorem placeDelete_removes_one_and_two : ∃ full view,
    placeDelete .rows ⟨0, [(intSortKey ⟨1, by decide⟩, [intSortKey ⟨3, by decide⟩]),
        (intSortKey ⟨5, by decide⟩, [])]⟩ [intSortKey ⟨1, by decide⟩, intSortKey ⟨2, by decide⟩]
      (.newAll false 1) [.stable 0, .stable 1, .stable 2] = .ok (full, view) ∧
    view = [.stable 1, .stable 2] := by
  have h := (placeDelete_removes_iff .rows oddRows [.stable 0, .stable 1, .stable 2]
    [(intSortKey ⟨1, by decide⟩, [intSortKey ⟨3, by decide⟩]), (intSortKey ⟨5, by decide⟩, [])]
    [intSortKey ⟨1, by decide⟩, intSortKey ⟨2, by decide⟩] (.newAll false 1) (by decide) rfl (by decide)
    (by decide)).2
    ⟨[intSortKey ⟨1, by decide⟩], [intSortKey ⟨2, by decide⟩], rfl, by decide, by decide, by decide⟩
  obtain ⟨full, view, hplace, hview⟩ := h
  exact ⟨full, view, hplace, hview.trans (by decide)⟩

/-- Deleting the handles 2 and 3 from 1, 3 and 5 takes away 5 and leaves 3. -/
theorem placeDelete_removes_wrong_row :
    placeDelete .rows ⟨0, [(intSortKey ⟨1, by decide⟩, [intSortKey ⟨3, by decide⟩, intSortKey ⟨5, by decide⟩])]⟩
      [intSortKey ⟨2, by decide⟩, intSortKey ⟨3, by decide⟩] (.newAll false 1)
      [.stable 0, .stable 1, .stable 2] = .ok (true, [.stable 0, .stable 1]) ∧
    [ViewRow.stable 0, .stable 1, .stable 2].filter (fun r =>
      decide (oddRows r ∉ [intSortKey ⟨2, by decide⟩, intSortKey ⟨3, by decide⟩])) = [.stable 0, .stable 2] := by
  refine ⟨?_, by decide⟩
  have h₁ : intSortKey ⟨1, by decide⟩ < intSortKey ⟨2, by decide⟩ := by decide
  have h₂ : ¬ intSortKey ⟨3, by decide⟩ < intSortKey ⟨2, by decide⟩ := by decide
  have h₃ : intSortKey ⟨2, by decide⟩ ≠ intSortKey ⟨3, by decide⟩ := by decide
  rw [placeDelete_eq _ _ _ (by decide) (by decide)]
  simp [deleteRids, init, nextForDelete, skipSmaller, h₁, h₂, h₃,
    bind, Except.bind, pure, Except.pure, Except.map, applyDeletes, PlaceTree.rows]

end TiFlash.DM
