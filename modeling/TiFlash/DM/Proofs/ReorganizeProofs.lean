import TiFlash.DM.Proofs.CleanReadProofs

/-!
# Proofs: re-cut blocks

The rows of the next block that have the last key of the current one are at its front, so what a call of
`read` leaves behind has larger keys only.
-/

namespace TiFlash.DM

open List ReorganizeBlockInputStream VersionFilterStream

variable {K D : Type*} [LinearOrder K] {cur next : List (Row K D)} {stream : List (Block K D)}

/-- Rows in the order of their keys. -/
def SortedByKey (rows : List (Row K D)) : Prop := rows.Pairwise fun a b => a.handle ≤ b.handle

/-! ## One call -/

theorem exists_cut (hcur : cur ≠ []) (hsorted : SortedByKey (cur ++ next)) :
    ∃ same rest, next = same ++ rest ∧ findCutOffsetInNextBlock cur next = same.length ∧
      checkedCutOffset cur next = .ok same.length ∧ ∀ r ∈ cur ++ same, ∀ x ∈ rest, r.handle < x.handle := by
  obtain ⟨front, last, rfl⟩ := (eq_nil_or_concat' cur).resolve_left hcur
  obtain ⟨same, rest, hcut, rfl, hsame, hfirst⟩ : ∃ same rest,
      findCutOffsetInNextBlock (front ++ [last]) next = same.length ∧ next = same ++ rest ∧
      (∀ r ∈ same, r.handle = last.handle) ∧ ∀ x ∈ rest.head?, x.handle ≠ last.handle := by
    let p : Row K D → Bool := fun row => decide (row.handle = last.handle)
    refine ⟨next.takeWhile p, next.dropWhile p, by simp [findCutOffsetInNextBlock, p],
      takeWhile_append_dropWhile.symm, fun r hr => ?_, fun x hx => ?_⟩
    · simpa [p] using mem_takeWhile_imp hr
    · have hnot := head?_dropWhile_not p next
      rw [Option.mem_def.1 hx] at hnot
      exact of_decide_eq_false hnot
  obtain ⟨hleft, hright, hacross⟩ := pairwise_append.1 hsorted
  have hlast : ∀ r ∈ front ++ [last], r.handle ≤ last.handle :=
    forall_mem_append.2 ⟨fun r hr => (pairwise_append.1 hleft).2.2 r hr last (by simp),
      forall_mem_singleton.2 le_rfl⟩
  have hrest : ∀ x ∈ rest, last.handle < x.handle := by
    cases rest with
    | nil => exact fun x hx => absurd hx not_mem_nil
    | cons first rest =>
      have hlt := lt_of_le_of_ne (hacross last (by simp) first (by simp)) (hfirst first rfl).symm
      have hle := (pairwise_cons.1 (pairwise_append.1 hright).2.1).1
      exact forall_mem_cons.2 ⟨hlt, fun x hx => hlt.trans_le (hle x hx)⟩
  refine ⟨same, rest, rfl, hcut, ?_, fun r hr x hx => ?_⟩
  · unfold checkedCutOffset
    simp only [hcut, getLast?_concat, getElem?_append_right le_rfl]
    cases hrow : rest[same.length - same.length]? with
    | none => rfl
    | some row => exact if_neg (hrest row (mem_of_getElem? hrow)).not_gt
  · refine lt_of_le_of_lt ?_ (hrest x hx)
    rcases mem_append.1 hr with hr | hr
    · exact hlast r hr
    · exact (hsame r hr).le

/-- What the loop returns, and what it leaves for the next call. -/
structure Recut (merged : List (Row K D) × Option (Block K D) × List (Block K D)) : Prop where
  nonempty : merged.1 ≠ []
  next : ∀ b ∈ merged.2.1.toList, b.rows ≠ []
  apart : ∀ r ∈ merged.1, ∀ x ∈ rowsOf merged.2.1.toList ++ rowsOf merged.2.2, r.handle < x.handle

theorem Recut.of_cut {b : Block K D} (hcur : cur ≠ []) (hrest : b.rows ≠ [])
    (hapart : ∀ r ∈ cur, ∀ x ∈ b.rows, r.handle < x.handle)
    (hbehind : ∀ r ∈ b.rows, ∀ x ∈ rowsOf stream, r.handle ≤ x.handle) : Recut (cur, some b, stream) := by
  refine ⟨hcur, by simpa using hrest, fun r hr => ?_⟩
  obtain ⟨first, hfirst⟩ := exists_mem_of_ne_nil _ hrest
  simp only [Option.toList_some, rowsOf_cons, rowsOf_nil, append_nil]
  exact forall_mem_append.2 ⟨hapart r hr, fun x hx =>
    (hapart r hr first hfirst).trans_le (hbehind first hfirst x hx)⟩

theorem readLoop_spec (hcur : cur ≠ []) (hsorted : SortedByKey (cur ++ rowsOf stream)) :
    readLoop cur stream = .ok (mergeNextBlocks cur stream) ∧ Recut (mergeNextBlocks cur stream) := by
  induction stream generalizing cur with
  | nil => exact ⟨rfl, hcur, by simp [mergeNextBlocks], by simp [mergeNextBlocks]⟩
  | cons next stream ih =>
    rw [rowsOf_cons, ← append_assoc] at hsorted
    obtain ⟨hfront, -, hbehind⟩ := pairwise_append.1 hsorted
    obtain ⟨same, rest, hnext, hcut, hchecked, hapart⟩ := exists_cut hcur hfront
    unfold readLoop mergeNextBlocks
    simp only [hchecked, hcut]
    split_ifs with hempty hzero hpart
    · rw [length_eq_zero_iff.1 hempty, append_nil] at hsorted
      exact ih hcur hsorted
    · obtain rfl := length_eq_zero_iff.1 hzero
      rw [append_nil] at hapart
      exact ⟨rfl, .of_cut hcur (by simpa using hempty) (hnext ▸ hapart)
        fun r hr => hbehind r (mem_append_right _ hr)⟩
    · rw [hnext, take_left, drop_left]
      refine ⟨rfl, .of_cut (by simp [hcur]) ?_ hapart fun r hr => hbehind r ?_⟩
      · rintro (rfl : rest = [])
        simp [hnext] at hpart
      · rw [hnext]
        exact mem_append_right _ (mem_append_right _ hr)
    · exact ih (by simp [hcur]) hsorted

/-! ## All calls -/

/-- The blocks that calls of `read` return before one returns no block. -/
inductive ReadsAll : ReorganizeBlockInputStream K D → List (Block K D) → Prop
  | done {s s'} : s.read = .ok (none, s') → ReadsAll s []
  | more {s s' block blocks} : s.read = .ok (some block, s') → ReadsAll s' blocks → ReadsAll s (block :: blocks)

theorem reads_reorganizeFrom {next : Option (Block K D)} (hnext : ∀ b ∈ next.toList, b.rows ≠ [])
    (hend : next = none → stream = []) (hsorted : SortedByKey (rowsOf next.toList ++ rowsOf stream)) :
    ReadsAll ⟨stream, next, false⟩ (reorganizeFrom next stream) ∧
      (∀ b ∈ reorganizeFrom next stream, b.rows ≠ []) ∧
      (reorganizeFrom next stream).Pairwise (fun a b => ∀ r ∈ a.rows, ∀ x ∈ b.rows, r.handle ≠ x.handle) ∧
      (reorganizeFrom next stream).length ≤ next.toList.length + stream.length := by
  fun_induction reorganizeFrom next stream with
  | case1 stream => exact ⟨.done rfl, by simp, .nil, by simp⟩
  | case2 stream cur ih =>
    obtain ⟨hread, hmerged⟩ := readLoop_spec (hnext cur (by simp)) (by simpa using hsorted)
    have hrows := rowsOf_mergeNextBlocks cur.rows stream
    have hlen := length_mergeNextBlocks cur.rows stream
    obtain ⟨hreads, hne, hpair, hle⟩ := ih hmerged.next eq_nil_of_mergeNextBlocks_eq_none (by
      have hall : SortedByKey (cur.rows ++ rowsOf stream) := by simpa using hsorted
      rw [← hrows] at hall
      exact (pairwise_append.1 hall).2.1)
    refine ⟨.more ?_ hreads, ?_, ?_, ?_⟩
    · unfold ReorganizeBlockInputStream.read
      simp only [Bool.false_eq_true, if_false, hread]
      rfl
    · exact forall_mem_cons.2 ⟨hmerged.nonempty, hne⟩
    · refine pairwise_cons.2 ⟨fun b hb r hr x hx => (hmerged.apart r hr x ?_).ne, hpair⟩
      rw [← rowsOf_reorganizeFrom eq_nil_of_mergeNextBlocks_eq_none]
      exact mem_flatMap.2 ⟨b, hb, hx⟩
    · simp only [length_cons, Option.toList_some, length_nil]
      omega

theorem ReadsAll.of_read_eq {s s' : ReorganizeBlockInputStream K D} {blocks : List (Block K D)}
    (h : ReadsAll s' blocks) (hread : s.read = s'.read) : ReadsAll s blocks := by
  cases h with
  | done hdone => exact .done (hread.trans hdone)
  | more hmore hrest => exact .more (hread.trans hmore) hrest

variable {rows : List (Row K D)} {blocks : List (Block K D)}

/-- The calls of `read` return the rows in non-empty blocks, no more than before and with no key in two of
them. -/
theorem reads_recut (hcut : CutInto rows blocks) (hsorted : SortedByKey rows) :
    ∃ out, ReadsAll (.new blocks) out ∧ CutInto rows out ∧
      out.Pairwise (fun a b => ∀ r ∈ a.rows, ∀ x ∈ b.rows, r.handle ≠ x.handle) ∧
      out.length ≤ blocks.length := by
  have hrows := rowsOf_readNextBlock blocks
  have hlen := length_readNextBlock blocks
  rw [hcut.rows_eq, rowsOf_append] at hrows
  obtain ⟨hreads, hne, hpair, hle⟩ := reads_reorganizeFrom
    (fun b hb => hcut.nonempty b (mem_of_mem_readNextBlock (mem_append_left _ hb)))
    eq_nil_of_readNextBlock_eq_none (hrows ▸ hsorted)
  refine ⟨reorganize blocks, hreads.of_read_eq rfl, ⟨?_, hne, isColumnConst_reorganizeFrom⟩, hpair,
    hle.trans ?_⟩
  · rw [rowsOf_reorganize, hcut.rows_eq]
  · have hone : (readNextBlock blocks).1.toList.length ≤ 1 := by
      cases (readNextBlock blocks).1 <;> simp
    omega

/-- Three versions of one key in three blocks. -/
def versionsOverBlocks : List (Block Nat Unit) :=
  [.ofRows [⟨1, 5, false, ()⟩, ⟨2, 3, false, ()⟩], .ofRows [⟨2, 4, true, ()⟩],
    .ofRows [⟨2, 6, false, ()⟩, ⟨7, 1, false, ()⟩]]

theorem reads_versionsOverBlocks : ∃ out, ReadsAll (.new versionsOverBlocks) out ∧
    CutInto (rowsOf versionsOverBlocks) out ∧ out.length ≤ 3 := by
  have hcut : CutInto (rowsOf versionsOverBlocks) versionsOverBlocks := ⟨rfl, by decide, by decide⟩
  obtain ⟨out, hreads, hout, -, hle⟩ := reads_recut hcut (by unfold SortedByKey; decide)
  exact ⟨out, hreads, hout, hle⟩

end TiFlash.DM
