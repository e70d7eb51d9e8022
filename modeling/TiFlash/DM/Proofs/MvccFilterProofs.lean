import TiFlash.DM.Proofs.CleanReadProofs

/-!
# What a read at a version limit sees

A run in `MVCC` mode returns the newest row up to the limit of every handle, unless that is a delete. In
`COMPACT` mode it counts the kept rows that are deletes or are followed by their handle.
-/

namespace TiFlash.DM

open TiFlash.Lib List

/-! ## The newest visible version -/

section Newest

variable {H D : Type*} [LinearOrder H]

def versionsOf (limit : Nat) (h : H) (rows : List (Row H D)) : List (Row H D) :=
  rows.filter fun r => r.handle = h && r.version ≤ limit

/-- The last of them, unless it is delete-marked. -/
def newestVisible (limit : Nat) (h : H) (rows : List (Row H D)) : Option (Row H D) :=
  (versionsOf limit h rows).getLast?.filter fun r => !r.tag

variable {t : List (Row H D)} {limit : Nat} {a : Row H D}

/-- In sorted rows the row right behind `a` supersedes it if any later one does. -/
theorem superseded_of_mem (hs : SortedByPk (a :: t))
    (h : versionsOf limit a.handle t ≠ []) : Superseded limit a t.head? := by
  obtain ⟨x, hx⟩ := exists_mem_of_ne_nil _ h
  simp only [versionsOf, mem_filter, Bool.and_eq_true, decide_eq_true_eq] at hx
  obtain ⟨hxt, hxh, hxv⟩ := hx
  cases t with
  | nil => cases hxt
  | cons n t =>
    obtain ⟨ha, hn⟩ := pairwise_cons.1 hs
    have han := ha n mem_cons_self
    rcases mem_cons.1 hxt with rfl | hxt
    · exact ⟨x, rfl, hxh.symm, hxv⟩
    · -- the row behind `a` lies between `a` and the later one
      have hnx := (pairwise_cons.1 hn).1 x hxt
      rw [hxh] at hnx
      rcases han with hlt | ⟨heq, -⟩
      · rcases hnx with hlt' | ⟨heq', -⟩
        · exact absurd (hlt.trans hlt') (lt_irrefl _)
        · exact absurd heq' hlt.ne'
      · rcases hnx with hlt' | ⟨-, hle⟩
        · exact absurd heq hlt'.ne'
        · exact ⟨n, rfl, heq, hle.trans hxv⟩

theorem versionsOf_ne_nil (h : Superseded limit a t.head?) : versionsOf limit a.handle t ≠ [] := by
  obtain ⟨n, hn, hhandle, hversion⟩ := h
  refine ne_nil_of_mem (mem_filter.2 ⟨mem_of_mem_head? hn, ?_⟩)
  simp [hhandle, hversion]

theorem filter_handle_filterNext {rows : List (Row H D)} (hs : SortedByPk rows) (h : H) :
    (filterNext (checkRow .mvcc limit) rows none).filter (·.handle = h)
      = (newestVisible limit h rows).toList := by
  induction rows with
  | nil => rfl
  | cons a t ih =>
    have ih' := ih hs.tail
    have hcheck := checkRow_mvcc_iff limit a t.head?
    rw [filterNext, Option.or_none]
    by_cases hah : a.handle = h
    · subst hah
      by_cases hversion : a.version ≤ limit
      · have hvers : versionsOf limit a.handle (a :: t) = a :: versionsOf limit a.handle t := by
          simp [versionsOf, hversion]
        by_cases hnil : versionsOf limit a.handle t = []
        · -- `a` is the newest version
          have hrest : (filterNext (checkRow .mvcc limit) t none).filter (·.handle = a.handle) = [] := by
            rw [ih', newestVisible, hnil]
            rfl
          have hns : ¬ Superseded limit a t.head? := fun hsup => versionsOf_ne_nil hsup hnil
          rw [newestVisible, hvers, hnil]
          cases htag : a.tag with
          | true =>
            rw [if_neg fun hkeep => by simp [hcheck.1 hkeep] at htag, hrest]
            simp [htag]
          | false =>
            rw [if_pos (hcheck.2 ⟨htag, hversion, hns⟩), filter_cons_of_pos (by simp), hrest]
            simp [Option.filter, htag]
        · have hsup := superseded_of_mem hs hnil
          rw [if_neg fun hkeep => (hcheck.1 hkeep).2.2 hsup, ih', newestVisible, newestVisible, hvers,
            List.getLast?_cons_of_ne_nil hnil]
      · have hvers : versionsOf limit a.handle (a :: t) = versionsOf limit a.handle t := by
          simp [versionsOf, hversion]
        rw [if_neg fun hkeep => hversion (hcheck.1 hkeep).2.1, ih', newestVisible, newestVisible, hvers]
    · have hvers : versionsOf limit h (a :: t) = versionsOf limit h t := by simp [versionsOf, hah]
      rw [newestVisible, hvers, ← newestVisible, ← ih']
      split_ifs
      · rw [filter_cons_of_neg (by simpa using hah)]
      · rfl

end Newest

/-! ## The rows that are not clean -/

section NotClean

variable {K D : Type*} [DecidableEq K]

/-- A kept row that is delete-marked or followed by a row of its handle. -/
def keptNotClean (limit : Nat) (cur : Row K D) (next : Option (Row K D)) : Bool :=
  checkRow .compact limit cur next && (cur.tag || next.any (·.handle = cur.handle))

theorem notCleanRow_eq (limit : Nat) :
    (notCleanRow limit : Row K D → Option (Row K D) → Bool) = keptNotClean limit := by
  funext cur next
  cases next with
  | none => simp [notCleanRow, checkNotClean, keptNotClean]
  | some n => simp [notCleanRow, checkNotClean, keptNotClean, Bool.or_comm, eq_comm]

def notCleanOf (limit : Nat) : List (Block K D) → Nat
  | [] => 0
  | b :: bs =>
    (if b.isColumnConst then 0 else (mapNext (notCleanRow limit) b.rows (rowsOf bs).head?).count true)
      + notCleanOf limit bs

theorem notCleanOf_readNextBlock (limit : Nat) (bs : List (Block K D)) :
    notCleanOf limit ((readNextBlock bs).1.toList ++ (readNextBlock bs).2) = notCleanOf limit bs := by
  induction bs with
  | nil => rfl
  | cons b bs ih =>
    rw [readNextBlock]
    split
    · next h =>
      rw [ih, notCleanOf, eq_nil_of_length_eq_zero h]
      simp
    · rfl

namespace VersionFilterStream

variable (limit : Nat) (s : VersionFilterStream K D)

theorem notCleanOf_pending_fetch :
    notCleanOf limit s.fetch.pending = notCleanOf limit s.pending := by
  rcases s with ⟨_ | b, children, n⟩
  · exact notCleanOf_readNextBlock limit children
  · rfl

/-- What a block adds to the count is what the blocks that are left lose. -/
theorem notCleanRows_step {s : VersionFilterStream K D} {cur : Block K D}
    (hcur : s.fetch.rawBlock = some cur) (hconst : ¬ cur.isColumnConst = true) :
    (s.fetch.initNextBlock.addNotClean .compact limit cur).notCleanRows
        + notCleanOf limit (s.fetch.initNextBlock.addNotClean .compact limit cur).pending
      = s.notCleanRows + notCleanOf limit s.pending := by
  rw [notCleanRows_addNotClean, pending_addNotClean, notCleanRows_fetch, ← notCleanOf_pending_fetch limit s,
    pending_eq_of_rawBlock hcur, notCleanOf, if_neg hconst, Nat.add_assoc]
  congr 2
  exact notCleanOf_readNextBlock limit _

theorem notCleanRows_read :
    (read .compact limit s).2.notCleanRows + notCleanOf limit (read .compact limit s).2.pending
      = s.notCleanRows + notCleanOf limit s.pending := by
  fun_induction read .compact limit s with
  | case1 s hcur => rw [notCleanRows_fetch, notCleanOf_pending_fetch]
  | case2 s cur hcur next hconst =>
    rw [← notCleanOf_pending_fetch limit s, pending_eq_of_rawBlock hcur, notCleanOf, if_pos hconst, Nat.zero_add]
    have hnext : next.notCleanRows = s.notCleanRows := notCleanRows_fetch s
    congr 1
    exact notCleanOf_readNextBlock limit _
  | case3 s cur hcur next hconst filter passed hzero ih => rw [ih, notCleanRows_step limit hcur hconst]
  | case4 s cur hcur next hconst filter passed hne hall | case5 s cur hcur next hconst filter passed hne hall =>
    exact notCleanRows_step limit hcur hconst

theorem pending_of_read_none {mode : VersionFilterMode} {limit : Nat} {s s' : VersionFilterStream K D}
    (h : read mode limit s = (none, s')) : s'.pending = [] := by
  fun_induction read mode limit s with
  | case1 s hcur =>
    obtain rfl : s.fetch = s' := (Prod.ext_iff.1 h).2
    rcases s with ⟨_ | b, children, n⟩
    · have hnone : (readNextBlock children).1 = none := hcur
      simp [pending, fetch, initNextBlock, hnone, eq_nil_of_readNextBlock_eq_none hnone]
    · cases hcur
  | case2 | case4 | case5 => cases (Prod.ext_iff.1 h).1
  | case3 s cur hcur next hconst filter passed hzero ih => exact ih h

/-- At the end everything that is left has been counted. -/
theorem notCleanRows_atEnd :
    (atEnd .compact limit s).notCleanRows = s.notCleanRows + notCleanOf limit s.pending := by
  fun_induction atEnd .compact limit s with
  | case1 s s' h =>
    have hread := notCleanRows_read limit s
    rw [h, pending_of_read_none h] at hread
    exact hread
  | case2 s b s' h ih =>
    have hread := notCleanRows_read limit s
    rw [h] at hread
    rw [ih, hread]

end VersionFilterStream

theorem notCleanOf_eq (limit : Nat) {bs : List (Block K D)} (hfull : ∀ b ∈ bs, b.isColumnConst = false) :
    notCleanOf limit bs = (filterNext (keptNotClean limit) (rowsOf bs) none).length := by
  induction bs with
  | nil => rfl
  | cons b bs ih =>
    rw [notCleanOf, rowsOf_cons, filterNext_append, Option.or_none, length_append,
      ih fun c hc => hfull c (mem_cons_of_mem b hc), count_mapNext, notCleanRow_eq]
    simp [hfull b mem_cons_self]

end NotClean

section Run

variable {H D : Type*} [LinearOrder H]

/-- However sorted rows are cut into blocks, a read in `MVCC` mode returns the newest visible version of each
handle, in order. The unrolled passes agree with `checkWithNextIndex`, and `COMPACT` mode counts the kept rows
that are delete-marked or followed by their handle. -/
theorem version_filter_picks_newest {rows : List (Row H D)} (hs : SortedByPk rows) (limit : Nat)
    {blocks : List (Block H D)} (hcut : CutInto rows blocks) :
    ((versionFilter .mvcc limit blocks).Sublist rows ∧
      ∀ h, (versionFilter .mvcc limit blocks).filter (·.handle = h) = (newestVisible limit h rows).toList) ∧
    (∀ mode, ∀ b ∈ blocks, ∀ next i r r', b.rows[i]? = some r → b.rows[i + 1]? = some r' →
      (filterBytes mode limit b.rows next)[i]? = some (checkWithNextIndex mode limit r r')) ∧
    (VersionFilterStream.atEnd .compact limit (.new blocks)).notCleanRows
      = (filterNext (keptNotClean limit) rows none).length := by
  refine ⟨⟨?_, fun h => ?_⟩, fun mode b _ next i r r' hr hr' => ?_, ?_⟩
  · rw [versionFilter_eq_filterNext _ _ hcut]
    exact filterNext_sublist _ _ _
  · rw [versionFilter_eq_filterNext _ _ hcut, filter_handle_filterNext hs]
  · rw [filterBytes_eq, getElem?_mapNext hr hr']
    rfl
  · rw [VersionFilterStream.notCleanRows_atEnd, ← hcut.rows_eq, ← notCleanOf_eq limit hcut.full]
    exact Nat.zero_add _

/-- Two handles in two blocks: the newest version of the second one is a delete. -/
theorem version_filter_at_limit_25 :
    let rows : List (Row Int Unit) :=
      [⟨1, 10, false, ()⟩, ⟨1, 20, false, ()⟩, ⟨1, 30, true, ()⟩, ⟨2, 15, false, ()⟩, ⟨2, 16, true, ()⟩]
    (versionFilter .mvcc 25 [Block.ofRows (rows.take 2), .ofRows (rows.drop 2)]).filter (·.handle = 1)
        = [⟨1, 20, false, ()⟩] ∧
      (versionFilter .mvcc 25 [Block.ofRows (rows.take 2), .ofRows (rows.drop 2)]).filter (·.handle = 2) = [] ∧
      (VersionFilterStream.atEnd .compact 25
        (.new [Block.ofRows (rows.take 2), .ofRows (rows.drop 2)])).notCleanRows = 2 := by
  intro rows
  have hs : SortedByPk rows := by unfold SortedByPk; decide
  have hcut : CutInto rows [Block.ofRows (rows.take 2), .ofRows (rows.drop 2)] :=
    ⟨by decide, by decide, by decide⟩
  obtain ⟨⟨-, hnewest⟩, -, hclean⟩ := version_filter_picks_newest hs 25 hcut
  exact ⟨hnewest 1, hnewest 2, hclean⟩

end Run

end TiFlash.DM
