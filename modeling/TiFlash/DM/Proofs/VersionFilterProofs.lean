import TiFlash.DM.VersionFilter
import TiFlash.Lib.NextElement

/-!
# Proofs: the version filter

The unrolled passes, `checkWithNextIndex` and the last row are one function of a row and the next
(`checkRow`), and a run keeps the rows that it accepts, however they are cut into blocks. So garbage
collection at the safe point is invisible to every later read.
-/

namespace TiFlash.DM

open TiFlash.Lib List

variable {K D : Type*} (p : Row K D → Option (Row K D) → Bool)

theorem applyFilter_mapNext (rows : List (Row K D))
    (next : Option (Row K D)) : applyFilter rows (mapNext p rows next) = filterNext p rows next := by
  induction rows with
  | nil => rfl
  | cons r rows ih =>
    rw [filterNext, ← ih]
    cases h : p r (rows.head?.or next) <;> simp [applyFilter, mapNext, h]

theorem count_mapNext (rows : List (Row K D))
    (next : Option (Row K D)) :
    (mapNext p rows next).count true = (filterNext p rows next).length := by
  induction rows with
  | nil => rfl
  | cons r rows ih =>
    rw [mapNext, filterNext, count_cons, ih]
    cases h : p r (rows.head?.or next) <;> simp

/-! ## The bytes of one block -/

section Bytes

variable [DecidableEq K]

theorem unrolledFilter_eq (mode : VersionFilterMode) (limit : Nat) (cur next : List (Row K D)) :
    unrolledFilter mode limit cur next = zipWith (checkWithNextIndex mode limit) cur next := by
  cases mode <;>
  · induction cur generalizing next with
    | nil => simp [unrolledFilter]
    | cons c cur ih =>
      cases next with
      | nil => simp [unrolledFilter]
      | cons n next =>
        have := ih next
        simp only [unrolledFilter] at this ⊢
        simp only [map_cons, zipWith_cons_cons, this, checkWithNextIndex]
        congr 1
        cases c.tag <;> simp [Bool.or_comm, Bool.and_comm]

theorem unrolledNotClean_eq (limit : Nat) (cur next : List (Row K D)) :
    unrolledNotClean cur next (unrolledFilter .compact limit cur next) =
      zipWith (fun c n => checkNotClean (checkWithNextIndex .compact limit c n) c (some n))
        cur next := by
  rw [unrolledFilter_eq]
  induction cur generalizing next with
  | nil => simp [unrolledNotClean]
  | cons c cur ih =>
    cases next with
    | nil => simp [unrolledNotClean]
    | cons n next =>
      have := ih next
      simp only [unrolledNotClean] at this ⊢
      simp only [map_cons, zipWith_cons_cons, this, checkNotClean, Bool.and_comm]

theorem zipWith_take_append_drop {α β : Type*} (f : α → α → β) (l : List α) (n : Nat) :
    zipWith f (l.take n) (l.tail.take n) ++ zipWith f (l.drop n) (l.tail.drop n)
      = zipWith f l l.tail := by
  rw [← take_zipWith, ← drop_zipWith, take_append_drop]

theorem filterBytes_eq (mode : VersionFilterMode) (limit : Nat) (rows : List (Row K D))
    (next : Option (Row K D)) :
    filterBytes mode limit rows next = mapNext (checkRow mode limit) rows next := by
  rw [filterBytes, unrolledFilter_eq, zipWith_take_append_drop]
  exact zipWith_tail_append_getLast (checkRow mode limit) rows next

/-- The `not_clean` byte of a row that `COMPACT` mode looks at. -/
def notCleanRow (limit : Nat) (cur : Row K D) (next : Option (Row K D)) : Bool :=
  checkNotClean (checkRow .compact limit cur next) cur next

theorem notCleanBytes_eq (limit : Nat) (rows : List (Row K D)) (next : Option (Row K D)) :
    notCleanBytes limit rows next = mapNext (notCleanRow limit) rows next := by
  rw [notCleanBytes, unrolledNotClean_eq, zipWith_take_append_drop]
  exact zipWith_tail_append_getLast (notCleanRow limit) rows next

end Bytes

/-! ## A run of the stream -/

theorem rowsOf_readNextBlock (bs : List (Block K D)) :
    rowsOf ((readNextBlock bs).1.toList ++ (readNextBlock bs).2) = rowsOf bs := by
  induction bs with
  | nil => rfl
  | cons b bs ih =>
    rw [readNextBlock]
    split
    · next h => rw [ih, rowsOf_cons, eq_nil_of_length_eq_zero h, nil_append]
    · rfl

variable {bs : List (Block K D)}

theorem mem_of_mem_readNextBlock {b : Block K D}
    (h : b ∈ (readNextBlock bs).1.toList ++ (readNextBlock bs).2) : b ∈ bs := by
  induction bs with
  | nil => exact h
  | cons c bs ih =>
    rw [readNextBlock] at h
    split at h
    · exact mem_cons_of_mem c (ih h)
    · exact h

theorem eq_nil_of_readNextBlock_eq_none (h : (readNextBlock bs).1 = none) :
    (readNextBlock bs).2 = [] := by
  induction bs with
  | nil => rfl
  | cons b bs ih =>
    rw [readNextBlock] at h ⊢
    split at h
    · next h0 => rw [if_pos h0]; exact ih h
    · simp at h

theorem rows_ne_nil_of_readNextBlock {b : Block K D}
    (h : (readNextBlock bs).1 = some b) : b.rows ≠ [] := by
  induction bs with
  | nil => simp [readNextBlock] at h
  | cons c bs ih =>
    rw [readNextBlock] at h
    split at h
    · exact ih h
    · next h0 =>
      obtain rfl : c = b := by simpa using h
      exact fun hb => h0 (by simp [hb])

namespace VersionFilterStream

def pending (s : VersionFilterStream K D) : List (Block K D) := s.rawBlock.toList ++ s.children

variable (s : VersionFilterStream K D)

theorem rowsOf_pending_fetch :
    rowsOf s.fetch.pending = rowsOf s.pending := by
  rcases s with ⟨_ | b, children, n⟩
  · exact rowsOf_readNextBlock children
  · rfl

theorem rowsOf_pending_initNextBlock :
    rowsOf s.initNextBlock.pending = rowsOf s.children :=
  rowsOf_readNextBlock s.children

theorem mem_pending_of_mem_fetch {s : VersionFilterStream K D} {b : Block K D}
    (h : b ∈ s.fetch.pending) : b ∈ s.pending := by
  rcases s with ⟨_ | c, children, n⟩
  · exact mem_of_mem_readNextBlock h
  · exact h

@[simp] theorem notCleanRows_fetch (s : VersionFilterStream K D) :
    s.fetch.notCleanRows = s.notCleanRows := by
  rcases s with ⟨_ | c, children, n⟩ <;> rfl

theorem pending_eq_of_rawBlock {s : VersionFilterStream K D} {cur : Block K D}
    (h : s.rawBlock = some cur) : s.pending = cur :: s.children := by
  simp [pending, h]

theorem nextRow_initNextBlock :
    s.initNextBlock.nextRow = (rowsOf s.children).head? := by
  rw [← rowsOf_readNextBlock s.children]
  cases h : (readNextBlock s.children).1 with
  | none => simp [nextRow, initNextBlock, h, eq_nil_of_readNextBlock_eq_none h]
  | some b =>
    have hb := rows_ne_nil_of_readNextBlock h
    cases hrows : b.rows with
    | nil => exact absurd hrows hb
    | cons r rows => simp [nextRow, initNextBlock, h, hrows]

end VersionFilterStream

variable [DecidableEq K]

/-- Of a block of constant columns the stream keeps all rows, of any other those `checkRow` accepts. -/
def keptRows (mode : VersionFilterMode) (limit : Nat) : List (Block K D) → List (Row K D)
  | [] => []
  | b :: bs =>
    (if b.isColumnConst then b.rows
      else filterNext (checkRow mode limit) b.rows (rowsOf bs).head?) ++ keptRows mode limit bs

theorem keptRows_readNextBlock (mode : VersionFilterMode) (limit : Nat) (bs : List (Block K D)) :
    keptRows mode limit ((readNextBlock bs).1.toList ++ (readNextBlock bs).2)
      = keptRows mode limit bs := by
  induction bs with
  | nil => rfl
  | cons b bs ih =>
    rw [readNextBlock]
    split
    · next h => rw [ih, keptRows, eq_nil_of_length_eq_zero h]; simp
    · rfl

namespace VersionFilterStream

variable (mode : VersionFilterMode) (limit : Nat) (s : VersionFilterStream K D)

theorem keptRows_pending_fetch :
    keptRows mode limit s.fetch.pending = keptRows mode limit s.pending := by
  rcases s with ⟨_ | b, children, n⟩
  · exact keptRows_readNextBlock mode limit children
  · rfl

theorem keptRows_pending_initNextBlock :
    keptRows mode limit s.initNextBlock.pending = keptRows mode limit s.children :=
  keptRows_readNextBlock mode limit s.children

@[simp] theorem pending_addNotClean (mode : VersionFilterMode) (limit : Nat) (cur : Block K D)
    (s : VersionFilterStream K D) : (s.addNotClean mode limit cur).pending = s.pending := by
  cases mode <;> rfl

/-- The rows of the fetched block that pass, as the two forms in which `read` returns them. -/
theorem filterBytes_initNextBlock (cur : Block K D) (s : VersionFilterStream K D) :
    filterBytes mode limit cur.rows s.initNextBlock.nextRow
      = mapNext (checkRow mode limit) cur.rows (rowsOf s.children).head? := by
  rw [nextRow_initNextBlock, filterBytes_eq]

/-- One call of `read` takes the rows it returns off the front of what the stream keeps. -/
theorem read_spec :
    keptRows mode limit s.pending =
      match read mode limit s with
      | (none, _) => []
      | (some b, s') => b.rows ++ keptRows mode limit s'.pending := by
  fun_induction read mode limit s with
  | case1 s hcur =>
    have hraw : s.rawBlock = none := by
      cases hs : s.rawBlock with
      | none => rfl
      | some b => simp [fetch, hs] at hcur
    have hnone : (readNextBlock s.children).1 = none := by
      simpa [fetch, hraw, initNextBlock] using hcur
    rw [← keptRows_pending_fetch]
    simp [pending, fetch, hraw, initNextBlock, hnone, eq_nil_of_readNextBlock_eq_none hnone, keptRows]
  | case2 s cur hcur next hconst =>
    rw [← keptRows_pending_fetch, pending_eq_of_rawBlock hcur, keptRows, if_pos hconst]
    simp [next, keptRows_pending_initNextBlock]
  | case3 s cur hcur next hconst filter passed hzero ih =>
    have hnil : filterNext (checkRow mode limit) cur.rows (rowsOf s.fetch.children).head? = [] := by
      rw [← length_eq_zero_iff, ← count_mapNext, ← filterBytes_initNextBlock]
      exact hzero
    rw [← keptRows_pending_fetch, pending_eq_of_rawBlock hcur, keptRows, if_neg hconst, hnil,
      nil_append, ← keptRows_pending_initNextBlock, ← ih, pending_addNotClean]
  | case4 s cur hcur next hconst filter passed hne hall =>
    have hrows : filterNext (checkRow mode limit) cur.rows (rowsOf s.fetch.children).head?
        = cur.rows := by
      apply (filterNext_sublist ..).eq_of_length
      rw [← count_mapNext, ← filterBytes_initNextBlock]
      exact hall
    rw [← keptRows_pending_fetch, pending_eq_of_rawBlock hcur, keptRows, if_neg hconst, hrows]
    simp [next, keptRows_pending_initNextBlock]
  | case5 s cur hcur next hconst filter passed hne hall =>
    rw [← keptRows_pending_fetch, pending_eq_of_rawBlock hcur, keptRows, if_neg hconst,
      ← applyFilter_mapNext, ← filterBytes_initNextBlock]
    simp [next, filter, keptRows_pending_initNextBlock]

theorem rowsOf_readAll :
    rowsOf (readAll mode limit s) = keptRows mode limit s.pending := by
  fun_induction readAll mode limit s with
  | case1 s s' h => rw [read_spec, h]; rfl
  | case2 s b s' h ih => rw [read_spec, h, rowsOf_cons, ih]

end VersionFilterStream

variable (mode : VersionFilterMode) (limit : Nat)

theorem keptRows_eq_filterNext {bs : List (Block K D)}
    (hfull : ∀ b ∈ bs, b.isColumnConst = false) :
    keptRows mode limit bs = filterNext (checkRow mode limit) (rowsOf bs) none := by
  induction bs with
  | nil => rfl
  | cons b bs ih =>
    rw [keptRows, rowsOf_cons, filterNext_append, Option.or_none,
      ih fun c hc => hfull c (mem_cons_of_mem b hc)]
    simp [hfull b mem_cons_self]

/-- The rows that a whole read returns -/
def versionFilter (blocks : List (Block K D)) :
    List (Row K D) :=
  rowsOf (VersionFilterStream.readAll mode limit (.new blocks))

/-- The outcome of a run depends on the rows only, not on how they are cut into blocks. -/
theorem versionFilter_eq_filterNext
    {rows : List (Row K D)} {blocks : List (Block K D)} (h : CutInto rows blocks) :
    versionFilter mode limit blocks = filterNext (checkRow mode limit) rows none := by
  rw [versionFilter, VersionFilterStream.rowsOf_readAll, ← h.rows_eq,
    ← keptRows_eq_filterNext mode limit h.full]
  rfl

/-! ## Garbage collection is invisible above the safe point -/

/-- The row behind `cur` is a version of the same handle that a read at `limit` prefers to it. -/
def Superseded (cur : Row K D) (next : Option (Row K D)) : Prop :=
  ∃ n, next = some n ∧ cur.handle = n.handle ∧ n.version ≤ limit

omit [DecidableEq K] in
theorem Superseded.mono {limit limit' : Nat} {cur : Row K D} {next : Option (Row K D)}
    (hle : limit ≤ limit') (h : Superseded limit cur next) : Superseded limit' cur next := by
  obtain ⟨n, hn, hh, hv⟩ := h
  exact ⟨n, hn, hh, hv.trans hle⟩

theorem checkRow_mvcc_iff (limit : Nat) (cur : Row K D) (next : Option (Row K D)) :
    checkRow .mvcc limit cur next = true ↔
      cur.tag = false ∧ cur.version ≤ limit ∧ ¬ Superseded limit cur next := by
  cases next with
  | none => simp [checkRow, checkWithoutNext, Superseded]
  | some n => simp [checkRow, checkWithNextIndex, Superseded, ← imp_iff_not_or, and_assoc]

theorem checkRow_compact_iff (limit : Nat) (cur : Row K D) (next : Option (Row K D)) :
    checkRow .compact limit cur next = true ↔
      limit ≤ cur.version ∨ (¬ Superseded limit cur next ∧ cur.tag = false) := by
  cases next with
  | none => simp [checkRow, checkWithoutNext, Superseded]
  | some n => simp [checkRow, checkWithNextIndex, Superseded, ← imp_iff_not_or]

section Gc

variable {H : Type*} [LinearOrder H] {a : Row H D} {t : List (Row H D)}

/-- In sorted rows the row right behind `a` is the oldest one that could supersede it, so dropping
rows never makes `a` superseded. -/
theorem not_superseded_filterNext {limit : Nat} (p : Row H D → Option (Row H D) → Bool)
    (hs : SortedByPk (a :: t)) (h : ¬ Superseded limit a t.head?) :
    ¬ Superseded limit a (filterNext p t none).head? := by
  rintro ⟨n, hn, hh, hv⟩
  have hnt : n ∈ t := mem_of_mem_filterNext (mem_of_head? hn)
  cases t with
  | nil => simp at hnt
  | cons b t =>
    obtain ⟨hab, hbt⟩ := pairwise_cons.1 hs
    apply h
    rcases mem_cons.1 hnt with rfl | hnt'
    · exact ⟨n, rfl, hh, hv⟩
    · have hbn := (pairwise_cons.1 hbt).1 n hnt'
      have han := hab b mem_cons_self
      -- `b` lies between `a` and `n`, which have one handle
      have hbh : a.handle = b.handle := by
        rcases han with hlt | ⟨heq, -⟩
        · rcases hbn with hlt' | ⟨heq', -⟩
          · exact absurd (hlt.trans hlt') (by simp [hh])
          · exact absurd hlt (by simp [hh, heq'])
        · exact heq
      refine ⟨b, rfl, hbh, ?_⟩
      rcases hbn with hlt | ⟨-, hle⟩
      · exact absurd hlt (by simp [← hh, hbh])
      · exact hle.trans hv

/-- A superseded row that `COMPACT` mode keeps has the later version at or above the safe point, so that is
kept too and still supersedes it. -/
theorem superseded_filterNext_compact {limit limit' : Nat} (hs : SortedByPk (a :: t))
    (hkeep : checkRow .compact limit a t.head? = true) (h : Superseded limit' a t.head?) :
    Superseded limit' a (filterNext (checkRow .compact limit) t none).head? := by
  obtain ⟨n, hn, hh, hv⟩ := h
  cases t with
  | nil => simp at hn
  | cons b t =>
    obtain rfl : b = n := by simpa using hn
    have hab := (pairwise_cons.1 hs).1 b mem_cons_self
    have hle : a.version ≤ b.version := by
      rcases hab with hlt | ⟨-, hle⟩
      · exact absurd hlt (by simp [hh])
      · exact hle
    have hb : limit ≤ b.version := by
      rcases (checkRow_compact_iff ..).1 hkeep with hge | ⟨hns, -⟩
      · exact hge.trans hle
      · by_contra hlt
        exact hns ⟨b, rfl, hh, by omega⟩
    have hkb : checkRow .compact limit b (t.head?.or none) = true :=
      (checkRow_compact_iff ..).2 (.inl hb)
    exact ⟨b, head?_filterNext_of_pos hkb, hh, hv⟩

theorem filterNext_mvcc_compact {rows : List (Row H D)} (hs : SortedByPk rows) {L T : Nat}
    (hLT : L ≤ T) :
    filterNext (checkRow .mvcc T) (filterNext (checkRow .compact L) rows none) none
      = filterNext (checkRow .mvcc T) rows none := by
  refine filterNext_filterNext hs fun a t hat => ?_
  rw [Bool.eq_iff_iff, Bool.and_eq_true, checkRow_mvcc_iff, checkRow_mvcc_iff]
  constructor
  · rintro ⟨hkeep, htag, hv, hns⟩
    exact ⟨htag, hv, fun h => hns (superseded_filterNext_compact hat hkeep h)⟩
  · rintro ⟨htag, hv, hns⟩
    refine ⟨?_, htag, hv, not_superseded_filterNext _ hat hns⟩
    exact (checkRow_compact_iff ..).2 (.inr ⟨fun h => hns (h.mono hLT), htag⟩)

theorem filterNext_compact_compact {rows : List (Row H D)} (hs : SortedByPk rows) {L₁ L₂ : Nat}
    (hL : L₁ ≤ L₂) :
    filterNext (checkRow .compact L₂) (filterNext (checkRow .compact L₁) rows none) none
      = filterNext (checkRow .compact L₂) rows none := by
  refine filterNext_filterNext hs fun a t hat => ?_
  rw [Bool.eq_iff_iff, Bool.and_eq_true, checkRow_compact_iff L₂,
    checkRow_compact_iff L₂]
  constructor
  · rintro ⟨hkeep, hv | ⟨hns, htag⟩⟩
    · exact .inl hv
    · exact .inr ⟨fun h => hns (superseded_filterNext_compact hat hkeep h), htag⟩
  · rintro (hv | ⟨hns, htag⟩)
    · exact ⟨(checkRow_compact_iff ..).2 (.inl (hL.trans hv)), .inl hv⟩
    · refine ⟨?_, .inr ⟨not_superseded_filterNext _ hat hns, htag⟩⟩
      exact (checkRow_compact_iff ..).2 (.inr ⟨fun h => hns (h.mono hL), htag⟩)

/-- Garbage collection of versions is invisible above the safe point, for every way the rows are cut
into blocks at each stage. -/
theorem gc_invisible_above_safe_point (rows : List (Row H D)) (hs : SortedByPk rows) :
    (∀ L T, L ≤ T → ∀ blocks gced whole : List (Block H D),
      CutInto rows blocks → CutInto (versionFilter .compact L blocks) gced → CutInto rows whole →
      versionFilter .mvcc T gced = versionFilter .mvcc T whole) ∧
    (∀ L₁ L₂, L₁ ≤ L₂ → ∀ blocks gced whole : List (Block H D),
      CutInto rows blocks → CutInto (versionFilter .compact L₁ blocks) gced → CutInto rows whole →
      versionFilter .compact L₂ gced = versionFilter .compact L₂ whole) := by
  refine ⟨fun L T hLT blocks gced whole hb hg hw => ?_, fun L₁ L₂ hL blocks gced whole hb hg hw => ?_⟩
  · rw [versionFilter_eq_filterNext _ _ hg, versionFilter_eq_filterNext _ _ hb,
      versionFilter_eq_filterNext _ _ hw]
    exact filterNext_mvcc_compact hs hLT
  · rw [versionFilter_eq_filterNext _ _ hg, versionFilter_eq_filterNext _ _ hb,
      versionFilter_eq_filterNext _ _ hw]
    exact filterNext_compact_compact hs hL

/-- Four versions of one row, the third a delete, as one block and as two. -/
theorem gc_invisible_above_safe_point_versions :
    let rows : List (Row Int Unit) :=
      [⟨1, 10, false, ()⟩, ⟨1, 20, false, ()⟩, ⟨1, 30, true, ()⟩, ⟨1, 40, false, ()⟩]
    SortedByPk rows ∧
    versionFilter .mvcc 25 [Block.ofRows [⟨1, 20, false, ()⟩], .ofRows (rows.drop 2)]
      = versionFilter .mvcc 25 [Block.ofRows rows] ∧
    versionFilter .compact 35 [Block.ofRows [⟨1, 20, false, ()⟩], .ofRows (rows.drop 2)]
      = versionFilter .compact 35 [Block.ofRows rows] := by
  intro rows
  have hs : SortedByPk rows := by unfold SortedByPk; decide
  have hw : CutInto rows [Block.ofRows rows] := ⟨by simp, by decide, by decide⟩
  have hg : CutInto (versionFilter .compact 25 [Block.ofRows rows])
      [Block.ofRows [⟨1, 20, false, ()⟩], .ofRows (rows.drop 2)] := by
    refine ⟨?_, by decide, by decide⟩
    rw [versionFilter_eq_filterNext _ _ hw]
    decide
  refine ⟨hs, ?_, ?_⟩
  · exact (gc_invisible_above_safe_point rows hs).1 25 25 le_rfl _ _ _ hw hg hw
  · exact (gc_invisible_above_safe_point rows hs).2 25 35 (by decide) _ _ _ hw hg hw

end Gc

end TiFlash.DM
