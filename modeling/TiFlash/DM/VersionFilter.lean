import TiFlash.DM.Block

/-!
# The version filter

`DMVersionFilterBlockInputStream<MODE>` decides row by row, looking at the following row only. In `MVCC`
mode it keeps what a read at `version_limit` sees; in `COMPACT` mode it drops versions that no read at or
above `version_limit` can see, and counts kept rows that a clean read must not meet.
-/

namespace TiFlash.DM

open List

variable {K D : Type*}

/-- `DM_VERSION_FILTER_MODE_MVCC` and `DM_VERSION_FILTER_MODE_COMPACT`. -/
inductive VersionFilterMode where
  | mvcc
  | compact
  deriving DecidableEq, Repr

def unrollBatch : Nat := 64

/-! ## The filter bytes of one block -/

section Bytes

variable [DecidableEq K] (mode : VersionFilterMode) (limit : Nat)

/-- The `filter` byte of a row that is followed by `next`. -/
def checkWithNextIndex (cur next : Row K D) : Bool :=
  match mode with
  | .mvcc => !cur.tag && cur.version ≤ limit &&
      (cur.handle ≠ next.handle || next.version > limit)
  | .compact => cur.version ≥ limit ||
      ((cur.handle ≠ next.handle || next.version > limit) && !cur.tag)

/-- The `filter` byte of the last row of the stream. -/
def checkWithoutNext (cur : Row K D) : Bool :=
  match mode with
  | .mvcc => !cur.tag && cur.version ≤ limit
  | .compact => cur.version ≥ limit || !cur.tag

/-- The `filter` byte of a row, given the row behind it if there is one. -/
def checkRow (cur : Row K D) : Option (Row K D) → Bool
  | none => checkWithoutNext mode limit cur
  | some next => checkWithNextIndex mode limit cur next

/-- The `not_clean` byte of a row whose `filter` byte is given. -/
def checkNotClean (filter : Bool) (cur : Row K D) : Option (Row K D) → Bool
  | none => filter && cur.tag
  | some next => filter && (cur.handle = next.handle || cur.tag)

/-- The unrolled passes over the filter bytes: `next` is the column one position further on. -/
def unrolledFilter (cur next : List (Row K D)) :
    List Bool :=
  match mode with
  | .mvcc =>
    let filter := next.map fun n => decide (n.version > limit)
    let filter := zipWith or filter
      (zipWith (fun c n => decide (c.handle ≠ n.handle)) cur next)
    let filter := zipWith and filter (cur.map fun c => decide (c.version ≤ limit))
    zipWith and filter (cur.map fun c => !c.tag)
  | .compact =>
    let filter := zipWith (fun c n => decide (c.handle ≠ n.handle)) cur next
    let filter := zipWith or filter (next.map fun n => decide (n.version > limit))
    let filter := zipWith and filter (cur.map fun c => !c.tag)
    zipWith or filter (cur.map fun c => decide (c.version ≥ limit))

/-- The unrolled passes over the `not_clean` bytes. -/
def unrolledNotClean (cur next : List (Row K D)) (filter : List Bool) : List Bool :=
  let notClean := zipWith (fun c n => decide (c.handle = n.handle)) cur next
  let notClean := zipWith or notClean (cur.map fun c => c.tag)
  zipWith and notClean filter

/-- `batch_rows`: how many rows of a block the unrolled passes cover. -/
def batchRows (rows : List (Row K D)) : Nat := (rows.length - 1) / unrollBatch * unrollBatch

/-- The `filter` bytes of a block; `next` is the first row of the next block. -/
def filterBytes (rows : List (Row K D))
    (next : Option (Row K D)) : List Bool :=
  let n := batchRows rows
  unrolledFilter mode limit (rows.take n) (rows.tail.take n)
    ++ zipWith (checkWithNextIndex mode limit) (rows.drop n) (rows.tail.drop n)
    ++ (rows.getLast?.map fun cur => checkRow mode limit cur next).toList

/-- The `not_clean` bytes of a block in `COMPACT` mode. -/
def notCleanBytes (rows : List (Row K D)) (next : Option (Row K D)) : List Bool :=
  let n := batchRows rows
  unrolledNotClean (rows.take n) (rows.tail.take n)
      (unrolledFilter .compact limit (rows.take n) (rows.tail.take n))
    ++ zipWith
        (fun cur nx => checkNotClean (checkWithNextIndex .compact limit cur nx) cur (some nx))
        (rows.drop n) (rows.tail.drop n)
    ++ (rows.getLast?.map fun cur => checkNotClean (checkRow .compact limit cur next) cur next).toList

end Bytes

/-! ## The stream -/

/-- The state of a `DMVersionFilterBlockInputStream` between two calls of `read`. -/
structure VersionFilterStream (K D : Type*) where
  /-- The block to be filtered next, once it has been fetched. -/
  rawBlock : Option (Block K D)
  /-- What the child stream has still to deliver. -/
  children : List (Block K D)
  /-- `not_clean_rows`. -/
  notCleanRows : Nat

namespace VersionFilterStream

/-- Before the first read -/
def new (children : List (Block K D)) : VersionFilterStream K D := ⟨none, children, 0⟩

variable (s : VersionFilterStream K D)

def initNextBlock : VersionFilterStream K D :=
  { s with rawBlock := (readNextBlock s.children).1, children := (readNextBlock s.children).2 }

/-- `if (!raw_block) initNextBlock();` at the head of the loop. -/
def fetch : VersionFilterStream K D :=
  match s.rawBlock with
  | none => s.initNextBlock
  | some _ => s

def nextRow : Option (Row K D) := s.rawBlock.bind fun b => b.rows.head?

/-- How much the stream can still be read: every turn of the loop consumes a block. -/
def size : Nat := 2 * s.children.length + s.rawBlock.toList.length

theorem length_readNextBlock (bs : List (Block K D)) :
    2 * (readNextBlock bs).2.length + (readNextBlock bs).1.toList.length ≤ 2 * bs.length := by
  induction bs with
  | nil => simp [readNextBlock]
  | cons b bs ih =>
    rw [readNextBlock]
    split
    · exact ih.trans (by simp)
    · simp [Nat.mul_add]

theorem size_initNextBlock_le :
    s.initNextBlock.size ≤ 2 * s.children.length :=
  length_readNextBlock s.children

theorem size_fetch_le : s.fetch.size ≤ s.size := by
  rcases s with ⟨_ | b, children, n⟩
  · exact (size_initNextBlock_le _).trans (by simp [size])
  · exact le_rfl

theorem size_initNextBlock_fetch_lt {s : VersionFilterStream K D} {cur : Block K D}
    (h : s.fetch.rawBlock = some cur) : s.fetch.initNextBlock.size < s.size := by
  have h1 := size_initNextBlock_le s.fetch
  have h2 := size_fetch_le s
  simp only [size, h, Option.toList_some, length_singleton] at h1 h2 ⊢
  omega

variable [DecidableEq K] (mode : VersionFilterMode)

/-- `not_clean_rows += countBytesInFilter(not_clean)`, in `COMPACT` mode only. -/
def addNotClean (limit : Nat) (cur : Block K D)
    (s : VersionFilterStream K D) : VersionFilterStream K D :=
  match mode with
  | .mvcc => s
  | .compact =>
    { s with notCleanRows := s.notCleanRows + (notCleanBytes limit cur.rows s.nextRow).count true }

@[simp] theorem size_addNotClean (limit : Nat) (cur : Block K D)
    (s : VersionFilterStream K D) : (s.addNotClean mode limit cur).size = s.size := by
  cases mode <;> rfl

/-- `DMVersionFilterBlockInputStream::read`: the next block with the rows that pass, `none` at the
end of the stream. -/
def read (mode : VersionFilterMode) (limit : Nat) (s : VersionFilterStream K D) :
    Option (Block K D) × VersionFilterStream K D :=
  match _hcur : s.fetch.rawBlock with
  | none => (none, s.fetch)
  | some cur =>
    let s' := s.fetch.initNextBlock
    -- Clean read optimization: the whole block passes.
    if cur.isColumnConst then (some cur, s')
    else
      let filter := filterBytes mode limit cur.rows s'.nextRow
      let passedCount := filter.count true
      if passedCount = 0 then read mode limit (s'.addNotClean mode limit cur)
      else if passedCount = cur.rows.length then (some cur, s'.addNotClean mode limit cur)
      else (some (Block.ofRows (applyFilter cur.rows filter)), s'.addNotClean mode limit cur)
termination_by s.size
decreasing_by
  rw [size_addNotClean]
  exact size_initNextBlock_fetch_lt _hcur

theorem size_read_lt {mode : VersionFilterMode} {limit : Nat} {s s' : VersionFilterStream K D}
    {b : Block K D} (h : read mode limit s = (some b, s')) : s'.size < s.size := by
  fun_induction read mode limit s with
  | case1 s hcur => simp at h
  | case2 s cur hcur next hconst =>
    obtain rfl : next = s' := (Prod.ext_iff.1 h).2
    exact size_initNextBlock_fetch_lt hcur
  | case3 s cur hcur next hconst filter passed hzero ih =>
    have hnext := size_initNextBlock_fetch_lt hcur
    exact (ih h).trans (by simpa using hnext)
  | case4 s cur hcur next hconst filter passed hne hall | case5 s cur hcur next hconst filter passed hne hall =>
    obtain rfl : next.addNotClean mode limit cur = s' := (Prod.ext_iff.1 h).2
    rw [size_addNotClean]
    exact size_initNextBlock_fetch_lt hcur

/-- The blocks that `read` returns until the end of the stream. -/
def readAll (mode : VersionFilterMode) (limit : Nat) (s : VersionFilterStream K D) :
    List (Block K D) :=
  match _hread : read mode limit s with
  | (none, _) => []
  | (some b, s') => b :: readAll mode limit s'
termination_by s.size
decreasing_by exact size_read_lt _hread

/-- The stream when `read` has returned its last block. -/
def atEnd (mode : VersionFilterMode) (limit : Nat) (s : VersionFilterStream K D) :
    VersionFilterStream K D :=
  match _hread : read mode limit s with
  | (none, s') => s'
  | (some _, s') => atEnd mode limit s'
termination_by s.size
decreasing_by exact size_read_lt _hread

end VersionFilterStream

end TiFlash.DM
