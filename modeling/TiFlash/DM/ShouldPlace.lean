import TiFlash.DM.DeltaPlace
import TiFlash.DM.VersionFilter

/-!
# Whether a read has to place the delta

`Segment::ensurePlace` brings the delta index up to the snapshot, unless `Snapshot::shouldPlace` finds that
no row still to be placed is in the range of the read and old enough for it.
-/

namespace TiFlash.DM

variable {c : Bool} {D : Type}

/-- A pack of a snapshot -/
inductive SnapshotPack (c : Bool) (D : Type) where
  | block (rows : List (Row (RowKey c) D))
  | deleteRange (range : RowKeyRange c)

namespace SnapshotPack

/-- The rows of a pack -/
def rows : SnapshotPack c D → List (Row (RowKey c) D)
  | block rows => rows
  | deleteRange _ => []

def isDeleteRange : SnapshotPack c D → Bool
  | block _ => false
  | deleteRange _ => true

end SnapshotPack

/-- `DeltaValueSpace::Snapshot` -/
structure DeltaSnapshot (c : Bool) (D : Type) where
  packs : List (SnapshotPack c D)

namespace DeltaSnapshot

variable (snap : DeltaSnapshot c D)

/-- The rows of the packs; the tuple id of a row is its position. -/
def valueSpace : List (Row (RowKey c) D) := snap.packs.flatMap SnapshotPack.rows

def rows : Nat := snap.valueSpace.length

def deletes : Nat := snap.packs.countP SnapshotPack.isDeleteRange

end DeltaSnapshot

/-- The pack of the first row at or behind the offset, and the position of that row in it. The packs are given
by their numbers of rows. -/
def findPack : List Nat → Nat → Nat × Nat
  | [], _ => (0, 0)
  | rows :: packs, findOffset =>
    if findOffset < rows then (0, findOffset)
    else ((findPack packs (findOffset - rows)).1 + 1, (findPack packs (findOffset - rows)).2)

/-- The exception of `getColumnsOfPack` for a pack without columns -/
inductive SnapshotError where
  | illegalStatus
deriving DecidableEq, Repr

/-- The loop of `shouldPlace` over the packs from the given one on; the rows of the first start at
`rowsStartInPack`. -/
def anyRelevant (relevantRange : RowKeyRange c) (maxVersion : Nat) :
    List (SnapshotPack c D) → (rowsStartInPack : Nat) → Except SnapshotError Bool
  | [], _ => .ok false
  | .deleteRange _ :: _, _ => .error .illegalStatus
  | .block rows :: packs, rowsStartInPack =>
    if (rows.drop rowsStartInPack).any fun r => r.version ≤ maxVersion && relevantRange.check r.handle then
      .ok true
    else anyRelevant relevantRange maxVersion packs 0

/-- `Snapshot::shouldPlace` for an index with the given placed status -/
def DeltaSnapshot.shouldPlace (snap : DeltaSnapshot c D) (placedRows placedDeletes deltaCacheLimitRows : Nat)
    (segmentRange relevantRange : RowKeyRange c) (maxVersion : Nat) : Except SnapshotError Bool :=
  if placedRows ≥ snap.rows ∧ placedDeletes = snap.deletes then .ok false
  else if relevantRange.all ∨ (relevantRange.start.value = segmentRange.start.value ∧
      relevantRange.stop.value = segmentRange.stop.value) ∨ snap.rows - placedRows > deltaCacheLimitRows ∨
      placedDeletes ≠ snap.deletes then .ok true
  else
    let start := findPack (snap.packs.map fun p => p.rows.length) placedRows
    anyRelevant relevantRange maxVersion (snap.packs.drop start.1) start.2

namespace RowKeyRange

/-- A round of `mergeRanges`: `min` and `max` of two ends compare their strings. -/
def widen (range r : RowKeyRange c) : RowKeyRange c where
  start := if range.start.value < r.start.value then range.start else r.start
  stop := if r.stop.value ≤ range.stop.value then range.stop else r.stop
  rowkeyColumnSize := range.rowkeyColumnSize

def mergeRanges (ranges : List (RowKeyRange c)) (rowkeyColumnSize : Nat) : RowKeyRange c :=
  ranges.foldl widen (newNone c rowkeyColumnSize)

end RowKeyRange

end TiFlash.DM
