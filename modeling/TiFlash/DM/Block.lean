import Mathlib.Tactic

/-!
# Rows, blocks and block streams

A block is a set of columns of equal length. Readers look at the handle, the version and the delete mark
(`tag`); the other columns travel with them, so a block is kept as the list of its rows, and a stream as the
list of blocks still to be delivered.
-/

namespace TiFlash.DM

/-- One row of a block. The tag column is a `UInt8` that is only written as the outcome of `write_type ==
DelFlag`. -/
structure Row (K D : Type*) where
  /-- The row key (`_tidb_rowid` or the encoded common handle). -/
  handle : K
  /-- `_INTERNAL_VERSION`. -/
  version : Nat
  /-- `_INTERNAL_DELMARK`. -/
  tag : Bool
  data : D
  deriving DecidableEq, Repr

/-- When the handle column is a `ColumnConst` (the mark of a clean read) so are the version and the tag
column, and every row shows the one value they store. -/
structure Block (K D : Type*) where
  rows : List (Row K D)
  /-- Whether the handle column is a `ColumnConst`. -/
  isColumnConst : Bool
  deriving DecidableEq, Repr

variable {K D : Type*} (rows : List (Row K D))

/-- A block whose columns are all stored in full. -/
def Block.ofRows : Block K D := ⟨rows, false⟩

@[simp] theorem Block.rows_ofRows : (Block.ofRows rows).rows = rows := rfl

@[simp] theorem Block.isColumnConst_ofRows :
    (Block.ofRows rows).isColumnConst = false := rfl

/-- The rows of all blocks -/
def rowsOf (blocks : List (Block K D)) : List (Row K D) := blocks.flatMap Block.rows

@[simp] theorem rowsOf_nil : rowsOf ([] : List (Block K D)) = [] := rfl

@[simp] theorem rowsOf_cons (b : Block K D) (bs : List (Block K D)) :
    rowsOf (b :: bs) = b.rows ++ rowsOf bs := rfl

theorem rowsOf_append (bs cs : List (Block K D)) : rowsOf (bs ++ cs) = rowsOf bs ++ rowsOf cs :=
  List.flatMap_append

/-- The next block of the stream that has rows, and the stream behind it. -/
def readNextBlock : List (Block K D) → Option (Block K D) × List (Block K D)
  | [] => (none, [])
  | b :: bs => if b.rows.length = 0 then readNextBlock bs else (some b, bs)

/-- `column->filter(filter)`: the entries whose filter byte is set. -/
def applyFilter {α : Type*} (xs : List α) (filter : List Bool) : List α :=
  ((xs.zip filter).filter (·.2)).map (·.1)

/-- `Blocks` is one way to cut `rows` into non-empty blocks with full columns. -/
structure CutInto (rows : List (Row K D)) (blocks : List (Block K D)) : Prop where
  rows_eq : rowsOf blocks = rows
  nonempty : ∀ b ∈ blocks, b.rows ≠ []
  full : ∀ b ∈ blocks, b.isColumnConst = false

/-- Rows in the order of `(handle, version)`; equal pairs may repeat. -/
def SortedByPk [LT K] (rows : List (Row K D)) : Prop :=
  rows.Pairwise fun a b => a.handle < b.handle ∨ (a.handle = b.handle ∧ a.version ≤ b.version)

end TiFlash.DM
