import TiFlash.DM.ShouldPlace

/-!
# The delta index and its rewriting by a flush

A delta index is a delta tree and how much of the delta it has indexed. A flush writes every pack sorted, so
the tuple ids change: `cloneWithUpdates` makes an index for the rewritten packs.
-/

namespace TiFlash.DM

variable {c : Bool} {D τ : Type} {n : Nat}

/-- The delta tree and how much of the delta it has placed -/
structure DeltaIndex (τ : Type) where
  deltaTree : τ
  placedRows : Nat
  placedDeletes : Nat

/-- How a flush has reordered the rows of one pack -/
structure IndexUpdate where
  deleteRangesOffset : Nat
  rowsOffset : Nat
  idxMapping : List Nat
deriving DecidableEq, Repr

/-- The constructor of `DeltaIndex::Update` -/
def IndexUpdate.ofPerm (deleteRangesOffset rowsOffset : Nat) (sortPerm : List Nat) : IndexUpdate where
  deleteRangesOffset := deleteRangesOffset
  rowsOffset := rowsOffset
  idxMapping := (List.range sortPerm.length).foldl (fun mapping pos => mapping.set (sortPerm.getD pos 0) pos)
    (List.replicate sortPerm.length 0)

section Tree

variable (T : EntryTree n τ)

/-- The row ids of the inserts from `tupleIdStart` on. `delta` is that of the iterator. -/
def insertRids (tupleIdStart : Nat) : (delta : Int) → List DTEntry → List Nat
  | _, [] => []
  | delta, e :: entries =>
    if e.isInsert then
      if tupleIdStart ≤ e.value then (e.sid + delta).toNat :: insertRids tupleIdStart (delta + 1) entries
      else insertRids tupleIdStart (delta + 1) entries
    else insertRids tupleIdStart (delta - e.count) entries

/-- `DeltaTree::removeInsertsStartFrom`: the larger row ids are removed first. -/
def removeInsertsStartFrom (tree : τ) (tupleIdStart : Nat) : τ :=
  (insertRids tupleIdStart 0 (T.entries tree)).reverse.foldl T.addDelete tree

/-- A round of `updateTupleId`: the new tuple id of an insert -/
def newTupleId (tupleRefs : List Nat) (offset id : Nat) : Nat :=
  if offset ≤ id ∧ id < offset + tupleRefs.length then tupleRefs.getD (id - offset) 0 + offset else id

def updateTupleId (tree : τ) (tupleRefs : List Nat) (offset : Nat) : τ :=
  T.mapValues tree (newTupleId tupleRefs offset)

def applyUpdates (index : DeltaIndex τ) : List IndexUpdate → DeltaIndex τ
  | [] => index
  | update :: updates =>
    if index.placedRows ≤ update.rowsOffset then index
    else if index.placedRows < update.rowsOffset + update.idxMapping.length then
      { index with
        deltaTree := removeInsertsStartFrom T index.deltaTree update.rowsOffset
        placedRows := update.rowsOffset }
    else
      applyUpdates { index with
        deltaTree := updateTupleId T index.deltaTree update.idxMapping update.rowsOffset } updates

/-- The exception "Unexpected empty updates" -/
inductive IndexError where
  | emptyUpdates
deriving DecidableEq, Repr

/-- Starts anew if a delete range behind the first of the packs is placed. -/
def cloneWithUpdates (index : DeltaIndex τ) : List IndexUpdate → Except IndexError (DeltaIndex τ)
  | [] => .error .emptyUpdates
  | front :: updates =>
    if index.placedDeletes > front.deleteRangesOffset then .ok ⟨T.empty, 0, 0⟩
    else .ok (applyUpdates T index (front :: updates))

end Tree

/-! ## What a flush does to the packs -/

/-- A pack of the delta, and the permutation of `sortBlockByPk` if the flush writes its data and it was not
sorted. -/
structure FlushedPack (c : Bool) (D : Type) where
  pack : SnapshotPack c D
  perm : Option (List Nat)

namespace FlushedPack

/-- A block has the permutation of its rows, a delete range has none. -/
def Valid (p : FlushedPack c D) : Prop :=
  ∀ perm ∈ p.perm, p.pack.isDeleteRange = false ∧ perm.Perm (List.range p.pack.rows.length)

/-- The pack as the flush has written it -/
def rewritten (p : FlushedPack c D) : SnapshotPack c D :=
  match p.pack, p.perm with
  | .block rows, some perm => .block (perm.filterMap fun i => rows[i]?)
  | pack, _ => pack

end FlushedPack

/-- `delta_index_updates` of `DeltaValueSpace::flush`, for the packs behind `rowsOffset` rows and
`deletesOffset` delete ranges -/
def deltaIndexUpdates (rowsOffset deletesOffset : Nat) : List (FlushedPack c D) → List IndexUpdate
  | [] => []
  | p :: packs =>
    (p.perm.map (IndexUpdate.ofPerm deletesOffset rowsOffset)).toList ++
      deltaIndexUpdates (rowsOffset + p.pack.rows.length)
        (if p.pack.isDeleteRange then deletesOffset + 1 else deletesOffset) packs

/-! ## What it means to place packs -/

/-- The rows of packs behind `deletes` delete ranges, each with the number of delete ranges before it -/
def taggedRows (deletes : Nat) : List (SnapshotPack c D) → List (Nat × Row (RowKey c) D)
  | [] => []
  | .block rows :: packs => rows.map (deletes, ·) ++ taggedRows deletes packs
  | .deleteRange _ :: packs => taggedRows (deletes + 1) packs

/-- In the order of the packs -/
def deleteRanges : List (SnapshotPack c D) → List (RowKeyRange c)
  | [] => []
  | .block _ :: packs => deleteRanges packs
  | .deleteRange range :: packs => range :: deleteRanges packs

/-- The row behind a row of the merged view, over a stable and the packs of a delta -/
def rowOf (stableRow : Nat → Row (RowKey c) D) (packs : List (SnapshotPack c D)) : ViewRow → Row (RowKey c) D
  | .stable sid => stableRow sid
  | .delta id => ((taggedRows 0 packs)[id]?.map Prod.snd).getD (stableRow 0)

end TiFlash.DM
