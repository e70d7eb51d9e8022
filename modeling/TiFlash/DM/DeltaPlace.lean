import Mathlib.Data.Prod.Lex
import TiFlash.DM.RowKeyFilter

/-!
# Placing delta rows into a delta tree

To index a sorted block, a `RidGenerator` walks along the merged view and gives every row its row id in the
view that the rows before it leave; then the row ids are applied to the delta tree in order.
-/

namespace TiFlash.DM

section

variable {c : Bool} {K τ : Type}

/-- A row of the merged view: a row of the stable by its position, or of the delta value space by its
tuple id. -/
inductive ViewRow where
  | stable (sid : Nat)
  | delta (tupleId : Nat)
deriving DecidableEq, Repr

/-- What the template parameter `DeltaTree` of the placement offers: the rows it stands for, and its two
updates of them. -/
structure PlaceTree (τ : Type) where
  view : τ → List ViewRow
  addDelete : τ → Nat → τ
  addInsert : τ → Nat → Nat → τ
  view_addDelete : ∀ t rid, view (addDelete t rid) = (view t).eraseIdx rid
  view_addInsert : ∀ t rid tupleId, rid ≤ (view t).length →
    view (addInsert t rid tupleId) = (view t).insertIdx rid (.delta tupleId)

/-- The merged view itself as a tree -/
def PlaceTree.rows : PlaceTree (List ViewRow) where
  view rows := rows
  addDelete rows rid := rows.eraseIdx rid
  addInsert rows rid tupleId := rows.insertIdx rid (.delta tupleId)
  view_addDelete _ _ := rfl
  view_addInsert _ _ _ _ := rfl

/-- The exceptions of a placement. `lengthError` is that of a vector of more rows than memory has. -/
inductive PlaceError where
  | illegalDelta
  | rowsNotFound
  | lengthError
deriving DecidableEq, Repr

/-- The stream over the merged view: the rows of `getSkippedRows`, and the blocks that `read` returns, each
with a row. -/
structure ViewStream (K : Type) where
  skip : Nat
  blocks : List (K × List K)

/-- The keys of a stream of non-empty blocks -/
def blockRows (blocks : List (K × List K)) : List K := blocks.flatMap fun b => b.1 :: b.2

/-- `RidGenerator` without the delta block, whose row is an argument of the functions below -/
structure RidGenerator (K : Type) where
  dupPrev : Bool
  /-- The rows of the stable block from `stable_block_pos` on -/
  stableBlock : List K
  /-- The blocks that the stable stream has not returned yet -/
  stableStream : List (K × List K)
  rid : Nat
deriving DecidableEq, Repr

/-- Before the first block is read -/
def RidGenerator.init (stable : ViewStream K) : RidGenerator K := ⟨false, [], stable.blocks, stable.skip⟩

def RidGenerator.ahead (g : RidGenerator K) : List K := g.stableBlock ++ blockRows g.stableStream

section Generator

variable [LinearOrder K]

/-- The rounds of `while (fillStableBlockIfNeed())` in which the row of the delta is larger. The stable block
then has the next row, if any. -/
def RidGenerator.skipSmaller (key : K) (g : RidGenerator K) : RidGenerator K :=
  match g with
  | ⟨dupPrev, k :: block, stream, rid⟩ =>
    if k < key then skipSmaller key ⟨dupPrev, block, stream, rid + 1⟩ else g
  | ⟨dupPrev, [], (k, block) :: stream, rid⟩ => skipSmaller key ⟨dupPrev, k :: block, stream, rid⟩
  | ⟨_, [], [], _⟩ => g
termination_by (g.stableStream.length, g.stableBlock.length)

/-- `RidGenerator::nextForUpsert`. `dupNext` says whether the next row of the delta has the same key. -/
def RidGenerator.nextForUpsert (g : RidGenerator K) (key : K) (dupNext : Bool) :
    (Nat × Bool) × RidGenerator K :=
  let g := g.skipSmaller key
  let rid := if dupNext then g.rid else g.rid + 1
  match g.stableBlock with
  | k :: block =>
    if key = k then
      ((g.rid, true), { g with
        dupPrev := dupNext, rid := rid, stableBlock := if dupNext then k :: block else block })
    else ((g.rid, g.dupPrev), { g with dupPrev := dupNext, rid := rid })
  | [] => ((g.rid, g.dupPrev), { g with dupPrev := dupNext, rid := rid })

/-- The row id `-1` of a row that is not found is `none`; the row id of the rows after it is increased all the
same. -/
def RidGenerator.nextForDelete (g : RidGenerator K) (key : K) :
    Except PlaceError (Option Nat × RidGenerator K) :=
  let g := g.skipSmaller key
  match g.stableBlock with
  | k :: block =>
    if key = k then .ok (some g.rid, { g with stableBlock := block })
    else .ok (none, { g with rid := g.rid + 1 })
  | [] => .error .rowsNotFound

/-- `rids` of `placeInsert` -/
def upsertRids (g : RidGenerator K) : List K → List (Nat × Bool)
  | [] => []
  | key :: keys =>
    (g.nextForUpsert key (keys.head? = some key)).1
      :: upsertRids (g.nextForUpsert key (keys.head? = some key)).2 keys

def deleteRids (g : RidGenerator K) : List K → Except PlaceError (List (Option Nat))
  | [] => .ok []
  | key :: keys => do
    let (rid, g) ← g.nextForDelete key
    let rids ← deleteRids g keys
    return rid :: rids

/-- The check of the constructor of `RidGenerator` -/
def checkSorted (keys : List K) : Except PlaceError Unit :=
  if keys.IsChain (· ≤ ·) then .ok () else .error .illegalDelta

end Generator

variable (T : PlaceTree τ)

/-- The loop of `placeInsert` that applies the row ids, paired with the tuple ids of the rows -/
def applyUpserts (tree : τ) (rids : List ((Nat × Bool) × Nat)) : τ := rids.foldl (fun tree r =>
    T.addInsert (if r.1.2 then T.addDelete tree r.1.1 else tree) r.1.1 r.2) tree

/-- The loop of `placeDelete` that applies the row ids -/
def applyDeletes (tree : τ) (rids : List (Option Nat)) : τ :=
  rids.foldl (fun tree rid => rid.elim tree (T.addDelete tree)) tree

/-- `(handle, version)`, the columns by which the rows of a segment are sorted -/
abbrev SortKey (c : Bool) := RowKey c ×ₗ Nat

/-- The key without the version -/
def SortKey.handle (key : SortKey c) : RowKey c := (ofLex key).1

/-- The limit wraps around when the end of the rows is before their start; the generator then cannot allocate
its vector. -/
def getPosRangeOfSorted (range : RowKeyRange c) (handles : List (RowKey c)) :
    Except PlaceError (Nat × Nat) :=
  let endIndex :=
    if range.check (handles.getD (handles.length - 1) default) then handles.length
    else lowerBound handles range.stop.toRowKeyValueRef
  if endIndex < (range.getPosRange handles).1 then .error .lengthError
  else .ok (range.getPosRange handles)

/-- `tuple_id` of the row of the block at an index; `row_id_ref` is `none` for `use_row_id_ref = false` -/
def tupleIdOf (deltaValueSpaceOffset : Nat) (rowIdRef : Option (List Nat)) (index : Nat) : Nat :=
  match rowIdRef with
  | some ref => deltaValueSpaceOffset + ref.getD index 0
  | none => deltaValueSpaceOffset + index

/-- Whether all rows of the block were indexed, and the tree -/
def placeInsert (stable : ViewStream (SortKey c)) (deltaBlock : List (SortKey c))
    (range : RowKeyRange c) (deltaTree : τ) (deltaValueSpaceOffset : Nat)
    (rowIdRef : Option (List Nat)) : Except PlaceError (Bool × τ) := do
  let rows := deltaBlock.length
  let (offset, limit) ← getPosRangeOfSorted range (deltaBlock.map SortKey.handle)
  if limit = 0 then return (rows == limit, deltaTree)
  let keys := (deltaBlock.drop offset).take limit
  checkSorted keys
  let rids := upsertRids (.init stable) keys
  let tupleIds := (List.range limit).map fun i => tupleIdOf deltaValueSpaceOffset rowIdRef (offset + i)
  return (rows == limit, applyUpserts T deltaTree (rids.zip tupleIds))

/-- Removes the rows of the block that are in the range. -/
def placeDelete (stable : ViewStream (SortKey c)) (deltaBlock : List (SortKey c))
    (range : RowKeyRange c) (deltaTree : τ) : Except PlaceError (Bool × τ) := do
  let rows := deltaBlock.length
  let (offset, limit) ← getPosRangeOfSorted range (deltaBlock.map SortKey.handle)
  if limit = 0 then return (rows == limit, deltaTree)
  let keys := (deltaBlock.drop offset).take limit
  checkSorted keys
  let rids ← deleteRids (.init stable) keys
  return (rows == limit, applyDeletes T deltaTree rids)

end

/-! ## Entries of a delta tree

An entry stands at a row of the stable, `sid`: an insert puts rows of the delta in front of it, a delete
takes it and the rows behind it away. -/

variable {α : Type}

/-- `DTCompactedEntries::Entry`; an entry of the tree itself is an insert with `count` 1, or a delete. -/
structure DTEntry where
  sid : Nat
  isInsert : Bool
  count : Nat
  value : Nat
deriving DecidableEq, Repr

/-- The rows of the merged view: `rows` are the rows of the stable from the position `pos` on. -/
def mergeEntries (delta : Nat → α) : (pos : Nat) → List DTEntry → (rows : List α) → List α
  | _, [], rows => rows
  | pos, e :: entries, rows =>
    rows.take (e.sid - pos) ++ if e.isInsert then
        (List.range' e.value e.count).map delta ++ mergeEntries delta e.sid entries (rows.drop (e.sid - pos))
      else mergeEntries delta (e.sid + e.count) entries (rows.drop (e.sid - pos + e.count))

/-- The entries are in the order of the stable, of which `left` rows are left from `pos` on, and no row
is deleted twice. -/
def ValidEntries : (pos : Nat) → List DTEntry → (left : Nat) → Prop
  | _, [], _ => True
  | pos, e :: entries, left =>
    pos ≤ e.sid ∧ if e.isInsert then e.sid - pos ≤ left ∧ ValidEntries e.sid entries (left - (e.sid - pos))
      else e.sid - pos + e.count ≤ left ∧
        ValidEntries (e.sid + e.count) entries (left - (e.sid - pos + e.count))

/-- A tree with its entries, over a stable of `n` rows -/
structure EntryTree (n : Nat) (τ : Type) extends PlaceTree τ where
  empty : τ
  entries : τ → List DTEntry
  /-- `setValue` of every insert -/
  mapValues : τ → (Nat → Nat) → τ
  valid : ∀ t, ValidEntries 0 (entries t) n
  single : ∀ t, ∀ e ∈ entries t, e.isInsert = true → e.count = 1
  view_eq : ∀ t, view t = mergeEntries .delta 0 (entries t) ((List.range n).map .stable)
  entries_empty : entries empty = []
  entries_mapValues : ∀ t f, entries (mapValues t f) = (entries t).map fun e =>
    if e.isInsert then { e with value := f e.value } else e

end TiFlash.DM
