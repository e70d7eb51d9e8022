import TiFlash.DM.DeltaPlace

/-!
# The delta tree as a B+ tree

The nodes of `DeltaTree`, the edits with the repair of the nodes above the leaf, and the operations on whole
trees. The links of a node are those of its place in the tree.
-/

namespace TiFlash.DM

/-- The template parameters with the `static_assert`s, and the sizes of the nodes -/
structure TreeParams where
  M : Nat
  F : Nat
  S : Nat
  leafSize : Nat
  internSize : Nat
  two_le : 2 ≤ M ∧ 2 ≤ F ∧ 2 ≤ S

/-- The exceptions of the tree -/
inductive TreeError
  | illegalId
  | illegalDelta
  /-- "Unexpected parent entry count" -/
  | parentEntryCount
  /-- A sibling of the other kind, or a leaf that is not there. -/
  | undefined
deriving DecidableEq, Repr

def checkId (id : Nat) : Except TreeError Nat := if 2 ^ 32 - 1 ≤ id then .error .illegalId else .ok id

def checkDelta (delta : Int) : Except TreeError Int :=
  if delta < -2 ^ 31 ∨ 2 ^ 31 - 1 ≤ delta then .error .illegalDelta else .ok delta

/-- Wraps around -/
def toUInt64 (n : Int) : Nat := (n % 2 ^ 64).toNat

/-- What an entry adds to the position of the rows behind it -/
def DTEntry.delta (e : DTEntry) : Int := if e.isInsert then 1 else -e.count

/-- A child of an inner node comes with the separator in front of it (the first child has none) and its delta. -/
inductive DTNode
  | leaf (entries : List DTEntry)
  | intern (children : List (Nat × Int × DTNode))

namespace DTNode

/-- Separator, delta and node -/
abbrev Child := Nat × Int × DTNode

variable (z : TreeParams)

/-- Entries of a leaf, children of an inner node -/
def count : DTNode → Nat
  | leaf entries => entries.length
  | intern children => children.length

def getDelta : DTNode → Int
  | leaf entries => (entries.map DTEntry.delta).sum
  | intern children => (children.map fun c => c.2.1).sum

/-- `sizeof(T)` for the type of the node -/
def size : DTNode → Nat
  | leaf _ => z.leafSize
  | intern _ => z.internSize

/-- `T::overflow` for the type of the node -/
def overflow (n : Nat) : DTNode → Bool
  | leaf _ => z.M * z.S < n
  | intern _ => z.F * z.S < n

/-- `T::underflow` for the type of the node -/
def underflow (n : Nat) : DTNode → Bool
  | leaf _ => n < z.M
  | intern _ => n < z.F

mutual

/-- The size of all nodes of a tree -/
def bytes : DTNode → Nat
  | leaf _ => z.leafSize
  | intern children => z.internSize + childBytes children

/-- The nodes below the children -/
def childBytes : List Child → Nat
  | [] => 0
  | (_, _, node) :: children => node.bytes + childBytes children

end

mutual

/-- The leaves from `left_leaf` to `right_leaf` -/
def leaves : DTNode → List (List DTEntry)
  | leaf entries => [entries]
  | intern children => childLeaves children

/-- The leaves below the children -/
def childLeaves : List Child → List (List DTEntry)
  | [] => []
  | (_, _, node) :: children => node.leaves ++ childLeaves children

end

mutual

/-- The node with other entries in its leaves, and the leaves that are left over -/
def withLeaves : DTNode → List (List DTEntry) → DTNode × List (List DTEntry)
  | leaf entries, leaves => (leaf (leaves.headD entries), leaves.tail)
  | intern children, leaves =>
    let (children', leaves) := childrenWithLeaves children leaves
    (intern children', leaves)

/-- `withLeaves` for the children of a node -/
def childrenWithLeaves : List Child → List (List DTEntry) → List Child × List (List DTEntry)
  | [], leaves => ([], leaves)
  | (sep, delta, node) :: children, leaves =>
    let (node', leaves) := node.withLeaves leaves
    let (children', leaves) := childrenWithLeaves children leaves
    ((sep, delta, node') :: children', leaves)

end

/-! ## The repair of the nodes above a leaf -/

/-- The first child gets a separator. -/
def setSep (sep : Nat) : List Child → List Child
  | [] => []
  | (_, c) :: children => (sep, c) :: children

/-- Two siblings in one node; `sep` is what their parent has between them. -/
def join (sep : Nat) : DTNode → DTNode → Except TreeError DTNode
  | leaf a, leaf b => .ok (leaf (a ++ b))
  | intern a, intern b => .ok (intern (a ++ setSep sep b))
  | _, _ => .error .undefined

/-- The first `k` entries or children, the others, and the separator of the two nodes -/
def splitAt (k : Nat) : DTNode → DTNode × Nat × DTNode
  | leaf es => (leaf (es.take k), ((es.drop k).head?.map DTEntry.sid).getD 0, leaf (es.drop k))
  | intern cs => (intern (cs.take k), ((cs.drop k).head?.map Prod.fst).getD 0, intern (cs.drop k))

/-- At the middle of a full node -/
def split (node : DTNode) : DTNode × Nat × DTNode :=
  match node with
  | leaf _ => node.splitAt (z.M * z.S / 2)
  | intern _ => node.splitAt (z.F * z.S / 2)

/-- A node with too few entries is merged with its sibling, or adopts entries next to the border. `fromLeft`:
the sibling is the left one. Also the change of the size of all nodes. -/
def adoptOrMerge (fromLeft : Bool) (sepA : Nat) (a : DTNode) (sepB : Nat) (b : DTNode) :
    Except TreeError (List Child × Int) := do
  let joined ← join sepB a b
  let afterAdopt := (a.count + b.count) / 2
  if underflow z afterAdopt a then
    let delta ← checkDelta joined.getDelta
    .ok ([(sepA, delta, joined)], -a.size z)
  else
    let (a', sep, b') := joined.splitAt (if fromLeft then a.count + b.count - afterAdopt else afterAdopt)
    let deltaA ← checkDelta a'.getDelta
    let deltaB ← checkDelta b'.getDelta
    .ok ([(sepA, deltaA, a'), (sep, deltaB, b')], 0)

/-- `afterNodeUpdated` of the child at `pos`: whether its parent was updated, the children, and what the size
of all nodes changes by -/
def afterChildUpdated (children : List Child) (pos : Nat) : Except TreeError (Bool × List Child × Int) :=
  match children.drop pos with
  | [] => .error .undefined
  | (sep, oldDelta, node) :: behind => do
    let before := children.take pos
    if overflow z node.count node then
      let (a, sep', b) := node.split z
      let deltaA ← checkDelta a.getDelta
      let deltaB ← checkDelta b.getDelta
      .ok (true, before ++ (sep, deltaA, a) :: (sep', deltaB, b) :: behind, node.size z)
    else if underflow z node.count node then
      -- currently we always adopt from the right one if possible
      match behind, before.getLast? with
      | (sep', _, sibling) :: behind', _ =>
        let (pair, diff) ← adoptOrMerge z false sep node sep' sibling
        .ok (true, before ++ pair ++ behind', diff)
      | [], some (sep', _, sibling) =>
        let (pair, diff) ← adoptOrMerge z true sep' sibling sep node
        .ok (true, before.dropLast ++ pair, diff)
      | [], none => .error .parentEntryCount
    else
      let delta ← checkDelta node.getDelta
      .ok (oldDelta ≠ delta, before ++ (sep, delta, node) :: behind, 0)

/-- The smallest sid of the child at `pos` is the separator in front of it, if it has one. -/
def submitMinSid (pos : Nat) (minSid : Option Nat) (children : List Child) : List Child :=
  match pos, minSid with
  | _ + 1, some sid => children.take pos ++ setSep sid (children.drop pos)
  | _, _ => children

/-- After the update of a leaf: the smallest sid, as long as it is to be written to a separator, whether the
parent goes on with `afterNodeUpdated`, and the change of the size of all nodes. -/
structure Updated (α : Type) where
  result : α
  minSid : Option Nat
  updated : Bool
  diff : Int

mutual

/-- The leaf `k` gets other entries: `submitMinSid` and `afterNodeUpdated` up to this node -/
def setLeaf (entries : List DTEntry) (k : Nat) : DTNode → Except TreeError (Updated DTNode)
  | leaf _ => .ok ⟨leaf entries, some ((entries.head?.map DTEntry.sid).getD 0), true, 0⟩
  | intern children => do
    let (pos, u) ← setChildLeaf entries k children
    let children' := submitMinSid pos u.minSid u.result
    let minSid := if pos = 0 then u.minSid else none
    if u.updated then
      let (updated, children'', diff) ← afterChildUpdated z children' pos
      .ok ⟨intern children'', minSid, updated, u.diff + diff⟩
    else .ok ⟨intern children', minSid, false, u.diff⟩

def setChildLeaf (entries : List DTEntry) (k : Nat) :
    List Child → Except TreeError (Nat × Updated (List Child))
  | [] => .error .undefined
  | (sep, delta, node) :: children =>
    if k < node.leaves.length then do
      let u ← node.setLeaf entries k
      .ok (0, { u with result := (sep, delta, u.result) :: children })
    else do
      let (pos, u) ← setChildLeaf entries (k - node.leaves.length) children
      .ok (pos + 1, { u with result := (sep, delta, node) :: u.result })

end

def afterRootUpdated (root : DTNode) : Except TreeError (DTNode × Int) :=
  match root with
  | intern [(_, _, child)] => .ok (child, -z.internSize)
  | _ =>
    if overflow z root.count root then do
      let delta ← checkDelta root.getDelta
      let (_, children, diff) ← afterChildUpdated z [(0, delta, root)] 0
      .ok (intern children, z.internSize + diff)
    else .ok (root, 0)

/-! ## Search -/

mutual

/-- `findRightLeaf<true>`: the number of the leaf and the delta in front of it -/
def findRightLeaf (id : Nat) (delta : Int) : DTNode → Nat × Int
  | leaf _ => (0, delta)
  | intern children => findChild id delta children

def findChild (id : Nat) (delta : Int) : List Child → Nat × Int
  | [] => (0, delta)
  | (_, d, node) :: children =>
    if children.isEmpty ∨ id < toUInt64 ((children.head?.map Prod.fst).getD 0 + (delta + d)) then
      findRightLeaf id delta node
    else
      let (k, delta') := findChild id (delta + d) children
      (node.leaves.length + k, delta')

end

end DTNode

/-- An entry with its leaf and its position there -/
abbrev Slot := Nat × Nat × DTEntry

/-- The slots from the one it points to, and the slot that `end()` points to -/
structure EntryIterator where
  rest : List Slot
  stop : Nat × Nat
  delta : Int

namespace EntryIterator

variable (it : EntryIterator) (id : Nat)

/-- `getLeaf` and `getPos` -/
def place : Nat × Nat := (it.rest.head?.map fun s => (s.1, s.2.1)).getD it.stop

/-- `searchLeftId<true>`: on to the first entry whose rid is not less than `id` -/
def searchLeft (stop : Nat × Nat) : Int → List Slot → EntryIterator
  | delta, [] => ⟨[], stop, delta⟩
  | delta, s :: rest =>
    if id ≤ toUInt64 (s.2.2.sid + delta) then ⟨s :: rest, stop, delta⟩
    else searchLeft stop (delta + s.2.2.delta) rest

/-- Past the deletes with the rid `id`; also the last one of them -/
def skipDeletes (stop : Nat × Nat) (last : Option Slot) : Int → List Slot → Option Slot × EntryIterator
  | delta, [] => (last, ⟨[], stop, delta⟩)
  | delta, s :: rest =>
    if toUInt64 (s.2.2.sid + delta) = id ∧ s.2.2.isInsert = false then
      skipDeletes stop (some s) (delta + s.2.2.delta) rest
    else (last, ⟨s :: rest, stop, delta⟩)

/-- The insert with the rid `id` that it points to -/
def insertAt : Option Slot :=
  it.rest.head?.filter fun s => toUInt64 (s.2.2.sid + it.delta) = id ∧ s.2.2.isInsert

end EntryIterator

def slotsFrom (k : Nat) : List (List DTEntry) → List Slot
  | [] => []
  | entries :: leaves => (entries.zipIdx.map fun e => (k, e.2, e.1)) ++ slotsFrom (k + 1) leaves

/-! ## Trees -/

/-- Without `height` and the value space -/
structure DeltaTree where
  root : DTNode
  numInserts : Nat := 0
  numDeletes : Nat := 0
  numEntries : Nat := 0
  bytes : Int

/-- The leaves and the counters of a tree -/
structure TreeState where
  leaves : List (List DTEntry)
  numInserts : Nat
  numDeletes : Nat
  numEntries : Nat
deriving DecidableEq, Repr

/-- `addInsert` and `addDelete` -/
inductive TreeEdit
  | insert (rid tupleId : Nat)
  | delete (rid : Nat)

namespace DeltaTree

variable (z : TreeParams) (t : DeltaTree)

/-- A new tree: its root is an empty leaf. -/
def empty : DeltaTree := { root := .leaf [], bytes := z.leafSize }

/-- The entries of leaf `k` -/
def entriesOf (k : Nat) : List DTEntry := t.root.leaves.getD k []

/-- Where `rid` belongs, behind the deletes with this rid; also the last one of these -/
def locate (rid : Nat) : Option Slot × EntryIterator :=
  let leaves := t.root.leaves
  let stop := (leaves.length - 1, (leaves.getLast?.map List.length).getD 0)
  let (k, delta) := t.root.findRightLeaf rid 0
  let it := EntryIterator.searchLeft rid stop delta (slotsFrom k (leaves.drop k))
  EntryIterator.skipDeletes rid stop none it.delta it.rest

/-- For new entries of the leaf `k` -/
def afterLeafUpdated (k : Nat) (entries : List DTEntry) : Except TreeError DeltaTree :=
  match t.root, entries with
  | .leaf _, [] => .ok { t with root := .leaf [] }
  | root, entries => do
    let u ← root.setLeaf z entries k
    if u.updated then
      let (root', diff) ← u.result.afterRootUpdated z
      .ok { t with root := root', bytes := t.bytes + u.diff + diff }
    else .ok { t with root := u.result, bytes := t.bytes + u.diff }

/-- What a rejected edit could have changed -/
def state : TreeState := ⟨t.root.leaves, t.numInserts, t.numDeletes, t.numEntries⟩

/-- An exception comes with what it leaves behind if it is one of `checkId`. -/
abbrev EditResult := Except (TreeError × Option TreeState) DeltaTree

/-- Leaf `k` gets other entries. -/
def update (k : Nat) (entries : List DTEntry) : EditResult :=
  (t.afterLeafUpdated z k entries).mapError fun e => (e, none)

/-- `addInsert` with its checks -/
def addInsert (rid tupleId : Nat) : EditResult :=
  match checkId rid >>= fun _ => checkId tupleId with
  | .error e => .error (e, some t.state)
  | .ok _ =>
    let it := (t.locate rid).2
    let t' := { t with numInserts := t.numInserts + 1, numEntries := t.numEntries + 1 }
    match checkId (toUInt64 (rid - it.delta)) with
    | .error e => .error (e, some t'.state)
    | .ok sid =>
      t'.update z it.place.1 ((t.entriesOf it.place.1).insertIdx it.place.2 ⟨sid, true, 1, tupleId⟩)

/-- `shiftEntries(pos, 1)`, as long as `count` is what it was -/
def shifted (entries : List DTEntry) (pos : Nat) : List DTEntry :=
  (entries.take (pos + 1) ++ entries.drop pos).take entries.length

/-- `addDelete` with its checks -/
def addDelete (rid : Nat) : EditResult :=
  match checkId rid with
  | .error e => .error (e, some t.state)
  | .ok _ =>
    let (last, it) := t.locate rid
    match it.insertAt rid, last with
    | some (k, pos, _), _ =>
      { t with numEntries := t.numEntries - 1, numInserts := t.numInserts - 1 }.update z k
        ((t.entriesOf k).eraseIdx pos)
    | none, some (k, pos, e) =>
      { t with numDeletes := t.numDeletes + 1 }.update z k
        ((t.entriesOf k).set pos { e with count := (e.count + 1) % 2 ^ 31 })
    | none, none =>
      let (k, pos) := it.place
      let t' := { t with numDeletes := t.numDeletes + 1, numEntries := t.numEntries + 1 }
      match checkId (toUInt64 (rid - it.delta)) with
      | .error e =>
        .error (e, some { t'.state with leaves := t.root.leaves.set k (shifted (t.entriesOf k) pos) })
      | .ok sid => t'.update z k ((t.entriesOf k).insertIdx pos ⟨sid, false, 1, 0⟩)

/-- One call -/
def edit : TreeEdit → EditResult
  | .insert rid tupleId => t.addInsert z rid tupleId
  | .delete rid => t.addDelete z rid

/-- The tree that `checkId` leaves behind: its nodes are the same. -/
def withState (s : TreeState) : DeltaTree :=
  ⟨(t.root.withLeaves s.leaves).1, s.numInserts, s.numDeletes, s.numEntries, t.bytes⟩

/-- The tree after an edit, also if `checkId` has rejected it -/
def afterEdit (e : TreeEdit) : Option DeltaTree :=
  match t.edit z e with
  | .ok t' => some t'
  | .error (_, s) => s.map t.withState

/-- The copy constructor creates every node of the other tree. -/
def copy : DeltaTree := { t with bytes := t.root.bytes z }

/-- `swap`, which leaves `bytes` where it is -/
def swap (other : DeltaTree) : DeltaTree × DeltaTree :=
  ({ other with bytes := t.bytes }, { t with bytes := other.bytes })

end DeltaTree

/-- What is done with the trees of a program; a tree is referred to by its number. -/
inductive TreeAction
  | create
  | copy (i : Nat)
  | edit (i : Nat) (e : TreeEdit)
  | copyAssign (i j : Nat)
  | moveAssign (i j : Nat)
  | swap (i j : Nat)
  | destroy (i : Nat)

/-- A step on the living trees; none if a tree is not there, or it throws and the exception is not one of
`checkId` -/
def treeStep (z : TreeParams) (trees : List DeltaTree) : TreeAction → Option (List DeltaTree)
  | .create => some (trees ++ [.empty z])
  | .copy i => do
    let t ← trees[i]?
    some (trees ++ [t.copy z])
  | .edit i e => do
    let t ← trees[i]?
    let t' ← t.afterEdit z e
    some (trees.set i t')
  | .copyAssign i j => do
    let t ← trees[i]?
    let o ← trees[j]?
    some (trees.set i (t.swap (o.copy z)).1)
  | .moveAssign i j | .swap i j => do
    let t ← trees[i]?
    let o ← trees[j]?
    some ((trees.set i (t.swap o).1).set j (t.swap o).2)
  | .destroy i => some (trees.eraseIdx i)

end TiFlash.DM
