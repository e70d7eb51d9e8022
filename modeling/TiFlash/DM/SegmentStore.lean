import TiFlash.DM.RowKeyRange
import TiFlash.Lib.SortedMap

/-!
# The segments of a DeltaMerge store

`DeltaMergeStore` keeps its segments by the end of their range and by their ids. A split, a merge and a
merge of a delta take a snapshot under a shared lock, prepare new data without a lock, and change the map
under a unique lock after the instances have been checked again.

What the segments contain is not modelled; a split point is found in data that are an argument.
-/

namespace TiFlash.DM

open TiFlash.Lib SortedMap Function

variable {c : Bool}

/-! ## Segments -/

/-- A `SegmentPtr` with what it points to. All of it is constant while the instance lives. -/
structure Segment (c : Bool) where
  /-- Which instance it is; two pointers are equal when they point to one instance. -/
  inst : Nat
  epoch : Nat
  range : RowKeyRange c
  segmentId : Nat
  nextSegmentId : Nat

/-- A `RowKeyValueRef` with the instance whose range its `data` points into, if there is one. -/
structure EndRef (c : Bool) where
  owner : Option Nat
  key : RowKeyValueRef c

/-- `operator<(const RowKeyValueRef &, const RowKeyValueRef &)` -/
def EndRef.lt (a b : EndRef c) : Bool := a.key.compare b.key < 0

/-- `segment->getRowKeyRange().getEnd()` -/
def Segment.endRef (segment : Segment c) : EndRef c :=
  ⟨some segment.inst, segment.range.stop.toRowKeyValueRef⟩

/-! ## Split points -/

/-- The exceptions of `Segment::prepareSplit` and `Segment::prepareMerge`. -/
inductive SegmentError
  /-- `"No stable rows"` -/
  | noStableRows
  /-- `"Logical error: failed to find split point"` -/
  | failedToFindSplitPoint
  /-- `"getSplitPointSlow unexpected split_handle: …"` -/
  | unexpectedSplitHandle
  /-- There are no rows, and `getSplitPointSlow` follows the null `value` of an empty `RowKeyValue`. -/
  | emptySplitPoint
  /-- `"prepareSplitLogical: unexpected range! …"` and `"prepareSplitPhysical: unexpected range! …"` -/
  | unexpectedRange
  /-- `"The ranges of merge segments are not consecutive: …"` -/
  | notConsecutive
  deriving DecidableEq, Repr

/-- The key at `index` of a column that is cut into pieces, of which the first is at position `cur`. -/
def keyAt (index : Nat) : (pieces : List (List (RowKey c))) → (cur : Nat) → Option (RowKey c)
  | [], _ => none
  | piece :: pieces, cur =>
    if cur + piece.length > index then piece[index - cur]? else keyAt index pieces (cur + piece.length)

/-- The files are the handle columns of their packs; all packs are counted, also those out of the range of the
segment, while `stableRows` counts rows in valid packs. -/
def getSplitPointFast (stableRows : Nat) (dmFiles : List (List (List (RowKey c)))) :
    Except SegmentError (RowKeyValue c) :=
  if stableRows = 0 then .error .noStableRows
  else
    match keyAt (stableRows / 2) dmFiles.flatten 0 with
    | none => .error .failedToFindSplitPoint
    | some k => .ok (.ofKey k)

/-- The blocks are those of the placed stream cut to the range; it is read twice. -/
def getSplitPointSlow (range : RowKeyRange c) (blocks : List (List (RowKey c))) :
    Except SegmentError (RowKeyValue c) :=
  let exactRows := (blocks.map List.length).sum
  match keyAt (exactRows / 2) blocks 0 with
  | none => .error .emptySplitPoint
  | some k =>
    let splitPoint := RowKeyValue.ofKey k
    if range.checkRef splitPoint.toRowKeyValueRef then .ok splitPoint
    else .error .unexpectedSplitHandle

/-- What `prepareSplit` reads from the context and the snapshot. -/
structure SplitInput (c : Bool) where
  enableLogicalSplit : Bool
  stablePacks : Nat
  stableRows : Nat
  deltaRows : Nat
  dmFiles : List (List (List (RowKey c)))
  placedBlocks : List (List (RowKey c))

/-- Without the new stable value spaces. -/
structure SplitInfo (c : Bool) where
  isLogical : Bool
  splitPoint : RowKeyValue c

namespace Segment

variable (segment : Segment c)

/-- `my_range` and `other_range` -/
def splitRanges (splitPoint : RowKeyValue c) : RowKeyRange c × RowKeyRange c :=
  (⟨segment.range.start, splitPoint, segment.range.rowkeyColumnSize⟩,
    ⟨splitPoint, segment.range.stop, segment.range.rowkeyColumnSize⟩)

/-- The check that `prepareSplitLogical` and `prepareSplitPhysical` make before they write. -/
def checkedSplit (isLogical : Bool) (splitPoint : RowKeyValue c) : Except SegmentError (SplitInfo c) :=
  if (segment.splitRanges splitPoint).1.none || (segment.splitRanges splitPoint).2.none then
    .error .unexpectedRange
  else .ok ⟨isLogical, splitPoint⟩

def prepareSplitLogical (splitPoint : RowKeyValue c) : Except SegmentError (SplitInfo c) :=
  segment.checkedSplit true splitPoint

def prepareSplitPhysical (input : SplitInput c) : Except SegmentError (SplitInfo c) := do
  let splitPoint ← getSplitPointSlow segment.range input.placedBlocks
  segment.checkedSplit false splitPoint

def prepareSplit (input : SplitInput c) : Except SegmentError (SplitInfo c) := do
  if !input.enableLogicalSplit || input.stablePacks ≤ 3 || input.deltaRows > input.stableRows then
    segment.prepareSplitPhysical input
  else
    let splitPoint ← getSplitPointFast input.stableRows input.dmFiles
    let splitValue := splitPoint.toRowKeyValueRef
    let badSplitPoint := !segment.range.checkRef splitValue ||
      splitValue.compare segment.range.start.toRowKeyValueRef = 0
    if badSplitPoint then segment.prepareSplitPhysical input
    else segment.prepareSplitLogical splitPoint

def prepareMerge (left right : Segment c) : Except SegmentError Unit :=
  if left.range.stop.toRowKeyValueRef.compare right.range.start.toRowKeyValueRef ≠ 0 ∨
      left.nextSegmentId ≠ right.segmentId then
    .error .notConsecutive
  else .ok ()

end Segment

/-! ## The store -/

/-- As far as its segments go. -/
structure DeltaMergeStore (c : Bool) where
  /-- `segments`, a `std::map` from the end of the range. -/
  segments : List (EndRef c × Segment c)
  /-- `id_to_segment` -/
  idToSegment : Nat → Option (Segment c)
  abandoned : List Nat
  /-- All instances there have been, the oldest first. -/
  instances : List (Segment c)
  /-- `storage_pool.max_meta_page_id` -/
  maxMetaPageId : Nat

namespace DeltaMergeStore

variable (s : DeltaMergeStore c)

/-- The segments in the order of the map -/
def segmentList : List (Segment c) := s.segments.map (·.2)

variable (segment : Segment c)

def hasAbandoned : Bool := segment.inst ∈ s.abandoned

/-- `segment->abandon()`; an instance cannot be abandoned twice. -/
def abandon : Option (DeltaMergeStore c) :=
  if s.hasAbandoned segment then none else some { s with abandoned := segment.inst :: s.abandoned }

/-- `std::make_shared<Segment>` -/
def makeSegment (epoch : Nat) (range : RowKeyRange c) (segmentId nextSegmentId : Nat) :
    Segment c × DeltaMergeStore c :=
  let segment := ⟨s.instances.length, epoch, range, segmentId, nextSegmentId⟩
  (segment, { s with instances := s.instances ++ [segment] })

/-- `storage_pool.newMetaPageId()` -/
def newMetaPageId : Nat × DeltaMergeStore c :=
  (s.maxMetaPageId + 1, { s with maxMetaPageId := s.maxMetaPageId + 1 })

/-- `segments.erase(end)` and `id_to_segment.erase(id)` -/
def eraseSegment : DeltaMergeStore c := { s with
    segments := erase EndRef.lt segment.endRef s.segments
    idToSegment := update s.idToSegment segment.segmentId none }

/-- `segments[end] = segment` -/
def assignSegment : DeltaMergeStore c :=
  { s with segments := assign EndRef.lt segment.endRef segment s.segments }

def emplaceSegment : DeltaMergeStore c :=
  { s with segments := emplace EndRef.lt segment.endRef segment s.segments }

/-- `id_to_segment.emplace(id, segment)` -/
def emplaceId : DeltaMergeStore c := { s with
    idToSegment := update s.idToSegment segment.segmentId
      (some ((s.idToSegment segment.segmentId).getD segment)) }

/-- `id_to_segment[id] = segment` -/
def assignId : DeltaMergeStore c :=
  { s with idToSegment := update s.idToSegment segment.segmentId (some segment) }

/-- A store without data: one segment for all keys, with the first page id (`DELTA_MERGE_FIRST_SEGMENT_ID`);
two more ids are for its delta and its stable. -/
def create (rowkeyColumnSize : Nat) : DeltaMergeStore c :=
  let empty : DeltaMergeStore c := ⟨[], fun _ => none, [], [], 0⟩
  let (segmentId, s) := empty.newMetaPageId
  let s := s.newMetaPageId.2.newMetaPageId.2
  let (segment, s) := s.makeSegment 0 (.newAll c rowkeyColumnSize) segmentId 0
  (s.emplaceSegment segment).emplaceId segment

def isSegmentValid : Bool :=
  if s.hasAbandoned segment then false
  else
    match find EndRef.lt segment.endRef s.segments with
    | none => false
    | some entry => entry.2.inst = segment.inst

def applySplit (info : SplitInfo c) :
    Segment c × Segment c × DeltaMergeStore c :=
  let (otherSegmentId, s) := s.newMetaPageId
  let (_otherDeltaId, s) := s.newMetaPageId
  let (newMe, s) := s.makeSegment (segment.epoch + 1) (segment.splitRanges info.splitPoint).1
    segment.segmentId otherSegmentId
  let (other, s) := s.makeSegment 0 (segment.splitRanges info.splitPoint).2 otherSegmentId
    segment.nextSegmentId
  (newMe, other, s)

def applyMerge (left right : Segment c) : Segment c × DeltaMergeStore c :=
  s.makeSegment (left.epoch + 1) ⟨left.range.start, right.range.stop, left.range.rowkeyColumnSize⟩
    left.segmentId right.nextSegmentId

def applyMergeDelta : Segment c × DeltaMergeStore c :=
  s.makeSegment (segment.epoch + 1) segment.range segment.segmentId segment.nextSegmentId

end DeltaMergeStore

/-! ## Background tasks -/

/-- How an operation ends -/
inductive Outcome
  | pending
  | applied
  /-- `"Give up segment …"` -/
  | gaveUp
  | threw
  deriving DecidableEq, Repr

namespace DeltaMergeStore

variable (s : DeltaMergeStore c)

def commitSplit (segment : Segment c) (info : SplitInfo c) : Outcome × DeltaMergeStore c :=
  if !s.isSegmentValid segment then (.gaveUp, s)
  else
    let (newLeft, newRight, s) := s.applySplit segment info
    match s.abandon segment with
    | none => (.threw, s)
    | some s =>
      let s := s.eraseSegment segment
      let s := (s.assignSegment newLeft).assignSegment newRight
      (.applied, (s.emplaceId newLeft).emplaceId newRight)

/-- The critical section of `segmentMerge` -/
def commitMerge (left right : Segment c) : Outcome × DeltaMergeStore c :=
  if !s.isSegmentValid left || !s.isSegmentValid right then (.gaveUp, s)
  else
    let (merged, s) := s.applyMerge left right
    match s.abandon left with
    | none => (.threw, s)
    | some s =>
      match s.abandon right with
      | none => (.threw, s)
      | some s =>
        let s := (s.eraseSegment left).eraseSegment right
        (.applied, (s.emplaceSegment merged).emplaceId merged)

def commitMergeDelta (segment : Segment c) : Outcome × DeltaMergeStore c :=
  if !s.isSegmentValid segment then (.gaveUp, s)
  else
    let (newSegment, s) := s.applyMergeDelta segment
    let s := s.eraseSegment segment
    let s := (s.assignSegment newSegment).assignId newSegment
    match s.abandon segment with
    | none => (.threw, s)
    | some s => (.applied, s)

end DeltaMergeStore

/-- Where a thread is: behind the first lock of an operation, or behind its preparation. -/
inductive StoreThread (c : Bool)
  | idle
  | split (segment : Segment c)
  | splitPrepared (segment : Segment c) (info : SplitInfo c)
  | merge (left right : Segment c)
  | mergePrepared (left right : Segment c)
  | mergeDelta (segment : Segment c)
  | mergeDeltaPrepared (segment : Segment c)

/-- A store and the threads that work on it -/
structure StoreSystem (c : Bool) where
  store : DeltaMergeStore c
  threads : Nat → StoreThread c

namespace StoreSystem

/-- A new store -/
def create (rowkeyColumnSize : Nat) : StoreSystem c := ⟨.create rowkeyColumnSize, fun _ => .idle⟩

variable (s : StoreSystem c)

/-- One thread moves on. -/
def update (t : Nat) (thread : StoreThread c) (store : DeltaMergeStore c) :
    StoreSystem c :=
  { s with store := store, threads := Function.update s.threads t thread }

/-- The first lock of an operation: it gives up unless the instances are valid and the snapshots can be
created. -/
def start (t : Nat) (ok : Bool) (thread : StoreThread c) :
    Outcome × StoreSystem c :=
  if ok then (.pending, s.update t thread s.store) else (.gaveUp, s)

/-- The preparation of a split takes an id for the new stable; an exception ends the operation. -/
def prepareSplit (t : Nat) (segment : Segment c) (input : SplitInput c) :
    Outcome × StoreSystem c :=
  match segment.prepareSplit input with
  | .error _ => (.threw, s.update t .idle s.store)
  | .ok info => (.pending, s.update t (.splitPrepared segment info) s.store.newMetaPageId.2)

def prepareMerge (t : Nat) (left right : Segment c) : Outcome × StoreSystem c :=
  match left.prepareMerge right with
  | .error _ => (.threw, s.update t .idle s.store)
  | .ok () => (.pending, s.update t (.mergePrepared left right) s.store)

/-- One step of one thread. An operation may start on instances no longer in the map. Whether a snapshot can
be created depends on the delta. -/
inductive Step : StoreSystem c → Outcome → StoreSystem c → Prop
  | splitStart (s : StoreSystem c) (t : Nat) (segment : Segment c) (snapshotCreated : Bool)
      (ht : s.threads t = .idle) (hsegment : segment ∈ s.store.instances) (res : Outcome × StoreSystem c)
      (hres : s.start t (s.store.isSegmentValid segment && snapshotCreated) (.split segment) = res) :
      Step s res.1 res.2
  | splitPrepare (s : StoreSystem c) (t : Nat) (segment : Segment c) (input : SplitInput c)
      (ht : s.threads t = .split segment) (res : Outcome × StoreSystem c)
      (hres : s.prepareSplit t segment input = res) : Step s res.1 res.2
  | splitCommit (s : StoreSystem c) (t : Nat) (segment : Segment c) (info : SplitInfo c)
      (ht : s.threads t = .splitPrepared segment info) (res : Outcome × DeltaMergeStore c)
      (hres : s.store.commitSplit segment info = res) : Step s res.1 (s.update t .idle res.2)
  | mergeStart (s : StoreSystem c) (t : Nat) (left right : Segment c) (snapshotsCreated : Bool)
      (ht : s.threads t = .idle) (hleft : left ∈ s.store.instances) (hright : right ∈ s.store.instances)
      (res : Outcome × StoreSystem c)
      (hres : s.start t (s.store.isSegmentValid left && s.store.isSegmentValid right && snapshotsCreated)
        (.merge left right) = res) : Step s res.1 res.2
  | mergePrepare (s : StoreSystem c) (t : Nat) (left right : Segment c)
      (ht : s.threads t = .merge left right) (res : Outcome × StoreSystem c)
      (hres : s.prepareMerge t left right = res) : Step s res.1 res.2
  | mergeCommit (s : StoreSystem c) (t : Nat) (left right : Segment c)
      (ht : s.threads t = .mergePrepared left right) (res : Outcome × DeltaMergeStore c)
      (hres : s.store.commitMerge left right = res) : Step s res.1 (s.update t .idle res.2)
  | mergeDeltaStart (s : StoreSystem c) (t : Nat) (segment : Segment c) (snapshotCreated : Bool)
      (ht : s.threads t = .idle) (hsegment : segment ∈ s.store.instances) (res : Outcome × StoreSystem c)
      (hres : s.start t (s.store.isSegmentValid segment && snapshotCreated) (.mergeDelta segment) = res) :
      Step s res.1 res.2
  | mergeDeltaPrepare (s : StoreSystem c) (t : Nat) (segment : Segment c)
      (ht : s.threads t = .mergeDelta segment) :
      Step s .pending (s.update t (.mergeDeltaPrepared segment) s.store)
  | mergeDeltaCommit (s : StoreSystem c) (t : Nat) (segment : Segment c)
      (ht : s.threads t = .mergeDeltaPrepared segment) (res : Outcome × DeltaMergeStore c)
      (hres : s.store.commitMergeDelta segment = res) : Step s res.1 (s.update t .idle res.2)
  /-- An exception before the maps are changed ends an operation. The ids and instances that it has made are
  not used. -/
  | fail (s : StoreSystem c) (t ids : Nat) :
      Step s .threw
        (s.update t .idle { s.store with maxMetaPageId := s.store.maxMetaPageId + ids })

/-- The states of all runs -/
inductive Reachable (rowkeyColumnSize : Nat) : StoreSystem c → Prop
  | create : Reachable rowkeyColumnSize (create rowkeyColumnSize)
  | step {s s' : StoreSystem c} {outcome : Outcome} :
      Reachable rowkeyColumnSize s → Step s outcome s' → Reachable rowkeyColumnSize s'

end StoreSystem

end TiFlash.DM
