import TiFlash.DM.RowKeyRangeUtils
import TiFlash.DM.SegmentStore

/-!
# The tasks of a read

`getReadTasksByRanges` goes through the sorted ranges and the segments at the same time and gives each
segment the ranges that it meets. Tasks with many ranges are split if there are too few, and the ranges of
each are merged.
-/

namespace TiFlash.DM

open TiFlash.Lib

variable {c : Bool}

def RowKeyRange.intersect (range other : RowKeyRange c) : Bool :=
  (range.shrink other).start.value < (range.shrink other).stop.value

/-- Without the snapshot. -/
structure SegmentReadTask (c : Bool) where
  segment : Segment c
  ranges : List (RowKeyRange c)

namespace SegmentReadTask

def halve (top : SegmentReadTask c) : SegmentReadTask c × SegmentReadTask c :=
  (⟨top.segment, top.ranges.take (top.ranges.length / 2)⟩,
    ⟨top.segment, top.ranges.drop (top.ranges.length / 2)⟩)

/-- Halves the largest tasks. -/
def trySplitReadTasks (heap : MaxHeap (SegmentReadTask c) (·.ranges.length))
    (tasks : List (SegmentReadTask c)) (expectedSize : Nat) : List (SegmentReadTask c) :=
  if tasks.isEmpty || tasks.length ≥ expectedSize then tasks
  else
    let split := splitLargest heap halve (expectedSize - tasks.length) tasks
    heap.drain split.length split

/-- One range, where they touch -/
def mergeRanges (heap : MaxHeap OffsetCount OffsetCount.count) (task : SegmentReadTask c) :
    Except (MergeRangesError c) (SegmentReadTask c) := do
  return { task with ranges := ← tryMergeRanges heap task.ranges 1 }

end SegmentReadTask

/-- `tasks.back()->addRange(range)`, after a task for the segment has been appended if the last one is for
another. The last task comes first. -/
def addRange (tasks : List (SegmentReadTask c)) (segment : Segment c) (range : RowKeyRange c) :
    List (SegmentReadTask c) :=
  match tasks with
  | [] => [⟨segment, [range]⟩]
  | back :: tasks =>
    if back.segment.inst ≠ segment.inst then ⟨segment, [range]⟩ :: back :: tasks
    else { back with ranges := back.ranges ++ [range] } :: tasks

/-- The loop of `getReadTasksByRanges` from `range_it` and `seg_it` on. -/
def sweep (readSegments : List Nat) : List (RowKeyRange c) → List (Segment c) →
    List (SegmentReadTask c) → List (SegmentReadTask c)
  | [], _, tasks => tasks
  | _ :: _, [], tasks => tasks
  | req :: ranges, seg :: segs, tasks =>
    if req.intersect seg.range && (readSegments.isEmpty || seg.segmentId ∈ readSegments) then
      let tasks := addRange tasks seg req
      if req.stop.toRowKeyValueRef.compare seg.range.stop.toRowKeyValueRef < 0 then
        sweep readSegments ranges (seg :: segs) tasks
      else if seg.range.stop.toRowKeyValueRef.compare req.stop.toRowKeyValueRef < 0 then
        sweep readSegments (req :: ranges) segs tasks
      else sweep readSegments ranges segs tasks
    else if req.stop.toRowKeyValueRef.compare seg.range.start.toRowKeyValueRef < 0 then
      sweep readSegments ranges (seg :: segs) tasks
    else sweep readSegments (req :: ranges) segs tasks
termination_by ranges segs => ranges.length + segs.length

/-- The exceptions -/
inductive ReadTasksError (c : Bool) where
  /-- "Failed to locate segment begin with start in range" -/
  | failedToLocateSegment (range : RowKeyRange c)
  | mergeRanges (e : MergeRangesError c)
  | undefined

def mergeTaskRanges (heap : MaxHeap OffsetCount OffsetCount.count) (tasks : List (SegmentReadTask c)) :
    Except (ReadTasksError c) (List (SegmentReadTask c)) :=
  match tasks.mapM (SegmentReadTask.mergeRanges heap) with
  | .ok tasks => .ok tasks
  | .error e => .error (.mergeRanges e)

/-- `DeltaMergeStore::getReadTasksByRanges`; `segments` is the map. -/
def getReadTasksByRanges (taskHeap : MaxHeap (SegmentReadTask c) (·.ranges.length))
    (heap : MaxHeap OffsetCount OffsetCount.count) (segments : List (EndRef c × Segment c))
    (sortedRanges : List (RowKeyRange c)) (expectedTasksCount : Nat) (readSegments : List Nat) :
    Except (ReadTasksError c) (List (SegmentReadTask c)) :=
  match sortedRanges with
  | [] => .error .undefined
  | first :: _ =>
    match segments.dropWhile fun e => !EndRef.lt ⟨none, first.start.toRowKeyValueRef⟩ e.1 with
    | [] => .error (.failedToLocateSegment first)
    | located =>
      let tasks := (sweep readSegments sortedRanges (located.map (·.2)) []).reverse
      mergeTaskRanges heap (SegmentReadTask.trySplitReadTasks taskHeap tasks expectedTasksCount)

/-! ## What should hold -/

/-- A task reads the key: it is in one of its ranges, and in the range of its segment. -/
def SegmentReadTask.reads (k : RowKey c) (task : SegmentReadTask c) : Bool :=
  task.segment.range.check k && task.ranges.any (·.check k)

/-- Both ends of a range are in the key space. -/
structure RowKeyRange.Inside (n : Nat) (range : RowKeyRange c) : Prop where
  start_ge : (newAll c n).start.value ≤ range.start.value
  start_le : range.start.value ≤ (newAll c n).stop.value
  stop_le : range.stop.value ≤ (newAll c n).stop.value

/-- The ranges of a query: sorted by start, inside the key space, and no two of them intersect. -/
structure QueryRanges (n : Nat) (ranges : List (RowKeyRange c)) : Prop where
  sorted : SortedByStartEdge ranges
  inside : ∀ range ∈ ranges, range.Inside n
  disjoint : ranges.Pairwise fun a b => a.intersect b = false

/-- Tasks are returned, and a key of the key space is read by exactly one of them if it is in one of the
ranges, and by none otherwise. -/
def CoversQuery (n : Nat) (result : Except (ReadTasksError c) (List (SegmentReadTask c)))
    (ranges : List (RowKeyRange c)) : Prop :=
  ∃ tasks, result = .ok tasks ∧ ∀ k, (RowKeyRange.newAll c n).check k = true →
    ((∃ range ∈ ranges, range.check k = true) ↔ tasks.countP (·.reads k) = 1)

/-- The first range begins before the end of the key space, and no segment has both the end of an empty range
and a key of a range behind it. -/
structure EmptyApart (n : Nat) (segments : List (Segment c)) (ranges : List (RowKeyRange c)) : Prop where
  begins : ∃ first ∈ ranges.head?, first.start.toRowKeyValueRef.compare
    (RowKeyRange.newAll c n).stop.toRowKeyValueRef < 0
  apart : ranges.Pairwise fun empty range => empty.none = true → ∀ seg ∈ segments,
    seg.range.checkRef empty.stop.toRowKeyValueRef = true → ∀ k, seg.range.check k = true →
      range.check k = false

end TiFlash.DM
