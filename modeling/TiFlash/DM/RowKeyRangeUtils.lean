import TiFlash.DM.RowKeyRange
import TiFlash.Lib.SplitLargest

/-!
# Merging the ranges of a query

The ranges are sorted by their start. Those that follow each other without a gap are put into groups, known
by the offset of their first range and their count; if there are too few, the largest are halved. Each group
becomes one range.
-/

namespace TiFlash.DM

open TiFlash.Lib

variable {c : Bool}

/-- The comparison of `sortRangesByStartEdge`. -/
def startEdgeLt (lhs rhs : RowKeyRange c) : Bool :=
  if lhs.start.value ≠ rhs.start.value then lhs.start.value < rhs.start.value
  else lhs.stop.value < rhs.stop.value

def sortRangesByStartEdge (ranges : List (RowKeyRange c)) : List (RowKeyRange c) :=
  ranges.insertionSort fun lhs rhs => ¬ startEdgeLt rhs lhs

/-- How the original ranges are merged. -/
structure OffsetCount where
  offset : Nat
  count : Nat
deriving DecidableEq, Repr

/-- The exceptions -/
inductive MergeRangesError (c : Bool) where
  /-- "Found overlap ranges" -/
  | overlap (prev current : RowKeyRange c)
  /-- A position that is behind the end of the ranges. -/
  | undefined

namespace MergeRangeHelper

/-- The loop of `genMergeStats` at index `i`, with the group of `prev`. -/
def genMergeStatsFrom (prev : RowKeyRange c) : List (RowKeyRange c) → (i offset count : Nat) →
    Except (MergeRangesError c) (List OffsetCount)
  | [], _, offset, count => .ok [⟨offset, count⟩]
  | current :: rest, i, offset, count =>
    if current.none || prev.stop.value = current.start.value then
      genMergeStatsFrom current rest (i + 1) offset (count + 1)
    else if prev.stop.value < current.start.value then do
      return ⟨offset, count⟩ :: (← genMergeStatsFrom current rest (i + 1) i 1)
    else .error (.overlap prev current)

def genMergeStats : List (RowKeyRange c) → Except (MergeRangesError c) (List OffsetCount)
  | [] => .ok [⟨0, 1⟩]
  | first :: rest => genMergeStatsFrom first rest 1 0 1

/-- The two groups that the largest one is split into. -/
def halve (top : OffsetCount) : OffsetCount × OffsetCount :=
  (⟨top.offset, top.count / 2⟩, ⟨top.offset + top.count / 2, top.count - top.count / 2⟩)

/-- Halves the largest groups. -/
def trySplit (heap : MaxHeap OffsetCount OffsetCount.count) (mergedStats : List OffsetCount)
    (expectedRangesCount : Nat) : List OffsetCount :=
  if mergedStats.length ≥ expectedRangesCount then mergedStats
  else
    (splitLargest heap halve (expectedRangesCount - mergedStats.length) mergedStats).insertionSort
      fun a b => a.offset ≤ b.offset

variable (sortedRanges : List (RowKeyRange c))

def getRange (stat : OffsetCount) :
    Except (MergeRangesError c) (RowKeyRange c) :=
  match sortedRanges.head?, sortedRanges[stat.offset]?, sortedRanges[stat.offset + stat.count - 1]? with
  | some front, some first, some last => .ok ⟨first.start, last.stop, front.rowkeyColumnSize⟩
  | _, _, _ => .error .undefined

def getRanges (mergedStats : List OffsetCount) :
    Except (MergeRangesError c) (List (RowKeyRange c)) :=
  mergedStats.mapM (getRange sortedRanges)

end MergeRangeHelper

open MergeRangeHelper in
def tryMergeRanges (heap : MaxHeap OffsetCount OffsetCount.count) (sortedRanges : List (RowKeyRange c))
    (expectedRangesCount : Nat) : Except (MergeRangesError c) (List (RowKeyRange c)) :=
  if sortedRanges.length ≤ 1 then .ok sortedRanges
  else do
    let mergedStats ← genMergeStats sortedRanges
    getRanges sortedRanges (trySplit heap mergedStats expectedRangesCount)

/-- For the ranges that the regions of a query require. -/
def getQueryRanges (heap : MaxHeap OffsetCount OffsetCount.count) (ranges : List (RowKeyRange c))
    (rowkeyColumnSize expectedRangesCount : Nat) : Except (MergeRangesError c) (List (RowKeyRange c)) :=
  match ranges with
  | [] => .ok [.newAll c rowkeyColumnSize]
  | [range] => .ok [range]
  | ranges => tryMergeRanges heap (sortRangesByStartEdge ranges) expectedRangesCount

/-! ## What should hold -/

variable (ranges : List (RowKeyRange c))

/-- Sorted by `sortRangesByStartEdge` -/
def SortedByStartEdge : Prop := ranges.Pairwise fun lhs rhs => startEdgeLt rhs lhs = false

instance (ranges : List (RowKeyRange c)) : Decidable (SortedByStartEdge ranges) :=
  inferInstanceAs (Decidable (List.Pairwise _ _))

/-- No key is in both. -/
def RowKeyRange.Disjoint (a b : RowKeyRange c) : Prop := ∀ k, ¬ (a.check k = true ∧ b.check k = true)

/-- What `tryMergeRanges` should return -/
structure Merged (expectedRangesCount : Nat) (ranges result : List (RowKeyRange c)) : Prop where
  sorted : SortedByStartEdge result
  disjoint : result.Pairwise RowKeyRange.Disjoint
  union : ∀ k, (∃ range ∈ result, range.check k = true) ↔ ∃ range ∈ ranges, range.check k = true
  count : (∀ range ∈ ranges, range.none = false) → min expectedRangesCount ranges.length ≤ result.length

/-- Every empty range that follows another ends where that one ends. -/
def EmptyAtEnd : Prop :=
  ranges.IsChain fun prev current => current.none = true → current.stop.value = prev.stop.value

instance (ranges : List (RowKeyRange c)) : Decidable (EmptyAtEnd ranges) :=
  inferInstanceAs (Decidable (List.IsChain _ _))

/-- No end of an integer handle is behind the "+infinity" key. -/
def RowKeyValue.AtMostInf : {c : Bool} → RowKeyValue c → Prop
  | _, .int value _ _ => value ≤ intHandleMaxKeyValue
  | _, .common _ => True

/-- Neither end of the range is behind the "+infinity" key. -/
structure RowKeyRange.AtMostInf (range : RowKeyRange c) : Prop where
  start : range.start.AtMostInf
  stop : range.stop.AtMostInf

end TiFlash.DM
