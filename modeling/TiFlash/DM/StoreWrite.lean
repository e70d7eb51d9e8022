import TiFlash.DM.SegmentStore
import TiFlash.DM.RowKeyFilter

/-!
# Writing to a store

`DeltaMergeStore::write` cuts a sorted block at the ends of the segments and appends the pieces;
`deleteRange` does so with a range. An attempt looks for a segment under a shared lock and appends after the
lock has been dropped; it fails when the instance has been abandoned meanwhile.
-/

namespace TiFlash.DM

open TiFlash.Lib

variable {c : Bool} {D : Type*}

/-- What one attempt meets: the store in which it looks for a segment, and the store when it appends. -/
structure Attempt (c : Bool) where
  lookup : DeltaMergeStore c
  append : DeltaMergeStore c

/-- `"Failed to locate segment begin with start: …"` of `write`, and
`"Failed to locate segment begin with start in range: …"` of `deleteRange`. -/
inductive LocateError
  | failedToLocateSegment
  deriving DecidableEq, Repr

/-- `segments.upper_bound(key)` -/
def DeltaMergeStore.locate (s : DeltaMergeStore c) (key : RowKeyValueRef c) : Option (Segment c) :=
  (SortedMap.upperBound EndRef.lt ⟨none, key⟩ s.segments).map (·.2)

/-- Equal ends -/
def RowKeyRange.same (a b : RowKeyRange c) : Bool :=
  a.start.value = b.start.value && a.stop.value = b.stop.value

/-- What has been appended to an instance, and the store at that moment. -/
structure Appended (c : Bool) (α : Type*) where
  store : DeltaMergeStore c
  segment : Segment c
  content : α

/-! ## Blocks -/

/-- The loop variables of `write` -/
structure WriteState (c : Bool) (D : Type*) where
  offset : Nat
  /-- `write_range` and the rows of `write_pack`, once it is written. -/
  pack : Option (RowKeyRange c × List (Row (RowKey c) D))
  appended : List (Appended c (List (Row (RowKey c) D)))
  failed : Nat

namespace WriteState

/-- Before the first attempt -/
def init : WriteState c D := ⟨0, none, [], 0⟩

/-- The end of an attempt to append `rows`: on success the offset moves by `limit`. -/
def finish (st : WriteState c D) (store : DeltaMergeStore c) (segment : Segment c) (limit : Nat)
    (pack : Option (RowKeyRange c × List (Row (RowKey c) D))) (rows : List (Row (RowKey c) D)) :
    WriteState c D :=
  if store.hasAbandoned segment then { st with pack := pack, failed := st.failed + 1 }
  else
    { st with
      offset := st.offset + limit
      pack := none
      appended := st.appended ++ [⟨store, segment, rows⟩] }

end WriteState

/-- One round of the inner loop of `write`. `writeToCache` succeeds with nothing to write. A pack on disk is
used again if the range is the same. -/
def writeAttempt (deltaCacheLimitRows : Nat) (block : List (Row (RowKey c) D)) (st : WriteState c D)
    (a : Attempt c) : Except LocateError (WriteState c D) :=
  match block[st.offset]? with
  | none => .ok st
  | some row =>
    match a.lookup.locate row.handle.toRef with
    | none => .error .failedToLocateSegment
    | some segment =>
      let limit := (segment.range.getPosRange ((block.drop st.offset).map Row.handle)).2
      let rows := (block.drop st.offset).take limit
      if limit < deltaCacheLimitRows / 4 then
        if limit = 0 then .ok { st with pack := none }
        else .ok (st.finish a.append segment limit st.pack rows)
      else
        let pack :=
          match st.pack with
          | none => (segment.range, rows)
          | some (writeRange, written) =>
            if writeRange.same segment.range then (writeRange, written) else (segment.range, rows)
        .ok (st.finish a.append segment limit (some pack) pack.2)

/-- `DeltaMergeStore::write` of a sorted block, as far as it gets with these attempts. -/
def writeBlock (deltaCacheLimitRows : Nat) (block : List (Row (RowKey c) D)) (env : List (Attempt c)) :
    Except LocateError (WriteState c D) :=
  env.foldlM (writeAttempt deltaCacheLimitRows block) .init

/-! ## Delete ranges -/

/-- The loop variables of `deleteRange` -/
structure DeleteState (c : Bool) where
  curRange : RowKeyRange c
  appended : List (Appended c (RowKeyRange c))
  failed : Nat

/-- One round of the inner loop of `deleteRange`. `Segment::write` cuts the range again, and takes an
empty one for a success. -/
def deleteAttempt (deleteRange : RowKeyRange c) (st : DeleteState c) (a : Attempt c) :
    Except LocateError (DeleteState c) :=
  if st.curRange.none then .ok st
  else
    match a.lookup.locate st.curRange.start.toRowKeyValueRef with
    | none => .error .failedToLocateSegment
    | some segment =>
      let range := deleteRange.shrink segment.range
      let curRange := { st.curRange with start := segment.range.stop, stop := deleteRange.stop }
      if (range.shrink segment.range).none then .ok { st with curRange := curRange }
      else if a.append.hasAbandoned segment then .ok { st with failed := st.failed + 1 }
      else .ok { st with curRange := curRange, appended := st.appended ++ [⟨a.append, segment, range⟩] }

/-- `DeltaMergeStore::deleteRange`, as far as it gets with these attempts. -/
def deleteRange (range : RowKeyRange c) (env : List (Attempt c)) : Except LocateError (DeleteState c) :=
  env.foldlM (deleteAttempt range) ⟨range, [], 0⟩

/-! ## Attempts on a store at work -/

/-- The states that a store can get to from another one. -/
def StoreSystem.Steps : StoreSystem c → StoreSystem c → Prop :=
  Relation.ReflTransGen fun s s' => ∃ outcome, StoreSystem.Step s outcome s'

/-- The attempt looks for a segment in a state that a new store can reach, and appends some steps of
other threads later. -/
def Attempt.Possible (rowkeyColumnSize : Nat) (a : Attempt c) : Prop :=
  ∃ s s' : StoreSystem c, StoreSystem.Reachable rowkeyColumnSize s ∧ s.Steps s' ∧
    a.lookup = s.store ∧ a.append = s'.store

end TiFlash.DM
