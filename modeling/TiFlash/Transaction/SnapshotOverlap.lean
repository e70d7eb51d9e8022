import TiFlash.Transaction.Region

/-!
# Reads and flushes that overlap with a snapshot apply

One region id, its rows in the storage and any number of workers: reads (`resolveLocksAndWriteRegion`) and
flushes (`tryFlushRegion`). A worker collects the committed rows under the region lock, writes them without
it, and removes them under the lock again. A snapshot apply sets `Applying`, deletes the range, writes the
rows of the snapshot, by a flush that is skipped while another has set `pause_flush`, and replaces the
content of the region object, which the workers keep pointing to.
-/

namespace TiFlash.Transaction

/-- A snapshot after `preHandleSnapshot`: its rows are decoded and not in the region any more. -/
structure PreHandledSnapshot where
  region : Region
  rows : List RegionDataReadInfo
  no_records : region.data.writeCF = ∅
  key_inj : ∀ r ∈ rows, ∀ r' ∈ rows, r.key = r'.key → r = r'

/-- A read or a flush -/
inductive WorkerKind where
  | read
  | flush
deriving DecidableEq, Repr

/-- A read or flush between its collection and its removal of the rows. -/
structure Worker where
  kind : WorkerKind
  rows : List RegionDataReadInfo
  written : Bool
deriving DecidableEq, Repr

/-- How far the snapshot is applied -/
inductive ApplyPhase where
  | notStarted
  | applying
  | rangeDeleted
  | snapshotWritten
  | replaced
deriving DecidableEq, Repr

/-- A region, its table, and who works on them -/
structure Overlap where
  region : Region
  storage : List RegionDataReadInfo
  pauseFlush : Bool
  workers : List Worker
  phase : ApplyPhase
  /-- Ghost: the rows that raft commits to the new region. -/
  later : List RegionDataReadInfo
deriving DecidableEq

/-- What happens next -/
inductive OverlapAction where
  /-- A read of a table at a timestamp, for a region epoch, collects. -/
  | collectRead (tableID : TableID) (startTs : Timestamp) (bypassLockTs : List Timestamp)
      (regionVersion confVersion : Nat)
  | collectFlush
  | writeRows (i : Nat)
  /-- The storage write of worker `i` raises an exception after `n` rows. -/
  | failWrite (i : Nat) (n : Nat)
  | removeRows (i : Nat)
  | setApplying
  | deleteRange
  | writeSnapshot
  | replace
  /-- A raft write command, before or after the apply. -/
  | raftWrite (kvs : List KV)
deriving DecidableEq

namespace Overlap

/-- A worker leaves; a flush takes its `pause_flush` back. -/
def finish (s : Overlap) (i : Nat) (worker : Worker) : Overlap := { s with
    workers := s.workers.eraseIdx i
    pauseFlush := if worker.kind = .flush then false else s.pauseFlush }

/-- The rows that the pairs `kvs` commit, one after another, to a region with `data` -/
def newRows (data : RegionData) : List KV → List RegionDataReadInfo
  | [] => []
  | kv :: kvs =>
    (data.committedRow kv).toList ++
    match data.insert kv with
    | .ok data' => newRows data' kvs
    | .error _ => []

/-- One step; an action that is not possible in the state changes nothing. -/
def step (snap : PreHandledSnapshot) (s : Overlap) : OverlapAction → Overlap
  | .collectRead tableID startTs bypassLockTs regionVersion confVersion =>
    match s.region.resolveLocksAndReadRegionData tableID startTs bypassLockTs regionVersion confVersion
        true with
    | .ok (rows, .ok) => { s with workers := s.workers ++ [⟨.read, rows, false⟩] }
    | _ => s
  | .collectFlush =>
    if s.pauseFlush then s
    else
      match s.region.readRegionCommitCache with
      | .ok (some rows) => { s with workers := s.workers ++ [⟨.flush, rows, false⟩], pauseFlush := true }
      | _ => s
  | .writeRows i =>
    match s.workers[i]? with
    | some worker =>
      if worker.written then s
      else { s with
        storage := s.storage ++ worker.rows
        workers := s.workers.set i { worker with written := true } }
    | none => s
  | .failWrite i n =>
    match s.workers[i]? with
    | some worker =>
      if worker.written then s
      else { s.finish i worker with storage := s.storage ++ worker.rows.take n }
    | none => s
  | .removeRows i =>
    match s.workers[i]? with
    | some worker =>
      if worker.written then
        { s.finish i worker with region := s.region.removeRegionCommitCache worker.rows }
      else s
    | none => s
  | .setApplying =>
    if s.phase = .notStarted then { s with region := s.region.setStateApplying, phase := .applying } else s
  | .deleteRange =>
    if s.phase = .applying then { s with
      storage := s.storage.filter fun row => !snap.region.info.range.containsPK row.pk
      phase := .rangeDeleted }
    else s
  | .writeSnapshot =>
    if s.phase = .rangeDeleted then { s with
      storage := if s.pauseFlush then s.storage else s.storage ++ snap.rows
      phase := .snapshotWritten }
    else s
  | .replace =>
    if s.phase = .snapshotWritten then { s with
      region := s.region.assignRegion snap.region
      phase := .replaced }
    else s
  | .raftWrite kvs =>
    if s.phase = .notStarted ∨ s.phase = .replaced then
      match s.region.insertAll kvs with
      | .ok region => { s with
          region := region
          later := if s.phase = .replaced then s.later ++ newRows s.region.data kvs else s.later }
      | .error _ => s
    else s

/-- Any interleaving of actions -/
def run (snap : PreHandledSnapshot) (s : Overlap) (actions : List OverlapAction) : Overlap :=
  actions.foldl (step snap) s

/-- The start of a run: the old region, with nothing going on. -/
def start (region : Region) (storage : List RegionDataReadInfo) : Overlap :=
  ⟨region, storage, false, [], .notStarted, []⟩

end Overlap

end TiFlash.Transaction
