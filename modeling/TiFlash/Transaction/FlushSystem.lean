import TiFlash.Transaction.RegionCommands

/-!
# Regions, raft commands and flushes side by side

A flush keeps the id of its region and the rows it has collected; when it removes them the region may have
got newer versions, been split or been merged away. Raft commands stop the process when they raise an
exception.

`committed` and `owed` are ghosts: all records raft has committed, and those it has not deleted again.
-/

namespace TiFlash.Transaction

open TiFlash.Lib

/-- A committed record -/
structure Commit where
  row : RegionDataReadInfo
  prewriteTs : Timestamp
deriving DecidableEq, Repr

/-- A flush between its collection and its removal of the rows. -/
structure FlushWorker where
  regionID : RegionID
  rows : List RegionDataReadInfo
  written : Bool
deriving DecidableEq, Repr

/-- What raft has committed, and what of it has to be found. -/
structure CommitLog where
  committed : List Commit
  owed : List RegionDataReadInfo
deriving DecidableEq, Repr

/-- A command is written down that comes to a region with `data`, whatever the region makes of it. -/
def CommitLog.record (log : CommitLog) (data : RegionData) : WriteCmd → CommitLog
  | .put (.write key value) =>
    match decodeWriteCfValue value with
    | some record =>
      ⟨⟨data.recordRow key record, record.prewriteTs⟩ :: log.committed, data.recordRow key record :: log.owed⟩
    | none => log
  | .del .write key => { log with owed := log.owed.filter fun row => row.key ≠ key }
  | _ => log

/-- The commands of a request are written down one after another. -/
def CommitLog.recordAll (log : CommitLog) (data : RegionData) : List WriteCmd → CommitLog
  | [] => log
  | cmd :: cmds =>
    match data.applyCmd cmd with
    | .ok data' => (log.record data cmd).recordAll data' cmds
    | .error _ => log

/-- The regions, the storage and the flushes under way -/
structure FlushSystem where
  regions : HashMap RegionID Region
  storage : List RegionDataReadInfo
  workers : List FlushWorker
  log : CommitLog
deriving DecidableEq

/-- What happens next -/
inductive FlushAction where
  /-- A raft write request; with `flushNow` (`isBgFlushDisabled`) the rows are flushed at once. -/
  | writeCmd (regionID : RegionID) (cmds : List WriteCmd) (index : Nat) (flushNow : Bool)
  | batchSplit (regionID : RegionID) (newRegionInfos : List RegionMeta) (index : Nat)
  | commitMerge (regionID : RegionID) (sourceInfo : RegionMeta) (index : Nat)
  | collect (regionID : RegionID)
  | writeRows (i : Nat)
  /-- The storage write of flush `i` raises an exception after `n` rows. -/
  | failWrite (i : Nat) (n : Nat)
  | removeRows (i : Nat)
deriving DecidableEq

namespace FlushSystem

variable (s : FlushSystem)

def flushNow (region : Region) : Except Exception FlushSystem := do
  match ← region.readRegionCommitCache with
  | none => return { s with regions := s.regions.insert region.info.regionID region }
  | some rows =>
    return { s with
      storage := s.storage ++ rows
      regions := s.regions.insert region.info.regionID (region.removeRegionCommitCache rows) }

def handleWriteRaftCmd (regionID : RegionID) (cmds : List WriteCmd) (index : Nat)
    (flushNow : Bool) : Except Exception FlushSystem :=
  match s.regions.lookup regionID with
  | none => .ok s
  | some region => do
    let region' ← region.handleWriteRaftCmd cmds index
    if index ≤ region.info.appliedIndex then return s
    let s := { s with log := s.log.recordAll region.data (handlingOrder cmds) }
    if flushNow then s.flushNow region'
    else return { s with regions := s.regions.insert region'.info.regionID region' }

variable (regions : HashMap RegionID Region)

/-- `handle_batch_split`: a region that is there already is kept. -/
def emplaceAll (newRegions : List Region) : HashMap RegionID Region :=
  newRegions.foldl (fun (regions : HashMap RegionID Region) region =>
    if region.info.regionID ∈ regions then regions else regions.insert region.info.regionID region) regions

def batchSplit (regionID : RegionID) (newRegionInfos : List RegionMeta) (index : Nat) :
    Except Exception FlushSystem :=
  match s.regions.lookup regionID with
  | none => .ok s
  | some region =>
    if index ≤ region.info.appliedIndex then .ok s
    else do
      let (region, newRegions) ← region.execBatchSplit newRegionInfos index
      return { s with
        regions := emplaceAll (s.regions.insert region.info.regionID region) newRegions }

/-- `KVStore::handleAdminRaftCmd` for `CommitMerge`: also an outdated command removes the source. -/
def commitMerge (regionID : RegionID) (sourceInfo : RegionMeta) (index : Nat) :
    Except Exception FlushSystem :=
  match s.regions.lookup regionID with
  | none => .ok s
  | some target =>
    if index ≤ target.info.appliedIndex then
      .ok { s with regions := s.regions.erase sourceInfo.regionID }
    else
      match s.regions.lookup sourceInfo.regionID with
      | none => .error (.regionNotFound sourceInfo.regionID)
      | some source => do
        let target ← target.execCommitMerge source sourceInfo index
        return { s with
          regions := (s.regions.insert target.info.regionID target).erase sourceInfo.regionID }

/-- The flush removes its rows from its region, if this is still there. -/
def removeFrom (worker : FlushWorker) : HashMap RegionID Region :=
  match regions.lookup worker.regionID with
  | none => regions
  | some region => regions.insert worker.regionID (region.removeRegionCommitCache worker.rows)

/-- One step; an exception of a raft command ends the run, one of a flush only the flush. -/
def step : FlushAction → Except Exception FlushSystem
  | .writeCmd regionID cmds index flushNow => s.handleWriteRaftCmd regionID cmds index flushNow
  | .batchSplit regionID newRegionInfos index => s.batchSplit regionID newRegionInfos index
  | .commitMerge regionID sourceInfo index => s.commitMerge regionID sourceInfo index
  | .collect regionID =>
    match s.regions.lookup regionID with
    | none => .ok s
    | some region =>
      match region.readRegionCommitCache with
      | .ok (some rows) => .ok { s with workers := s.workers ++ [⟨regionID, rows, false⟩] }
      | _ => .ok s
  | .writeRows i =>
    match s.workers[i]? with
    | some worker =>
      if worker.written then .ok s
      else .ok { s with
        storage := s.storage ++ worker.rows
        workers := s.workers.set i { worker with written := true } }
    | none => .ok s
  | .failWrite i n =>
    match s.workers[i]? with
    | some worker =>
      if worker.written then .ok s
      else .ok { s with
        storage := s.storage ++ worker.rows.take n
        workers := s.workers.eraseIdx i }
    | none => .ok s
  | .removeRows i =>
    match s.workers[i]? with
    | some worker =>
      if worker.written then
        .ok { s with regions := removeFrom s.regions worker, workers := s.workers.eraseIdx i }
      else .ok s
    | none => .ok s

/-- Any interleaving of actions -/
def run (actions : List FlushAction) : Except Exception FlushSystem :=
  actions.foldlM step s

/-- Empty regions -/
def start (infos : List RegionMeta) : FlushSystem :=
  ⟨emplaceAll ∅ (infos.map fun info => ⟨info, .empty⟩), [], [], ⟨[], []⟩⟩

end FlushSystem

end TiFlash.Transaction
