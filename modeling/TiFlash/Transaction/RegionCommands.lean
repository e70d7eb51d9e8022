import TiFlash.Transaction.Region

/-!
# Raft commands on regions (`handleWriteRaftCmd`, `execBatchSplit`, `execCommitMerge`)

Write commands put and delete pairs; those of the write column family come last, when the values are there.
A split moves the pairs in the range of each new region out of the old one, a merge copies the pairs of the
source into the target.
-/

namespace TiFlash.Transaction

open TiFlash.Lib

/-- A request of a raft command -/
inductive WriteCmd where
  | put (kv : KV)
  | del (cf : ColumnFamilyType) (key : TiKVKey)
deriving DecidableEq, Repr

/-- The column family -/
def WriteCmd.cf : WriteCmd → ColumnFamilyType
  | put kv => kv.cf
  | del cf _ => cf

/-- The order of `handle_write_cmd_func`: the write column family comes last. -/
def handlingOrder (cmds : List WriteCmd) : List WriteCmd :=
  cmds.filter (fun cmd => cmd.cf ≠ .write) ++ cmds.filter (fun cmd => cmd.cf = .write)

namespace CFData

variable {ν : Type}

/-- `RegionCFDataBase::splitInto`: the pairs in the range move from `ori` to `tar`. -/
def splitInto (range : RegionRange) (ori tar : HashMap TiKVKey ν) :
    HashMap TiKVKey ν × HashMap TiKVKey ν :=
  ori.foldl (fun (maps : HashMap TiKVKey ν × HashMap TiKVKey ν) key value => if range.contains key then
      (maps.1.erase key, if key ∈ maps.2 then maps.2 else maps.2.insert key value)
    else maps) (ori, tar)

/-- One pair of a merge: a key that is there already raises an exception. -/
def emplaceNew (tar : HashMap TiKVKey ν) (pair : (_ : TiKVKey) × ν) :
    Except Exception (HashMap TiKVKey ν) :=
  if pair.1 ∈ tar then .error (.duplicateKey pair.1) else .ok (tar.insert pair.1 pair.2)

def mergeFrom (tar ori : HashMap TiKVKey ν) : Except Exception (HashMap TiKVKey ν) :=
  ori.entries.foldlM emplaceNew tar

end CFData

namespace RegionData

/-- `handle_by_index_func` -/
def applyCmd (data : RegionData) : WriteCmd → Except Exception RegionData
  | .put kv => data.insert kv
  | .del cf key => .ok (data.remove cf key)

/-- `RegionData::splitInto`: what stays, and the data of the new region. -/
def splitInto (data : RegionData) (range : RegionRange) : RegionData × RegionData :=
  let default := CFData.splitInto range data.defaultCF ∅
  let write := CFData.splitInto range data.writeCF ∅
  let lock := CFData.splitInto range data.lockCF ∅
  (⟨write.1, default.1, lock.1⟩, ⟨write.2, default.2, lock.2⟩)

def mergeFrom (data ori : RegionData) : Except Exception RegionData := do
  let default ← CFData.mergeFrom data.defaultCF ori.defaultCF
  let write ← CFData.mergeFrom data.writeCF ori.writeCF
  let lock ← CFData.mergeFrom data.lockCF ori.lockCF
  return ⟨write, default, lock⟩

end RegionData

/-- The applied index of a region that a split creates (`initialApplyState`). -/
def raftInitLogIndex : Nat := 5

namespace Region

variable (region : Region)

def setApplied (index : Nat) : Region := { region with info := { region.info with appliedIndex := index } }

/-- `Region::handleWriteRaftCmd` without the flush: outdated commands are ignored. -/
def handleWriteRaftCmd (cmds : List WriteCmd) (index : Nat) : Except Exception Region :=
  if index ≤ region.info.appliedIndex then .ok region
  else if region.isPendingRemove then .error (.tombstoneState index)
  else do
    let data ← (handlingOrder cmds).foldlM RegionData.applyCmd region.data
    return { region with data := data }.setApplied index

def splitOff (data : RegionData) : List RegionMeta → RegionData × List Region
  | [] => (data, [])
  | info :: infos =>
    let (data, newData) := data.splitInto info.range
    let (data, newRegions) := splitOff data infos
    (data, ⟨{ info with peerState := .normal, appliedIndex := raftInitLogIndex }, newData⟩ :: newRegions)

/-- The region that keeps the id, and the new ones. -/
def execBatchSplit (newRegionInfos : List RegionMeta) (index : Nat) :
    Except Exception (Region × List Region) :=
  if newRegionInfos.isEmpty then .error .noNewRegion
  else
    let (data, newRegions) :=
      splitOff region.data (newRegionInfos.filter fun info => info.regionID ≠ region.info.regionID)
    match newRegionInfos.filter fun info => info.regionID = region.info.regionID with
    | [] => .error .regionIndexNotFound
    | [info] => .ok (⟨{ info with peerState := .normal, appliedIndex := index }, data⟩, newRegions)
    | _ => .error .duplicateRegionIndex

/-- `checkBeforeCommitMerge`; `sourceInfo` is the source as the command names it. -/
def checkBeforeCommitMerge (source : Region) (sourceInfo : RegionMeta) : Except Exception Unit :=
  if source.info.peerState ≠ .merging ∧ source.info.peerState ≠ .normal then
    .error (.unexpectedSourceState source.info.regionID)
  else if ¬ (sourceInfo.range = source.info.range ∧ sourceInfo.version = source.info.version ∧
      sourceInfo.confVer = source.info.confVer ∧ sourceInfo.peers = source.info.peers) then
    .error (.sourceRegionNotMatch source.info.regionID)
  else .ok ()

/-- The target with the data and the range of the source. -/
def execCommitMerge (target source : Region) (sourceInfo : RegionMeta) (index : Nat) :
    Except Exception Region := do
  checkBeforeCommitMerge source sourceInfo
  let data ← target.data.mergeFrom source.data
  let sourceAtLeft : Bool :=
    source.info.range.startKey = .min ∨ source.info.range.endKey = target.info.range.startKey
  return ⟨{ target.info with
    version := max source.info.version target.info.version + 1
    range := if sourceAtLeft then ⟨source.info.range.startKey, target.info.range.endKey⟩
      else ⟨target.info.range.startKey, source.info.range.endKey⟩
    peerState := .normal
    appliedIndex := index }, data⟩

end Region

end TiFlash.Transaction
