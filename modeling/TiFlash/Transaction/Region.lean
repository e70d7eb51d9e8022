import TiFlash.Transaction.RegionData

/-!
# Regions (`Region`, `ReadRegionCommitCache`, `resolveLocksAndReadRegionData`)

A region is its data and its meta: peer state, epoch, applied index and range. A flush collects whatever
committed rows are there unless the region is pending removal; a read also wants the peer state `Normal`,
the epoch of the query and no lock in its way.
-/

namespace TiFlash.Transaction

open TiFlash.Lib

abbrev RegionID := Nat
abbrev TableID := Nat

/-- `raft_serverpb::PeerState` -/
inductive PeerState where
  | normal
  | applying
  | tombstone
  | merging
deriving DecidableEq, Repr

/-- A bound that is a row key without timestamp (`row`) stands before all versions of
the row. -/
inductive TiKVRangeKey where
  | min
  | row (pk : RawTiDBPK)
  | normal (key : TiKVKey)
  | max
deriving DecidableEq, Repr

/-- `compare(key) <= 0` -/
def TiKVRangeKey.le : TiKVRangeKey → TiKVKey → Bool
  | min, _ => true
  | row pk, key => pk ≤ key.pk
  | normal bound, key => !key.lt bound
  | max, _ => false

/-- `RegionRangeKeys` -/
structure RegionRange where
  startKey : TiKVRangeKey
  endKey : TiKVRangeKey
deriving DecidableEq, Repr

variable (range : RegionRange)

/-- `start_key.compare(key) <= 0 && end_key.compare(key) > 0` -/
def RegionRange.contains (key : TiKVKey) : Bool :=
  range.startKey.le key && !range.endKey.le key

/-- The rows of the range: `RowKeyRange::fromRegionRange`, `getHandleRangeByTable`. -/
def RegionRange.containsPK (pk : RawTiDBPK) : Bool :=
  let reached : TiKVRangeKey → Bool
    | .min => true
    | .row bound => bound ≤ pk
    | .normal key => key.pk ≤ pk
    | .max => false
  reached range.startKey && !reached range.endKey

/-- `RegionMeta`, the parts that are read here. -/
structure RegionMeta where
  regionID : RegionID
  tableID : TableID
  peers : List Nat
  peerState : PeerState
  version : Nat
  confVer : Nat
  appliedIndex : Nat
  range : RegionRange
deriving DecidableEq, Repr

/-- Meta data and records -/
structure Region where
  info : RegionMeta
  data : RegionData
deriving DecidableEq

/-- `RegionException::RegionReadStatus` -/
inductive RegionReadStatus where
  | ok
  | notFound
  | epochNotMatch
deriving DecidableEq, Repr

namespace Region

variable (region : Region)

def isPendingRemove : Bool := region.info.peerState = .tombstone

def setPeerState (state : PeerState) : Region :=
  { region with info := { region.info with peerState := state } }

def setStateApplying : Region := region.setPeerState .applying

def insertAll (kvs : List KV) : Except Exception Region := do
  return { region with data := ← kvs.foldlM RegionData.insert region.data }

/-- The object stays, its content is replaced. -/
def assignRegion (_region newRegion : Region) : Region := newRegion

def readRegionCommitCache : Except Exception (Option (List RegionDataReadInfo)) :=
  if region.isPendingRemove then .ok none
  else if region.data.writeCF.entries.isEmpty then .ok none
  else do return some (← region.data.scan true)

def removeRegionCommitCache (dataListRead : List RegionDataReadInfo) : Region :=
  { region with data := region.data.removeCommitCache dataListRead }

def resolveLocksAndReadRegionData (tableID : TableID) (startTs : Timestamp)
    (bypassLockTs : List Timestamp) (regionVersion confVersion : Nat) (needDataValue : Bool) :
    Except Exception (List RegionDataReadInfo × RegionReadStatus) :=
  if region.info.peerState ≠ .normal then .ok ([], .notFound)
  else if region.info.version ≠ regionVersion ∨ region.info.confVer ≠ confVersion then
    .ok ([], .epochNotMatch)
  else if region.info.tableID ≠ tableID then .error (.regionNotOfTable region.info.tableID tableID)
  else
    match region.data.getLockInfo startTs bypassLockTs with
    | some _ => .error (.lockException region.info.regionID)
    | none => do return (← region.data.scan needDataValue, .ok)

/-- For each handle the newest version in the storage and whether it is a delete. -/
abbrev HandleMap := HashMap RawTiDBPK (Timestamp × Bool)

/-- The first check of `compareAndCompleteSnapshot`: handles for which the region has a version that is
not older leave the map. -/
def dropDuplicates (handleMap : HandleMap) (key : TiKVKey) (entry : WriteCFEntry) :
    Except Exception HandleMap :=
  match handleMap.lookup key.pk with
  | none => .ok handleMap
  | some (oriTs, oriDel) =>
    if oriTs > key.ts then .ok handleMap
    else if oriTs = key.ts ∧ (entry.decoded.writeType = .delFlag : Bool) ≠ oriDel then
      .error .originalTsNotBelowSafePoint
    else .ok (handleMap.erase key.pk)

/-- What the storage has and the region has not gets a delete record. -/
def compareAndCompleteSnapshot (handleMap : HandleMap) (safePoint : Timestamp) :
    Except Exception Region := do
  if handleMap.entries.isEmpty then return region
  let handleMap ← region.data.writeCF.entries.foldlM (fun m e => dropDuplicates m e.1 e.2) handleMap
  let data ← handleMap.entries.foldlM (fun (data : RegionData) e =>
    if e.2.1 ≥ safePoint then .error .originalTsNotBelowSafePoint
    else data.insert (.write ⟨e.1, e.2.1⟩ ⟨.delFlag, 0, none, false⟩)) region.data
  return { region with data := data }

end Region

end TiFlash.Transaction
