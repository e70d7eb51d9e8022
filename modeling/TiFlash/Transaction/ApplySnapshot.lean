import TiFlash.Transaction.RegionFlush

/-!
# Applying a raft snapshot (`KVStore::handleApplySnapshot`)

The pairs of the snapshot are put into a new region and its committed rows are decoded into a block
(`preHandleSnapshot`). Then the old region is flushed, its range is cleaned in the storage, the block is
flushed and the new region takes its place (`tryApplySnapshot`, `onSnapshot`). `ApplyEnv` is what other
threads and the storage do meanwhile.
-/

namespace TiFlash.Transaction

open TiFlash.Lib

/-- The storage of the table and the region that `KVStore` holds for the id. -/
structure KVState where
  storage : Option Storage
  region : Option Region
deriving DecidableEq

abbrev ApplyM := EStateM Exception KVState

/-- What happens around the call of `GenRegionPreDecodeBlockData`. -/
structure PreDecodeEnv where
  first : AttemptEnv
  sync : SchemaSync
  second : AttemptEnv
deriving DecidableEq

/-- What the surroundings answer -/
structure ApplyEnv where
  preDecode : PreDecodeEnv
  /-- The flush of the old region, and the exceptions of `tryFlushRegionCacheInStorage` and of the
  persister after it. -/
  oldFlush : FlushEnv
  oldFlushCache : Option Exception
  oldPersist : Option Exception
  /-- The regions whose ranges overlap with the new one. -/
  overlapped : List RegionID
  safePoint : Timestamp
  /-- Exceptions of `lockStructure` and of `deleteRange`. -/
  tableLock : Option Exception
  deleteRange : Option Exception
  /-- The table that the region table has for the id. -/
  previousTable : Option TableID
  newFlush : FlushEnv
  /-- Whether the region of the id, or its applied index, changed under the apply. -/
  instanceChanged : Bool
  persist : Option Exception
deriving DecidableEq

/-- `KVStore::genRegionPtr`; the state of a new region is `Normal`. -/
def genRegionPtr (info : RegionMeta) (peerID : Nat) : Except Exception Region :=
  if peerID ∈ info.peers then .ok ⟨{ info with peerState := .normal }, .empty⟩
  else .error (.peerNotFound peerID)

/-- The lambda of `GenRegionPreDecodeBlockData`: the block with its schema version, or nothing for another
attempt. -/
def atomicDecode (env : AttemptEnv) (storage : Option Storage) (dataListRead : List RegionDataReadInfo)
    (forceDecode : Bool) : Except Exception (Option (List RegionDataReadInfo × Int)) :=
  match storage.filter (!·.isTombstone) with
  | none => .ok (if forceDecode then some ([], defaultUnspecifiedSchemaVersion) else none)
  | some storage =>
    match env.lockStructure, env.readRegionBlock with
    | some e, _ => .error e
    | none, .error e => .error e
    | none, .ok false => .ok none
    | none, .ok true => .ok (some (dataListRead, storage.tableInfo.schemaVersion))

/-- The rows decoded, after a schema sync if it does not work at once. -/
def preDecodeRows (env : PreDecodeEnv) (tableID : TableID) (dataListRead : List RegionDataReadInfo) :
    ApplyM (List RegionDataReadInfo × Int) := do
  match ← ofExcept (atomicDecode env.first (← get).storage dataListRead false) with
  | some decoded => return decoded
  | none =>
    let s ← get
    let storage ← ofExcept (env.sync.syncSchemas s.storage)
    set { s with storage := storage }
    match ← ofExcept (atomicDecode env.second storage dataListRead true) with
    | some decoded => return decoded
    | none => throw (.preDecodeFailed tableID)

/-- Decodes the rows of the region and takes them out of it. -/
def genRegionPreDecodeBlockData (env : PreDecodeEnv) (region : Region) :
    ApplyM (Region × Option RegionPreDecodeBlockData) := do
  match ← ofExcept region.readRegionCommitCache with
  | none => return (region, none)
  | some dataListRead =>
    let (block, schemaVersion) ← preDecodeRows env region.info.tableID dataListRead
    return (region.removeRegionCommitCache dataListRead, some ⟨block, schemaVersion, dataListRead⟩)

variable (env : ApplyEnv) (newRegion : Region)

def preHandleSnapshot (snaps : List KV) :
    ApplyM (Region × Option RegionPreDecodeBlockData) := do
  genRegionPreDecodeBlockData env.preDecode (← ofExcept (newRegion.insertAll snaps))

def flushOldRegion (oldRegion : Region) : ApplyM Unit := do
  let s ← get
  match tryFlushRegion env.oldFlush ⟨s.storage, oldRegion.setStateApplying, none⟩ with
  | .ok _ s =>
    set (KVState.mk s.storage (some s.region))
    raise env.oldFlushCache
    raise env.oldPersist
  | .error e s =>
    set (KVState.mk s.storage (some s.region))
    throw e

def getHandleMapByRange (storage : Storage) (range : RegionRange) : Region.HandleMap :=
  (storage.rows.filter fun row => range.containsPK row.pk).foldl (fun m row =>
    let element := (row.ts, decide (row.writeType = .delFlag))
    match m.lookup row.pk with
    | none => m.insert row.pk element
    | some old =>
      -- the greater of the two pairs
      if old.1 < element.1 ∨ (old.1 = element.1 ∧ old.2 = false) then m.insert row.pk element else m) ∅

def Storage.deleteRange (storage : Storage) (range : RegionRange) : Storage :=
  { storage with rows := storage.rows.filter fun row => !range.containsPK row.pk }

/-- The part of `tryApplySnapshot` that prepares the storage for the new region. -/
def cleanRange : ApplyM Region := do
  let s ← get
  match s.storage with
  | none => return newRegion
  | some storage =>
    match storage.tableInfo.engineType with
    | .tmt =>
      raise (if storage.tableInfo.isCommonHandle then some .clusteredIndexNotSupported else none)
      raise env.tableLock
      ofExcept (newRegion.compareAndCompleteSnapshot (getHandleMapByRange storage newRegion.info.range)
        env.safePoint)
    | .dt =>
      raise env.tableLock
      raise env.deleteRange
      set { s with storage := some (storage.deleteRange newRegion.info.range) }
      return newRegion
    | _ => throw .unknownStorageEngine

/-- The table of a region does not change. -/
def extendRegionRange : ApplyM Unit := raise (match env.previousTable with
    | some tableID =>
      if newRegion.info.tableID ≠ tableID then
        some (.tableIDNotMatch newRegion.info.tableID tableID newRegion.info.regionID)
      else none
    | none => none)

/-- `KVStore::onSnapshot`. Whatever the flush of the new region raises is dropped. -/
def onSnapshot (cache : Option RegionPreDecodeBlockData) :
    ApplyM Unit := do
  extendRegionRange env newRegion
  let s ← get
  let flushed : FlushState := match tryFlushRegion env.newFlush ⟨s.storage, newRegion, cache⟩ with
    | .ok _ flushed => flushed
    | .error _ flushed => flushed
  set { s with storage := flushed.storage }
  raise (if env.instanceChanged then some (.instanceChanged newRegion.info.regionID) else none)
  set (KVState.mk flushed.storage (some (match s.region with
    | some oldRegion => oldRegion.assignRegion flushed.region
    | none => flushed.region)))
  raise env.persist

/-- No other region may overlap. -/
def checkRangeOverlap : ApplyM Unit := raise ((env.overlapped.find? (· ≠ newRegion.info.regionID)).map
    (Exception.rangeOverlapped newRegion.info.regionID))

/-- The rest of `tryApplySnapshot` once the old region is dealt with. -/
def replaceRegion (cache : Option RegionPreDecodeBlockData) :
    ApplyM Unit := do
  checkRangeOverlap env newRegion
  let newRegion ← cleanRange env newRegion
  onSnapshot env newRegion cache

def tryApplySnapshot (cache : Option RegionPreDecodeBlockData) :
    ApplyM Unit := do
  match (← get).region with
  | none => replaceRegion env newRegion cache
  | some oldRegion =>
    if oldRegion.info.appliedIndex > newRegion.info.appliedIndex then
      throw (.newerIndex newRegion.info.regionID oldRegion.info.appliedIndex)
    else if oldRegion.info.appliedIndex = newRegion.info.appliedIndex then return
    else
      flushOldRegion env oldRegion
      replaceRegion env newRegion cache

def handleApplySnapshot (info : RegionMeta) (peerID : Nat) (snaps : List KV) :
    ApplyM Unit := do
  let newRegion ← ofExcept (genRegionPtr info peerID)
  let (newRegion, cache) ← preHandleSnapshot env newRegion snaps
  tryApplySnapshot env newRegion cache

end TiFlash.Transaction
