import TiFlash.Transaction.Region

/-!
# Flushing a region into its table (`writeRegionDataToStorage`, `RegionTable::tryFlushRegion`)

The committed rows of a region are decoded under the schema of the table and written to its storage; only
then they leave the region. Rows decoded beforehand come with the region as a cache. What other threads, the
schema syncer or the storage engine do is an argument (`FlushEnv`), exceptions included.
-/

namespace TiFlash.Transaction

/-- `TiDB::StorageEngine` -/
inductive StorageEngine where
  | unspecified
  | tmt
  | dt
  | debuggingMemory
deriving DecidableEq, Repr

/-- The table as its schema has it -/
structure TableInfo where
  engineType : StorageEngine
  isCommonHandle : Bool
  schemaVersion : Int
deriving DecidableEq, Repr

/-- The table in the storage -/
structure Storage where
  tableInfo : TableInfo
  isTombstone : Bool
  rows : List RegionDataReadInfo
deriving DecidableEq, Repr

/-- What `syncSchemas` comes to: it raises an exception, or it learns what TiDB knows of the table. -/
inductive SchemaSync where
  | failed (e : Exception)
  | synced (table : Option TableInfo)
deriving DecidableEq, Repr

/-- Creates, alters, recovers or drops the storage. -/
def SchemaSync.syncSchemas : SchemaSync → Option Storage → Except Exception (Option Storage)
  | failed e, _ => .error e
  | synced none, storage => .ok (storage.map fun s => { s with isTombstone := true })
  | synced (some table), none => .ok (some ⟨table, false, []⟩)
  | synced (some table), some s => .ok (some { s with
      tableInfo := { s.tableInfo with schemaVersion := table.schemaVersion }, isTombstone := false })

def defaultUnspecifiedSchemaVersion : Int := -1

/-- Rows that are decoded ahead -/
structure RegionPreDecodeBlockData where
  block : List RegionDataReadInfo
  schemaVersion : Int
  dataListRead : List RegionDataReadInfo
deriving DecidableEq, Repr

/-- What happens around one call of `atomicReadWrite` or `atomicDecode`. -/
structure AttemptEnv where
  /-- An exception of `lockStructure`. -/
  lockStructure : Option Exception
  /-- `readRegionBlock`: an exception, or whether the rows fit the schema. -/
  readRegionBlock : Except Exception Bool
  /-- An exception of the storage engine, and how many rows it has written by then. -/
  write : Option (Nat × Exception)
deriving DecidableEq

/-- What the surroundings answer -/
structure FlushEnv where
  /-- Whether the region table has an internal region of the id. -/
  internalRegion : Bool
  /-- Whether another flush of the id is running. -/
  pauseFlush : Bool
  first : AttemptEnv
  sync : SchemaSync
  second : AttemptEnv
deriving DecidableEq

/-- What a flush works on: the storage of the table, the region and its pre-decoded block. -/
structure FlushState where
  storage : Option Storage
  region : Region
  preDecodeCache : Option RegionPreDecodeBlockData
deriving DecidableEq

abbrev FlushM := EStateM Exception FlushState

/-- An exception if there is one -/
def raise {σ : Type} : Option Exception → EStateM Exception σ Unit
  | none => pure ()
  | some e => throw e

/-- Raises what an `Except` raises. -/
def ofExcept {σ α : Type} : Except Exception α → EStateM Exception σ α
  | .ok a => pure a
  | .error e => throw e

/-- Writes rows. -/
def Storage.append (storage : Storage) (rows : List RegionDataReadInfo) : Storage :=
  { storage with rows := storage.rows ++ rows }

/-- Writes a block into the storage; with an exception only a part of it may have arrived. -/
def writeBlock (storage : Storage) (write : Option (Nat × Exception)) (block : List RegionDataReadInfo) :
    FlushM Unit :=
  if storage.tableInfo.engineType = .unspecified then throw .unknownStorageEngine
  else
    match write with
    | none => modify fun s => { s with storage := some (storage.append block) }
    | some (n, e) => do
      modify fun s => { s with storage := some (storage.append (block.take n)) }
      throw e

variable (cache : Option RegionPreDecodeBlockData)

/-- The block of the cache, if it was decoded under this schema version. -/
def cachedBlock (schemaVersion : Int) :
    Option (List RegionDataReadInfo) :=
  match cache with
  | some cache => if cache.schemaVersion = schemaVersion then some cache.block else none
  | none => none

/-- The block leaves the cache: it is moved out, or cleared when the schema version differs. -/
def clearBlock : Option RegionPreDecodeBlockData := cache.map fun cache => { cache with block := [] }

/-- `atomicReadWrite`, the lambda of `writeRegionDataToStorage`. -/
def atomicReadWrite (env : AttemptEnv) (dataListRead : List RegionDataReadInfo) (forceDecode : Bool) :
    FlushM Bool := do
  let s ← get
  match s.storage with
  | none => return forceDecode
  | some storage =>
    if storage.isTombstone then return forceDecode
    else
      raise env.lockStructure
      set { s with preDecodeCache := clearBlock s.preDecodeCache }
      match cachedBlock s.preDecodeCache storage.tableInfo.schemaVersion with
      | some block =>
        writeBlock storage env.write block
        return true
      | none =>
        if ← ofExcept env.readRegionBlock then
          writeBlock storage env.write dataListRead
          return true
        else return false

variable (env : FlushEnv)

def writeRegionDataToStorage (dataListRead : List RegionDataReadInfo) : FlushM Unit := do
  if ← atomicReadWrite env.first dataListRead false then return
  else
    let s ← get
    let storage ← ofExcept (env.sync.syncSchemas s.storage)
    set { s with storage := storage }
    if ← atomicReadWrite env.second dataListRead true then return
    else throw (.writeRegionFailed s.region.info.regionID s.region.info.tableID)

/-- The rows `writeBlockByRegion` works on: those of the cache, or those of the region. -/
def rowsToWrite : FlushM (Option (List RegionDataReadInfo)) := do
  let s ← get
  match s.preDecodeCache with
  | some cache =>
    set { s with preDecodeCache := some { cache with dataListRead := [] } }
    return some cache.dataListRead
  | none => ofExcept s.region.readRegionCommitCache

def writeBlockByRegion : FlushM Unit := do
  match ← rowsToWrite with
  | none => return
  | some dataListRead =>
    writeRegionDataToStorage env dataListRead
    modify fun s => { s with region := s.region.removeRegionCommitCache dataListRead }

/-- `RegionTable::tryFlushRegion`: gives up when the internal region is gone or its flush is paused. -/
def tryFlushRegion : FlushM Unit :=
  if !env.internalRegion then return
  else if env.pauseFlush then return
  else writeBlockByRegion env

end TiFlash.Transaction
