import Mathlib.Data.UInt
import TiFlash.Transaction.RegionTable

/-!
# Splitting and merging the data of regions

The records of the write and the default column family are found by primary key and timestamp, those of the
lock column family by their whole key. A split moves the records whose stored key is in the new range, a
merge copies those of the source. Both keep the cached size up to date.
-/

namespace TiFlash.Transaction.RegionSplit

open TiFlash.DM TiFlash.Lib RecordKVFormat RegionTable List

/-! ## Records -/

/-- A record of the write column family; `prewriteTs` is the timestamp of its default record. -/
structure WriteRecord where
  userKey : Bytes
  ts : KeyTs
  prewriteTs : KeyTs
  value : Bytes
deriving DecidableEq

/-- A record of the default column family -/
structure DefaultRecord where
  userKey : Bytes
  ts : KeyTs
  value : Bytes
deriving DecidableEq

/-- A record of the lock column family -/
structure LockRecord where
  userKey : Bytes
  value : Bytes
deriving DecidableEq

/-- What is behind the encoded user key in the stored key, the key of the map and the size that is counted. -/
structure Trait (κ ρ : Type) where
  userKey : ρ → Bytes
  suffix : ρ → Bytes
  key : ρ → κ
  value : ρ → Bytes
  counted : Bool

namespace Trait

variable {κ ρ : Type}

/-- The key as it is stored -/
def tiKVKey (t : Trait κ ρ) (r : ρ) : Bytes := encodeBytes (t.userKey r) ++ t.suffix r

/-- `calcTiKVKeyValueSize`; locks are not counted. -/
def size (t : Trait κ ρ) (r : ρ) : UInt64 :=
  if t.counted then UInt64.ofNat ((t.tiKVKey r).length + (t.value r).length) else 0

end Trait

def getRawTiDBPK (userKey : Bytes) : Bytes := userKey.drop rawKeyNoHandleSize

/-- `RegionWriteCFDataTrait` -/
def writeTrait : Trait (Bytes × KeyTs) WriteRecord where
  userKey := (·.userKey)
  suffix r := encodeUInt64Desc r.ts
  key r := (getRawTiDBPK r.userKey, r.ts)
  value := (·.value)
  counted := true

/-- `RegionDefaultCFDataTrait` -/
def defaultTrait : Trait (Bytes × KeyTs) DefaultRecord where
  userKey := (·.userKey)
  suffix r := encodeUInt64Desc r.ts
  key r := (getRawTiDBPK r.userKey, r.ts)
  value := (·.value)
  counted := true

/-- `RegionLockCFDataTrait` -/
def lockTrait : Trait Bytes LockRecord where
  userKey := (·.userKey)
  suffix _ := []
  key r := encodeBytes r.userKey
  value := (·.value)
  counted := false

/-! ## `RegionCFDataBase` -/

/-- The map of a column family: records with distinct keys. -/
structure CFData {κ ρ : Type} (t : Trait κ ρ) where
  data : List ρ
  distinct : (data.map t.key).Nodup

namespace CFData

variable {κ ρ : Type} [DecidableEq κ] {t : Trait κ ρ}

/-- No records -/
def empty : CFData t := ⟨[], nodup_nil⟩

variable (cf : CFData t)

/-- A record has the key. -/
def hasKey (key : κ) : Bool := key ∈ cf.data.map t.key

/-- Without the record of the key -/
def erase (key : κ) : CFData t where
  data := cf.data.filter (t.key · ≠ key)
  distinct := cf.distinct.sublist (filter_sublist.map _)

/-- A record under a key that the map does not have. -/
def addNew (r : ρ) (h : ¬ cf.hasKey (t.key r) = true) : CFData t where
  data := cf.data ++ [r]
  distinct := by
    rw [map_append, map_singleton]
    refine nodup_append.2 ⟨cf.distinct, nodup_singleton _, ?_⟩
    rintro a ha b hb rfl
    rw [mem_singleton.1 hb] at ha
    exact h (decide_eq_true ha)

/-- `map.insert(...)`, which keeps a record that is there. -/
def insert (r : ρ) : CFData t :=
  if h : cf.hasKey (t.key r) = true then cf else cf.addNew r h

/-- One turn of the loop of `splitInto`: what stays, the new map and the size that moved. -/
def splitStep (range : RegionRangeKeys) (s : CFData t × CFData t × UInt64) (r : ρ) :
    CFData t × CFData t × UInt64 :=
  if range.comparableContains (t.tiKVKey r) then
    (s.1.erase (t.key r), s.2.1.insert r, s.2.2 + t.size r)
  else s

def splitInto (range : RegionRangeKeys) (new : CFData t) : CFData t × CFData t × UInt64 :=
  cf.data.foldl (splitStep range) (cf, new, 0)

/-- One turn of the loop of `mergeFrom`; `none` is the exception "got duplicate key". -/
def mergeStep (s : CFData t × UInt64) (r : ρ) : Option (CFData t × UInt64) :=
  if h : s.1.hasKey (t.key r) = true then none else some (s.1.addNew r h, s.2 + t.size r)

def mergeFrom (cf ori : CFData t) : Option (CFData t × UInt64) :=
  ori.data.foldlM mergeStep (cf, 0)

end CFData

/-! ## `RegionData` -/

/-- The column families and the cached size -/
structure RegionData where
  writeCF : CFData writeTrait
  defaultCF : CFData defaultTrait
  lockCF : CFData lockTrait
  cfDataSize : UInt64

namespace RegionData

def splitInto (data : RegionData) (range : RegionRangeKeys) : RegionData × RegionData :=
  let default := data.defaultCF.splitInto range .empty
  let write := data.writeCF.splitInto range .empty
  let lock := data.lockCF.splitInto range .empty
  let sizeChanged := default.2.2 + write.2.2 + lock.2.2
  (⟨write.1, default.1, lock.1, data.cfDataSize - sizeChanged⟩,
    ⟨write.2.1, default.2.1, lock.2.1, 0 + sizeChanged⟩)

def mergeFrom (data ori : RegionData) : Option RegionData := do
  let default ← data.defaultCF.mergeFrom ori.defaultCF
  let write ← data.writeCF.mergeFrom ori.writeCF
  let lock ← data.lockCF.mergeFrom ori.lockCF
  return ⟨write.1, default.1, lock.1, data.cfDataSize + (default.2 + write.2 + lock.2)⟩

end RegionData

/-! ## Regions -/

/-- Meta data and records -/
structure DataRegion where
  info : RegionTable.Region
  data : RegionData

/-- How a command fails -/
inductive CommandException where
  | ofMeta (e : RegionTable.Exception)
  /-- "got duplicate key" -/
  | duplicateKey
deriving DecidableEq

/-- An exception of the meta data -/
def liftMeta {α : Type} : Except RegionTable.Exception α → Except CommandException α
  | .ok a => .ok a
  | .error e => .error (.ofMeta e)

/-- `Region::splitInto` for each new region, from what the ones before have left. -/
def splitOff : RegionData → List RegionTable.Region → RegionData × List DataRegion
  | data, [] => (data, [])
  | data, new :: news =>
    let split := data.splitInto new.range
    let rest := splitOff split.1 news
    (rest.1, ⟨new, split.2⟩ :: rest.2)

/-- `RegionRaftCommandDelegate::execBatchSplit`: the region that keeps the id and the new ones. -/
def execBatchSplit (storeID : Nat) (region : DataRegion) (infos : List MetaRegion) (index : Nat) :
    Except CommandException (DataRegion × List DataRegion) := do
  let metas ← liftMeta (Store.execBatchSplit storeID region.info infos index)
  let split := splitOff region.data metas.2
  return (⟨metas.1, split.1⟩, split.2)

/-- The check of `extendRegionRange` in `execCommitMerge`, for a target that is registered under its table id
(`Store.Covered`). -/
def checkTable (target : RegionTable.Region) (range : RegionRangeKeys) :
    Except RegionTable.Exception Unit :=
  if range.mappedTableID ≠ target.mappedTableID then .error (.tableNotMatch target.id) else .ok ()

variable (target source : RegionTable.Region)

/-- The meta data of a merge -/
def mergeMeta (sourceInfo : MetaRegion) (left : Option MetaRegion)
    (index : Nat) : Except RegionTable.Exception RegionTable.Region := do
  let raw ← Store.checkBeforeCommitMerge target source sourceInfo
  let range ← rangeKeys raw
  checkTable target range
  Store.checkMerged (Store.mergedRegion target range sourceInfo index) sourceInfo.id left
  return Store.mergedRegion target range sourceInfo index

/-- The records of a merge -/
def mergeData (target source : RegionData) : Except CommandException RegionData :=
  match target.mergeFrom source with
  | none => .error .duplicateKey
  | some data => .ok data

/-- `RegionRaftCommandDelegate::execCommitMerge` with the source that is in the store. -/
def execCommitMerge (target source : DataRegion) (sourceInfo : MetaRegion) (left : Option MetaRegion)
    (index : Nat) : Except CommandException DataRegion := do
  let info ← liftMeta (mergeMeta target.info source.info sourceInfo left index)
  let data ← mergeData target.data source.data
  return ⟨info, data⟩

/-! ## What should hold -/

/-- The size of all records -/
def CFData.recordsSize {κ ρ : Type} {t : Trait κ ρ} (cf : CFData t) : UInt64 := (cf.data.map t.size).sum

variable (data : RegionData)

/-- The cached size is right. -/
def RegionData.SizeOk : Prop :=
  data.cfDataSize = data.defaultCF.recordsSize + data.writeCF.recordsSize + data.lockCF.recordsSize

/-- The records of a map whose user key is in a range. -/
def CFData.within {κ ρ : Type} {t : Trait κ ρ} (cf : CFData t) (range : RawRange) : List ρ :=
  cf.data.filter fun r => range.Mem (t.userKey r)

/-- All records are in the range. -/
def RegionData.In (range : RawRange) : Prop :=
  (∀ r ∈ data.writeCF.data, range.Mem r.userKey) ∧ (∀ r ∈ data.defaultCF.data, range.Mem r.userKey) ∧
    ∀ r ∈ data.lockCF.data, range.Mem r.userKey

/-- A region of a store: its records are in its range, and their size is known. -/
structure DataRegion.Ok (region : DataRegion) : Prop where
  inRange : region.data.In region.info.range.raw
  size : region.data.SizeOk

/-- The ranges of a batch split tile the range of the region. -/
structure Tiles (range : RawRange) (infos : List MetaRegion) : Prop where
  covers : ∀ key, range.Mem key ↔ ∃ info ∈ infos, info.range.Mem key
  disjoint : infos.Pairwise fun a b => a.range.Disjoint b.range

/-- A region of the split has exactly the records of the old region that are in its range. -/
structure HasShare (old part : DataRegion) : Prop where
  write : part.data.writeCF.data = old.data.writeCF.within part.info.range.raw
  default : part.data.defaultCF.data = old.data.defaultCF.within part.info.range.raw
  lock : part.data.lockCF.data = old.data.lockCF.within part.info.range.raw
  size : part.data.SizeOk

/-- Two records have one key. -/
def Collide {κ ρ : Type} {t : Trait κ ρ} (a b : CFData t) : Prop :=
  ∃ r ∈ a.data, ∃ r' ∈ b.data, t.key r = t.key r'

/-- The regions of a split: each has its share, and every record is in exactly one of them. -/
structure Partitioned (old : DataRegion) (parts : List DataRegion) : Prop where
  shares : ∀ part ∈ parts, HasShare old part
  write : ∀ r ∈ old.data.writeCF.data, parts.countP (fun part => r ∈ part.data.writeCF.data) = 1
  default : ∀ r ∈ old.data.defaultCF.data, parts.countP (fun part => r ∈ part.data.defaultCF.data) = 1
  lock : ∀ r ∈ old.data.lockCF.data, parts.countP (fun part => r ∈ part.data.lockCF.data) = 1
  /-- A write record and its default record stay together. -/
  together : ∀ part ∈ parts, ∀ r ∈ part.data.writeCF.data, ∀ d ∈ old.data.defaultCF.data,
    d.userKey = r.userKey → d.ts = r.prewriteTs → d ∈ part.data.defaultCF.data

/-- The result of a merge: the records and the ranges of both regions. -/
structure United (target source merged : DataRegion) : Prop where
  write : merged.data.writeCF.data = target.data.writeCF.data ++ source.data.writeCF.data
  default : merged.data.defaultCF.data = target.data.defaultCF.data ++ source.data.defaultCF.data
  lock : merged.data.lockCF.data = target.data.lockCF.data ++ source.data.lockCF.data
  size : merged.data.cfDataSize = target.data.cfDataSize + source.data.cfDataSize
  range : ∀ key, merged.info.range.raw.Mem key ↔
    target.info.range.raw.Mem key ∨ source.info.range.raw.Mem key
  version : merged.info.version = max source.info.version target.info.version + 1
  ok : merged.Ok

/-- The source ends where the target starts. -/
def AtLeft : Prop := source.range.raw.stop = target.range.raw.start

instance : Decidable (AtLeft target source) := inferInstanceAs (Decidable (_ = _))

/-- The region with which the merged range starts. -/
def leftPart : RegionTable.Region := if AtLeft target source then source else target

/-- One of the two regions ends where the other starts. -/
def Adjacent : Prop :=
  AtLeft target source ∨ target.range.raw.stop = source.range.raw.start

/-- The command is one of this region: it has exactly one region with its id, and a peer on this store
in each of the others. -/
structure SplitOf (storeID : Nat) (region : RegionTable.Region) (infos : List MetaRegion) : Prop where
  derived : ∃ info, infos.filter (·.id = region.id) = [info]
  peers : ∀ info ∈ infos, info.id ≠ region.id → storeID ∈ info.peers

/-- All records are of the table with these first bytes of a key. -/
def RegionData.InTable (tablePrefix : Bytes) : Prop :=
  (∀ r ∈ data.writeCF.data, r.userKey.take rawKeyNoHandleSize = tablePrefix) ∧
    ∀ r ∈ data.defaultCF.data, r.userKey.take rawKeyNoHandleSize = tablePrefix

end TiFlash.Transaction.RegionSplit
