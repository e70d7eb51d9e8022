import TiFlash.Lib.HashMap

/-!
# The data a region keeps in memory (`RegionData`)

Pairs of three column families: write holds the commit records, by row key and commit timestamp; default the
values too long for the commit record, by row key and prewrite timestamp; lock the locks of unfinished
transactions.

A committed row is read by its write record (`readDataByWriteIt`) and leaves memory together with its value
in the default column family (`removeDataByWriteIt`).
-/

namespace TiFlash.Transaction

open TiFlash.Lib

abbrev Timestamp := Nat

/-- The raw primary key of a row, by its place in the order of the encoded keys. -/
abbrev RawTiDBPK := Nat

/-- Values, by their number -/
abbrev Value := Nat

/-- A TiKV key, decoded: the encoded row key followed by the timestamp, complemented. -/
structure TiKVKey where
  pk : RawTiDBPK
  ts : Timestamp
deriving DecidableEq, Repr

/-- The order of the encoded keys: newer versions of a row come first. -/
def TiKVKey.lt (a b : TiKVKey) : Bool := a.pk < b.pk || (a.pk == b.pk && b.ts < a.ts)

/-- The type byte of a write record; only the first two are `CFModifyFlag`s. -/
inductive WriteType where
  | putFlag
  | delFlag
  | lockFlag
  | rollbackFlag
deriving DecidableEq, Repr

/-- `CFModifyFlag` -/
inductive CFModifyFlag where
  | putFlag
  | delFlag
deriving DecidableEq, Repr

/-- A write record, as raft sends it -/
structure WriteCFValue where
  writeType : WriteType
  prewriteTs : Timestamp
  shortValue : Option Value
  gcFence : Bool
deriving DecidableEq, Repr

/-- `InnerDecodedWriteCFValue` -/
structure DecodedWriteCFValue where
  writeType : CFModifyFlag
  prewriteTs : Timestamp
  shortValue : Option Value
deriving DecidableEq, Repr

/-- Locks, rollbacks and records rewritten under a GC fence are not decoded. -/
def decodeWriteCfValue (value : WriteCFValue) : Option DecodedWriteCFValue :=
  let decoded (writeType : CFModifyFlag) : Option DecodedWriteCFValue :=
    if value.gcFence then none else some ⟨writeType, value.prewriteTs, value.shortValue⟩
  match value.writeType with
  | .putFlag => decoded .putFlag
  | .delFlag => decoded .delFlag
  | .lockFlag => none
  | .rollbackFlag => none

/-- `kvrpcpb::Op` of a lock. -/
inductive LockType where
  | put
  | del
  | lock
  | pessimisticLock
deriving DecidableEq, Repr

/-- `DecodedLockCFValue` -/
structure LockCFValue where
  lockVersion : Timestamp
  lockType : LockType
  minCommitTs : Timestamp
deriving DecidableEq, Repr

/-- `ColumnFamilyType` -/
inductive ColumnFamilyType where
  | write
  | default
  | lock
deriving DecidableEq, Repr

/-- A record of one of the column families -/
inductive KV where
  | write (key : TiKVKey) (value : WriteCFValue)
  | default (key : TiKVKey) (value : Value)
  | lock (key : TiKVKey) (value : LockCFValue)
deriving DecidableEq, Repr

/-- The column family -/
def KV.cf : KV → ColumnFamilyType
  | write _ _ => .write
  | default _ _ => .default
  | lock _ _ => .lock

/-- The exceptions the modelled functions raise, and those (`raised`) that come from outside. -/
inductive Exception where
  /-- "Found existing key in hex: …" -/
  | foundExistingKey (key : TiKVKey)
  /-- "got short value under DelFlag" -/
  | shortValueUnderDelFlag (key : TiKVKey)
  /-- "got duplicate key" -/
  | duplicateKey (key : TiKVKey)
  /-- "Raw TiDB PK: …, Prewrite ts: … can not found in default cf for key: …" -/
  | notFoundInDefaultCF (pk : RawTiDBPK) (prewriteTs : Timestamp)
  /-- "execute normal raft cmd at index … under state Tombstone, should not happen" -/
  | tombstoneState (index : Nat)
  /-- "region … already has newer index …, should not happen" -/
  | newerIndex (regionID : Nat) (index : Nat)
  /-- "range of region … is overlapped with region …, should not happen" -/
  | rangeOverlapped (regionID other : Nat)
  /-- "region … instance changed, should not happen" -/
  | instanceChanged (regionID : Nat)
  /-- "peer … not found" -/
  | peerNotFound (peerID : Nat)
  /-- "Pre-decode … cache to table … block failed" -/
  | preDecodeFailed (tableID : Nat)
  /-- "Write region … to table … failed" -/
  | writeRegionFailed (regionID tableID : Nat)
  /-- "original ts >= gc safe point", raised for a differing write type as well -/
  | originalTsNotBelowSafePoint
  /-- "TMT table does not support clustered index" -/
  | clusteredIndexNotSupported
  /-- "Unknown StorageEngine: …" -/
  | unknownStorageEngine
  /-- "table id … not match previous one … in regions …" -/
  | tableIDNotMatch (tableID previous regionID : Nat)
  /-- `LockException` -/
  | lockException (regionID : Nat)
  /-- "Should not happen, region not belong to table: …" -/
  | regionNotOfTable (mapped expected : Nat)
  /-- "got no new region" -/
  | noNewRegion
  /-- "duplicate region index" -/
  | duplicateRegionIndex
  /-- "region index not found" -/
  | regionIndexNotFound
  /-- "region not found" -/
  | regionNotFound (regionID : Nat)
  /-- "unexpected state of source region: …" -/
  | unexpectedSourceState (regionID : Nat)
  /-- "source_region not match exist region" -/
  | sourceRegionNotMatch (regionID : Nat)
  | raised (code : Nat)
deriving DecidableEq, Repr

/-- `RegionWriteCFDataTrait::Value`; the key of the entry is the TiKV key. -/
structure WriteCFEntry where
  value : WriteCFValue
  decoded : DecodedWriteCFValue
deriving DecidableEq, Repr

/-- The three column families -/
structure RegionData where
  writeCF : HashMap TiKVKey WriteCFEntry
  defaultCF : HashMap TiKVKey Value
  lockCF : HashMap TiKVKey LockCFValue
deriving DecidableEq

/-- Row key, write type, commit timestamp and the value of a Put. -/
structure RegionDataReadInfo where
  pk : RawTiDBPK
  writeType : CFModifyFlag
  ts : Timestamp
  value : Option Value
deriving DecidableEq, Repr

/-- Primary key and timestamp -/
def RegionDataReadInfo.key (row : RegionDataReadInfo) : TiKVKey := ⟨row.pk, row.ts⟩

namespace RegionData

/-- No records -/
def empty : RegionData := ⟨∅, ∅, ∅⟩

variable (data : RegionData) (key : TiKVKey)

/-- `finishInsert` of the write column family: a Put without a short value takes the value that the
default column family has for it. -/
def finishInsert (decoded : DecodedWriteCFValue) :
    Except Exception DecodedWriteCFValue :=
  match decoded.writeType, decoded.shortValue with
  | .putFlag, some _ => .ok decoded
  | .putFlag, none => .ok { decoded with shortValue := data.defaultCF.lookup ⟨key.pk, decoded.prewriteTs⟩ }
  | .delFlag, some _ => .error (.shortValueUnderDelFlag key)
  | .delFlag, none => .ok decoded

def insert : KV → Except Exception RegionData
  | .write key value =>
    match decodeWriteCfValue value with
    | none => .ok data
    | some decoded =>
      if key ∈ data.writeCF then .error (.foundExistingKey key)
      else do
        let decoded ← data.finishInsert key decoded
        return { data with writeCF := data.writeCF.insert key ⟨value, decoded⟩ }
  | .default key value =>
    if key ∈ data.defaultCF then .error (.foundExistingKey key)
    else .ok { data with defaultCF := data.defaultCF.insert key value }
  | .lock key value => .ok { data with lockCF := data.lockCF.insert key value }

/-- `shouldIgnoreRemove` of the write column family. -/
def shouldIgnoreRemove (entry : WriteCFEntry) : Bool := entry.decoded.writeType = .delFlag

/-- `RegionData::remove`: the keys may not exist, they are removed by gc. -/
def remove : ColumnFamilyType → TiKVKey → RegionData
  | .write, key =>
    match data.writeCF.lookup key with
    | some entry =>
      if shouldIgnoreRemove entry then data else { data with writeCF := data.writeCF.erase key }
    | none => data
  | .default, key => { data with defaultCF := data.defaultCF.erase key }
  | .lock, key => { data with lockCF := data.lockCF.erase key }

def removeDataByWriteIt (entry : WriteCFEntry) : RegionData := { data with
    defaultCF := if entry.decoded.writeType = .putFlag
      then data.defaultCF.erase ⟨key.pk, entry.decoded.prewriteTs⟩ else data.defaultCF
    writeCF := data.writeCF.erase key }

def readDataByWriteIt (entry : WriteCFEntry) (needValue : Bool) :
    Except Exception RegionDataReadInfo :=
  if !needValue then .ok ⟨key.pk, entry.decoded.writeType, key.ts, none⟩
  else if entry.decoded.writeType ≠ .putFlag then .ok ⟨key.pk, entry.decoded.writeType, key.ts, none⟩
  else
    match entry.decoded.shortValue with
    | some value => .ok ⟨key.pk, entry.decoded.writeType, key.ts, some value⟩
    | none =>
      match data.defaultCF.lookup ⟨key.pk, entry.decoded.prewriteTs⟩ with
      | some value => .ok ⟨key.pk, entry.decoded.writeType, key.ts, some value⟩
      | none => .error (.notFoundInDefaultCF key.pk entry.decoded.prewriteTs)

/-- What a `CommittedScanner` returns, record by record. -/
def scan (needValue : Bool) : Except Exception (List RegionDataReadInfo) :=
  data.writeCF.entries.mapM fun e => data.readDataByWriteIt e.1 e.2 needValue

def removeCommitted : RegionData :=
  match data.writeCF.lookup key with
  | some entry => data.removeDataByWriteIt key entry
  | none => data

/-- All rows of a flush -/
def removeCommitCache (dataListRead : List RegionDataReadInfo) : RegionData :=
  dataListRead.foldl (fun data row => data.removeCommitted row.key) data

/-- The first lock that a read at `readTso` has to wait for. -/
def getLockInfo (readTso : Timestamp) (bypassLockTs : List Timestamp) :
    Option LockCFValue :=
  (data.lockCF.entries.map (·.2)).find? fun lockInfo =>
    !(lockInfo.lockVersion > readTso || lockInfo.lockType = .lock || lockInfo.lockType = .pessimisticLock)
      && !(lockInfo.minCommitTs > readTso) && !(lockInfo.lockVersion ∈ bypassLockTs)

/-- The row of a record whose value is at hand. -/
def rowOf (entry : WriteCFEntry) : RegionDataReadInfo := ⟨key.pk, entry.decoded.writeType, key.ts,
    if entry.decoded.writeType = .putFlag then entry.decoded.shortValue else none⟩

/-- The rows of all records in memory -/
def rows : List RegionDataReadInfo := data.writeCF.entries.map fun e => rowOf e.1 e.2

/-- The row that a write record commits: the value of a Put stands in the record or was written to the
default column family before. -/
def recordRow (record : DecodedWriteCFValue) : RegionDataReadInfo := ⟨key.pk, record.writeType, key.ts,
    if record.writeType = .putFlag then
      record.shortValue.or (data.defaultCF.lookup ⟨key.pk, record.prewriteTs⟩) else none⟩

/-- The row that a pair commits, if it is the record of a Put or a delete -/
def committedRow : KV → Option RegionDataReadInfo
  | .write key value => (decodeWriteCfValue value).map (data.recordRow key)
  | _ => none

/-- The row is a record of the write column family together with its value. -/
def Holds (row : RegionDataReadInfo) : Prop :=
  ∃ entry, data.writeCF.lookup row.key = some entry ∧ data.readDataByWriteIt row.key entry true = .ok row

end RegionData

/-- What the pairs `kvs` commit: a delete record, or a Put record with the value that stands in it or in
the default column family. -/
def Committed (kvs : List KV) (row : RegionDataReadInfo) : Prop :=
  ∃ value decoded, KV.write row.key value ∈ kvs ∧ decodeWriteCfValue value = some decoded ∧
    row.writeType = decoded.writeType ∧
    match decoded.writeType with
    | .delFlag => row.value = none
    | .putFlag => ∃ v, row.value = some v ∧ (decoded.shortValue = some v ∨
        decoded.shortValue = none ∧ KV.default ⟨row.pk, decoded.prewriteTs⟩ v ∈ kvs)

end TiFlash.Transaction
