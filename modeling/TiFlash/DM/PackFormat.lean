import TiFlash.DM.RowKeyRange

/-!
# The bytes of a meta page

`serializeSavedPacks` and `deserializePacks` down to the bytes, with ranges of either kind of handle. A schema
is a pointer to a block of columns; reading creates new blocks.
-/

namespace TiFlash.DM.PackFormat

open TiFlash.Lib

/-- A range with its `is_common_handle` -/
abbrev Range := (c : Bool) × RowKeyRange c

/-- An empty delete range -/
def Range.none (r : Range) : Bool := r.2.none

/-- A column of a schema -/
structure Column (T : Type) where
  columnId : Int64
  name : Bytes
  type : T

/-- `schema` is a pointer. -/
structure Pack where
  rows : UInt64
  bytes : UInt64
  schema : Option Nat
  deleteRange : Range
  dataPage : UInt64
  saved : Bool

/-- A pack that was read -/
structure RestoredPack (T : Type) where
  rows : UInt64
  bytes : UInt64
  schema : Option (List (Column T))
  deleteRange : Range
  dataPage : UInt64

def currentVersion : Nat := 2

/-- `DEFAULT_MAX_STRING_SIZE` -/
def maxStringSize : Nat := 0x00FFFFFF

/-- The size and the bytes -/
def writeStringBinary (s : Bytes) : Bytes := writeVarUInt 9 s.length ++ s

def readStringBinary : Reader Bytes := do
  let size ← readVarUInt 9
  if maxStringSize < size then failure else readStrict size

/-- `readIntBinary` of a `UInt64` -/
def readUInt64 : Reader UInt64 := UInt64.ofNat <$> readLE 8

/-- `readIntBinary` of an `Int64` -/
def readInt64 : Reader Int64 := UInt64.toInt64 <$> readUInt64

def Range.serialize (r : Range) : Bytes :=
  -- the characters of `writeBoolText`
  [if r.1 then 49 else 48] ++ (writeLE 8 r.2.rowkeyColumnSize ++
    (writeStringBinary r.2.start.value ++ writeStringBinary r.2.stop.value))

/-- The constructor of `RowKeyValue` from a string: an integer handle is decoded. -/
def rowKeyValue : (c : Bool) → Bytes → Option (RowKeyValue c)
  | true, value => some (.common value)
  | false, value =>
    match h : decodeInt64 value with
    | .none => .none
    | some v => if hv : _ then some (.int value ⟨v, hv⟩ h) else .none

def Range.deserialize : Reader Range := do
  let flag ← readByte
  let n ← readLE 8
  let start ← readStringBinary
  let stop ← readStringBinary
  let c := flag ≠ 48
  let start ← StateT.lift (rowKeyValue c start)
  let stop ← StateT.lift (rowKeyValue c stop)
  pure ⟨c, start, stop, n⟩

def fromHandleRange (start stop : HandleID) : Range :=
  if start = intHandleMin ∧ stop = intHandleMax then ⟨false, .newAll false 1⟩
  else ⟨false, .ofKey (.int start), if stop = intHandleMax then .intHandleMaxKey else .ofKey (.int stop), 1⟩

/-- A `HandleRange`, which version 1 has instead -/
def readHandleRange : Reader Range := do
  let start ← readInt64
  let stop ← readInt64
  pure (fromHandleRange ⟨start.toInt, start.le_toInt, start.toInt_lt⟩
    ⟨stop.toInt, stop.le_toInt, stop.toInt_lt⟩)

section Packs

-- The blocks that the schemas point to, `getName` of a data type and the data type factory
variable {T : Type} (blocks : Nat → List (Column T)) (getName : T → Bytes) (factory : Bytes → Option T)

/-- One column of the schema -/
def Column.serialize (col : Column T) : Bytes :=
  writeLE 8 col.columnId.toUInt64.toNat ++ (writeStringBinary col.name ++ writeStringBinary (getName col.type))

def Column.deserialize : Reader (Column T) := do
  let columnId ← readInt64
  let name ← readStringBinary
  let typeName ← readStringBinary
  let type ← StateT.lift (factory typeName)
  pure ⟨columnId, name, type⟩

/-- The bytes of a pack -/
def serializePack (pack : Pack) (schema : Option Nat) : Bytes :=
  writeLE 8 pack.rows.toNat ++ (writeLE 8 pack.bytes.toNat ++ (pack.deleteRange.serialize ++
    (writeLE 8 pack.dataPage.toNat ++ match schema with
      | some ptr => writeLE 4 (blocks ptr).length ++ (blocks ptr).flatMap (Column.serialize getName)
      | none => writeLE 4 0)))

def deserializePack (version : Nat) : Reader (RestoredPack T) := do
  let rows ← readUInt64
  let bytes ← readUInt64
  let range ← if version = 1 then readHandleRange else Range.deserialize
  let dataPage ← readUInt64
  let columnSize ← readLE 4
  if columnSize = 0 then pure ⟨rows, bytes, none, range, dataPage⟩
  else do
    let columns ← readMany (Column.deserialize factory) columnSize
    pure ⟨rows, bytes, some columns, range, dataPage⟩

/-- The loop of `serializeSavedPacks`; none is the exception for a data pack without schema. -/
def serializePacks (lastSchema : Option Nat) : List Pack → Option Bytes
  | [] => some []
  | pack :: packs =>
    if !pack.saved then some []
    else if !pack.deleteRange.none then
      (serializePack blocks getName pack none ++ ·) <$> serializePacks lastSchema packs
    else if pack.schema = none then none
    else if pack.schema ≠ lastSchema then
      (serializePack blocks getName pack pack.schema ++ ·) <$> serializePacks pack.schema packs
    else (serializePack blocks getName pack none ++ ·) <$> serializePacks lastSchema packs

/-- The page of the saved packs -/
def serializeSavedPacks (packs : List Pack) : Option Bytes :=
  ((writeLE 8 currentVersion ++ writeLE 8 (packs.takeWhile Pack.saved).length) ++ ·) <$>
    serializePacks blocks getName none packs

/-- A data pack without a schema gets the last one, and `setSchema` follows the pointer. -/
def setLastSchema (lastSchema : Option (List (Column T))) (pack : RestoredPack T) :
    Option (RestoredPack T × Option (List (Column T))) :=
  if !pack.deleteRange.none then some (pack, lastSchema)
  else
    match pack.schema, lastSchema with
    | some schema, _ => some (pack, some schema)
    | none, some schema => some ({ pack with schema := some schema }, some schema)
    | none, none => none

/-- The loop of `deserializePacks` -/
def deserializeLoop (version : Nat) (lastSchema : Option (List (Column T))) :
    Nat → Reader (List (RestoredPack T))
  | 0 => pure []
  | n + 1 => do
    let pack ← deserializePack factory version
    let (pack, lastSchema) ← StateT.lift (setLastSchema lastSchema pack)
    (pack :: ·) <$> deserializeLoop version lastSchema n

/-- All packs of a page -/
def deserializePacks : Reader (List (RestoredPack T)) := do
  let version ← readLE 8
  if currentVersion < version then failure
  else do
    let size ← readLE 8
    deserializeLoop factory version none size

end Packs

end TiFlash.DM.PackFormat
