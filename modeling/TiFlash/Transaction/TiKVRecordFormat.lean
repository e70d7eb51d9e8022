import TiFlash.DM.RowKeyRange

/-!
# The format of TiKV keys

A stored key is the memory comparable encoding of the user's key, followed by the timestamp for the write
and the default column family. Groups of eight bytes are each followed by a marker that says how many are
padding; the first group with padding is the last one.
-/

namespace TiFlash.Transaction.RecordKVFormat

open TiFlash.DM

def encGroupSize : Nat := 8

def encMarker : Byte := 255

/-- One turn of the loop of `EncodeBytes`: at most eight bytes, the padding and the marker. -/
def encodeGroup (group : Bytes) : Bytes :=
  let pad := encGroupSize - group.length
  group ++ List.replicate pad 0 ++ [encMarker - Fin.ofNat 256 pad]

/-- The loop of `EncodeBytes` on what is behind `index`; `fullGroups` of the turns are without padding. -/
def encodeBytesFrom : (fullGroups : Nat) → (rest : Bytes) → Bytes
  | 0, rest => encodeGroup rest
  | fullGroups + 1, rest =>
    encodeGroup (rest.take encGroupSize) ++ encodeBytesFrom fullGroups (rest.drop encGroupSize)

/-- The loop runs while `index <= len`, so a key whose size is divisible by eight gets
one more group, of padding only. -/
def encodeBytes (oriStr : Bytes) : Bytes := encodeBytesFrom (oriStr.length / encGroupSize) oriStr

/-- `read<UInt64>`: eight bytes, the least significant one first. -/
def readUInt64 (s : Bytes) : Nat := s.foldr (fun b n => b.val + 256 * n) 0

/-- The padding is zero. -/
def checkKeyPaddingValid (group : Bytes) (padSize : Nat) : Bool :=
  readUInt64 group >>> ((encGroupSize - padSize) * 8) = 0

/-- The exceptions -/
inductive DecodeError where
  /-- "Unexpected eof" -/
  | unexpectedEof
  /-- "Key padding" -/
  | keyPadding
  /-- "Key padding, wrong end" -/
  | keyPaddingWrongEnd
  deriving DecidableEq, Repr

/-- A group and its marker -/
def chunkLen : Nat := encGroupSize + 1

/-- The pad size that the marker of the chunk at the front of `rest` tells. -/
def padSizeOf (rest : Bytes) : Nat := (encMarker - rest.getD encGroupSize 0).val

/-- As long as there is a whole chunk the check against the end of the key is not met, so the chunks in `rest`
bound the loop. -/
def decodeTiKVKeyFrom (res : Bytes) (offset : Nat) : (chunks : Nat) → (rest : Bytes) →
    Except DecodeError (Bytes × Nat)
  | 0, _ => .error .unexpectedEof
  | chunks + 1, rest =>
    let group := rest.take encGroupSize
    let padSize := padSizeOf rest
    if padSize = 0 then
      decodeTiKVKeyFrom (res ++ group) (offset + chunkLen) chunks (rest.drop chunkLen)
    else if padSize > encGroupSize then .error .keyPadding
    else if !checkKeyPaddingValid group padSize then .error .keyPaddingWrongEnd
    else .ok (res ++ group.take (encGroupSize - padSize), offset + chunkLen)

variable (key : Bytes)

/-- The user's key and the offset of what is behind its encoding. -/
def decodeTiKVKeyFull : Except DecodeError (Bytes × Nat) := decodeTiKVKeyFrom [] 0 (key.length / chunkLen) key

/-! ## Timestamps -/

/-- `Timestamp` -/
abbrev KeyTs := UInt64

/-- Later timestamps are smaller strings. -/
def encodeUInt64Desc (x : KeyTs) : Bytes := encodeUInt64 (~~~x).toNat

def appendTs (ts : KeyTs) : Bytes := key ++ encodeUInt64Desc ts

/-! ## Record keys -/

/-- `TableID`, an `Int64`. -/
abbrev TableID := HandleID

def rawKeyNoHandleSize : Nat := 1 + 8 + 2

def rawKeySize : Nat := rawKeyNoHandleSize + 8

/-- The prefix of the record keys of a table: `TABLE_PREFIX`, the table's id, `RECORD_PREFIX_SEP`. -/
def recordPrefix (tableId : TableID) : Bytes := [116] ++ encodeInt64 tableId ++ [95, 114]

def genRawKey (tableId : TableID) (handleId : HandleID) : Bytes := recordPrefix tableId ++ encodeInt64 handleId

end TiFlash.Transaction.RecordKVFormat
