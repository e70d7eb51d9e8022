import TiFlash.Transaction.Region
import TiFlash.Transaction.TiKVRange

/-!
# The range of a region

A region is a range of raw keys, stored as their encodings. An empty end is behind all keys. A region
belongs to the table its first key is a record key of.
-/

namespace TiFlash.Transaction

open TiFlash.DM

/-- The table of a record key -/
def computeMappedTableID (key : Bytes) : Option RecordKVFormat.TableID :=
  if RecordKVFormat.rawKeyNoHandleSize ≤ key.length ∧ key.head? = some 116 ∧
      (key.drop 9).take 2 = [95, 114] then
    some (TiKVRange.handleOfBytes (key.drop 1))
  else none

/-- Keys from `start` on and before `stop` -/
structure RawRange where
  start : Bytes
  stop : Bytes
deriving DecidableEq, Repr

namespace RawRange

/-- The keys of a range; an empty end is behind all keys. -/
def Mem (range : RawRange) (key : Bytes) : Prop := range.start ≤ key ∧ (range.stop = [] ∨ key < range.stop)

instance (range : RawRange) (key : Bytes) : Decidable (range.Mem key) := by
  unfold Mem
  infer_instance

/-- As sets of keys -/
def Contains (outer inner : RawRange) : Prop := ∀ key, inner.Mem key → outer.Mem key

/-- No key is in both. -/
def Disjoint (a b : RawRange) : Prop := ∀ key, ¬ (a.Mem key ∧ b.Mem key)

end RawRange

/-- Its constructor raises an exception for a range that starts in no table or has
no keys. -/
structure RegionRangeKeys where
  raw : RawRange
  mappedTableID : RecordKVFormat.TableID
  mapped : computeMappedTableID raw.start = some mappedTableID
  ordered : raw.stop = [] ∨ raw.start < raw.stop
deriving DecidableEq

namespace RegionRangeKeys

/-- The constructor; `none` is the exception "Illegal region range, should not happen". -/
def ofRaw? (raw : RawRange) : Option RegionRangeKeys :=
  match hmapped : computeMappedTableID raw.start with
  | none => none
  | some tableID =>
    if hordered : raw.stop = [] ∨ raw.start < raw.stop then some ⟨raw, tableID, hmapped, hordered⟩
    else none

variable (range : RegionRangeKeys)

/-- The encoded start -/
def startKey : Bytes := RecordKVFormat.encodeBytes range.raw.start

/-- The end as it is stored; the end that is behind all keys is empty. -/
def endKey : Bytes :=
  if range.raw.stop = [] then [] else RecordKVFormat.encodeBytes range.raw.stop

/-- `start_key.compare(key) <= 0 && end_key.compare(key) > 0` on a stored key. -/
def comparableContains (key : Bytes) : Bool :=
  range.startKey ≤ key && (range.endKey = [] || key < range.endKey)

/-- The encoded ranges overlap. -/
def overlaps (a b : RegionRangeKeys) : Bool :=
  (a.endKey = [] || b.startKey < a.endKey) && (b.endKey = [] || a.startKey < b.endKey)

end RegionRangeKeys

end TiFlash.Transaction
