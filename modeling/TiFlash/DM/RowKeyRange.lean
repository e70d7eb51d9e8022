import TiFlash.DM.RoughSet

/-!
# Row keys and row key ranges

A table has an integer handle or a common handle (an encoded string). The end of a range keeps an integer
handle with its encoding, because "+infinity", the key behind the largest handle, has no integer of its own.

Which it is is an index of the types, so comparisons that the code rejects cannot be written down.
-/

namespace TiFlash.DM

open List

/-! ## Integer handles -/

abbrev HandleID := { v : Int // -(2 ^ 63) ≤ v ∧ v < 2 ^ 63 }

instance (n : Nat) : OfNat HandleID n := ⟨(n : Int) % 2 ^ 63, by omega⟩

/-- `std::numeric_limits<HandleID>::min()` -/
def intHandleMin : HandleID := ⟨-(2 ^ 63), by decide⟩

/-- `std::numeric_limits<HandleID>::max()` -/
def intHandleMax : HandleID := ⟨2 ^ 63 - 1, by decide⟩

variable (v : HandleID)

theorem le_intHandleMax : v ≤ intHandleMax := Subtype.coe_le_coe.1 (Int.le_sub_one_of_lt v.2.2)

/-- Eight bytes, the most significant one first. -/
def encodeUInt64 (n : Nat) : Bytes :=
  [56, 48, 40, 32, 24, 16, 8, 0].map fun shift => Fin.ofNat 256 (n / 2 ^ shift)

/-- With the sign bit flipped the bytes are in the order of the numbers. -/
def encodeInt64 : Bytes := encodeUInt64 (v.val + 2 ^ 63).toNat

/-- Reads eight bytes. -/
def decodeInt64 (s : Bytes) : Option Int :=
  if s.length < 8 then none
  else some (((s.take 8).foldl (fun n b => n * 256 + b.val) 0 : Nat) - 2 ^ 63)

theorem decodeInt64_encodeInt64 : decodeInt64 (encodeInt64 v) = some v.val := by
  obtain ⟨v, hlo, hhi⟩ := v
  have hn : ((v + 2 ^ 63).toNat : Int) = v + 2 ^ 63 := Int.toNat_of_nonneg (by omega)
  have hlt : (v + 2 ^ 63).toNat < 2 ^ 64 := by omega
  generalize hm : (v + 2 ^ 63).toNat = n at hn hlt
  simp only [decodeInt64, encodeInt64, encodeUInt64, hm, map_cons, map_nil, length_cons,
    length_nil, take, foldl, Fin.val_ofNat]
  norm_num
  omega

/-! ## Keys -/

/-- `memcmp` on two pieces of one length. -/
def memcmp (a b : Bytes) : Int := if a < b then -1 else if b < a then 1 else 0

def compareBytes (a b : Bytes) : Int :=
  let size := min a.length b.length
  let res := memcmp (a.take size) (b.take size)
  if res ≠ 0 then res
  else if a.length = b.length then 0
  else if a.length > b.length then 1 else -1

/-- The key of a row -/
inductive RowKey : Bool → Type
  | int (v : HandleID) : RowKey false
  | common (bytes : Bytes) : RowKey true

namespace RowKey

/-- A key as a pair of which only the half for its kind is used. -/
def rank : {c : Bool} → RowKey c → Lex (Int ⊕ Bytes)
  | _, int v => toLex (Sum.inl v.val)
  | _, common bytes => toLex (Sum.inr bytes)

theorem rank_injective {c : Bool} : Function.Injective (rank : RowKey c → Lex (Int ⊕ Bytes)) := by
  intro a b h
  cases a with
  | int v =>
    cases b with
    | int w => simpa [rank, Subtype.ext_iff] using h
  | common s =>
    cases b with
    | common t => simpa [rank] using h

instance {c : Bool} : LinearOrder (RowKey c) := LinearOrder.lift' rank rank_injective

instance {c : Bool} : Inhabited (RowKey c) := ⟨match c with
  | true => common []
  | false => int ⟨0, by decide⟩⟩

end RowKey

/-- A key to compare with. An integer handle that comes from a column has no
`data`. -/
inductive RowKeyValueRef : Bool → Type
  | int (data : Option Bytes) (intValue : HandleID) : RowKeyValueRef false
  | common (data : Bytes) : RowKeyValueRef true

/-- `RowKeyColumnContainer::getRowKeyValue` -/
def RowKey.toRef : {c : Bool} → RowKey c → RowKeyValueRef c
  | _, .int v => .int none v
  | _, .common bytes => .common bytes

/-- The value of `RowKeyValue::INT_HANDLE_MAX_KEY`: one byte longer than the encoding of the largest
handle. -/
def intHandleMaxKeyValue : Bytes := encodeInt64 intHandleMax ++ [0]

/-- Whether `data` is that of the "+infinity" key. -/
def isInfData : Option Bytes → Bool
  | none => false
  | some d => compareBytes d intHandleMaxKeyValue = 0

/-- `compare(const RowKeyValueRef & a, const RowKeyValueRef & b)` -/
def RowKeyValueRef.compare : {c : Bool} → RowKeyValueRef c → RowKeyValueRef c → Int
  | _, .common a, .common b => compareBytes a b
  | _, .int aData a, .int bData b =>
    if a ≠ b then (if a.val > b.val then 1 else -1)
    else if a ≠ intHandleMax ∨ (aData = none ∧ bData = none) then 0
    else if isInfData aData ≠ isInfData bData then (if isInfData aData then 1 else -1)
    else 0

/-- An end of a range. The number of an integer handle is what its encoding says. -/
inductive RowKeyValue : Bool → Type
  | int (value : Bytes) (intValue : HandleID) (decoded : decodeInt64 value = some intValue.val) :
      RowKeyValue false
  | common (value : Bytes) : RowKeyValue true

namespace RowKeyValue

variable {c : Bool}

def value : {c : Bool} → RowKeyValue c → Bytes
  | _, int value _ _ => value
  | _, common value => value

def toRowKeyValueRef : {c : Bool} → RowKeyValue c → RowKeyValueRef c
  | _, int value intValue _ => .int (some value) intValue
  | _, common value => .common value

def intHandleMinKey : RowKeyValue false := int (encodeInt64 intHandleMin) intHandleMin (by decide)

def intHandleMaxKey : RowKeyValue false := int intHandleMaxKeyValue intHandleMax (by decide)

/-- `RowKeyValueRef::toRowKeyValue`, of a key that comes from a column. -/
def ofKey : {c : Bool} → RowKey c → RowKeyValue c
  | _, .int v => int (encodeInt64 v) v (decodeInt64_encodeInt64 v)
  | _, .common bytes => common bytes

/-- The end of a range as a key of the handle column: of an integer handle, its number. -/
def key : {c : Bool} → RowKeyValue c → RowKey c
  | _, int _ intValue _ => .int intValue
  | _, common value => .common value

end RowKeyValue

/-! ## Ranges -/

/-- `TiDB::CodecFlagNil`, `TiDB::CodecFlagBytes` and `TiDB::CodecFlagMax`. -/
def codecFlagNil : Byte := 0
def codecFlagBytes : Byte := 1
def codecFlagMax : Byte := 250

/-- Keys from `start` on and before `stop` -/
structure RowKeyRange (c : Bool) where
  start : RowKeyValue c
  /-- `end` -/
  stop : RowKeyValue c
  rowkeyColumnSize : Nat

namespace RowKeyRange

variable {c : Bool} (range : RowKeyRange c)

/-- `(*value)[i]`; the character at the size of a string is its terminating zero. -/
def byteAt (value : Bytes) (i : Nat) : Byte := value.getD i 0

/-- Every key is in the range. -/
def all : Bool :=
  match range.start, range.stop with
  | .common start, .common stop => (List.range range.rowkeyColumnSize).all fun i =>
      (byteAt start i = codecFlagBytes || byteAt start i = codecFlagNil) &&
        byteAt stop i = codecFlagMax
  | .int _ startInt _, .int stop stopInt _ =>
    startInt = intHandleMin && stopInt = intHandleMax && intHandleMaxKeyValue ≤ stop

/-- The range is empty. -/
def none : Bool := range.stop.value ≤ range.start.value

variable (k : RowKey c)

/-- The key is not before the start. -/
def checkStart : Bool := range.start.toRowKeyValueRef.compare k.toRef ≤ 0

/-- The key is before the end. -/
def checkEnd : Bool := k.toRef.compare range.stop.toRowKeyValueRef < 0

/-- The key is in the range. -/
def check : Bool := range.checkStart k && range.checkEnd k

/-- `RowKeyRange::check` of a key that is not one of a column. -/
def checkRef (value : RowKeyValueRef c) : Bool :=
  range.start.toRowKeyValueRef.compare value ≤ 0 && value.compare range.stop.toRowKeyValueRef < 0

/-- From the smallest key to "+infinity"; for a common handle, strings of `rowkey_column_size` flag bytes
(`CommonHandleRangeMinMax`). -/
def newAll : (c : Bool) → (rowkeyColumnSize : Nat) → RowKeyRange c
  | true, n => ⟨.common (replicate n codecFlagBytes), .common (replicate n codecFlagMax), n⟩
  | false, n => ⟨.intHandleMinKey, .intHandleMaxKey, n⟩

/-- Starts at the end of the key space. -/
def newNone (c : Bool) (rowkeyColumnSize : Nat) : RowKeyRange c :=
  ⟨(newAll c rowkeyColumnSize).stop, (newAll c rowkeyColumnSize).start, rowkeyColumnSize⟩

/-- `RowKeyRange::shrink`: `max` and `min` of two ends compare their strings. -/
def shrink (other : RowKeyRange c) : RowKeyRange c where
  start := if other.start.value ≤ range.start.value then range.start else other.start
  stop := if range.stop.value < other.stop.value then range.stop else other.stop
  rowkeyColumnSize := range.rowkeyColumnSize

end RowKeyRange

end TiFlash.DM
