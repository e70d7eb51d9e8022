import TiFlash.Transaction.TiKVRecordFormat

/-!
# Handle ranges of raw key ranges

Which handles of a table a range of raw keys holds is computed twice: as a range of `Handle`s, numbers with
a largest element behind them (`TiKVRange`), and as a `RowKeyRange`. An empty start is the smallest key and
an empty end is behind all keys.
-/

namespace TiFlash.DM

/-! ## Row key ranges -/

theorem foldl_digits_lt (s : Bytes) : s.foldl (fun n b => n * 256 + b.val) 0 < 256 ^ s.length := by
  induction s using List.reverseRecOn with
  | nil => simp
  | append_singleton s b ih =>
    rw [List.foldl_append, List.length_append, List.length_singleton, Nat.pow_succ]
    have hb := b.isLt
    simp only [List.foldl_cons, List.foldl_nil]
    omega

theorem decodeInt64_bounds {s : Bytes} {v : Int} (h : decodeInt64 s = some v) :
    -(2 ^ 63) ≤ v ∧ v < 2 ^ 63 := by
  unfold decodeInt64 at h
  split at h
  · cases h
  · have hlt := foldl_digits_lt (s.take 8)
    rw [List.length_take, min_eq_left (by omega)] at hlt
    rw [← Option.some.inj h]
    omega

/-- The number of an integer handle is read from the first eight bytes; with fewer, what is read is undefined.
-/
def RowKeyValue.ofString : (c : Bool) → Bytes → Option (RowKeyValue c)
  | true, value => some (.common value)
  | false, value =>
    match h : decodeInt64 value with
    | none => none
    | some v => some (.int value ⟨v, decodeInt64_bounds h⟩ h)

namespace RowKeyRange

open Transaction.RecordKVFormat

variable (tableId : TableID) (c : Bool)

/-- The first key of the table -/
def tableRangeMin (rowkeyColumnSize : Nat) : Bytes :=
  recordPrefix tableId ++ (newAll c rowkeyColumnSize).start.value

def tableRangeMax (rowkeyColumnSize : Nat) : Bytes :=
  recordPrefix tableId ++ (newAll c rowkeyColumnSize).stop.value

/-- The value behind the record prefix, `begin() + RAW_KEY_NO_HANDLE_SIZE` to `end()`. For a shorter
key this is not a range. -/
def valueOfRawKey (key : Bytes) : Option (RowKeyValue c) :=
  if key.length < rawKeyNoHandleSize then Option.none
  else RowKeyValue.ofString c (key.drop rawKeyNoHandleSize)

/-- `start_value` of `RowKeyRange::fromRegionRange`. -/
def startOfRawKey (rowkeyColumnSize : Nat) (startKey : Bytes) :
    Option (RowKeyValue c) :=
  if startKey ≤ tableRangeMin tableId c rowkeyColumnSize then some (newAll c rowkeyColumnSize).start
  else valueOfRawKey c startKey

/-- `end_value` of `RowKeyRange::fromRegionRange`. -/
def endOfRawKey (rowkeyColumnSize : Nat) (endKey : Bytes) :
    Option (RowKeyValue c) :=
  if tableRangeMax tableId c rowkeyColumnSize ≤ endKey then some (newAll c rowkeyColumnSize).stop
  else valueOfRawKey c endKey

/-- `RowKeyRange::fromRegionRange`; `none` where its behaviour is undefined. -/
def fromRegionRange (startKey endKey : Bytes) (tableIdInRawKey tableId : TableID) (c : Bool)
    (rowkeyColumnSize : Nat) : Option (RowKeyRange c) :=
  if tableIdInRawKey = tableId then do
    let startValue ← startOfRawKey tableId c rowkeyColumnSize startKey
    let endValue ← endOfRawKey tableId c rowkeyColumnSize endKey
    return ⟨startValue, endValue, rowkeyColumnSize⟩
  else some (newNone c rowkeyColumnSize)

end RowKeyRange

end TiFlash.DM

namespace TiFlash.Transaction.TiKVRange

open TiFlash.DM RecordKVFormat

/-! ## Ranges of handles -/

/-- `TiKVHandle::Handle`: a handle, or `Handle::max`, which is behind all handles. -/
inductive Handle where
  | normal (handleId : HandleID)
  | max
  deriving DecidableEq

/-- `operator<(const HandleType &, const Handle &)` -/
def Handle.isBehind (handleId : HandleID) : Handle → Bool
  | .normal h => handleId.val < h.val
  | .max => true

/-- The handle in the first eight bytes of `s`; missing bytes are zero. -/
def handleOfBytes (s : Bytes) : HandleID :=
  let digits := s.take 8 ++ List.replicate (8 - s.length) 0
  ⟨(digits.foldl (fun n b => n * 256 + b.val) 0 : Nat) - 2 ^ 63, by
    have hlen : digits.length = 8 := by
      simp only [digits, List.length_append, List.length_take, List.length_replicate]
      omega
    have hlt := foldl_digits_lt digits
    rw [hlen] at hlt
    omega⟩

/-- The sum of an `Int64` and one, which wraps. -/
def HandleID.succ (handleId : HandleID) : HandleID :=
  if h : handleId.val + 1 < 2 ^ 63 then ⟨handleId.val + 1, by have := handleId.2.1; omega⟩ else intHandleMin

/-- A key longer than that of a handle lies behind the handle and before the next. -/
def getRangeHandle (isStart : Bool) (key : Bytes) (tableId : RecordKVFormat.TableID) : Handle :=
  if key.isEmpty then (if isStart then .normal intHandleMin else .max)
  else if key ≤ genRawKey tableId intHandleMin then .normal intHandleMin
  else if genRawKey tableId intHandleMax < key then .max
  else
    let res := handleOfBytes (key.drop rawKeyNoHandleSize)
    if key.length ≤ rawKeySize then .normal res else .normal (HandleID.succ res)

def getHandleRangeByTable (startKey endKey : Bytes) (tableId : RecordKVFormat.TableID) : Handle × Handle :=
  (getRangeHandle true startKey tableId, getRangeHandle false endKey tableId)

/-- Whether a handle is in a range, from the first end on and before the second. -/
def inHandleRange (range : Handle × Handle) (handleId : HandleID) : Bool :=
  !range.1.isBehind handleId && range.2.isBehind handleId

end TiFlash.Transaction.TiKVRange
