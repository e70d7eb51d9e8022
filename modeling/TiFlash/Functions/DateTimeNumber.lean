import TiFlash.Functions.DateTime
import TiFlash.Functions.DecimalRounding

/-!
# Dates and times as numbers

The casts of a date or a time to an integer and to a decimal, and the conversion of a number to a time.
-/

namespace TiFlash.Functions

open TiFlash.Lib

/-- The sum in both casts of a time. -/
def MyDateTime.weightedSum (t : MyDateTime) : Nat :=
  t.year * 10000000000 + t.month * 100000000 + t.day * 100000 + t.hour * 1000 + t.minute * 100 + t.second

/-- The sum in both casts of a date. -/
def dateWeightedSum (d : Date) : Nat := d.year * 10000 + d.month * 100 + d.day

/-- `toTiDBDecimal` of a `MyDateTime`. With a fraction, the product is a `UInt64` before it becomes an `Int128`. -/
def timeToTiDBDecimal (flags : DAGFlags) (target : NativeType) (t : MyDateTime) (prec scale fsp : Nat) :
    Except CastError Int :=
  if fsp > 0 then toTiDBDecimal flags target ((t.weightedSum * 1000000 + t.microSecond) % 2 ^ 64 : Nat) 6 prec scale
  else toTiDBDecimalInternal flags target t.weightedSum prec scale

/-- `toTiDBDecimal` of a `MyDate` -/
def dateToTiDBDecimal (flags : DAGFlags) (target : NativeType) (d : Date) (prec scale : Nat) :
    Except CastError Int :=
  toTiDBDecimalInternal flags target (dateWeightedSum d) prec scale

/-- `get_datetime` -/
def getDatetime (num : Nat) : MyDateTime :=
  let ymd := num / 1000000
  let hms := num - ymd * 1000000
  { year := ymd / 10000 % 2 ^ 16
    month := ymd % 10000 / 100
    day := ymd % 10000 % 100
    hour := hms / 10000
    minute := hms % 10000 / 100
    second := hms % 10000 % 100
    microSecond := 0 }

/-- The number of digits says which fields a number has. -/
def numberToDateTime (number : Int) : Except String MyDateTime :=
  let fails := .error ("Cannot convert " ++ toString number ++ " to Datetime")
  let n := number.toNat
  if number = 0 then .ok ⟨0, 0, 0, 0, 0, 0, 0⟩
  else if number ≥ 10000101000000 then .ok (getDatetime n)
  -- check MMDD
  else if number < 101 then fails
  -- check YYMMDD: 2000-2069
  else if number ≤ 69 * 10000 + 1231 then .ok (getDatetime ((n + 200000000) * 1000000))
  -- check YYMMDD
  else if number ≤ 991231 then .ok (getDatetime ((n + 19000000) * 1000000))
  -- check YYYYMMDD
  else if number ≤ 10000101 then fails
  -- check hhmmss
  else if number ≤ 99991231 then .ok (getDatetime (n * 1000000))
  -- check MMDDhhmmss
  else if number < 101000000 then fails
  -- check YYMMDDhhmmss: 2000-2069
  else if number ≤ 69 * 10000000000 + 1231235959 then .ok (getDatetime (n + 20000000000000))
  -- check YYMMDDhhmmss
  else if number < 70 * 10000000000 + 101000000 then fails
  else if number ≤ 991231235959 then .ok (getDatetime (n + 19000000000000))
  else .ok (getDatetime n)

end TiFlash.Functions
