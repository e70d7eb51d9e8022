import TiFlash.Lib.Calendar

/-!
# Date arithmetic

The functions that add seconds and days to a `MyDateTime`. Days are counted by `calcDayNum`, and
`fromDayNum` takes blocks of 400, 100, 4 years and of one year off such a count.
-/

namespace TiFlash.Functions

open TiFlash.Lib

/-- `MyDateTime` -/
structure MyDateTime where
  year : Nat
  month : Nat
  day : Nat
  hour : Nat
  minute : Nat
  second : Nat
  microSecond : Nat
  deriving DecidableEq, Repr

namespace MyDateTime

/-- `MyTimeBase::MyTimeBase(UInt64 packed)` -/
def ofPacked (packed : Nat) : MyDateTime :=
  let ymdhms := packed >>> 24
  let ymd := ymdhms >>> 17
  let ym := ymd >>> 5
  let hms := ymdhms &&& (2 ^ 17 - 1)
  { year := ym / 13 % 2 ^ 16
    month := ym % 13 % 2 ^ 8
    day := (ymd &&& (2 ^ 5 - 1)) % 2 ^ 8
    hour := (hms >>> 12) % 2 ^ 16
    minute := ((hms >>> 6) &&& (2 ^ 6 - 1)) % 2 ^ 8
    second := (hms &&& (2 ^ 6 - 1)) % 2 ^ 8
    microSecond := packed % 2 ^ 24 }

def toPackedUInt (t : MyDateTime) : Nat :=
  let ymd := (t.year * 13 + t.month) <<< 5 ||| t.day
  let hms := t.hour <<< 12 ||| t.minute <<< 6 ||| t.second
  ((ymd <<< 17 ||| hms) <<< 24 ||| t.microSecond) % 2 ^ 64

end MyDateTime

def calcDayNum (year month day : Nat) : Nat :=
  if year = 0 ∨ month = 0 then 0
  else
    let delsum := 365 * year + 31 * (month - 1) + day
    if month ≤ 2 then
      let year := year - 1
      delsum + year / 4 - (year / 100 + 1) * 3 / 4
    else
      delsum - (month * 4 + 23) / 10 + year / 4 - (year / 100 + 1) * 3 / 4

def dayNumPer400Years : Nat := 365 * 400 + 97

def dayNumPer100Years : Nat := 365 * 100 + 24

def dayNumPer4Years : Nat := 365 * 4 + 1

def dayNumPerYears : Nat := 365

def accumulatedDaysPerMonth : List Nat := [30, 58, 89, 119, 150, 180, 211, 242, 272, 303, 333, 364]

/-- The same in a leap year -/
def accumulatedDaysPerMonthLeapYear : List Nat := [30, 59, 90, 120, 151, 181, 212, 243, 273, 304, 334, 365]

/-- The month and the day, both from 0 on. -/
def fillMonthAndDay (dayNum : Nat) (accumulatedDays : List Nat) : Nat × Nat :=
  let month := dayNum / 31
  let month := if accumulatedDays.getD month 0 < dayNum then month + 1 else month
  (month, dayNum - if month = 0 then 0 else accumulatedDays.getD (month - 1) 0 + 1)

/-- The exception of `fromDayNum` -/
inductive DateTimeError where
  /-- "MyDate/MyDateTime only support date after 0000-01-01" -/
  | beforeYearZero
  deriving DecidableEq, Repr

/-- The year of a day number, and the number of the day in it. -/
def yearOfDayNum (dayNum : Nat) : Nat × Nat :=
  if dayNum ≥ 366 then
    -- year 0000 is leap year
    let dayNum := dayNum - 366
    let numOf400Years := dayNum / dayNumPer400Years
    let dayNum := dayNum % dayNumPer400Years
    let numOf100Years := dayNum / dayNumPer100Years
    let dayNum := dayNum - numOf100Years * dayNumPer100Years
    let numOf4Years := dayNum / dayNumPer4Years
    let dayNum := dayNum - numOf4Years * dayNumPer4Years
    let numOfYears := dayNum / dayNumPerYears
    let dayNum := dayNum - numOfYears * dayNumPerYears
    (1 + numOf400Years * 400 + numOf100Years * 100 + numOf4Years * 4 + numOfYears, dayNum)
  else (0, dayNum)

variable (t : MyDateTime)

def fromDayNum (dayNum : Int) : Except DateTimeError MyDateTime :=
  if dayNum < 0 then .error .beforeYearZero
  else
    let (year, dayNum) := yearOfDayNum dayNum.toNat
    let (month, day) := fillMonthAndDay dayNum
      (if isLeapYear year then accumulatedDaysPerMonthLeapYear else accumulatedDaysPerMonth)
    .ok { t with year := year % 2 ^ 16, month := (month + 1) % 2 ^ 8, day := (day + 1) % 2 ^ 8 }

/-- The sum is stored in an `Int32`. -/
def addDays (days : Int) : Except DateTimeError MyDateTime :=
  fromDayNum t ((calcDayNum t.year t.month t.day + days).bmod (2 ^ 32))

def MyDateTime.withSecond (currentSecond : Int) : MyDateTime :=
  { t with
    hour := (currentSecond / 3600).toNat
    minute := (currentSecond % 3600 / 60).toNat
    second := (currentSecond % 60).toNat }

def secondInOneDay : Int := 86400

/-- `AddSecondsImpl::execute(UInt64, Int64)` -/
def addSeconds (t : Nat) (delta : Int) : Except DateTimeError Nat :=
  if t = 0 then .ok t
  else
    let myTime := MyDateTime.ofPacked t
    let currentSecond : Int := myTime.hour * 3600 + myTime.minute * 60 + myTime.second + delta
    if currentSecond ≥ 0 then do
      let days := currentSecond / secondInOneDay
      let myTime ← if days ≠ 0 then addDays myTime days else pure myTime
      return (myTime.withSecond (currentSecond % secondInOneDay)).toPackedUInt
    else do
      let days := -currentSecond / secondInOneDay
      let days := if -currentSecond % secondInOneDay ≠ 0 then days + 1 else days
      let myTime ← addDays myTime (-days)
      return (myTime.withSecond (currentSecond + days * secondInOneDay)).toPackedUInt

/-- `AddDaysImpl::execute(UInt64, Int64)` -/
def addDaysPacked (t : Nat) (delta : Int) : Except DateTimeError Nat :=
  if t = 0 then .ok t
  else do
    let myTime ← addDays (MyDateTime.ofPacked t) delta
    return myTime.toPackedUInt

/-! ## What should hold -/

namespace MyDateTime

variable (t : MyDateTime)

/-- The date -/
def date : Date := ⟨t.year, t.month, t.day⟩

/-- The same time on another day -/
def withDate (d : Date) : MyDateTime := { t with year := d.year, month := d.month, day := d.day }

/-- Seconds since midnight -/
def secondOfDay : Int := t.hour * 3600 + t.minute * 60 + t.second

/-- A time that exists -/
structure Valid (t : MyDateTime) : Prop where
  date : t.date.Valid
  year_le : t.year ≤ 9999
  hour : t.hour < 24
  minute : t.minute < 60
  second : t.second < 60
  microSecond : t.microSecond < 1000000

/-- `t'` is `a` seconds later. -/
def Later (a : Int) (t t' : MyDateTime) : Prop :=
  t'.microSecond = t.microSecond ∧
    ∃ days, t.date.After days t'.date ∧ t.secondOfDay + a = days * 86400 + t'.secondOfDay

/-- The last day of a leap year is reached from another day. -/
def Skips (t t' : MyDateTime) : Prop := t'.date ≠ t.date ∧ t'.date.LeapYearEnd

end MyDateTime

/-- The arithmetic follows the calendar at `d`, when `a` and then `b` seconds are added to `t`, and when `k`
days are, which should lead to `e`. -/
structure FollowsCalendar (d : Date) (t : MyDateTime) (a b k : Int) (e : Date) : Prop where
  next : calcDayNum d.next.year d.next.month d.next.day = calcDayNum d.year d.month d.day + 1
  roundTrip : ∀ s : MyDateTime, fromDayNum s (calcDayNum d.year d.month d.day) = .ok (s.withDate d)
  zero : addSeconds t.toPackedUInt 0 = .ok t.toPackedUInt
  valid : ∃ r : MyDateTime, r.Valid ∧ r.microSecond = t.microSecond ∧
    addSeconds t.toPackedUInt a = .ok r.toPackedUInt
  compose : (addSeconds t.toPackedUInt a >>= fun r => addSeconds r b) = addSeconds t.toPackedUInt (a + b)
  days : addDaysPacked t.toPackedUInt k = .ok (t.withDate e).toPackedUInt
  daySeconds : addSeconds t.toPackedUInt (k * 86400) = .ok (t.withDate e).toPackedUInt

end TiFlash.Functions
