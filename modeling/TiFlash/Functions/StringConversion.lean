import Mathlib.Data.List.DropRight
import TiFlash.Functions.DecimalRounding

/-!
# Casts of strings to numbers

`TiDBConvertToInteger::strToInt`. A string is the list of its bytes. A result stands with whether
`OVERFLOW_ERR` came with it.
-/

namespace TiFlash.Functions

/-- The set `spaces` of `trim` -/
def isSpace (ch : Char) : Bool := ch = ' ' ∨ 9 ≤ ch.toNat ∧ ch.toNat ≤ 13

def trim (value : List Char) : List Char := (value.dropWhile isSpace).rdropWhile isSpace

/-- A sign -/
def isSign (ch : Char) : Bool := ch = '+' ∨ ch = '-'

/-- Signs may stand anywhere. -/
def getValidIntPrefix (value : List Char) : List Char := value.takeWhile fun ch => ch.isDigit || isSign ch

/-- The loop of `toUInt<T>`, for a type of the given width -/
def toUIntLoop (bits : Nat) : Nat → List Char → Nat × Bool
  | ret, [] => (ret, false)
  | ret, ch :: value =>
    if ret > (2 ^ bits - 1) / 10 then (2 ^ bits - 1, true)
    else
      let next := ((ret * 10 + (ch.toNat - 48) : Int) % 2 ^ bits).toNat
      if next < ret then (2 ^ bits - 1, true) else toUIntLoop bits next value

/-- Value and overflow -/
def toUInt (bits : Nat) (value : List Char) : Nat × Bool :=
  if value.head? = some '-' then (0, true)
  else toUIntLoop bits 0 (if value.head? = some '+' then value.tail else value)

/-- The string behind a minus is computed but not passed on: `toUInt` gets the whole one. -/
def toInt (bits : Nat) (value : List Char) : Int × Bool :=
  let isNegative : Bool := value.head? = some '-'
  let (uintValue, overflow) := toUInt bits value
  if overflow then (if isNegative then -2 ^ (bits - 1) else 2 ^ (bits - 1) - 1, true)
  else if isNegative then
    if uintValue > (2 ^ bits - 1) / 2 + 1 then (-2 ^ (bits - 1), true)
    else ((-uintValue : Int).bmod (2 ^ bits), false)
  else if uintValue > (2 ^ (bits - 1) - 1 : Int) then (2 ^ (bits - 1) - 1, true)
  else (uintValue, false)

/-- `strToInt<T>`; `toUnsigned` is `to_unsigned`. -/
def strToInt (flags : DAGFlags) (toUnsigned : Bool) (bits : Nat) (value : List Char) : Except CastError Int := do
  let trimString := trim value
  let intString := getValidIntPrefix trimString
  if trimString = [] ∨ intString = [] then
    if value ≠ [] then flags.handleTruncateError "cast str as int"
    return 0
  let (res, overflow) : Int × Bool :=
    if toUnsigned then ((toUInt bits intString).1, (toUInt bits intString).2) else toInt bits intString
  if overflow then flags.handleOverflowError "cast str as int"
  return res

end TiFlash.Functions
