import TiFlash.Functions.DecimalArithmetic

/-!
# Casts of decimals to fewer digits

`ToDecimal`, `toTiDBDecimal`, `decToInt` and the conversion of a `DecimalField` to an integer each divide by
ten in a loop and round by the last digit.
-/

namespace TiFlash.Functions

open TiFlash.Lib NativeType

/-- How a cast fails -/
inductive CastError where
  | exception (msg : String)
  /-- The overflow or range error of a checked integer. -/
  | range
  deriving DecidableEq, Repr

/-- The flags of a `DAGContext` that decide whether an error is thrown. -/
structure DAGFlags where
  ignoreTruncate : Bool
  truncateAsWarning : Bool
  overflowAsWarning : Bool
  deriving DecidableEq, Repr

namespace DAGFlags

variable (flags : DAGFlags)

def handleTruncateError (msg : String) : Except CastError Unit :=
  if !(flags.ignoreTruncate || flags.truncateAsWarning) then .error (.exception ("Truncate error " ++ msg))
  else .ok ()

def handleOverflowError (msg : String) : Except CastError Unit :=
  if !flags.overflowAsWarning then .error (.exception ("Overflow error " ++ msg)) else .ok ()

end DAGFlags

/-! ## To a decimal -/

/-- `value *= 10` in an `Int256`, as often as digits are missing -/
def scaleUp (count : Nat) (value : Int) : Except CastError Int :=
  (List.range count).foldlM (fun value _ => int256.toIntType.store .range (value * 10)) value

/-- The loop that takes `count` digits off, with `need2Round` -/
def scaleDownLoop (count : Nat) (value : Int) : Bool × Int :=
  (List.range count).foldl (fun state _ => (state.2.natAbs % 10 ≥ 5, state.2.tdiv 10)) (false, value)

def scaleDown (count : Nat) (value : Int) : Int :=
  let (need2Round, value) := scaleDownLoop count value
  if need2Round then
    if value < 0 then value - 1 else value + 1
  else value

/-- `ToDecimal` of a decimal, into a decimal with the native type `target` -/
def toDecimal (target : NativeType) (v : Int) (vScale scale : Nat) : Except CastError Int := do
  let value ← if vScale ≤ scale then scaleUp (scale - vScale) v else pure (scaleDown (vScale - scale) v)
  target.toIntType.cast .range int256.toIntType value

def decimalMaxValueOf (prec : Nat) : Int := 10 ^ prec - 1

variable (flags : DAGFlags)

/-- `toTiDBDecimal` of a decimal -/
def toTiDBDecimal (target : NativeType) (v : Int) (vScale prec scale : Nat) :
    Except CastError Int := do
  let value ←
    if vScale ≤ scale then scaleUp (scale - vScale) v
    else do
      flags.handleTruncateError "cast decimal as decimal"
      pure (scaleDown (vScale - scale) v)
  let maxValue := decimalMaxValueOf prec
  if value > maxValue ∨ value < -maxValue then
    flags.handleOverflowError "cast decimal as decimal"
    target.toIntType.cast .range int256.toIntType (if value > 0 then maxValue else -maxValue)
  else target.toIntType.cast .range int256.toIntType value

/-- The multiplier is `DecimalMaxValue::Get(scale) + 1`. -/
def toTiDBDecimalInternal (target : NativeType) (value : Int) (prec scale : Nat) :
    Except CastError Int := do
  let maxValue := decimalMaxValueOf prec
  if value > maxValue ∨ value < -maxValue then
    flags.handleOverflowError "cast to decimal"
    target.toIntType.cast .range int256.toIntType (if value > 0 then maxValue else -maxValue)
  else
    let scaleMul ← target.toIntType.cast .range int256.toIntType (decimalMaxValueOf scale + 1)
    let value ← target.toIntType.cast .range int64.toIntType value
    target.toIntType.store .range (value * scaleMul)

/-! ## To an integer -/

/-- `v = v / 10 + (i + 1 == scale && v % 10 >= 5)` for each `i` below the scale -/
def dropScale (scale : Nat) (v : Int) : Int :=
  (List.range scale).foldl (fun v i => v.tdiv 10 + if i + 1 = scale ∧ v.tmod 10 ≥ 5 then 1 else 0) v

/-- `TiDBConvertToInteger::decToInt`, for an integer type with the given limits -/
def decToInt (min max : Int) (v : Int) (scale : Nat) : Except CastError Int := do
  let v := dropScale scale v
  if v > max ∨ v < min then
    flags.handleOverflowError "cast decimal as int"
    if v > 0 then pure max else pure min
  else pure v

/-- `DecimalField::operator U`, for an integer type with the given limits -/
def decimalFieldToInt (min max : Int) (v : Int) (scale : Nat) : Except CastError Int :=
  let v := dropScale scale v
  if v > max ∨ v < min then .error (.exception "Decimal value overflow") else .ok v

end TiFlash.Functions
