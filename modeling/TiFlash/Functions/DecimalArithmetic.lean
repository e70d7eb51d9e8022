import TiFlash.Lib.MachineInt

/-!
# Arithmetic on decimals

A `Decimal(p, s)` is an integer that stands for a multiple of `10^-s`, stored in a width chosen by `p`. The
precision and scale of a result are inferred from those of the operands.
-/

namespace TiFlash.Functions

open TiFlash.Lib

/-! ## Types -/

def decimalMaxPrec : Nat := 65

def decimalMaxScale : Nat := 30

/-- The constructor and `createDecimal` check the bounds. -/
structure DataTypeDecimal where
  precision : Nat
  scale : Nat
  precision_pos : 1 ≤ precision
  precision_le : precision ≤ decimalMaxPrec
  scale_le : scale ≤ decimalMaxScale
  scale_le_precision : scale ≤ precision

/-- The integer types: built-in up to `Int128`, and `checked_int256_t` and `checked_int512_t`. -/
inductive NativeType where
  | int32
  | int64
  | int128
  | int256
  | int512
  deriving DecidableEq, Repr

namespace NativeType

/-- The width, and whether an overflow is noticed. -/
def toIntType : NativeType → IntType
  | int32 => ⟨32, false⟩
  | int64 => ⟨64, false⟩
  | int128 => ⟨128, false⟩
  | int256 => ⟨256, true⟩
  | int512 => ⟨512, true⟩

/-- `PromoteType`; there is none for `Int512`. -/
def promote : NativeType → NativeType
  | int32 => int64
  | int64 => int128
  | int128 => int256
  | int256 => int512
  | int512 => int512

/-- The type that `createDecimal` chooses for a precision. -/
def ofPrecision (prec : Nat) : NativeType :=
  if prec ≤ 9 then int32 else if prec ≤ 18 then int64 else if prec ≤ 38 then int128 else int256

end NativeType

/-- `DataTypeDecimal::FieldType`, by the integers that it holds. -/
def DataTypeDecimal.native (type : DataTypeDecimal) : NativeType := .ofPrecision type.precision

/-! ## Inference -/

/-- The operations: `PlusImpl`, `MinusImpl`, `MultiplyImpl`, `DivideFloatingImpl`, `ModuloImpl`. -/
inductive Operation where
  | plus
  | minus
  | multiply
  | divide
  | modulo
  deriving DecidableEq, Repr

def divPrecincrement : Nat := 4

/-- `ResultPrecInferer::infer`: the precision of the result. -/
def Operation.resultPrec (left right : DataTypeDecimal) : Operation → Nat
  | plus | minus =>
    let resultInt := max (left.precision - left.scale) (right.precision - right.scale)
    min (max left.scale right.scale + resultInt + 1) decimalMaxPrec
  | multiply => min (left.precision + right.precision) decimalMaxPrec
  | divide => min (left.precision + right.scale + divPrecincrement) decimalMaxPrec
  | modulo => max left.precision right.precision

/-- `ResultPrecInferer::infer`: the scale of the result. -/
def Operation.resultScale (left right : DataTypeDecimal) : Operation → Nat
  | plus | minus | modulo => max left.scale right.scale
  | multiply => min (left.scale + right.scale) decimalMaxScale
  | divide => min (left.scale + divPrecincrement) decimalMaxScale

/-! ## The kernel -/

/-- The exceptions -/
inductive DecimalError where
  /-- "Decimal math overflow", or the overflow or range error of a checked integer. -/
  | overflow
  /-- "Division by zero", or the signal that a built-in division by zero raises. -/
  | divisionByZero
  /-- "Division of minimal signed number by minus one" -/
  | illegalDivision
  deriving DecidableEq, Repr

def decimalMaxValue : Int := 10 ^ decimalMaxPrec - 1

def Operation.applyIn (type : NativeType) (a b : Int) : Operation → Except DecimalError Int
  | plus => type.toIntType.store .overflow (a + b)
  | minus => type.toIntType.store .overflow (a - b)
  | multiply => type.toIntType.store .overflow (a * b)
  | divide => if b = 0 then .error .divisionByZero else type.toIntType.store .overflow (a.tdiv b)
  | modulo =>
    if b = 0 then .error .divisionByZero
    else if type.toIntType.checked = false ∧ a = -(2 ^ (type.toIntType.bits - 1)) ∧ b = -1 then
      .error .illegalDivision
    else type.toIntType.store .overflow (a.tmod b)

/-- `DecimalBinaryOperation`, by its template arguments. -/
structure DecimalBinaryOperation where
  op : Operation
  /-- `A` -/
  left : NativeType
  /-- `B` -/
  right : NativeType
  /-- `NativeResultType` -/
  result : NativeType

namespace DecimalBinaryOperation

variable (k : DecimalBinaryOperation)

def needPromoteType : Bool := (k.result = k.left || k.result = k.right) && k.op ≠ .modulo

def checkOverflow : Bool := k.needPromoteType && k.result = .int256

def inputType : NativeType := if k.needPromoteType then k.result.promote else k.result

/-- The end of each kernel: the check against the largest decimal, and the cast to the result type. -/
def finish (res : Int) : Except DecimalError Int :=
  if k.checkOverflow && res > decimalMaxValue then .error .overflow
  else k.result.toIntType.cast .overflow k.inputType.toIntType res

/-- The operands are converted to the result type first. -/
def apply (a b : Int) : Except DecimalError Int := do
  let a ← k.result.toIntType.cast .overflow k.left.toIntType a
  let b ← k.result.toIntType.cast .overflow k.right.toIntType b
  let res ← k.op.applyIn k.inputType a b
  k.finish res

/-- The operands are converted to the input type first. -/
def applyScaled (scaleLeft : Bool) (a b scale : Int) : Except DecimalError Int := do
  let a ← k.inputType.toIntType.cast .overflow k.left.toIntType a
  let b ← k.inputType.toIntType.cast .overflow k.right.toIntType b
  let a ← if scaleLeft then k.inputType.toIntType.store .overflow (a * scale) else pure a
  let b ← if scaleLeft then pure b else k.inputType.toIntType.store .overflow (b * scale)
  let res ← k.op.applyIn k.inputType a b
  k.finish res

def applyScaledMul (a b scale : Int) : Except DecimalError Int := do
  let a ← k.result.toIntType.cast .overflow k.left.toIntType a
  let b ← k.result.toIntType.cast .overflow k.right.toIntType b
  let res ← k.op.applyIn k.inputType a b
  k.finish (res.tdiv scale)

/-- One element of `vector_vector`, `vector_constant`, `constant_vector` and `constant_constant`. -/
def execute (a b scaleA scaleB scaleResult : Int) : Except DecimalError Int :=
  match k.op with
  | .plus | .minus | .modulo =>
    if scaleA ≠ 1 then k.applyScaled true a b scaleA
    else if scaleB ≠ 1 then k.applyScaled false a b scaleB
    else k.apply a b
  | .multiply => k.applyScaledMul a b scaleResult
  | .divide => k.applyScaled true a b scaleA

end DecimalBinaryOperation

/-! ## The function -/

/-- `DataTypeDecimal::getScaleMultiplier`: the loop runs in the native type of the decimal. -/
def getScaleMultiplier (type : NativeType) : Nat → Except DecimalError Int
  | 0 => .ok 1
  | scale + 1 => do
    let v ← getScaleMultiplier type scale
    type.toIntType.store .overflow (v * 10)

namespace Operation

variable (op : Operation) (left right : DataTypeDecimal)

/-- The exponents of `DataTypeDecimal::getScales`: what the left operand is multiplied with. -/
def leftExponent : Nat :=
  match op with
  | multiply => 0
  | divide => right.scale + op.resultScale left right - left.scale
  | plus | minus | modulo => op.resultScale left right - left.scale

def rightExponent : Nat :=
  match op with
  | multiply | divide => 0
  | plus | minus | modulo => op.resultScale left right - right.scale

def resultExponent : Nat :=
  match op with
  | multiply => left.scale + right.scale - op.resultScale left right
  | plus | minus | divide | modulo => 0

/-- The instance for the types -/
def kernel : DecimalBinaryOperation where
  op := op
  left := left.native
  right := right.native
  result := .ofPrecision (op.resultPrec left right)

/-- `FunctionBinaryArithmetic::executeImpl` on two values. -/
def execute (a b : Int) : Except DecimalError Int := do
  let k := op.kernel left right
  let scaleA ← getScaleMultiplier k.result (op.leftExponent left right)
  let scaleB ← getScaleMultiplier k.result (op.rightExponent left right)
  let scaleResult ← getScaleMultiplier k.result (op.resultExponent left right)
  k.execute a b scaleA scaleB scaleResult

end Operation

end TiFlash.Functions
