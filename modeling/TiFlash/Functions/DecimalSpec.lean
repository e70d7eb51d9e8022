import TiFlash.Functions.DecimalArithmetic
import TiFlash.Lib.Truncate

/-!
# What arithmetic on decimals should return

A stored integer stands for a rational number. The function should return the integer that stands for the
exact result at the scale of the result type.
-/

namespace TiFlash.Functions

open TiFlash.Lib

/-- The number that the integer `x` of the type stands for. -/
def DataTypeDecimal.value (type : DataTypeDecimal) (x : Int) : ℚ := x / 10 ^ type.scale

/-- The integers with at most as many digits as the type has. -/
def DataTypeDecimal.InPrecision (type : DataTypeDecimal) (x : Int) : Prop := |x| < 10 ^ type.precision

instance (type : DataTypeDecimal) (x : Int) : Decidable (type.InPrecision x) :=
  inferInstanceAs (Decidable (_ < _))

namespace Operation

variable (op : Operation) (left right : DataTypeDecimal) (x y : Int)

/-- The operation on rational numbers. The remainder has the sign of the dividend. -/
def exact (a b : ℚ) : Operation → ℚ
  | plus => a + b
  | minus => a - b
  | multiply => a * b
  | divide => a / b
  | modulo => a - b * truncate (a / b)

/-- The exact result, in units of the last digit of the result type. -/
def exactScaled : ℚ := op.exact (left.value x) (right.value y) * 10 ^ op.resultScale left right

/-- `v` is the result at the scale of the result type: only a product and a quotient may be cut off. -/
def IsResult (v : Int) : Prop :=
  match op with
  | multiply | divide => v = truncate (op.exactScaled left right x y)
  | plus | minus | modulo => (v : ℚ) = op.exactScaled left right x y

/-- The function returns the result, which has no more digits than a decimal can have, or it throws. -/
def ExactOrThrows : Prop := op.execute left right x y = .error .overflow ∨
    ∃ v, op.execute left right x y = .ok v ∧ op.IsResult left right x y v ∧ |v| < 10 ^ decimalMaxPrec

/-- A zero divisor is not an operand of the operation. -/
def Defined : Prop := op = divide ∨ op = modulo → y ≠ 0

instance : Decidable (op.Defined y) := inferInstanceAs (Decidable (_ → _))

/-! ## When it does -/

/-- The operands reach the machine operation unchanged, or their conversion is checked. The type of the
divisor is chosen without regard to its precision, that of a scaled remainder without regard to the scaling.
-/
def OperandsFit : Prop :=
  match op with
  | plus | minus | multiply => True
  | divide => right.native = .int256 ∨ (op.kernel left right).inputType.toIntType.InRange y
  | modulo =>
    (op.kernel left right).result = .int256 ∨
      (op.kernel left right).inputType.toIntType.InRange (x * 10 ^ op.leftExponent left right) ∧
      (op.kernel left right).inputType.toIntType.InRange (y * 10 ^ op.rightExponent left right)

/-- A `Decimal256` result has no more digits than a decimal can have, where that is not checked: only if an
operand is a `Decimal256` too, and only above. Far below, the conversion throws. -/
def ResultFits : Prop := (op.kernel left right).result = .int256 →
    if (op.kernel left right).needPromoteType then
      -(10 ^ decimalMaxPrec) < op.exactScaled left right x y ∨ op.exactScaled left right x y ≤ -(2 ^ 256)
    else |op.exactScaled left right x y| < 10 ^ decimalMaxPrec

end Operation

end TiFlash.Functions
