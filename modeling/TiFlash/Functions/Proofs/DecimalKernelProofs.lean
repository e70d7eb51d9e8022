import TiFlash.Functions.DecimalSpec

/-!
# The kernel on operands that fit

If the operands and the scaled operands are values of the type of the computation, then each kernel computes
the operation on integers. A checked type throws if they are not.
-/

namespace TiFlash.Functions

open TiFlash.Lib DecimalBinaryOperation NativeType IntType

/-! ## Digits -/

/-! ## Integer types -/

/-- All numbers of so many digits are values of the type. -/
def NativeType.digits : NativeType → Nat
  | int32 => 9
  | int64 => 18
  | int128 => 38
  | int256 => 77
  | int512 => 154

namespace NativeType

variable {type : NativeType}

theorem inRange_of_abs_le_pow {v : Int} (h : |v| ≤ 10 ^ type.digits) :
    type.toIntType.InRange v := by
  refine IntType.inRange_of_abs_le h ?_ ?_
  · cases type <;> decide +kernel
  · cases type <;> decide +kernel

theorem inRange_of_abs_lt {v : Int} {n : Nat} (h : |v| < 10 ^ n)
    (hn : n ≤ type.digits) : type.toIntType.InRange v := by
  refine inRange_of_abs_le_pow (h.le.trans ?_)
  exact pow_le_pow_right₀ (by norm_num) hn

theorem inRange_pow {n : Nat} (hn : n ≤ type.digits) :
    type.toIntType.InRange (10 ^ n) := by
  refine inRange_of_abs_le_pow ?_
  rw [abs_of_pos (by positivity)]
  exact pow_le_pow_right₀ (by norm_num) hn

theorem ofPrecision_eq_int256 {prec : Nat} : ofPrecision prec = int256 ↔ 38 < prec := by
  unfold ofPrecision
  split_ifs <;> simp <;> omega

theorem le_digits_ofPrecision {prec : Nat} (h : prec ≤ 65) : prec ≤ (ofPrecision prec).digits := by
  unfold ofPrecision
  split_ifs <;> simp only [digits] <;> omega

theorem digits_le_digits_promote (type : NativeType) : type.digits ≤ type.promote.digits := by
  cases type <;> decide

end NativeType

/-! ## Operations -/

namespace Operation

variable (op : Operation) (left right : DataTypeDecimal)

theorem resultPrec_le : op.resultPrec left right ≤ 65 := by
  have hl := left.precision_le
  have hr := right.precision_le
  cases op <;> simp only [resultPrec, decimalMaxPrec] at * <;> omega

theorem digits_result_le_inputType :
    (op.kernel left right).result.digits ≤ (op.kernel left right).inputType.digits := by
  unfold inputType
  split_ifs
  · exact digits_le_digits_promote _
  · exact le_rfl

theorem result_eq_int256 : (op.kernel left right).result = .int256 ↔ 38 < op.resultPrec left right :=
  ofPrecision_eq_int256

/-- How many digits the machine operation, and a dividend before it, may have. -/
def width : Nat :=
  match op with
  | plus | minus =>
    max left.scale right.scale + max (left.precision - left.scale) (right.precision - right.scale) + 1
  | multiply => left.precision + right.precision
  | divide => left.precision + op.leftExponent left right
  | modulo => max left.precision right.precision

theorem leftExponent_divide_le : divide.leftExponent left right ≤ right.scale + 4 := by
  simp only [leftExponent, resultScale, divPrecincrement]
  omega

theorem width_le_resultPrec (h : op.resultPrec left right < 65) :
    op.width left right ≤ op.resultPrec left right := by
  have hdiv := leftExponent_divide_le left right
  cases op <;> simp only [resultPrec, width, decimalMaxPrec, divPrecincrement] at * <;> omega

theorem width_le_result (h : (op.kernel left right).result ≠ .int256) :
    op.width left right ≤ 38 ∧ op.width left right ≤ (op.kernel left right).result.digits := by
  rw [Ne, result_eq_int256, not_lt] at h
  have hwidth := op.width_le_resultPrec left right (by omega)
  exact ⟨hwidth.trans h, hwidth.trans (le_digits_ofPrecision (op.resultPrec_le left right))⟩

/-- Without a promotion the operands are at most `Decimal128`, or it is a remainder. -/
theorem precision_le_of_not_promoted (h : (op.kernel left right).result = .int256)
    (hpromote : (op.kernel left right).needPromoteType = false) (hop : op ≠ modulo) :
    left.precision ≤ 38 ∧ right.precision ≤ 38 := by
  have hne : left.native ≠ .int256 ∧ right.native ≠ .int256 := by
    simp only [needPromoteType, h] at hpromote
    simp only [kernel] at hpromote
    refine ⟨fun heq => ?_, fun heq => ?_⟩ <;> simp [heq, hop] at hpromote
  simp only [DataTypeDecimal.native, Ne, ofPrecision_eq_int256, not_lt] at hne
  exact hne

theorem width_le_inputType : op.width left right ≤ (op.kernel left right).inputType.digits := by
  by_cases h : (op.kernel left right).result = .int256
  · have hl := left.precision_le
    have hr := right.precision_le
    have hls := left.scale_le
    have hrs := right.scale_le
    have hdiv := leftExponent_divide_le left right
    have hbound : op.width left right ≤ 154 := by
      cases op <;> simp only [width, decimalMaxPrec, decimalMaxScale] at * <;> omega
    unfold inputType
    split_ifs with hpromote
    · rw [h]
      exact hbound
    · rw [h]
      show op.width left right ≤ 77
      by_cases hop : op = modulo
      · subst hop
        simp only [width, decimalMaxPrec] at *
        omega
      · obtain ⟨hl38, hr38⟩ := op.precision_le_of_not_promoted left right h (Bool.eq_false_iff.2 hpromote) hop
        cases op <;> simp only [width, decimalMaxPrec, decimalMaxScale] at * <;> omega
  · exact (op.width_le_result left right h).2.trans (op.digits_result_le_inputType left right)

end Operation

/-! ## The result as a computation on integers -/

theorem DataTypeDecimal.value_mul_pow (type : DataTypeDecimal) (x : Int) {s : Nat} (h : type.scale ≤ s) :
    type.value x * 10 ^ s = ((x * 10 ^ (s - type.scale) : Int) : ℚ) := by
  have hpow : (10 : ℚ) ^ s = 10 ^ (s - type.scale) * 10 ^ type.scale := by
    rw [← pow_add, Nat.sub_add_cancel h]
  rw [value, hpow]
  push_cast
  field_simp

namespace Operation

variable (op : Operation) (left right : DataTypeDecimal) (x y : Int)

def onInts (a b : Int) : Operation → Int
  | plus => a + b
  | minus => a - b
  | multiply => a * b
  | divide => a.tdiv b
  | modulo => a.tmod b

/-- The operands with the factors that `getScales` returns. -/
def scaledLeft : Int := x * 10 ^ op.leftExponent left right

def scaledRight : Int := y * 10 ^ op.rightExponent left right

/-- What the kernel computes if every step fits its type. -/
def scaled : Int := (op.onInts (op.scaledLeft left right x) (op.scaledRight left right y)).tdiv
    (10 ^ op.resultExponent left right)

/-! ## Exactness -/

/-- The operations whose result is never cut off. -/
def IsIntegral : Prop := op = plus ∨ op = minus ∨ op = modulo

theorem value_left_mul (hop : op.IsIntegral) :
    left.value x * 10 ^ op.resultScale left right = op.scaledLeft left right x := by
  rcases hop with rfl | rfl | rfl <;> exact left.value_mul_pow x (le_max_left _ _)

theorem value_right_mul (hop : op.IsIntegral) :
    right.value y * 10 ^ op.resultScale left right = op.scaledRight left right y := by
  rcases hop with rfl | rfl | rfl <;> exact right.value_mul_pow y (le_max_right _ _)

section Exactness

variable {left right} {x y}

theorem exactScaled_multiply :
    multiply.exactScaled left right x y =
      ((x * y : Int) : ℚ) / ((10 ^ multiply.resultExponent left right : Int) : ℚ) := by
  have hle : multiply.resultScale left right ≤ left.scale + right.scale := min_le_left _ _
  have hpow : (10 : ℚ) ^ multiply.resultScale left right * 10 ^ multiply.resultExponent left right =
      10 ^ left.scale * 10 ^ right.scale := by
    simp only [resultExponent]
    rw [← pow_add, ← pow_add, Nat.add_sub_cancel' hle]
  rw [eq_div_iff (by positivity)]
  simp only [exactScaled, exact, DataTypeDecimal.value]
  push_cast
  rw [mul_assoc, hpow]
  field_simp

theorem exactScaled_divide (hy : y ≠ 0) :
    divide.exactScaled left right x y = ((divide.scaledLeft left right x : Int) : ℚ) / (y : ℚ) := by
  have hle : left.scale ≤ right.scale + divide.resultScale left right := by
    have := left.scale_le
    simp only [resultScale, decimalMaxScale] at *
    omega
  have hpow : (10 : ℚ) ^ divide.leftExponent left right * 10 ^ left.scale =
      10 ^ right.scale * 10 ^ divide.resultScale left right := by
    simp only [leftExponent]
    rw [← pow_add, ← pow_add, Nat.sub_add_cancel hle]
  simp only [exactScaled, exact, DataTypeDecimal.value, scaledLeft]
  push_cast
  field_simp
  linear_combination -(x : ℚ) * hpow

theorem exactScaled_modulo :
    modulo.exactScaled left right x y =
      (((modulo.scaledLeft left right x).tmod (modulo.scaledRight left right y) : Int) : ℚ) := by
  have hl := modulo.value_left_mul left right x (.inr (.inr rfl))
  have hr := modulo.value_right_mul left right y (.inr (.inr rfl))
  have hquot : left.value x / right.value y =
      (modulo.scaledLeft left right x : ℚ) / (modulo.scaledRight left right y : ℚ) := by
    rw [← hl, ← hr, mul_div_mul_right _ _ (by positivity)]
  simp only [exactScaled, exact]
  rw [hquot, truncate_div, Int.tmod_def, sub_mul, mul_right_comm, hl, hr]
  push_cast
  rfl

theorem exactScaled_of_isIntegral (hop : op.IsIntegral) :
    op.exactScaled left right x y = ((op.scaled left right x y : Int) : ℚ) := by
  have hl := op.value_left_mul left right x hop
  have hr := op.value_right_mul left right y hop
  rcases hop with rfl | rfl | rfl
  · simp only [exactScaled, exact, scaled, onInts, resultExponent, pow_zero, Int.tdiv_one]
    rw [add_mul, hl, hr, Int.cast_add]
  · simp only [exactScaled, exact, scaled, onInts, resultExponent, pow_zero, Int.tdiv_one]
    rw [sub_mul, hl, hr, Int.cast_sub]
  · rw [exactScaled_modulo]
    simp [scaled, onInts, resultExponent]

theorem truncate_exactScaled (hdef : op.Defined y) :
    truncate (op.exactScaled left right x y) = op.scaled left right x y := by
  cases op with
  | plus => rw [exactScaled_of_isIntegral _ (.inl rfl), truncate_intCast]
  | minus => rw [exactScaled_of_isIntegral _ (.inr (.inl rfl)), truncate_intCast]
  | multiply =>
    rw [exactScaled_multiply, truncate_div]
    simp [scaled, onInts, scaledLeft, scaledRight, leftExponent, rightExponent]
  | divide =>
    rw [exactScaled_divide (hdef (.inl rfl)), truncate_div]
    simp [scaled, onInts, scaledRight, rightExponent, resultExponent]
  | modulo => rw [exactScaled_of_isIntegral _ (.inr (.inr rfl)), truncate_intCast]

theorem isResult_iff (hdef : op.Defined y) (v : Int) :
    op.IsResult left right x y v ↔ v = op.scaled left right x y := by
  have htrunc : truncate (op.exactScaled left right x y) = op.scaled left right x y :=
    op.truncate_exactScaled hdef
  cases op with
  | plus => rw [IsResult, exactScaled_of_isIntegral _ (.inl rfl), Int.cast_inj]
  | minus => rw [IsResult, exactScaled_of_isIntegral _ (.inr (.inl rfl)), Int.cast_inj]
  | multiply | divide => rw [IsResult, htrunc]
  | modulo => rw [IsResult, exactScaled_of_isIntegral _ (.inr (.inr rfl)), Int.cast_inj]

end Exactness

/-! ## Digits -/

section Digits

variable {left right} {x y}

theorem abs_mul_pow_lt {v : Int} {p : Nat} (n : Nat) (h : |v| < 10 ^ p) : |v * 10 ^ n| < 10 ^ (p + n) := by
  rw [abs_mul, abs_of_pos (a := (10 : Int) ^ n) (by positivity), pow_add]
  exact mul_lt_mul_of_pos_right h (by positivity)

theorem abs_tdiv_le (a b : Int) : |a.tdiv b| ≤ |a| := by
  rw [Int.abs_eq_natAbs, Int.abs_eq_natAbs]
  exact_mod_cast Int.natAbs_tdiv_le_natAbs a b

theorem abs_tmod_le (a b : Int) : |a.tmod b| ≤ |a| := by
  rw [Int.abs_eq_natAbs, Int.abs_eq_natAbs, Int.natAbs_tmod]
  exact_mod_cast Nat.mod_le _ _

theorem abs_tmod_lt (a : Int) {b : Int} (hb : b ≠ 0) : |a.tmod b| < |b| := by
  rw [Int.abs_eq_natAbs, Int.abs_eq_natAbs, Int.natAbs_tmod]
  exact_mod_cast Nat.mod_lt _ (Int.natAbs_pos.2 hb)

theorem abs_add_lt_pow {a b : Int} {n : Nat} (ha : |a| < 10 ^ n) (hb : |b| < 10 ^ n) :
    |a + b| < 10 ^ (n + 1) := by
  have hpow : (10 : Int) ^ (n + 1) = 10 * 10 ^ n := pow_succ' 10 n
  have hpos : (0 : Int) < 10 ^ n := by positivity
  have := abs_add_le a b
  linarith

theorem abs_scaledLeft_lt (hop : op = plus ∨ op = minus) (hx : left.InPrecision x) :
    |op.scaledLeft left right x| < 10 ^ (max left.scale right.scale +
      max (left.precision - left.scale) (right.precision - right.scale)) := by
  refine (abs_mul_pow_lt _ hx).trans_le (pow_le_pow_right₀ (by norm_num) ?_)
  rcases hop with rfl | rfl <;> simp only [leftExponent, resultScale] <;> omega

theorem abs_scaledRight_lt (hop : op = plus ∨ op = minus) (hy : right.InPrecision y) :
    |op.scaledRight left right y| < 10 ^ (max left.scale right.scale +
      max (left.precision - left.scale) (right.precision - right.scale)) := by
  refine (abs_mul_pow_lt _ hy).trans_le (pow_le_pow_right₀ (by norm_num) ?_)
  rcases hop with rfl | rfl <;> simp only [rightExponent, resultScale] <;> omega

section

variable (hx : left.InPrecision x) (hy : right.InPrecision y) (hdef : op.Defined y)
include hx hy hdef

theorem abs_onInts_lt :
    |op.onInts (op.scaledLeft left right x) (op.scaledRight left right y)| < 10 ^ op.width left right := by
  cases op with
  | plus =>
    exact abs_add_lt_pow (abs_scaledLeft_lt _ (.inl rfl) hx) (abs_scaledRight_lt _ (.inl rfl) hy)
  | minus =>
    refine abs_add_lt_pow (abs_scaledLeft_lt _ (.inr rfl) hx) ?_
    rw [abs_neg]
    exact abs_scaledRight_lt _ (.inr rfl) hy
  | multiply =>
    simp only [onInts, scaledLeft, scaledRight, leftExponent, rightExponent, pow_zero, mul_one, width]
    rw [abs_mul, pow_add]
    exact mul_lt_mul'' hx hy (abs_nonneg _) (abs_nonneg _)
  | divide => exact (abs_tdiv_le _ _).trans_lt (abs_mul_pow_lt _ hx)
  | modulo =>
    -- only one operand is scaled, and the remainder is bounded by the other one
    rcases le_total left.scale right.scale with hle | hle
    · have hright : modulo.scaledRight left right y = y := by
        simp [scaledRight, rightExponent, resultScale, max_eq_right hle]
      rw [hright]
      refine (abs_tmod_lt _ (hdef (.inr rfl))).trans (hy.trans_le ?_)
      exact pow_le_pow_right₀ (by norm_num) (le_max_right _ _)
    · have hleft : modulo.scaledLeft left right x = x := by
        simp [scaledLeft, leftExponent, resultScale, max_eq_left hle]
      rw [hleft]
      refine (abs_tmod_le _ _).trans_lt (hx.trans_le ?_)
      exact pow_le_pow_right₀ (by norm_num) (le_max_left _ _)

theorem abs_scaled_lt :
    |op.scaled left right x y| < 10 ^ op.width left right :=
  (abs_tdiv_le _ _).trans_lt (op.abs_onInts_lt hx hy hdef)

end

end Digits

end Operation

/-! ## The kernel on operands that fit -/

theorem getScaleMultiplier_eq {type : NativeType} {n : Nat} (h : n ≤ type.digits) :
    getScaleMultiplier type n = .ok (10 ^ n) := by
  induction n with
  | zero => rfl
  | succ n ih =>
    have hrange := inRange_pow h
    rw [pow_succ] at hrange
    simp only [getScaleMultiplier, ih (by omega), bind, Except.bind]
    rw [store_of_inRange hrange, pow_succ]

/-- The one remainder that the machine does not compute. -/
def MinByMinusOne (type : NativeType) (a b : Int) : Prop :=
  type.toIntType.checked = false ∧ a = -(2 ^ (type.toIntType.bits - 1)) ∧ b = -1

theorem Operation.applyIn_eq {op : Operation} {type : NativeType} {a b : Int} (hdef : op.Defined b)
    (hmin : op = .modulo → ¬ MinByMinusOne type a b) (h : type.toIntType.InRange (op.onInts a b)) :
    op.applyIn type a b = .ok (op.onInts a b) := by
  cases op with
  | plus | minus | multiply => exact store_of_inRange h
  | divide =>
    rw [applyIn, if_neg (hdef (.inl rfl))]
    exact store_of_inRange h
  | modulo =>
    unfold MinByMinusOne at hmin
    rw [applyIn, if_neg (hdef (.inr rfl)), if_neg (hmin rfl)]
    exact store_of_inRange h

namespace DecimalBinaryOperation

variable {k : DecimalBinaryOperation} {a b scale r : Int}

section

variable (ha : k.result.toIntType.InRange a) (hb : k.result.toIntType.InRange b)
  (hop : k.op.applyIn k.inputType a b = .ok r)
include ha hb hop

theorem apply_eq : k.apply a b = k.finish r := by
  simp only [apply, cast_of_inRange ha, cast_of_inRange hb, hop, bind, Except.bind]

theorem applyScaledMul_eq : k.applyScaledMul a b scale = k.finish (r.tdiv scale) := by
  simp only [applyScaledMul, cast_of_inRange ha, cast_of_inRange hb, hop, bind,
    Except.bind]

end

section ApplyScaled

variable (ha : k.inputType.toIntType.InRange a) (hb : k.inputType.toIntType.InRange b)

include ha hb

theorem applyScaled_left_eq (hscaled : k.inputType.toIntType.InRange (a * scale))
    (hop : k.op.applyIn k.inputType (a * scale) b = .ok r) :
    k.applyScaled true a b scale = k.finish r := by
  simp [applyScaled, cast_of_inRange ha, cast_of_inRange hb, store_of_inRange hscaled, hop, bind, Except.bind, pure, Except.pure]

theorem applyScaled_right_eq (hscaled : k.inputType.toIntType.InRange (b * scale))
    (hop : k.op.applyIn k.inputType a (b * scale) = .ok r) :
    k.applyScaled false a b scale = k.finish r := by
  simp [applyScaled, cast_of_inRange ha, cast_of_inRange hb, store_of_inRange hscaled, hop, bind, Except.bind, pure, Except.pure]

theorem applyScaled_left_throws (hchecked : k.inputType.toIntType.checked = true)
    (hscaled : ¬ k.inputType.toIntType.InRange (a * scale)) :
    k.applyScaled true a b scale = .error .overflow := by
  simp [applyScaled, cast_of_inRange ha, cast_of_inRange hb, store_of_checked hchecked hscaled, bind, Except.bind]

theorem applyScaled_right_throws (hchecked : k.inputType.toIntType.checked = true)
    (hscaled : ¬ k.inputType.toIntType.InRange (b * scale)) :
    k.applyScaled false a b scale = .error .overflow := by
  simp [applyScaled, cast_of_inRange ha, cast_of_inRange hb, store_of_checked hchecked hscaled, bind, Except.bind, pure, Except.pure]

end ApplyScaled

/-- A divisor of a checked type that does not fit is noticed. -/
theorem applyScaled_throws_of_right (ha : k.inputType.toIntType.InRange a)
    (hright : k.right.toIntType.checked = true) (hb : ¬ k.inputType.toIntType.InRange b) (scaleLeft : Bool) :
    k.applyScaled scaleLeft a b scale = .error .overflow := by
  have hchecked : (k.right.toIntType.checked || k.inputType.toIntType.checked) = true := by
    rw [hright, Bool.true_or]
  simp only [applyScaled, cast_of_inRange ha, cast_of_checked hchecked hb, bind, Except.bind]

end DecimalBinaryOperation

/-! ## Operands that fit -/

namespace Operation

section Operands

variable {op : Operation} {left right : DataTypeDecimal} {x y : Int}

theorem exponents_le (op : Operation) (left right : DataTypeDecimal) :
    op.leftExponent left right ≤ op.resultPrec left right ∧
      op.rightExponent left right ≤ op.resultPrec left right ∧
      op.resultExponent left right ≤ op.resultPrec left right := by
  have hl := left.scale_le_precision
  have hr := right.scale_le_precision
  have hls := left.scale_le
  have hrs := right.scale_le
  cases op <;>
    simp only [leftExponent, rightExponent, resultExponent, resultPrec, resultScale, decimalMaxPrec,
      decimalMaxScale, divPrecincrement] at * <;>
    omega

theorem resultPrec_le_digits (op : Operation) (left right : DataTypeDecimal) :
    op.resultPrec left right ≤ (op.kernel left right).result.digits :=
  le_digits_ofPrecision (op.resultPrec_le left right)

theorem execute_eq_kernel :
    op.execute left right x y =
      (op.kernel left right).execute x y (10 ^ op.leftExponent left right)
        (10 ^ op.rightExponent left right) (10 ^ op.resultExponent left right) := by
  obtain ⟨hleft, hright, hresult⟩ := op.exponents_le left right
  have hdigits := op.resultPrec_le_digits left right
  simp only [execute, getScaleMultiplier_eq (hleft.trans hdigits), getScaleMultiplier_eq (hright.trans hdigits),
    getScaleMultiplier_eq (hresult.trans hdigits), bind, Except.bind]

theorem left_precision_le : left.precision ≤ op.width left right := by
  cases op <;> simp only [width] <;> omega

theorem right_precision_le (hop : op ≠ divide) : right.precision ≤ op.width left right := by
  cases op <;> simp only [width] <;> first | contradiction | omega

theorem precisions_le_resultPrec (left right : DataTypeDecimal) (hop : op ≠ divide) :
    left.precision ≤ op.resultPrec left right ∧ right.precision ≤ op.resultPrec left right := by
  have hlp := left.precision_le
  have hrp := right.precision_le
  cases op <;> simp only [resultPrec, decimalMaxPrec] at * <;> first | contradiction | omega

theorem inRange_left (op : Operation) (right : DataTypeDecimal) (hx : left.InPrecision x) :
    (op.kernel left right).inputType.toIntType.InRange x :=
  inRange_of_abs_lt hx (left_precision_le.trans (op.width_le_inputType left right))

theorem inRange_right (left : DataTypeDecimal) (hop : op ≠ divide) (hy : right.InPrecision y) :
    (op.kernel left right).inputType.toIntType.InRange y :=
  inRange_of_abs_lt hy ((right_precision_le hop).trans (op.width_le_inputType left right))

theorem inRange_result (hop : op ≠ divide) (hx : left.InPrecision x) (hy : right.InPrecision y) :
    (op.kernel left right).result.toIntType.InRange x ∧ (op.kernel left right).result.toIntType.InRange y := by
  obtain ⟨hl, hr⟩ := precisions_le_resultPrec left right hop
  exact ⟨inRange_of_abs_lt hx (hl.trans (op.resultPrec_le_digits left right)),
    inRange_of_abs_lt hy (hr.trans (op.resultPrec_le_digits left right))⟩

theorem inRange_onInts (hx : left.InPrecision x) (hy : right.InPrecision y) (hdef : op.Defined y) :
    (op.kernel left right).inputType.toIntType.InRange
      (op.onInts (op.scaledLeft left right x) (op.scaledRight left right y)) :=
  inRange_of_abs_lt (op.abs_onInts_lt hx hy hdef) (op.width_le_inputType left right)

end Operands

end Operation

end TiFlash.Functions
