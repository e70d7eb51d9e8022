import TiFlash.Functions.Proofs.DecimalKernelProofs

/-!
# Arithmetic on decimals is exact or throws, up to four gaps

If the operands reach the machine operation unchanged, only the end can go wrong: the check for too many
digits is missing for negative results, and for results wider than both operands.
-/

namespace TiFlash.Functions

open TiFlash.Lib DecimalBinaryOperation NativeType IntType

namespace Operation

variable {op : Operation} {left right : DataTypeDecimal} {x y : Int}

/-! ## The smallest number by minus one -/

theorem neg_two_pow_ne_mul_ten (k n : Nat) (v : Int) : v * 10 ^ (n + 1) ≠ -(2 ^ k) := by
  intro h
  have hdvd : (5 : Int) ∣ 2 ^ k := by
    rw [← dvd_neg, ← h, pow_succ]
    exact ⟨v * 10 ^ n * 2, by ring⟩
  have hprime : Nat.Prime 5 := by norm_num
  have htwo : 5 ∣ 2 := hprime.dvd_of_dvd_pow (by exact_mod_cast hdvd)
  omega

theorem not_minByMinusOne (hx : left.InPrecision x) (b : Int) :
    ¬ MinByMinusOne (op.kernel left right).inputType (op.scaledLeft left right x) b := by
  rintro ⟨hchecked, hmin, -⟩
  rw [scaledLeft] at hmin
  cases hexp : op.leftExponent left right with
  | zero =>
    -- the opposite number has as few digits as `x`, but it is no value of the type
    rw [hexp, pow_zero, mul_one] at hmin
    have hneg : |(-x)| < 10 ^ left.precision := by
      rw [abs_neg]
      exact hx
    have hrange := inRange_of_abs_lt hneg
      (left_precision_le.trans (op.width_le_inputType left right))
    simp only [IntType.InRange, hchecked, Bool.false_eq_true, if_false] at hrange
    omega
  | succ n =>
    rw [hexp] at hmin
    exact neg_two_pow_ne_mul_ten _ n x hmin

/-! ## The kernels -/

theorem scaledRight_ne_zero (hy : y ≠ 0) : op.scaledRight left right y ≠ 0 := mul_ne_zero hy (by positivity)

theorem applyIn_scaled (hx : left.InPrecision x) (hy : right.InPrecision y) (hdef : op.Defined y) :
    op.applyIn (op.kernel left right).inputType (op.scaledLeft left right x) (op.scaledRight left right y) =
      .ok (op.onInts (op.scaledLeft left right x) (op.scaledRight left right y)) := by
  refine applyIn_eq ?_ (fun _ => not_minByMinusOne hx _) (inRange_onInts hx hy hdef)
  intro hop
  exact scaledRight_ne_zero (hdef hop)

theorem scaled_of_resultExponent (h : op.resultExponent left right = 0) :
    op.onInts (op.scaledLeft left right x) (op.scaledRight left right y) = op.scaled left right x y := by
  rw [scaled, h, pow_zero, Int.tdiv_one]

theorem exponent_eq_zero (op : Operation) (left right : DataTypeDecimal) :
    op.leftExponent left right = 0 ∨ op.rightExponent left right = 0 := by
  cases op with
  | plus | minus | modulo =>
    simp only [leftExponent, rightExponent, resultScale]
    omega
  | multiply | divide => exact .inr rfl

theorem ten_pow_ne_one {n : Nat} (h : n ≠ 0) : (10 : Int) ^ n ≠ 1 := (one_lt_pow₀ (by norm_num) h).ne'

theorem execute_of_isIntegral (hop : op.IsIntegral) (a b scaleA scaleB scaleResult : Int) :
    (op.kernel left right).execute a b scaleA scaleB scaleResult =
      if scaleA ≠ 1 then (op.kernel left right).applyScaled true a b scaleA
      else if scaleB ≠ 1 then (op.kernel left right).applyScaled false a b scaleB
      else (op.kernel left right).apply a b := by
  rcases hop with rfl | rfl | rfl <;> rfl

/-- Sums, differences and remainders: either the scaled operands fit, or the overflow is noticed if the
type is a checked one. -/
theorem execute_isIntegral_spec (hop : op.IsIntegral) (hx : left.InPrecision x) (hy : right.InPrecision y)
    (hdef : op.Defined y)
    (hleft : (op.kernel left right).inputType.toIntType.checked = true ∨
      (op.kernel left right).inputType.toIntType.InRange (op.scaledLeft left right x))
    (hright : (op.kernel left right).inputType.toIntType.checked = true ∨
      (op.kernel left right).inputType.toIntType.InRange (op.scaledRight left right y)) :
    op.execute left right x y = (op.kernel left right).finish (op.scaled left right x y) ∨
      op.execute left right x y = .error .overflow ∧
        ¬ ((op.kernel left right).inputType.toIntType.InRange (op.scaledLeft left right x) ∧
          (op.kernel left right).inputType.toIntType.InRange (op.scaledRight left right y)) := by
  have hne : op ≠ divide := by rcases hop with rfl | rfl | rfl <;> decide
  have hresult : op.resultExponent left right = 0 := by rcases hop with rfl | rfl | rfl <;> rfl
  have hx' := inRange_left op right hx
  have hy' := inRange_right left hne hy
  have happly := applyIn_scaled hx hy hdef
  rw [scaled_of_resultExponent hresult] at happly
  rw [execute_eq_kernel, execute_of_isIntegral hop]
  by_cases hzero : op.leftExponent left right = 0
  · by_cases hzero' : op.rightExponent left right = 0
    · simp only [scaledLeft, scaledRight, hzero, hzero', pow_zero, mul_one] at happly ⊢
      obtain ⟨hxr, hyr⟩ := inRange_result hne hx hy
      exact .inl (apply_eq hxr hyr happly)
    · rw [if_neg (by rw [hzero, pow_zero]; exact not_not.2 rfl), if_pos (ten_pow_ne_one hzero')]
      have hleftEq : op.scaledLeft left right x = x := by rw [scaledLeft, hzero, pow_zero, mul_one]
      rw [hleftEq] at happly ⊢
      by_cases hfit : (op.kernel left right).inputType.toIntType.InRange (op.scaledRight left right y)
      · exact .inl (applyScaled_right_eq hx' hy' hfit happly)
      · exact .inr ⟨applyScaled_right_throws hx' hy' (hright.resolve_right hfit) hfit, fun h => hfit h.2⟩
  · rw [if_pos (ten_pow_ne_one hzero)]
    have hzero' := (op.exponent_eq_zero left right).resolve_left hzero
    have hrightEq : op.scaledRight left right y = y := by rw [scaledRight, hzero', pow_zero, mul_one]
    rw [hrightEq] at happly ⊢
    by_cases hfit : (op.kernel left right).inputType.toIntType.InRange (op.scaledLeft left right x)
    · exact .inl (applyScaled_left_eq hx' hy' hfit happly)
    · exact .inr ⟨applyScaled_left_throws hx' hy' (hleft.resolve_right hfit) hfit, fun h => hfit h.1⟩

section

variable (hx : left.InPrecision x) (hy : right.InPrecision y)
include hx hy

theorem execute_multiply : multiply.execute left right x y =
      (multiply.kernel left right).finish (multiply.scaled left right x y) := by
  have hne : multiply ≠ divide := by decide
  have hdef : multiply.Defined y := by rintro (h | h) <;> cases h
  have happly := applyIn_scaled hx hy hdef
  obtain ⟨hxr, hyr⟩ := inRange_result hne hx hy
  have hleft : multiply.scaledLeft left right x = x := mul_one x
  have hright : multiply.scaledRight left right y = y := mul_one y
  rw [execute_eq_kernel, scaled]
  rw [hleft, hright] at happly ⊢
  exact applyScaledMul_eq hxr hyr happly

theorem execute_divide (hdef : divide.Defined y)
    (hrange : (divide.kernel left right).inputType.toIntType.InRange y) :
    divide.execute left right x y = (divide.kernel left right).finish (divide.scaled left right x y) := by
  have happly := applyIn_scaled hx hy hdef
  rw [scaled_of_resultExponent rfl] at happly
  have hright : divide.scaledRight left right y = y := mul_one y
  have hleft : (divide.kernel left right).inputType.toIntType.InRange (divide.scaledLeft left right x) :=
    inRange_of_abs_lt (abs_mul_pow_lt _ hx) (divide.width_le_inputType left right)
  rw [hright] at happly
  rw [execute_eq_kernel]
  exact applyScaled_left_eq (inRange_left divide right hx) hrange hleft happly

/-- A `Decimal256` divisor that does not fit: the result is no `Decimal256`, and the conversion throws. -/
theorem execute_divide_throws
    (hright : right.native = .int256) (hrange : ¬ (divide.kernel left right).inputType.toIntType.InRange y) :
    divide.execute left right x y = .error .overflow ∧ (divide.kernel left right).result ≠ .int256 := by
  constructor
  · rw [execute_eq_kernel]
    refine applyScaled_throws_of_right (inRange_left divide right hx) ?_ hrange true
    show right.native.toIntType.checked = true
    rw [hright]
    rfl
  · intro hresult
    refine hrange (inRange_of_abs_lt hy (right.precision_le.trans ?_))
    have hdigits := divide.digits_result_le_inputType left right
    rw [hresult] at hdigits
    exact le_trans (by decide) hdigits

end

theorem execute_sum (hop : op = plus ∨ op = minus) (hx : left.InPrecision x) (hy : right.InPrecision y) :
    op.execute left right x y = (op.kernel left right).finish (op.scaled left right x y) := by
  have hintegral : op.IsIntegral := hop.imp_right .inl
  have hdef : op.Defined y := by rcases hop with rfl | rfl <;> rintro (h | h) <;> cases h
  have hwidth : max left.scale right.scale +
      max (left.precision - left.scale) (right.precision - right.scale) ≤ op.width left right := by
    rcases hop with rfl | rfl <;> exact Nat.le_succ _
  have hdigits := hwidth.trans (op.width_le_inputType left right)
  have hl := inRange_of_abs_lt (abs_scaledLeft_lt op hop hx) hdigits
  have hr := inRange_of_abs_lt (abs_scaledRight_lt op hop hy) hdigits
  refine (execute_isIntegral_spec hintegral hx hy hdef (.inr hl) (.inr hr)).resolve_right ?_
  rintro ⟨-, hnot⟩
  exact hnot ⟨hl, hr⟩

/-- Operands that fit reach the end of the kernel, or an overflow is noticed before it. -/
theorem execute_spec (hx : left.InPrecision x) (hy : right.InPrecision y) (hdef : op.Defined y)
    (hfit : op.OperandsFit left right x y) :
    op.execute left right x y = (op.kernel left right).finish (op.scaled left right x y) ∨
      op.execute left right x y = .error .overflow ∧
        (op = modulo ∨ (op.kernel left right).result ≠ .int256) := by
  cases op with
  | plus => exact .inl (execute_sum (.inl rfl) hx hy)
  | minus => exact .inl (execute_sum (.inr rfl) hx hy)
  | multiply => exact .inl (execute_multiply hx hy)
  | divide =>
    by_cases hrange : (divide.kernel left right).inputType.toIntType.InRange y
    · exact .inl (execute_divide hx hy hdef hrange)
    · obtain ⟨hthrows, hresult⟩ := execute_divide_throws hx hy (hfit.resolve_right hrange) hrange
      exact .inr ⟨hthrows, .inr hresult⟩
  | modulo =>
    have hinput : (modulo.kernel left right).inputType = (modulo.kernel left right).result := by
      simp [inputType, needPromoteType, kernel]
    have hchecked : (modulo.kernel left right).result = .int256 →
        (modulo.kernel left right).inputType.toIntType.checked = true := by
      intro h
      rw [hinput, h]
      rfl
    refine (execute_isIntegral_spec (.inr (.inr rfl)) hx hy hdef ?_ ?_).imp_right fun h => ⟨h.1, .inl rfl⟩
    · exact hfit.imp hchecked And.left
    · exact hfit.imp hchecked And.right

/-! ## The end of the kernel -/

theorem finish_narrow (h : (op.kernel left right).result ≠ .int256) (hx : left.InPrecision x)
    (hy : right.InPrecision y) (hdef : op.Defined y) :
    (op.kernel left right).finish (op.scaled left right x y) = .ok (op.scaled left right x y) ∧
      |op.scaled left right x y| < 10 ^ decimalMaxPrec := by
  obtain ⟨hwidth, hdigits⟩ := op.width_le_result left right h
  have hlt := op.abs_scaled_lt hx hy hdef
  have hcheck : (op.kernel left right).checkOverflow = false := by
    simp [checkOverflow, h]
  constructor
  · simp only [finish, hcheck, Bool.false_and, Bool.false_eq_true, if_false]
    exact cast_of_inRange (inRange_of_abs_lt hlt hdigits)
  · exact hlt.trans_le (pow_le_pow_right₀ (by norm_num) (hwidth.trans (by decide)))

theorem finish_unpromoted (hpromote : (op.kernel left right).needPromoteType = false)
    (hx : left.InPrecision x) (hy : right.InPrecision y) (hdef : op.Defined y) :
    (op.kernel left right).finish (op.scaled left right x y) = .ok (op.scaled left right x y) := by
  have hinput : (op.kernel left right).inputType = (op.kernel left right).result := by
    simp [inputType, hpromote]
  have hdigits := op.width_le_inputType left right
  rw [hinput] at hdigits
  simp only [finish, checkOverflow, hpromote, Bool.false_and, Bool.false_eq_true, if_false]
  exact cast_of_inRange (inRange_of_abs_lt (op.abs_scaled_lt hx hy hdef) hdigits)

section Wide

variable (h : (op.kernel left right).result = .int256)

include h

theorem inRange_int256_iff (r : Int) : (op.kernel left right).result.toIntType.InRange r ↔ |r| < 2 ^ 256 := by
  rw [h]
  rfl

/-- The check is made above only; below, the conversion throws far too late. -/
theorem finish_promoted (hpromote : (op.kernel left right).needPromoteType = true) (r : Int) :
    (op.kernel left right).finish r =
      if 10 ^ decimalMaxPrec ≤ r ∨ r ≤ -(2 ^ 256) then .error .overflow else .ok r := by
  have hcheck : (op.kernel left right).checkOverflow = true := by
    simp [checkOverflow, hpromote, h]
  have hchecked : ((op.kernel left right).inputType.toIntType.checked ||
      (op.kernel left right).result.toIntType.checked) = true := by
    rw [h]
    exact Bool.or_true _
  have hmax : (10 : Int) ^ decimalMaxPrec < 2 ^ 256 := by decide +kernel
  unfold finish decimalMaxValue
  by_cases habove : 10 ^ decimalMaxPrec ≤ r
  · rw [if_pos (by simp only [hcheck, Bool.true_and, decide_eq_true_eq]; omega), if_pos (.inl habove)]
  · rw [if_neg (by simp only [hcheck, Bool.true_and, decide_eq_true_eq]; omega)]
    by_cases hbelow : r ≤ -(2 ^ 256)
    · rw [if_pos (.inr hbelow), cast_of_checked hchecked]
      rw [inRange_int256_iff h, abs_lt]
      omega
    · rw [if_neg (by tauto), cast_of_inRange]
      rw [inRange_int256_iff h, abs_lt]
      omega

end Wide

/-! ## Exact or throws -/

theorem exactOrThrows_of_execute (hdef : op.Defined y)
    (h : op.execute left right x y = (op.kernel left right).finish (op.scaled left right x y)) :
    op.ExactOrThrows left right x y ↔
      (op.kernel left right).finish (op.scaled left right x y) = .error .overflow ∨
        (op.kernel left right).finish (op.scaled left right x y) = .ok (op.scaled left right x y) ∧
          |op.scaled left right x y| < 10 ^ decimalMaxPrec := by
  rw [ExactOrThrows, h]
  refine or_congr_right ⟨?_, ?_⟩
  · rintro ⟨v, hok, hresult, hlt⟩
    rw [op.isResult_iff hdef] at hresult
    subst hresult
    exact ⟨hok, hlt⟩
  · rintro ⟨hok, hlt⟩
    exact ⟨_, hok, (op.isResult_iff hdef _).2 rfl, hlt⟩

/-- The condition on the exact result, on the integer that the kernel computes. -/
theorem resultFits_iff (hdef : op.Defined y) :
    op.ResultFits left right x y ↔ ((op.kernel left right).result = .int256 →
        if (op.kernel left right).needPromoteType then
          -(10 ^ decimalMaxPrec) < op.scaled left right x y ∨ op.scaled left right x y ≤ -(2 ^ 256)
        else |op.scaled left right x y| < 10 ^ decimalMaxPrec) := by
  have hmax : (0 : Int) < 10 ^ decimalMaxPrec := by positivity
  have hfar : (0 : Int) < 2 ^ 256 := by positivity
  rw [← op.truncate_exactScaled hdef, neg_lt_truncate_iff hmax, truncate_le_neg_iff hfar,
    abs_truncate_lt_iff hmax]
  push_cast
  rfl

theorem resultFits_modulo (hx : left.InPrecision x) (hy : right.InPrecision y) (hdef : modulo.Defined y) :
    modulo.ResultFits left right x y := by
  rw [resultFits_iff hdef]
  intro _
  rw [if_neg (by simp [needPromoteType, kernel])]
  refine (modulo.abs_scaled_lt hx hy hdef).trans_le (pow_le_pow_right₀ (by norm_num) ?_)
  exact max_le left.precision_le right.precision_le

/-- **Arithmetic on decimals.** For operands that reach the machine operation unchanged, as those of sums,
differences and products do, the function is exact or throws iff the result does not need the missing checks.
-/
theorem exactOrThrows_iff_resultFits (op : Operation) (left right : DataTypeDecimal) (x y : Int)
    (hx : left.InPrecision x) (hy : right.InPrecision y) (hdef : op.Defined y) :
    (op.OperandsFit left right x y → (op.ExactOrThrows left right x y ↔ op.ResultFits left right x y)) ∧
    (op = plus ∨ op = minus ∨ op = multiply → op.OperandsFit left right x y) := by
  refine ⟨fun hfit => ?_, ?_⟩
  · rcases execute_spec hx hy hdef hfit with hexec | ⟨hthrows, hwhy⟩
    · rw [exactOrThrows_of_execute hdef hexec, resultFits_iff hdef]
      by_cases hwide : (op.kernel left right).result = .int256
      · cases hpromote : (op.kernel left right).needPromoteType with
        | false =>
          rw [finish_unpromoted hpromote hx hy hdef]
          simp [hwide]
        | true =>
          have hpos : (0 : Int) < 10 ^ decimalMaxPrec := by positivity
          rw [finish_promoted hwide hpromote]
          simp only [hwide, if_true, forall_const]
          split_ifs with hout
          · simp only [true_or, true_iff]
            omega
          · simp only [false_or, true_and, abs_lt]
            omega
      · obtain ⟨hok, hlt⟩ := finish_narrow hwide hx hy hdef
        exact iff_of_true (.inr ⟨hok, hlt⟩) fun h => absurd h hwide
    · refine iff_of_true (.inl hthrows) ?_
      rcases hwhy with rfl | hnarrow
      · exact resultFits_modulo hx hy hdef
      · exact fun h => absurd h hnarrow
  · rintro (rfl | rfl | rfl) <;> trivial

theorem quotient_of_small_decimals :
    divide.ExactOrThrows ⟨9, 2, by decide, by decide, by decide, by decide⟩
      ⟨9, 3, by decide, by decide, by decide, by decide⟩ (-12345) 77 := by
  refine ((exactOrThrows_iff_resultFits divide _ _ (-12345) 77 (by decide) (by decide) (by decide)).1
    (.inr (by decide))).2 ?_
  intro h
  exact absurd h (by decide)

/-- Operands on which the operation neither is exact nor throws. -/
def Wrong (op : Operation) (left right : DataTypeDecimal) (x y : Int) : Prop :=
  left.InPrecision x ∧ right.InPrecision y ∧ op.Defined y ∧ ¬ op.ExactOrThrows left right x y

theorem wrong_of_ok (v : Int) (hx : left.InPrecision x) (hy : right.InPrecision y) (hdef : op.Defined y)
    (hok : op.execute left right x y = .ok v)
    (h : v ≠ op.scaled left right x y ∨ 10 ^ decimalMaxPrec ≤ |v|) : op.Wrong left right x y := by
  refine ⟨hx, hy, hdef, ?_⟩
  rintro (hthrows | ⟨v', hok', hresult, hlt⟩)
  · rw [hok] at hthrows
    cases hthrows
  · rw [hok] at hok'
    cases hok'
    rcases h with hne | hle
    · exact hne ((op.isResult_iff hdef v).1 hresult)
    · exact absurd hlt (not_lt.2 hle)

/-- A sum below the smallest decimal and a product of 76 digits are returned. A divisor and a dividend are
truncated. -/
theorem wrong_sum_product_quotient_remainder :
    plus.Wrong ⟨65, 0, by decide, by decide, by decide, by decide⟩
      ⟨65, 0, by decide, by decide, by decide, by decide⟩ (-(10 ^ 65 - 1)) (-1) ∧
    multiply.Wrong ⟨38, 0, by decide, by decide, by decide, by decide⟩
      ⟨38, 0, by decide, by decide, by decide, by decide⟩ (10 ^ 38 - 1) (10 ^ 38 - 1) ∧
    divide.Wrong ⟨5, 0, by decide, by decide, by decide, by decide⟩
      ⟨38, 0, by decide, by decide, by decide, by decide⟩ 1 (2 ^ 64 + 1) ∧
    modulo.Wrong ⟨9, 0, by decide, by decide, by decide, by decide⟩
      ⟨9, 9, by decide, by decide, by decide, by decide⟩ 123 (10 ^ 8 + 7) := by
  refine ⟨?_, ?_, ?_, ?_⟩
  · exact wrong_of_ok (-(10 ^ 65)) (by decide +kernel) (by decide +kernel) (by decide) (by decide +kernel)
      (.inr (by decide +kernel))
  · exact wrong_of_ok ((10 ^ 38 - 1) * (10 ^ 38 - 1)) (by decide +kernel) (by decide +kernel) (by decide)
      (by decide +kernel) (.inr (by decide +kernel))
  · exact wrong_of_ok 10000 (by decide +kernel) (by decide +kernel) (by decide) (by decide +kernel)
      (.inl (by decide +kernel))
  · exact wrong_of_ok (-54051479) (by decide +kernel) (by decide +kernel) (by decide) (by decide +kernel)
      (.inl (by decide +kernel))

end Operation

end TiFlash.Functions
