import TiFlash.Functions.DecimalRounding
import TiFlash.Functions.Proofs.DecimalKernelProofs

/-!
# Proofs: rounding a decimal

All four casts are right about a value that is not negative. In a negative one the remainder is negative, so
`dropScale` truncates. `scaleDown` takes the digit of the magnitude, but adjusts by the sign of the
quotient, which zero has lost.
-/

namespace TiFlash.Functions

open TiFlash.Lib List NativeType IntType

section

/-- The value with `k` digits less, rounded half away from zero. -/
def rounded (v : Int) (k : Nat) : Int := v.sign * ((v.natAbs + 5 * 10 ^ (k - 1)) / 10 ^ k : Nat)

/-- The value is not negative, or the first of the `k` digits does not round up. -/
def RoundsAlike (v : Int) (k : Nat) : Prop := 0 ≤ v ∨ v.natAbs / 10 ^ (k - 1) % 10 < 5

instance (v : Int) (k : Nat) : Decidable (RoundsAlike v k) := inferInstanceAs (Decidable (_ ∨ _))

/-! ## The loops -/

theorem tdiv_tdiv_ten (v : Int) (n : Nat) : (v.tdiv (10 ^ n)).tdiv 10 = v.tdiv (10 ^ (n + 1)) := by
  have hnat : ∀ m : Nat, ((m : Int).tdiv (10 ^ n)).tdiv 10 = (m : Int).tdiv (10 ^ (n + 1)) := fun m => by
    exact_mod_cast congrArg Int.ofNat (Nat.div_div_eq_div_mul m (10 ^ n) 10)
  obtain ⟨m, rfl | rfl⟩ := v.eq_nat_or_neg
  · exact hnat m
  · rw [Int.neg_tdiv, Int.neg_tdiv, Int.neg_tdiv, hnat]

theorem dropScale_succ (n : Nat) (v : Int) :
    dropScale (n + 1) v
      = v.tdiv (10 ^ (n + 1)) + if (v.tdiv (10 ^ n)).tmod 10 ≥ 5 then 1 else 0 := by
  -- the last turn of the loop is the only one that rounds
  have hloop : ∀ m ≤ n, (List.range m).foldl
      (fun v i => v.tdiv 10 + if i + 1 = n + 1 ∧ v.tmod 10 ≥ 5 then 1 else 0) v = v.tdiv (10 ^ m) := by
    intro m hm
    induction m with
    | zero => simp
    | succ m ih =>
      rw [range_succ, foldl_append, ih (by omega), foldl_cons, foldl_nil,
        if_neg (by omega), add_zero, tdiv_tdiv_ten]
  rw [dropScale, range_succ, foldl_append, hloop n le_rfl, ← tdiv_tdiv_ten]
  simp

theorem scaleDownLoop_succ (n : Nat) (v : Int) :
    scaleDownLoop (n + 1) v = (decide ((v.tdiv (10 ^ n)).natAbs % 10 ≥ 5), v.tdiv (10 ^ (n + 1))) := by
  have hturn : ∀ n, scaleDownLoop (n + 1) v
      = (decide ((scaleDownLoop n v).2.natAbs % 10 ≥ 5), (scaleDownLoop n v).2.tdiv 10) := by
    intro n
    rw [scaleDownLoop, range_succ, foldl_append]
    rfl
  have hloop : (scaleDownLoop n v).2 = v.tdiv (10 ^ n) := by
    induction n with
    | zero => simp [scaleDownLoop]
    | succ n ih => rw [hturn, ih, tdiv_tdiv_ten]
  rw [hturn, hloop, tdiv_tdiv_ten]

/-! ## The results, by the magnitude and the sign -/

variable (m n : Nat)

theorem add_half_div :
    (m + 5 * 10 ^ n) / 10 ^ (n + 1) = m / 10 ^ (n + 1) + if m / 10 ^ n % 10 ≥ 5 then 1 else 0 := by
  rw [pow_succ, ← Nat.div_div_eq_div_mul, ← Nat.div_div_eq_div_mul, Nat.add_mul_div_right _ _ (by positivity)]
  split_ifs <;> omega

theorem natCast_tdiv_pow : (m : Int).tdiv (10 ^ n) = (m / 10 ^ n : Nat) := by
  exact Int.tdiv_eq_ediv_of_nonneg (Int.natCast_nonneg m)

theorem rounded_natCast :
    rounded m (n + 1) = (m / 10 ^ (n + 1) : Nat) + if m / 10 ^ n % 10 ≥ 5 then 1 else 0 := by
  rcases Nat.eq_zero_or_pos m with rfl | hpos
  · simp [rounded]
  · rw [rounded, Int.sign_eq_one_of_pos (by exact_mod_cast hpos), one_mul, Int.natAbs_natCast, Nat.add_sub_cancel,
      add_half_div]
    push_cast
    rfl

theorem rounded_neg (v : Int) (k : Nat) : rounded (-v) k = -rounded v k := by
  rw [rounded, rounded, Int.sign_neg, Int.natAbs_neg, Int.neg_mul]

theorem dropScale_natCast : dropScale (n + 1) m = rounded m (n + 1) := by
  rw [dropScale_succ, natCast_tdiv_pow, natCast_tdiv_pow, rounded_natCast]
  congr 1
  exact if_congr (by rw [Int.tmod_eq_emod_of_nonneg (Int.natCast_nonneg _)]; omega) rfl rfl

theorem dropScale_neg : dropScale (n + 1) (-m) = -(m / 10 ^ (n + 1) : Nat) := by
  rw [dropScale_succ, Int.neg_tdiv, Int.neg_tdiv, natCast_tdiv_pow, natCast_tdiv_pow, Int.neg_tmod,
    Int.tmod_eq_emod_of_nonneg (Int.natCast_nonneg _), if_neg (by omega), add_zero]

theorem scaleDown_natCast : scaleDown (n + 1) m = rounded m (n + 1) := by
  rw [scaleDown, scaleDownLoop_succ, natCast_tdiv_pow, natCast_tdiv_pow, rounded_natCast, Int.natAbs_natCast]
  by_cases hdigit : m / 10 ^ n % 10 ≥ 5
  · simp only [hdigit, decide_true, if_true]
    rw [if_neg (not_lt.2 (Int.natCast_nonneg _))]
  · simp [hdigit]

theorem scaleDown_neg (h : m / 10 ^ n % 10 < 5) : scaleDown (n + 1) (-m) = rounded (-m) (n + 1) := by
  rw [scaleDown, scaleDownLoop_succ, Int.neg_tdiv, Int.neg_tdiv, natCast_tdiv_pow, natCast_tdiv_pow, rounded_neg,
    rounded_natCast, Int.natAbs_neg, Int.natAbs_natCast]
  simp [not_le.2 h]

theorem scaleDown_eq_rounded {v : Int} {k : Nat} (hk : 0 < k) (h : RoundsAlike v k) :
    scaleDown k v = rounded v k := by
  obtain ⟨n, rfl⟩ := Nat.exists_eq_add_of_lt hk
  rw [zero_add] at *
  obtain ⟨m, rfl | rfl⟩ := v.eq_nat_or_neg
  · exact scaleDown_natCast m n
  · rcases h with h | h
    · obtain rfl : m = 0 := by omega
      exact scaleDown_natCast 0 n
    · exact scaleDown_neg m n (by simpa using h)

theorem dropScale_eq_rounded_iff {v : Int} {k : Nat} (hk : 0 < k) :
    dropScale k v = rounded v k ↔ RoundsAlike v k := by
  obtain ⟨n, rfl⟩ := Nat.exists_eq_add_of_lt hk
  rw [zero_add, RoundsAlike, Nat.add_sub_cancel]
  obtain ⟨m, rfl | rfl⟩ := v.eq_nat_or_neg
  · exact iff_of_true (dropScale_natCast m n) (.inl (Int.natCast_nonneg m))
  · rw [dropScale_neg, rounded_neg, rounded_natCast, Int.natAbs_neg, Int.natAbs_natCast]
    by_cases hdigit : m / 10 ^ n % 10 ≥ 5
    · have hpos : m ≠ 0 := by
        rintro rfl
        simp at hdigit
      omega
    · exact iff_of_true (by omega) (.inr (by omega))

/-! ## The casts -/

theorem toTiDBDecimal_of_lt {flags : DAGFlags} {target : NativeType} {v w : Int} {vScale prec scale : Nat}
    (hscale : scale < vScale) (hflags : (flags.ignoreTruncate || flags.truncateAsWarning) = true)
    (hdown : scaleDown (vScale - scale) v = w) (htarget : target.toIntType.InRange w)
    (hprec : |w| ≤ decimalMaxValueOf prec) : toTiDBDecimal flags target v vScale prec scale = .ok w := by
  obtain ⟨hlow, hhigh⟩ := abs_le.1 hprec
  rw [toTiDBDecimal, if_neg (by omega), DAGFlags.handleTruncateError, if_neg (by simp [hflags]), hdown]
  show (if _ then _ else _) = _
  rw [if_neg (by omega)]
  exact IntType.cast_of_inRange htarget

/-- When the rounded value fits, the casts return it exactly when the flags let a truncation pass and the
value rounds alike for both signs. -/
theorem casts_eq_rounded_iff (flags : DAGFlags) (target : NativeType) (v min max : Int)
    (vScale prec scale : Nat) (hscale : scale < vScale)
    (htarget : target.toIntType.InRange (rounded v (vScale - scale)))
    (hprec : |rounded v (vScale - scale)| ≤ decimalMaxValueOf prec)
    (hlimits : min ≤ rounded v (vScale - scale) ∧ rounded v (vScale - scale) ≤ max) :
    (toDecimal target v vScale scale = .ok (rounded v (vScale - scale)) ∧
      toTiDBDecimal flags target v vScale prec scale = .ok (rounded v (vScale - scale)) ∧
      decToInt flags min max v (vScale - scale) = .ok (rounded v (vScale - scale)) ∧
      decimalFieldToInt min max v (vScale - scale) = .ok (rounded v (vScale - scale))) ↔
    (flags.ignoreTruncate || flags.truncateAsWarning) = true ∧ RoundsAlike v (vScale - scale) := by
  have hk : 0 < vScale - scale := Nat.sub_pos_of_lt hscale
  have hnot : ¬ vScale ≤ scale := by omega
  constructor
  · rintro ⟨-, htidb, -, hfield⟩
    refine ⟨?_, ?_⟩
    · by_contra hflags
      rw [toTiDBDecimal, if_neg hnot, DAGFlags.handleTruncateError, if_pos (by simpa using hflags)] at htidb
      cases htidb
    · rw [decimalFieldToInt] at hfield
      split_ifs at hfield
      exact (dropScale_eq_rounded_iff hk).1 (Except.ok.inj hfield)
  · rintro ⟨hflags, halike⟩
    have hdown := scaleDown_eq_rounded hk halike
    have hdrop := (dropScale_eq_rounded_iff hk).2 halike
    refine ⟨?_, ?_, ?_, ?_⟩
    · rw [toDecimal, if_neg hnot, hdown]
      exact IntType.cast_of_inRange htarget
    · exact toTiDBDecimal_of_lt hscale hflags hdown htarget hprec
    · rw [decToInt, hdrop]
      rw [if_neg (by omega)]
      rfl
    · rw [decimalFieldToInt, hdrop]
      exact if_neg (by omega)

theorem casts_eq_rounded_pos :
    toDecimal .int32 25 1 0 = .ok 3 ∧ toTiDBDecimal ⟨true, false, false⟩ .int32 25 1 9 0 = .ok 3 ∧
      decToInt ⟨true, false, false⟩ (-128) 127 25 1 = .ok 3 ∧ decimalFieldToInt (-128) 127 25 1 = .ok 3 :=
  (casts_eq_rounded_iff ⟨true, false, false⟩ .int32 25 (-128) 127 1 9 0 (by decide) (by decide) (by decide)
    (by decide)).2 (by decide)

/-- -0.5 becomes 1 in the casts to a decimal and 0 in those to an integer. -/
theorem casts_of_minus_half :
    rounded (-5) 1 = -1 ∧ toDecimal .int32 (-5) 1 0 = .ok 1 ∧
      toTiDBDecimal ⟨true, false, false⟩ .int32 (-5) 1 9 0 = .ok 1 ∧
      decToInt ⟨true, false, false⟩ (-128) 127 (-5) 1 = .ok 0 ∧
      decimalFieldToInt (-128) 127 (-5) 1 = .ok 0 := by
  decide

end

/-! ## Casts to more digits behind the point -/

/-- The cast of a number that is scaled already. -/
def DataTypeDecimal.saturated (target : DataTypeDecimal) (flags : DAGFlags) (msg : String) (v : Int) :
    Except CastError Int := do
  if target.InPrecision v then return v
  flags.handleOverflowError msg
  return v.sign * decimalMaxValueOf target.precision

theorem scaleUp_succ (n : Nat) (v : Int) :
    scaleUp (n + 1) v = (scaleUp n v).bind fun w => int256.toIntType.store .range (w * 10) := by
  unfold scaleUp
  rw [range_succ, foldlM_append]
  simp only [foldlM_cons, foldlM_nil, bind_pure]
  rfl

theorem scaleUp_eq {n : Nat} {v : Int} (h : |v * 10 ^ n| < 2 ^ 256) : scaleUp n v = .ok (v * 10 ^ n) := by
  induction n with
  | zero => rw [pow_zero, mul_one]; rfl
  | succ n ih =>
    rw [pow_succ, ← mul_assoc] at h ⊢
    have hn : |v * 10 ^ n| < 2 ^ 256 := by
      rw [abs_mul] at h
      exact (le_mul_of_one_le_right (abs_nonneg _) (by decide)).trans_lt h
    rw [scaleUp_succ, ih hn]
    exact store_of_inRange h

theorem scaleUp_eq_range {n : Nat} {v : Int} (hv : |v| < 2 ^ 256) (h : ¬ |v * 10 ^ n| < 2 ^ 256) :
    scaleUp n v = .error .range := by
  induction n with
  | zero => exact absurd hv (by rwa [pow_zero, mul_one] at h)
  | succ n ih =>
    rw [scaleUp_succ]
    by_cases hn : |v * 10 ^ n| < 2 ^ 256
    · rw [scaleUp_eq hn]
      exact store_of_checked rfl (by rwa [pow_succ, ← mul_assoc] at h)
    · rw [ih hn]
      rfl

variable {flags : DAGFlags} {target : DataTypeDecimal} {v w : Int}

theorem DataTypeDecimal.InPrecision.inRange (h : target.InPrecision v) : target.native.toIntType.InRange v :=
  inRange_of_abs_lt h (le_digits_ofPrecision target.precision_le)

/-- Both casts: `w` is compared with the limit, and `v` is the number at the scale of the target. -/
theorem limited_eq_saturated {msg : String} {m : Int} {rest : Except CastError Int}
    (hm : decimalMaxValueOf target.precision = m) (hsign : 0 < w ↔ 0 < v)
    (hiff : target.InPrecision v ↔ target.InPrecision w) (hrest : target.InPrecision w → rest = .ok v) :
    (if w > m ∨ w < -m then do
        flags.handleOverflowError msg
        target.native.toIntType.cast .range int256.toIntType (if w > 0 then m else -m)
      else rest) = target.saturated flags msg v := by
  have hlimit : ∀ x, target.InPrecision x ↔ |x| ≤ m := fun x => hm ▸ Int.le_sub_one_iff.symm
  have hm0 : 0 ≤ m := hm ▸ Int.sub_nonneg_of_le (one_le_pow₀ (by decide))
  rw [DataTypeDecimal.saturated, hm]
  by_cases hw : target.InPrecision w
  · obtain ⟨hlow, hhigh⟩ := abs_le.1 ((hlimit w).1 hw)
    rw [if_neg (by omega), if_pos (hiff.2 hw), hrest hw]
    rfl
  · have hv : ¬ |v| ≤ m := by rwa [← hlimit, hiff]
    rw [hlimit, abs_le] at hw
    rw [if_pos (by omega), if_neg ((hlimit v).not.2 hv),
      cast_of_inRange ((hlimit _).2 (by split_ifs <;> simp [abs_of_nonneg hm0])).inRange]
    by_cases hpos : 0 < w
    · rw [if_pos hpos, Int.sign_eq_one_of_pos (hsign.1 hpos), one_mul]
      rfl
    · have hneg : v < 0 := by
        rcases abs_cases v with habs | habs <;> omega
      rw [if_neg hpos, Int.sign_eq_neg_one_of_neg hneg, neg_one_mul]
      rfl

theorem bits_pos (type : NativeType) : 0 < type.toIntType.bits := by cases type <;> decide

/-- Below the limit the integer and the power of ten reach the target unchanged, and only their product may not
fit. -/
theorem toTiDBDecimalInternal_of_inPrecision (hv : target.InPrecision v) :
    toTiDBDecimalInternal flags target.native v target.precision target.scale
      = target.native.toIntType.store .range (v * 10 ^ target.scale) := by
  have hmul : target.native.toIntType.InRange (10 ^ target.scale) :=
    inRange_pow (target.scale_le_precision.trans (le_digits_ofPrecision target.precision_le))
  have hmax : decimalMaxValueOf target.scale + 1 = 10 ^ target.scale := Int.sub_add_cancel _ _
  obtain ⟨hlow, hhigh⟩ := abs_le.1 (Int.le_sub_one_iff.2 hv)
  unfold toTiDBDecimalInternal
  rw [if_neg (by unfold decimalMaxValueOf; omega), hmax, cast_of_inRange hmul, cast_of_inRange hv.inRange]
  rfl

theorem toTiDBDecimalInternal_eq
    (hscaled : target.InPrecision v → target.InPrecision (v * 10 ^ target.scale)) :
    toTiDBDecimalInternal flags target.native v target.precision target.scale
      = target.saturated flags "cast to decimal" (v * 10 ^ target.scale) := by
  have hpos : (0 : Int) < 10 ^ target.scale := by positivity
  have hunscaled : target.InPrecision (v * 10 ^ target.scale) → target.InPrecision v := by
    unfold DataTypeDecimal.InPrecision
    rw [abs_mul, abs_of_pos hpos]
    exact (le_mul_of_one_le_right (abs_nonneg v) hpos).trans_lt
  by_cases hv : target.InPrecision v
  · rw [toTiDBDecimalInternal_of_inPrecision hv, store_of_inRange (hscaled hv).inRange, DataTypeDecimal.saturated,
      if_pos (hscaled hv)]
    rfl
  · exact limited_eq_saturated rfl (mul_pos_iff_of_pos_right hpos).symm ⟨hunscaled, hscaled⟩ fun h => absurd h hv

/-- The product is even, also after it has wrapped around, and the limit is odd. -/
theorem toTiDBDecimalInternal_ne (hv : target.InPrecision v)
    (hscaled : ¬ target.InPrecision (v * 10 ^ target.scale)) :
    toTiDBDecimalInternal flags target.native v target.precision target.scale
      ≠ target.saturated flags "cast to decimal" (v * 10 ^ target.scale) := by
  have hscale : target.scale ≠ 0 := fun h => hscaled (by rwa [h, pow_zero, mul_one])
  have heven : v * 10 ^ target.scale % 2 = 0 :=
    Int.emod_eq_zero_of_dvd (dvd_mul_of_dvd_right (dvd_pow (by decide) hscale) v)
  have hodd : (v * 10 ^ target.scale).sign * decimalMaxValueOf target.precision % 2 ≠ 0 := by
    have hpow : (10 : Int) ^ target.precision % 2 = 0 :=
      Int.emod_eq_zero_of_dvd (dvd_pow (by decide) (Nat.one_le_iff_ne_zero.1 target.precision_pos))
    unfold decimalMaxValueOf
    rcases Int.lt_trichotomy (v * 10 ^ target.scale) 0 with h | h | h
    · rw [Int.sign_eq_neg_one_of_neg h]
      omega
    · exact absurd (show target.InPrecision _ by rw [h]; exact pow_pos (by decide) _) hscaled
    · rw [Int.sign_eq_one_of_pos h]
      omega
  rw [toTiDBDecimalInternal_of_inPrecision hv, DataTypeDecimal.saturated, if_neg hscaled,
    DAGFlags.handleOverflowError]
  rcases store_cases CastError.range target.native.toIntType (v * 10 ^ target.scale) with hstore | ⟨w, hstore, hw⟩ <;>
    rw [hstore] <;> split_ifs
  · simp [bind, Except.bind]
  · simp [bind, Except.bind, pure, Except.pure]
  · simp [bind, Except.bind]
  · intro h
    refine hodd ?_
    rw [← Except.ok.inj h, hw (bits_pos _), heven]

theorem toTiDBDecimal_eq {vScale : Nat} (hle : vScale ≤ target.scale)
    (hfits : |v * 10 ^ (target.scale - vScale)| < 2 ^ 256) :
    toTiDBDecimal flags target.native v vScale target.precision target.scale
      = target.saturated flags "cast decimal as decimal" (v * 10 ^ (target.scale - vScale)) := by
  rw [toTiDBDecimal, if_pos hle, scaleUp_eq hfits]
  exact limited_eq_saturated rfl Iff.rfl Iff.rfl fun h => cast_of_inRange h.inRange

theorem saturated_ne_range (msg : String) (w : Int) : target.saturated flags msg w ≠ .error .range := by
  unfold DataTypeDecimal.saturated DAGFlags.handleOverflowError
  split_ifs <;> simp [bind, Except.bind, pure, Except.pure]

/-- An integer is cast right unless only its scaled value exceeds the precision, a decimal iff its scaled
value is an `Int256`. -/
theorem casts_eq_saturated_iff (flags : DAGFlags) (target : DataTypeDecimal) (v : Int) :
    (toTiDBDecimalInternal flags target.native v target.precision target.scale
        = target.saturated flags "cast to decimal" (v * 10 ^ target.scale) ↔
      (target.InPrecision v → target.InPrecision (v * 10 ^ target.scale))) ∧
    ∀ vScale ≤ target.scale, |v| < 2 ^ 256 →
      (toTiDBDecimal flags target.native v vScale target.precision target.scale
          = target.saturated flags "cast decimal as decimal" (v * 10 ^ (target.scale - vScale)) ↔
        |v * 10 ^ (target.scale - vScale)| < 2 ^ 256) := by
  refine ⟨⟨fun h hv => ?_, toTiDBDecimalInternal_eq⟩, fun vScale hle hv => ⟨fun h => ?_, toTiDBDecimal_eq hle⟩⟩
  · by_contra hscaled
    exact toTiDBDecimalInternal_ne hv hscaled h
  · by_contra hfits
    rw [toTiDBDecimal, if_pos hle, scaleUp_eq_range hv hfits] at h
    exact saturated_ne_range _ _ h.symm

theorem casts_to_two_digits :
    toTiDBDecimalInternal ⟨true, true, true⟩ .int32 123 5 2 = .ok 12300 ∧
      toTiDBDecimal ⟨true, true, true⟩ .int32 15 1 2 2 = .ok 99 :=
  ⟨((casts_eq_saturated_iff _ ⟨5, 2, by decide, by decide, by decide, by decide⟩ 123).1.2 (by decide)).trans
      (by decide),
    (((casts_eq_saturated_iff _ ⟨2, 2, by decide, by decide, by decide, by decide⟩ 15).2 1 (by decide)
      (by decide)).2 (by decide)).trans (by decide)⟩

/-- 12345 is stored as `DECIMAL(5, 2)` with seven digits, 99999999 wraps around as `DECIMAL(9, 2)`, and
10^65 - 1 is not cast to the scale 30. -/
theorem casts_not_saturated :
    DataTypeDecimal.saturated ⟨5, 2, by decide, by decide, by decide, by decide⟩ ⟨true, true, true⟩
      "cast to decimal" 1234500 = .ok 99999 ∧
    toTiDBDecimalInternal ⟨true, true, true⟩ .int32 12345 5 2 = .ok 1234500 ∧
    toTiDBDecimalInternal ⟨true, true, true⟩ .int32 99999999 9 2 = .ok 1410065308 ∧
    toTiDBDecimal ⟨true, true, true⟩ .int256 (10 ^ 65 - 1) 0 65 30 = .error .range := by
  decide

end TiFlash.Functions
