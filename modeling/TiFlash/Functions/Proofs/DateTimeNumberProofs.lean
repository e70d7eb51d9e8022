import TiFlash.Functions.DateTimeNumber
import TiFlash.Functions.Proofs.AddSecondsProofs
import TiFlash.Functions.Proofs.DecimalRoundingProofs

/-!
# Proofs: dates and times as numbers

The sum for a time gives the day and the hour a tenth of the weight that the conversion back assumes, so no
time is read back; with a fraction it also wraps around. The sum for a date is right.
-/

namespace TiFlash.Functions

open TiFlash.Lib

/-- The fields of a date, the most significant one first. -/
def dateFields (d : Date) : List Nat := [d.year, d.month, d.day]

theorem dateWeightedSum_lt {d e : Date} (hd : d.Valid) (hlt : dateFields d < dateFields e) :
    dateWeightedSum d < dateWeightedSum e := by
  have hday := day_le_of_valid hd
  have hmonth := hd.month_le
  simp only [dateFields, List.cons_lt_cons_iff, List.not_lt_nil, and_false, or_false] at hlt
  unfold dateWeightedSum
  omega

theorem numberToDateTime_of_large {n : Nat} (h : 991231235959 < n) : numberToDateTime n = .ok (getDatetime n) := by
  unfold numberToDateTime
  by_cases hlarge : (n : Int) ≥ 10000101000000
  · rw [if_neg (by omega), if_pos hlarge, Int.toNat_natCast]
  · rw [if_neg (by omega), if_neg hlarge, if_neg (by omega), if_neg (by omega), if_neg (by omega),
      if_neg (by omega), if_neg (by omega), if_neg (by omega), if_neg (by omega), if_neg (by omega),
      if_neg (by omega), Int.toNat_natCast]

theorem numberToDateTime_weightedSum_ne {t : MyDateTime} (ht : t.Valid) (hyear : 1000 ≤ t.year) :
    numberToDateTime t.weightedSum ≠ .ok t := by
  have hday : t.day ≤ 31 := day_le_of_valid ht.date
  have hge : 1 ≤ t.day := ht.date.day_ge
  obtain ⟨-, -, hhour, hminute, hsecond, -⟩ := ht
  have hsum : 991231235959 < t.weightedSum := by
    unfold MyDateTime.weightedSum
    omega
  intro h
  rw [numberToDateTime_of_large hsum] at h
  have hread : t.weightedSum / 1000000 % 10000 % 100 = t.day := congrArg MyDateTime.day (Except.ok.inj h)
  have hymd : t.weightedSum / 1000000 = (t.year * 100 + t.month) * 100
      + (t.day * 100000 + t.hour * 1000 + t.minute * 100 + t.second) / 1000000 := by
    unfold MyDateTime.weightedSum
    omega
  have hlt : (t.day * 100000 + t.hour * 1000 + t.minute * 100 + t.second) / 1000000 < t.day := by omega
  rw [Nat.mod_mod_of_dvd _ (by decide), hymd, Nat.mul_add_mod_self_right] at hread
  exact ((Nat.mod_le _ _).trans_lt hlt).ne hread

theorem numberToDateTime_date {d : Date} (hd : d.Valid) (hge : 1000 ≤ d.year) (hle : d.year ≤ 9999)
    (hne : d ≠ ⟨1000, 1, 1⟩) :
    numberToDateTime (dateWeightedSum d) = .ok ⟨d.year, d.month, d.day, 0, 0, 0, 0⟩ := by
  have hday := day_le_of_valid hd
  have hnot : ¬ (d.year = 1000 ∧ d.month = 1 ∧ d.day = 1) := fun h => hne (by cases d; simp_all)
  obtain ⟨-, hmonth, hmonth', hday', -⟩ := hd
  have hread : getDatetime (dateWeightedSum d * 1000000) = ⟨d.year, d.month, d.day, 0, 0, 0, 0⟩ := by
    unfold getDatetime dateWeightedSum
    simp only [Nat.mul_div_cancel _ (show 0 < 1000000 by decide), Nat.sub_self]
    congr 1 <;> omega
  unfold numberToDateTime
  have hsum : dateWeightedSum d = d.year * 10000 + d.month * 100 + d.day := rfl
  rw [if_neg (by omega), if_neg (by omega), if_neg (by omega), if_neg (by omega), if_neg (by omega),
    if_neg (by omega), if_pos (by omega), Int.toNat_natCast, hread]

/-! ## Times -/

/-- The fields of a time, the most significant one first. -/
def timeFields (t : MyDateTime) : List Nat := [t.year, t.month, t.day, t.hour, t.minute, t.second]

/-- Hours and minutes overlap, so within a day a later hour needs not be the larger number. -/
theorem weightedSum_lt_iff {t u : MyDateTime} (ht : t.Valid) (hlt : timeFields t < timeFields u) :
    t.weightedSum < u.weightedSum ↔ (t.date = u.date →
      t.minute * 100 + t.second < (u.hour - t.hour) * 1000 + u.minute * 100 + u.second) := by
  have htDay : t.day ≤ 31 := day_le_of_valid ht.date
  have htMonth : t.month ≤ 12 := ht.date.month_le
  obtain ⟨-, -, htHour, htMinute, htSecond, -⟩ := ht
  have hdate : t.date = u.date ↔ t.year = u.year ∧ t.month = u.month ∧ t.day = u.day := by
    rw [MyDateTime.date, MyDateTime.date, Date.mk.injEq]
  simp only [timeFields, List.cons_lt_cons_iff, List.not_lt_nil, and_false, or_false] at hlt
  rw [hdate]
  unfold MyDateTime.weightedSum
  omega

/-- A number of microseconds at another scale. -/
def rescaled (x scale : Nat) : Nat :=
  if 6 ≤ scale then x * 10 ^ (scale - 6) else (x + 5 * 10 ^ (5 - scale)) / 10 ^ (6 - scale)

theorem rescaled_mul (w scale : Nat) : rescaled (w * 1000000) scale = w * 10 ^ scale := by
  unfold rescaled
  split_ifs with hscale
  · rw [mul_assoc, show 1000000 = 10 ^ 6 by rfl, ← pow_add, Nat.add_sub_cancel' hscale]
  · interval_cases scale <;> omega

theorem rescaled_lt {x w : Nat} (hlt : x + 1000000 ≤ w * 1000000) (scale : Nat) :
    rescaled x scale < w * 10 ^ scale := by
  rw [← rescaled_mul]
  unfold rescaled
  split_ifs with hscale
  · exact Nat.mul_lt_mul_of_pos_right (by omega) (by positivity)
  · interval_cases scale <;> omega

theorem toTiDBDecimal_rescaled {flags : DAGFlags} {target : DataTypeDecimal} {x : Nat}
    (hflags : (flags.ignoreTruncate || flags.truncateAsWarning) = true)
    (hfits : target.InPrecision (rescaled x target.scale)) :
    toTiDBDecimal flags target.native x 6 target.precision target.scale = .ok ↑(rescaled x target.scale) := by
  unfold rescaled at hfits ⊢
  split_ifs at hfits ⊢ with hscale
  · push_cast at hfits ⊢
    have hwide := hfits.trans_le ((pow_le_pow_right₀ (by decide) target.precision_le).trans
      (show (10 : Int) ^ 65 ≤ 2 ^ 256 by decide))
    rw [toTiDBDecimal_eq hscale hwide, DataTypeDecimal.saturated, if_pos hfits]
    rfl
  · obtain ⟨k, hk⟩ := Nat.exists_eq_add_of_lt (not_le.1 hscale)
    obtain ⟨hk₆, hk₅⟩ : 6 - target.scale = k + 1 ∧ 5 - target.scale = k := by omega
    refine toTiDBDecimal_of_lt (not_le.1 hscale) hflags ?_ hfits.inRange (Int.le_sub_one_iff.2 hfits)
    rw [hk₆, hk₅, scaleDown_natCast, rounded_natCast, add_half_div]
    push_cast
    rfl

/-- With a fraction, the time in microseconds has to be a `UInt64`. -/
theorem timeToTiDBDecimal_eq_iff {flags : DAGFlags} {target : DataTypeDecimal} {t : MyDateTime}
    (hmicro : t.microSecond = 0) (hflags : (flags.ignoreTruncate || flags.truncateAsWarning) = true)
    (hfits : target.InPrecision (t.weightedSum * 10 ^ target.scale)) (fsp : Nat) :
    timeToTiDBDecimal flags target.native t target.precision target.scale fsp
        = .ok (t.weightedSum * 10 ^ target.scale) ↔ fsp = 0 ∨ t.weightedSum * 1000000 < 2 ^ 64 := by
  have hcast : (t.weightedSum * 10 ^ target.scale : Int) = (t.weightedSum * 10 ^ target.scale : Nat) := by push_cast; rfl
  rw [timeToTiDBDecimal, hmicro, add_zero]
  split_ifs with hfsp
  · rw [or_iff_right (by omega), hcast]
    rw [hcast] at hfits
    by_cases hwrap : t.weightedSum * 1000000 < 2 ^ 64
    · rw [← rescaled_mul] at hfits ⊢
      rw [Nat.mod_eq_of_lt hwrap]
      exact iff_of_true (toTiDBDecimal_rescaled hflags hfits) hwrap
    · have hlt := rescaled_lt (x := t.weightedSum * 1000000 % 2 ^ 64) (w := t.weightedSum) (by omega) target.scale
      have hsmaller : target.InPrecision (rescaled (t.weightedSum * 1000000 % 2 ^ 64) target.scale) := by
        unfold DataTypeDecimal.InPrecision at hfits ⊢
        rw [Nat.abs_cast] at hfits ⊢
        exact (Nat.cast_lt.2 hlt).trans hfits
      rw [toTiDBDecimal_rescaled hflags hsmaller, Except.ok.injEq, Nat.cast_inj]
      exact iff_of_false hlt.ne hwrap
  · rw [toTiDBDecimalInternal_eq fun _ => hfits, DataTypeDecimal.saturated, if_pos hfits]
    exact iff_of_true rfl (.inl (by omega))

/-! ## Both -/

/-- Dates keep their order as numbers, and all but 1000-01-01 are read back; the decimal is the same number. No
time is read back, its decimal with a fraction wraps around after 1844, and the order holds between days. -/
theorem dates_and_times_as_numbers (d : Date) (t : MyDateTime) :
    (d.Valid → 1000 ≤ d.year → d.year ≤ 9999 →
      (numberToDateTime (dateWeightedSum d) = .ok ⟨d.year, d.month, d.day, 0, 0, 0, 0⟩ ↔ d ≠ ⟨1000, 1, 1⟩) ∧
      (∀ (flags : DAGFlags) (target : DataTypeDecimal),
        target.InPrecision (dateWeightedSum d * 10 ^ target.scale) →
        dateToTiDBDecimal flags target.native d target.precision target.scale
          = .ok (dateWeightedSum d * 10 ^ target.scale)) ∧
      ∀ e : Date, dateFields d < dateFields e → dateWeightedSum d < dateWeightedSum e) ∧
    (t.Valid → 1000 ≤ t.year → t.microSecond = 0 →
      numberToDateTime t.weightedSum ≠ .ok t ∧
      (∀ (flags : DAGFlags) (target : DataTypeDecimal) (fsp : Nat),
        (flags.ignoreTruncate || flags.truncateAsWarning) = true →
        target.InPrecision (t.weightedSum * 10 ^ target.scale) →
        (timeToTiDBDecimal flags target.native t target.precision target.scale fsp
          = .ok (t.weightedSum * 10 ^ target.scale) ↔ fsp = 0 ∨ t.weightedSum * 1000000 < 2 ^ 64)) ∧
      ∀ u : MyDateTime, timeFields t < timeFields u →
        (t.weightedSum < u.weightedSum ↔ (t.date = u.date →
          t.minute * 100 + t.second < (u.hour - t.hour) * 1000 + u.minute * 100 + u.second))) := by
  refine ⟨fun hd hge hle => ⟨⟨fun h hd => ?_, numberToDateTime_date hd hge hle⟩, fun flags target hfits => ?_,
    fun e hlt => dateWeightedSum_lt hd hlt⟩, fun ht hyear hmicro => ⟨numberToDateTime_weightedSum_ne ht hyear,
    fun flags target fsp hflags hfits => timeToTiDBDecimal_eq_iff hmicro hflags hfits fsp,
    fun u hlt => weightedSum_lt_iff ht hlt⟩⟩
  · subst hd
    revert h
    decide
  · rw [dateToTiDBDecimal, toTiDBDecimalInternal_eq fun _ => hfits, DataTypeDecimal.saturated, if_pos hfits]
    rfl

theorem dates_and_times_as_numbers_leap_day :
    numberToDateTime 20200229 = .ok ⟨2020, 2, 29, 0, 0, 0, 0⟩ ∧
    timeToTiDBDecimal ⟨true, true, true⟩ .int128 ⟨2020, 2, 29, 1, 0, 0, 0⟩ 20 2 0 = .ok 2020020290100000 ∧
    (MyDateTime.mk 2020 2 29 1 0 0 0).weightedSum < (MyDateTime.mk 2020 2 29 2 0 0 0).weightedSum := by
  have hdate : (Date.mk 2020 2 29).Valid := ⟨by decide, by decide, by decide, by decide, by decide⟩
  have htime : (MyDateTime.mk 2020 2 29 1 0 0 0).Valid :=
    ⟨hdate, by decide, by decide, by decide, by decide, by decide⟩
  obtain ⟨hdates, htimes⟩ := dates_and_times_as_numbers ⟨2020, 2, 29⟩ ⟨2020, 2, 29, 1, 0, 0, 0⟩
  obtain ⟨hback, -, -⟩ := hdates hdate (by decide) (by decide)
  obtain ⟨-, hdecimal, horder⟩ := htimes htime (by decide) rfl
  exact ⟨hback.2 (by decide),
    (hdecimal ⟨true, true, true⟩ ⟨20, 2, by decide, by decide, by decide, by decide⟩ 0 rfl (by decide)).2 (.inl rfl),
    (horder _ (by decide)).2 (by decide)⟩

/-- 10:00:00 on 2020-01-02 is read back as 21:00:00 on a day 0, and is another number as a decimal with a fraction.
01:00:00 comes before 00:59:00, and 1000-01-01 is not read back. -/
theorem times_as_numbers :
    (MyDateTime.mk 2020 1 2 10 0 0 0).weightedSum = 20200100210000 ∧
    timeToTiDBDecimal ⟨true, true, true⟩ .int128 ⟨2020, 1, 2, 10, 0, 0, 0⟩ 20 0 0 = .ok 20200100210000 ∧
    timeToTiDBDecimal ⟨true, true, true⟩ .int128 ⟨2020, 1, 2, 10, 0, 0, 0⟩ 20 6 6 = .ok 1753356136290448384 ∧
    numberToDateTime 20200100210000 = .ok ⟨2020, 1, 0, 21, 0, 0, 0⟩ ∧
    (MyDateTime.mk 2020 1 2 1 0 0 0).weightedSum < (MyDateTime.mk 2020 1 2 0 59 0 0).weightedSum ∧
    numberToDateTime 10000101 = .error "Cannot convert 10000101 to Datetime" := by
  decide +kernel

end TiFlash.Functions
