import TiFlash.Functions.Proofs.DateTimeProofs

/-!
# Adding seconds and days

A packed datetime is taken apart into its fields. `addSeconds` and `addDays` reach the date of the calendar,
or the day behind it if that is the last day of a leap year; `addSeconds` leaves a date that does not change
as it is.
-/

namespace TiFlash.Functions

open TiFlash.Lib

/-! ## Packed datetimes -/

/-- The fields of a datetime fit into the bits of a packed one. -/
structure MyDateTime.Packable (t : MyDateTime) : Prop where
  date : t.date.Valid
  year_le : t.year ≤ 20000
  hour : t.hour < 24
  minute : t.minute < 60
  second : t.second < 60
  microSecond : t.microSecond < 1000000

theorem MyDateTime.Valid.packable {t : MyDateTime} (h : t.Valid) : t.Packable :=
  ⟨h.date, h.year_le.trans (by decide), h.hour, h.minute, h.second, h.microSecond⟩

theorem day_le_of_valid {d : Date} (h : d.Valid) : d.day ≤ 31 := by
  refine h.day_le.trans ?_
  unfold daysInMonth
  split_ifs <;> decide

namespace MyDateTime.Packable

variable {t : MyDateTime} (h : t.Packable)

include h

theorem toPackedUInt_eq : t.toPackedUInt
    = (((t.year * 13 + t.month) * 2 ^ 5 + t.day) * 2 ^ 17 + (t.hour * 2 ^ 12 + (t.minute * 2 ^ 6 + t.second)))
      * 2 ^ 24 + t.microSecond := by
  obtain ⟨hdate, hyear, hhour, hminute, hsecond, hmicro⟩ := h
  have hmonth : t.month ≤ 12 := hdate.month_le
  have hday : t.day ≤ 31 := day_le_of_valid hdate
  unfold toPackedUInt
  simp only
  rw [← Nat.shiftLeft_add_eq_or_of_lt (show t.day < 2 ^ 5 by omega), Nat.or_assoc (t.hour <<< 12),
    ← Nat.shiftLeft_add_eq_or_of_lt (show t.second < 2 ^ 6 by omega),
    ← Nat.shiftLeft_add_eq_or_of_lt (show t.minute <<< 6 + t.second < 2 ^ 12 by rw [Nat.shiftLeft_eq]; omega),
    ← Nat.shiftLeft_add_eq_or_of_lt (show t.hour <<< 12 + (t.minute <<< 6 + t.second) < 2 ^ 17 by
      rw [Nat.shiftLeft_eq, Nat.shiftLeft_eq]; omega),
    ← Nat.shiftLeft_add_eq_or_of_lt (show t.microSecond < 2 ^ 24 by omega)]
  simp only [Nat.shiftLeft_eq]
  rw [Nat.mod_eq_of_lt (by omega)]

theorem ofPacked_toPackedUInt : ofPacked t.toPackedUInt = t := by
  rw [h.toPackedUInt_eq]
  obtain ⟨hdate, hyear, hhour, hminute, hsecond, hmicro⟩ := h
  have hmonth : t.month ≤ 12 := hdate.month_le
  have hday : t.day ≤ 31 := day_le_of_valid hdate
  unfold ofPacked
  obtain ⟨year, month, day, hour, minute, second, microSecond⟩ := t
  simp only at *
  simp only [Nat.shiftRight_eq_div_pow, Nat.and_two_pow_sub_one_eq_mod, MyDateTime.mk.injEq]
  refine ⟨?_, ?_, ?_, ?_, ?_, ?_, ?_⟩ <;> omega

theorem toPackedUInt_ne_zero : t.toPackedUInt ≠ 0 := by
  rw [h.toPackedUInt_eq]
  have hyear : 1 ≤ t.year := h.date.year
  omega

end MyDateTime.Packable

theorem toPackedUInt_injective {s t : MyDateTime} (hs : s.Packable) (ht : t.Packable)
    (h : s.toPackedUInt = t.toPackedUInt) : s = t := by
  rw [← hs.ofPacked_toPackedUInt, h, ht.ofPacked_toPackedUInt]

/-! ## Adding days -/

variable {d : Date}

theorem next_ne (h : d.Valid) : d.next ≠ d := by
  intro heq
  have hnext := dayNum_next h
  rw [heq] at hnext
  omega

theorem landing_eq_iff (h : d.Valid) : landing d = d ↔ ¬ d.LeapYearEnd := by
  unfold landing
  split_ifs with hend
  · exact iff_of_false (next_ne h) (not_not.2 hend)
  · exact iff_of_true rfl hend

theorem landing_valid (h : d.Valid) : (landing d).Valid := by
  unfold landing
  split_ifs
  · exact h.next
  · exact h

theorem landing_year_le : (landing d).year ≤ d.year + 1 := by
  unfold landing
  split_ifs with hend
  · rw [Date.next_of_leapYearEnd hend]
  · exact Nat.le_succ _

theorem dayNum_le (h : d.Valid) : dayNum d ≤ 366 * d.year + 732 := by
  have hday : dayOfYear d ≤ 365 := by
    by_cases hend : d.LeapYearEnd
    · exact (dayOfYear_leapYearEnd hend).le
    · exact (dayOfYear_lt h hend).le
  rw [dayNum_eq h, daysBeforeYear]
  omega

variable {t : MyDateTime}

theorem addDays_spec (ht : t.date.Valid) {days : Int} {e : Date} (he : e.Valid) (hyear : e.year ≤ 20000)
    (h : t.date.After days e) : addDays t days = .ok (t.withDate (landing e)) := by
  have hsum : (calcDayNum t.year t.month t.day : Int) + days = dayNum e := ((after_iff_dayNum ht he).1 h).symm
  have hle := dayNum_le he
  have hwrap : (dayNum e : Int).bmod (2 ^ 32) = dayNum e := by
    rw [Int.bmod_eq_of_le] <;> omega
  rw [addDays, hsum, hwrap]
  exact fromDayNum_dayNum t he (by omega)

/-! ## Adding seconds -/

open MyDateTime

instance (t t' : MyDateTime) : Decidable (Skips t t') := inferInstanceAs (Decidable (_ ∧ _))

/-- Where `addSeconds` leads from `t` if the calendar leads to `t'`. -/
def landed (t t' : MyDateTime) : MyDateTime := if Skips t t' then t'.withDate t'.date.next else t'

theorem secondOfDay_bounds (h : t.Packable) : 0 ≤ t.secondOfDay ∧ t.secondOfDay < 86400 := by
  obtain ⟨-, -, hhour, hminute, hsecond, -⟩ := h
  unfold secondOfDay
  omega

variable {t t' : MyDateTime}

theorem withSecond_secondOfDay (ht' : t'.Packable) (hmicro : t'.microSecond = t.microSecond) (d : Date) :
    (t.withDate d).withSecond t'.secondOfDay = t'.withDate d := by
  obtain ⟨-, -, hhour, hminute, hsecond, -⟩ := ht'
  unfold withSecond withDate secondOfDay
  simp only [MyDateTime.mk.injEq, hmicro, true_and, and_true]
  omega

theorem withDate_date (t : MyDateTime) : t.withDate t.date = t := rfl

theorem landed_eq (t t' : MyDateTime) (h : t'.date ≠ t.date) : landed t t' = t'.withDate (landing t'.date) := by
  unfold landed landing
  by_cases hend : t'.date.LeapYearEnd
  · rw [if_pos ⟨h, hend⟩, if_pos hend]
  · rw [if_neg fun hskips => hend hskips.2, if_neg hend, withDate_date]

theorem landed_of_date_eq (h : t'.date = t.date) : landed t t' = t' := if_neg fun hskips => hskips.1 h

theorem addSeconds_spec (ht : t.Packable) (ht' : t'.Packable) {a : Int} (h : Later a t t') :
    addSeconds t.toPackedUInt a = .ok (landed t t').toPackedUInt := by
  obtain ⟨hmicro, days, hafter, hsum⟩ := h
  have hbounds := secondOfDay_bounds ht'
  have hdays : days = 0 ↔ t'.date = t.date := by
    have hnum := (after_iff_dayNum ht.date ht'.date).1 hafter
    constructor
    · rintro rfl
      exact dayNum_injective ht'.date ht.date (by omega)
    · intro heq
      rw [heq] at hnum
      omega
  have hadd : days ≠ 0 → (addDays t days >>= fun myTime =>
      pure (myTime.withSecond t'.secondOfDay).toPackedUInt) = .ok (landed t t').toPackedUInt := by
    intro hne
    rw [addDays_spec ht.date ht'.date ht'.year_le hafter, landed_eq t t' (mt hdays.2 hne),
      ← withSecond_secondOfDay ht' hmicro]
    rfl
  unfold addSeconds
  rw [if_neg ht.toPackedUInt_ne_zero, ht.ofPacked_toPackedUInt]
  have hcurrent : (t.hour : Int) * 3600 + t.minute * 60 + t.second + a = days * 86400 + t'.secondOfDay := hsum
  simp only [hcurrent, secondInOneDay]
  split_ifs with hnonneg hdays' hrest
  · have hdiv : (days * 86400 + t'.secondOfDay) / 86400 = days := by omega
    have hmod : (days * 86400 + t'.secondOfDay) % 86400 = t'.secondOfDay := by omega
    rw [hdiv] at hdays' ⊢
    rw [hmod]
    exact hadd hdays'
  · have hzero : days = 0 := by omega
    have hmod : (days * 86400 + t'.secondOfDay) % 86400 = t'.secondOfDay := by omega
    have heq := hdays.1 hzero
    have hsame := withSecond_secondOfDay ht' hmicro t'.date
    rw [heq, withDate_date, ← heq, withDate_date] at hsame
    rw [hmod, landed_of_date_eq heq, pure_bind, hsame]
    rfl
  · have hdiv : -(days * 86400 + t'.secondOfDay) / 86400 + 1 = -days := by omega
    rw [hdiv, neg_neg, show days * 86400 + t'.secondOfDay + -days * 86400 = t'.secondOfDay by omega]
    exact hadd (by omega)
  · have hdiv : -(days * 86400 + t'.secondOfDay) / 86400 = -days := by omega
    rw [hdiv, neg_neg, show days * 86400 + t'.secondOfDay + -days * 86400 = t'.secondOfDay by omega]
    exact hadd (by omega)

/-! ## The calendar -/

theorem MyDateTime.Later.trans {a b : Int} {t t₁ t₂ : MyDateTime} (ht : t.date.Valid) (ht₁ : t₁.date.Valid)
    (ht₂ : t₂.date.Valid) (h₁ : Later a t t₁) (h₂ : Later b t₁ t₂) : Later (a + b) t t₂ := by
  obtain ⟨hmicro₁, days₁, hafter₁, hsum₁⟩ := h₁
  obtain ⟨hmicro₂, days₂, hafter₂, hsum₂⟩ := h₂
  refine ⟨hmicro₂.trans hmicro₁, days₁ + days₂, ?_, by omega⟩
  rw [after_iff_dayNum ht ht₁] at hafter₁
  rw [after_iff_dayNum ht₁ ht₂] at hafter₂
  rw [after_iff_dayNum ht ht₂]
  omega

theorem packable_withDate (ht : t.Packable) (hd : d.Valid) (hyear : d.year ≤ 20000) :
    (t.withDate d).Packable :=
  ⟨hd, hyear, ht.hour, ht.minute, ht.second, ht.microSecond⟩

theorem landed_packable (ht' : t'.Packable) (hyear : t'.year < 20000) :
    (landed t t').Packable := by
  by_cases h : t'.date = t.date
  · rw [landed_of_date_eq h]
    exact ht'
  · rw [landed_eq t t' h]
    have hle : (landing t'.date).year ≤ t'.year + 1 := landing_year_le
    exact packable_withDate ht' (landing_valid ht'.date) (by omega)

theorem landed_valid (ht' : t'.Valid) : (landed t t').Valid := by
  unfold landed
  split_ifs with hskips
  · have hnext := Date.next_of_leapYearEnd hskips.2
    refine ⟨ht'.date.next, ?_, ht'.hour, ht'.minute, ht'.second, ht'.microSecond⟩
    -- 9999 is not a leap year
    have hle := ht'.year_le
    have hne : t'.year ≠ 9999 := by
      intro heq
      have hleap : isLeapYear t'.year = true := hskips.2.1
      rw [heq] at hleap
      revert hleap
      decide
    rw [hnext]
    show t'.year + 1 ≤ 9999
    omega
  · exact ht'

theorem withDate_injective {d e : Date} (h : t.withDate d = t.withDate e) : d = e := congrArg date h

theorem landed_eq_landed_iff {s t t' : MyDateTime} (ht' : t'.Packable) :
    landed s t' = landed t t' ↔ (Skips s t' ↔ Skips t t') := by
  have hne : t'.withDate t'.date.next ≠ t' := fun h => next_ne ht'.date (congrArg date h)
  unfold landed
  split_ifs with hs ht ht
  · exact iff_of_true rfl (iff_of_true hs ht)
  · exact iff_of_false hne fun h => ht (h.1 hs)
  · exact iff_of_false hne.symm fun h => hs (h.2 ht)
  · exact iff_of_true rfl (iff_of_false hs ht)

/-- The sum of two steps the first of which goes one day too far. -/
theorem landed_next_iff {t t₁ t₂ : MyDateTime} (ht₂ : t₂.Packable) :
    landed (t₁.withDate t₁.date.next) (t₂.withDate t₂.date.next) = landed t t₂ ↔ Skips t t₂ := by
  have hnext := ht₂.date.next
  have hnum := dayNum_next ht₂.date
  have hnum' := dayNum_next hnext
  have hdate : (landed (t₁.withDate t₁.date.next) (t₂.withDate t₂.date.next)).date = t₂.date.next ∨
      (landed (t₁.withDate t₁.date.next) (t₂.withDate t₂.date.next)).date = t₂.date.next.next := by
    unfold landed
    split_ifs
    · exact .inr rfl
    · exact .inl rfl
  constructor
  · intro heq
    by_contra hskips
    rw [heq, landed, if_neg hskips] at hdate
    rcases hdate with h | h
    · exact next_ne ht₂.date h.symm
    · rw [← h] at hnum'
      omega
  · intro hskips
    have hnot : ¬ Skips (t₁.withDate t₁.date.next) (t₂.withDate t₂.date.next) :=
      fun h => Date.not_leapYearEnd_next hskips.2 h.2
    rw [landed, if_neg hnot, landed, if_pos hskips]

theorem ok_toPackedUInt_inj {s t : MyDateTime} (hs : s.Packable) (ht : t.Packable) :
    (Except.ok s.toPackedUInt : Except DateTimeError Nat) = .ok t.toPackedUInt ↔ s = t :=
  ⟨fun h => toPackedUInt_injective hs ht (Except.ok.inj h), fun h => h ▸ rfl⟩

section Follows

variable {t t₁ t₂ : MyDateTime} {a b : Int} (ht : t.Valid) (ht₁ : t₁.Valid) (ht₂ : t₂.Valid)
  (h₁ : Later a t t₁) (h₂ : Later b t₁ t₂)

include ht ht₁ ht₂ h₁ h₂

theorem compose_iff :
    (addSeconds t.toPackedUInt a >>= fun r => addSeconds r b) = addSeconds t.toPackedUInt (a + b) ↔
      if Skips t t₁ then Skips t t₂ else (Skips t₁ t₂ ↔ Skips t t₂) := by
  have hsum := h₁.trans ht.date ht₁.date ht₂.date h₂
  have hyear₁ := ht₁.year_le
  have hyear₂ := ht₂.year_le
  rw [addSeconds_spec ht.packable ht₁.packable h₁, addSeconds_spec ht.packable ht₂.packable hsum]
  show addSeconds (landed t t₁).toPackedUInt b = _ ↔ _
  split_ifs with hskips
  · obtain ⟨hmicro, days, hafter, hsum₂⟩ := h₂
    have hlanded : landed t t₁ = t₁.withDate t₁.date.next := if_pos hskips
    have hnext : (t₂.withDate t₂.date.next).Packable := by
      refine packable_withDate ht₂.packable ht₂.date.next ?_
      unfold Date.next
      split_ifs <;> simp only [date] <;> omega
    have hlater : Later b (landed t t₁) (t₂.withDate t₂.date.next) := by
      rw [hlanded]
      refine ⟨hmicro, days, ?_, hsum₂⟩
      rw [after_iff_dayNum ht₁.date ht₂.date] at hafter
      refine (after_iff_dayNum ht₁.date.next ht₂.date.next).2 ?_
      have hnum₁ := dayNum_next ht₁.date
      have hnum₂ := dayNum_next ht₂.date
      omega
    rw [addSeconds_spec (landed_packable ht₁.packable (by omega)) hnext hlater, ok_toPackedUInt_inj
      (landed_packable hnext ?_) (landed_packable ht₂.packable (by omega)), hlanded]
    · exact landed_next_iff ht₂.packable
    · unfold Date.next
      split_ifs <;> simp only [date, withDate] <;> omega
  · have hlanded : landed t t₁ = t₁ := if_neg hskips
    rw [hlanded, addSeconds_spec ht₁.packable ht₂.packable h₂, ok_toPackedUInt_inj
      (landed_packable ht₂.packable (by omega)) (landed_packable ht₂.packable (by omega))]
    exact landed_eq_landed_iff ht₂.packable

/-- Date arithmetic follows the calendar exactly if neither `d` nor the date `k` days after `t` is the last
day of a leap year, and, if the first step reaches such a day from another one, both steps together do, or
otherwise both the second step and the two together do or neither. -/
theorem follows_calendar_iff {d e : Date} (hd : d.Valid) (hdyear : d.year ≤ 9999) (he : e.Valid)
    (heyear : e.year ≤ 9999) {k : Int} (hk : t.date.After k e) :
    FollowsCalendar d t a b k e ↔ ¬ d.LeapYearEnd ∧ ¬ e.LeapYearEnd ∧
      if Skips t t₁ then Skips t t₂ else (Skips t₁ t₂ ↔ Skips t t₂) := by
  have hround : ∀ s : MyDateTime, fromDayNum s (calcDayNum d.year d.month d.day) = .ok (s.withDate (landing d)) :=
    fun s => fromDayNum_dayNum s hd (by omega)
  have hpackable : ∀ f : Date, f.Valid → f.year ≤ 10000 → (t.withDate f).Packable :=
    fun f hf hyear => packable_withDate ht.packable hf (by omega)
  have hdays : addDaysPacked t.toPackedUInt k = .ok (t.withDate (landing e)).toPackedUInt := by
    rw [addDaysPacked, if_neg ht.packable.toPackedUInt_ne_zero, ht.packable.ofPacked_toPackedUInt,
      addDays_spec ht.date he (by omega) hk]
    rfl
  have hdays_iff : (addDaysPacked t.toPackedUInt k = .ok (t.withDate e).toPackedUInt) ↔ ¬ e.LeapYearEnd := by
    have hle : (landing e).year ≤ e.year + 1 := landing_year_le
    rw [hdays, ok_toPackedUInt_inj (hpackable _ (landing_valid he) (by omega)) (hpackable _ he (by omega)),
      ← landing_eq_iff he]
    exact ⟨withDate_injective, fun h => by rw [h]⟩
  constructor
  · intro h
    refine ⟨(landing_eq_iff hd).1 ?_, hdays_iff.1 h.days, (compose_iff ht ht₁ ht₂ h₁ h₂).1 h.compose⟩
    exact withDate_injective (Except.ok.inj ((hround t).symm.trans (h.roundTrip t)))
  · rintro ⟨hend, hend', hcompose⟩
    have hself : Later 0 t t := ⟨rfl, 0, (after_iff_dayNum ht.date ht.date).2 (by omega), by omega⟩
    have hlater : Later (k * 86400) t (t.withDate e) := ⟨rfl, k, hk, by
      show t.secondOfDay + k * 86400 = k * 86400 + t.secondOfDay
      omega⟩
    refine ⟨dayNum_next hd, fun s => ?_, ?_, ?_, (compose_iff ht ht₁ ht₂ h₁ h₂).2 hcompose, hdays_iff.2 hend', ?_⟩
    · rw [hround, (landing_eq_iff hd).2 hend]
    · rw [addSeconds_spec ht.packable ht.packable hself, landed_of_date_eq rfl]
    · refine ⟨landed t t₁, landed_valid ht₁, ?_, addSeconds_spec ht.packable ht₁.packable h₁⟩
      unfold landed
      split_ifs
      · exact h₁.1
      · exact h₁.1
    · rw [addSeconds_spec ht.packable (hpackable e he (by omega)) hlater, landed,
        if_neg fun hskips => hend' hskips.2]

end Follows

/-- From noon on the first of March: a day on, an hour back, and the day before. -/
theorem follows_calendar_in_march :
    FollowsCalendar ⟨2020, 2, 29⟩ ⟨2021, 3, 1, 12, 0, 0, 5⟩ 86400 (-3600) (-1) ⟨2021, 2, 28⟩ := by
  have hvalid : ∀ month day hour : Nat, month = 3 → 1 ≤ day → day ≤ 2 → hour < 24 →
      MyDateTime.Valid ⟨2021, month, day, hour, 0, 0, 5⟩ := by
    rintro month day hour rfl hge hle hhour
    have hdays : daysInMonth 2021 3 = 31 := rfl
    exact ⟨⟨by simp [date], by simp [date], by simp [date], hge, by simp only [date]; omega⟩, by simp, hhour,
      by simp, by simp, by simp⟩
  refine (follows_calendar_iff (hvalid 3 1 12 rfl le_rfl (by omega) (by omega))
    (hvalid 3 2 12 rfl (by omega) le_rfl (by omega)) (hvalid 3 2 11 rfl (by omega) le_rfl (by omega))
    ⟨rfl, 1, .inl ⟨1, rfl, rfl⟩, rfl⟩ ⟨rfl, 0, .inl ⟨0, rfl, rfl⟩, rfl⟩
    ⟨by decide, by decide, by decide, by decide, by decide⟩ (by decide)
    ⟨by decide, by decide, by decide, by decide, by decide⟩ (by decide) (.inr ⟨1, rfl, rfl⟩)).2 ?_
  decide

/-- The last day of 2020 is taken for the first of 2021; a second on and a second back from the end of the day
before do not lead back. -/
theorem leap_year_end_is_skipped :
    (∀ s : MyDateTime, fromDayNum s (calcDayNum 2020 12 31) = .ok (s.withDate ⟨2021, 1, 1⟩)) ∧
      (addSeconds (toPackedUInt ⟨2020, 12, 30, 23, 59, 59, 0⟩) 1 >>= fun r => addSeconds r (-1))
        = .ok (toPackedUInt ⟨2021, 1, 1, 23, 59, 59, 0⟩) ∧
      addSeconds (toPackedUInt ⟨2020, 12, 30, 23, 59, 59, 0⟩) 0
        = .ok (toPackedUInt ⟨2020, 12, 30, 23, 59, 59, 0⟩) :=
  ⟨fun _ => rfl, by decide +kernel, by decide +kernel⟩

end TiFlash.Functions
