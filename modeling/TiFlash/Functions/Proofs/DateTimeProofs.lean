import TiFlash.Functions.DateTime

/-!
# Date arithmetic and the calendar

`calcDayNum` numbers the days of the calendar. `fromDayNum` gives the date back, except for the last day of
a leap year: a quotient by the days of a year, or of 100 years, is then 4, and the next day results.
-/

namespace TiFlash.Functions

open TiFlash.Lib

/-! ## The number of a day -/

/-- The days from 0001-01-01 to the first day of a year. -/
def daysBeforeYear (year : Nat) : Nat :=
  365 * (year - 1) + (year - 1) / 4 + (year - 1) / 400 - (year - 1) / 100

/-- The days from the first day of a year to the first day of a month. -/
def daysBeforeMonth (leap : Bool) (month : Nat) : Nat :=
  if month = 1 then 0
  else (if leap then accumulatedDaysPerMonthLeapYear else accumulatedDaysPerMonth).getD (month - 2) 0 + 1

/-- From 0 on -/
def dayOfYear (d : Date) : Nat := daysBeforeMonth (isLeapYear d.year) d.month + (d.day - 1)

def dayNum (d : Date) : Nat := calcDayNum d.year d.month d.day

/-- The year in blocks of 400, 100 and 4 years -/
structure YearBlocks (year a b c d : Nat) : Prop where
  eq : year = 400 * a + 100 * b + 4 * c + d + 1
  b_lt : b < 4
  c_lt : c < 25
  d_lt : d < 4

theorem exists_yearBlocks {year : Nat} (h : 1 ≤ year) : ∃ a b c d, YearBlocks year a b c d :=
  ⟨(year - 1) / 400, (year - 1) % 400 / 100, (year - 1) % 100 / 4, (year - 1) % 4,
    by omega, by omega, by omega, by omega⟩

namespace YearBlocks

variable {year a b c d : Nat} (h : YearBlocks year a b c d)

include h

theorem daysBeforeYear_eq : daysBeforeYear year = 146097 * a + 36524 * b + 1461 * c + 365 * d := by
  obtain ⟨rfl, hb, hc, hd⟩ := h
  unfold daysBeforeYear
  have h4 : (400 * a + 100 * b + 4 * c + d + 1 - 1) / 4 = 100 * a + 25 * b + c := by omega
  have h100 : (400 * a + 100 * b + 4 * c + d + 1 - 1) / 100 = 4 * a + b := by omega
  have h400 : (400 * a + 100 * b + 4 * c + d + 1 - 1) / 400 = a := by omega
  rw [h4, h100, h400]
  omega

theorem isLeapYear_iff : isLeapYear year = true ↔ d = 3 ∧ (c = 24 → b = 3) := by
  obtain ⟨rfl, hb, hc, hd⟩ := h
  have h4 : (400 * a + 100 * b + 4 * c + d + 1) % 4 = 0 ↔ d = 3 := by omega
  have h100 : (400 * a + 100 * b + 4 * c + d + 1) % 100 = 0 ↔ d = 3 ∧ c = 24 := by omega
  have h400 : (400 * a + 100 * b + 4 * c + d + 1) % 400 = 0 ↔ d = 3 ∧ c = 24 ∧ b = 3 := by omega
  simp only [isLeapYear, Bool.or_eq_true, Bool.and_eq_true, decide_eq_true_eq, ne_eq, h4, h100, h400]
  tauto

theorem leapYears_eq :
    year / 4 + year / 400 = 97 * a + 24 * b + c + (isLeapYear year).toNat + year / 100 := by
  have hleap := h.isLeapYear_iff
  obtain ⟨rfl, hb, hc, hd⟩ := h
  cases hl : isLeapYear (400 * a + 100 * b + 4 * c + d + 1) with
  | true =>
    obtain ⟨rfl, hcb⟩ := hleap.1 hl
    simp only [Bool.toNat_true]
    by_cases hlast : c = 24
    · omega
    · omega
  | false =>
    rw [hl] at hleap
    have hnot := mt hleap.2 Bool.false_ne_true
    simp only [Bool.toNat_false]
    by_cases hthree : d = 3
    · omega
    · omega

end YearBlocks

theorem daysBeforeYear_succ {year : Nat} (h : 1 ≤ year) :
    daysBeforeYear (year + 1) = daysBeforeYear year + if isLeapYear year then 366 else 365 := by
  obtain ⟨a, b, c, d, hblocks⟩ := exists_yearBlocks h
  have hleap := hblocks.leapYears_eq
  have heq := hblocks.eq
  rw [hblocks.daysBeforeYear_eq, daysBeforeYear, Nat.add_sub_cancel]
  cases hl : isLeapYear year <;> rw [hl] at hleap <;> simp at hleap ⊢ <;> omega

theorem daysBeforeMonth_succ (year : Nat) {month : Nat} (hge : 1 ≤ month) (hlt : month < 12) :
    daysBeforeMonth (isLeapYear year) (month + 1)
      = daysBeforeMonth (isLeapYear year) month + daysInMonth year month := by
  unfold daysInMonth
  cases isLeapYear year <;> interval_cases month <;> rfl

theorem daysBeforeMonth_twelve (leap : Bool) :
    daysBeforeMonth leap 12 + 31 = if leap then 366 else 365 := by
  cases leap <;> rfl

theorem daysBeforeMonth_eq (leap : Bool) {month : Nat} (hge : 1 ≤ month) (hle : month ≤ 12) :
    daysBeforeMonth leap month + (if month ≤ 2 then 0 else (month * 4 + 23) / 10)
      = 31 * (month - 1) + if month ≤ 2 then 0 else leap.toNat := by
  cases leap <;> interval_cases month <;> rfl

variable {d : Date}

theorem dayNum_eq (h : d.Valid) : dayNum d = 366 + daysBeforeYear d.year + dayOfYear d := by
  have hmonth := daysBeforeMonth_eq (isLeapYear d.year) h.month_ge h.month_le
  have hmonth_ge := h.month_ge
  have hday := h.day_ge
  obtain ⟨a, b, c, k, hblocks⟩ := exists_yearBlocks h.year
  have heq := hblocks.eq
  have hleap := hblocks.leapYears_eq
  rw [hblocks.daysBeforeYear_eq]
  unfold dayNum dayOfYear calcDayNum
  rw [if_neg (by omega)]
  split_ifs at hmonth ⊢ with htwo
  · -- the leap day of the year is still to come
    have hdays := hblocks.daysBeforeYear_eq
    unfold daysBeforeYear at hdays
    simp only
    omega
  · simp only
    omega

theorem dayNum_next (h : d.Valid) : dayNum d.next = dayNum d + 1 := by
  rw [dayNum_eq h, dayNum_eq h.next]
  have hday := h.day_ge
  have hday' := h.day_le
  unfold Date.next dayOfYear
  split_ifs with hlast hmonth
  · simp only
    omega
  · have hsucc := daysBeforeMonth_succ d.year h.month_ge hmonth
    simp only
    omega
  · -- the last day of a year
    obtain hdec : d.month = 12 := le_antisymm h.month_le (not_lt.1 hmonth)
    have htwelve := daysBeforeMonth_twelve (isLeapYear d.year)
    have hsucc := daysBeforeYear_succ h.year
    have hfirst : daysBeforeMonth (isLeapYear (d.year + 1)) 1 = 0 := rfl
    have hdays : daysInMonth d.year 12 = 31 := rfl
    rw [hdec] at hlast hday' ⊢
    simp only
    omega

/-! ## The date of a number -/

/-- The numbers of blocks, each the quotient by its length. -/
theorem yearOfDayNum_of_blocks {n a b c d r : Nat} (hn : n = 366 + (146097 * a + 36524 * b + 1461 * c + 365 * d + r))
    (h400 : 36524 * b + 1461 * c + 365 * d + r < 146097) (h100 : 1461 * c + 365 * d + r < 36524)
    (h4 : 365 * d + r < 1461) (h1 : r < 365) :
    yearOfDayNum n = (1 + a * 400 + b * 100 + c * 4 + d, r) := by
  have hsub : n - 366 = 146097 * a + (36524 * b + 1461 * c + 365 * d + r) := by omega
  have hdiv400 : (146097 * a + (36524 * b + 1461 * c + 365 * d + r)) / 146097 = a := by omega
  have hmod : (146097 * a + (36524 * b + 1461 * c + 365 * d + r)) % 146097
      = 36524 * b + (1461 * c + 365 * d + r) := by omega
  have hdiv100 : (36524 * b + (1461 * c + 365 * d + r)) / 36524 = b := by omega
  have hsub100 : 36524 * b + (1461 * c + 365 * d + r) - b * 36524 = 1461 * c + (365 * d + r) := by omega
  have hdiv4 : (1461 * c + (365 * d + r)) / 1461 = c := by omega
  have hsub4 : 1461 * c + (365 * d + r) - c * 1461 = 365 * d + r := by omega
  have hdiv1 : (365 * d + r) / 365 = d := by omega
  have hsub1 : 365 * d + r - d * 365 = r := by omega
  unfold yearOfDayNum dayNumPer400Years dayNumPer100Years dayNumPer4Years dayNumPerYears
  rw [if_pos (by omega)]
  simp only [hsub, Nat.reduceMul, Nat.reduceAdd, hdiv400, hmod, hdiv100, hsub100, hdiv4, hsub4, hdiv1, hsub1]

theorem yearOfDayNum_eq {year r : Nat} (h : 1 ≤ year) (hr : r < 365) :
    yearOfDayNum (366 + daysBeforeYear year + r) = (year, r) := by
  obtain ⟨a, b, c, d, hblocks⟩ := exists_yearBlocks h
  obtain ⟨heq, hb, hc, hd⟩ := id hblocks
  rw [hblocks.daysBeforeYear_eq, yearOfDayNum_of_blocks (Nat.add_assoc 366 _ r) (by omega) (by omega)
    (by omega) hr, heq, Prod.mk.injEq]
  omega

theorem yearOfDayNum_last {year : Nat} (h : 1 ≤ year) (hleap : isLeapYear year = true) :
    yearOfDayNum (366 + daysBeforeYear year + 365) = (year + 1, 0) := by
  obtain ⟨a, b, c, d, hblocks⟩ := exists_yearBlocks h
  obtain ⟨rfl, hcb⟩ := hblocks.isLeapYear_iff.1 hleap
  obtain ⟨heq, hb, hc, -⟩ := id hblocks
  rw [hblocks.daysBeforeYear_eq]
  by_cases hlast : c = 24
  · -- four blocks of 100 years
    obtain rfl := hcb hlast
    have hn : 366 + (146097 * a + 36524 * 3 + 1461 * c + 365 * 3) + 365
        = 366 + (146097 * a + 36524 * 4 + 1461 * 0 + 365 * 0 + 0) := by omega
    rw [yearOfDayNum_of_blocks hn (by norm_num) (by norm_num) (by norm_num) (by norm_num), Prod.mk.injEq]
    omega
  · -- four blocks of one year
    have hn : 366 + (146097 * a + 36524 * b + 1461 * c + 365 * 3) + 365
        = 366 + (146097 * a + 36524 * b + 1461 * c + 365 * 4 + 0) := by omega
    rw [yearOfDayNum_of_blocks hn (by omega) (by omega) (by norm_num) (by norm_num), Prod.mk.injEq]
    omega

def monthLength (leap : Bool) (month : Nat) : Nat :=
  if month = 2 then if leap then 29 else 28
  else if month = 4 ∨ month = 6 ∨ month = 9 ∨ month = 11 then 30
  else 31

theorem fillMonthAndDay_eq : ∀ leap : Bool, ∀ month < 12, ∀ day < monthLength leap (month + 1),
    fillMonthAndDay (daysBeforeMonth leap (month + 1) + day)
      (if leap then accumulatedDaysPerMonthLeapYear else accumulatedDaysPerMonth) = (month, day) := by
  decide

theorem dayOfYear_lt (h : d.Valid) (hend : ¬ d.LeapYearEnd) : dayOfYear d < 365 := by
  obtain ⟨-, hge, hle, hday, hday'⟩ := h
  have hmonth : d.month < 12 ∨ d.month = 12 := by omega
  unfold dayOfYear
  rcases hmonth with hlt | htwelve
  · -- the months up to November have at most 335 days
    have hsucc := daysBeforeMonth_succ d.year hge hlt
    have hle' : daysBeforeMonth (isLeapYear d.year) (d.month + 1) ≤ 335 := by
      cases isLeapYear d.year <;> interval_cases d.month <;> decide
    omega
  · have hdays : daysInMonth d.year 12 = 31 := rfl
    have htotal := daysBeforeMonth_twelve (isLeapYear d.year)
    rw [htwelve] at hday' ⊢
    cases hl : isLeapYear d.year with
    | true =>
      have hne : d.day ≠ 31 := fun heq => hend ⟨hl, htwelve, heq⟩
      rw [hl, if_pos rfl] at htotal
      omega
    | false =>
      rw [hl, if_neg Bool.false_ne_true] at htotal
      omega

theorem dayOfYear_leapYearEnd (hend : d.LeapYearEnd) : dayOfYear d = 365 := by
  obtain ⟨hleap, hmonth, hday⟩ := hend
  rw [dayOfYear, hleap, hmonth, hday]
  rfl

theorem fillMonthAndDay_dayOfYear (h : d.Valid) :
    fillMonthAndDay (dayOfYear d) (if isLeapYear d.year then accumulatedDaysPerMonthLeapYear
      else accumulatedDaysPerMonth) = (d.month - 1, d.day - 1) := by
  have hle := h.month_le
  have hday := h.day_ge
  have hday' : d.day ≤ monthLength (isLeapYear d.year) d.month := h.day_le
  have hsucc : d.month - 1 + 1 = d.month := Nat.sub_add_cancel h.month_ge
  have hfill := fillMonthAndDay_eq (isLeapYear d.year) (d.month - 1) (by omega) (d.day - 1)
    (by rw [hsucc]; omega)
  rw [hsucc] at hfill
  exact hfill

theorem daysBeforeYear_mono {year year' : Nat} (hyear : 1 ≤ year) (hle : year ≤ year') :
    daysBeforeYear year ≤ daysBeforeYear year' := by
  induction year', hle using Nat.le_induction with
  | base => exact le_rfl
  | succ year' hle ih =>
    have hsucc := daysBeforeYear_succ (hyear.trans hle)
    split_ifs at hsucc <;> omega

theorem dayNum_lt_of_year_lt {d e : Date} (hd : d.Valid) (he : e.Valid) (hlt : d.year < e.year) :
    dayNum d < dayNum e := by
  have hmono : daysBeforeYear (d.year + 1) ≤ daysBeforeYear e.year :=
    daysBeforeYear_mono (Nat.succ_pos d.year) hlt
  have hsucc := daysBeforeYear_succ hd.year
  rw [dayNum_eq hd, dayNum_eq he]
  by_cases hend : d.LeapYearEnd
  · rw [if_pos hend.1] at hsucc
    rw [dayOfYear_leapYearEnd hend]
    omega
  · have hday := dayOfYear_lt hd hend
    split_ifs at hsucc <;> omega

theorem dayNum_injective {d e : Date} (hd : d.Valid) (he : e.Valid) (h : dayNum d = dayNum e) : d = e := by
  have hyear : d.year = e.year := by
    rcases lt_trichotomy d.year e.year with hlt | heq | hgt
    · exact absurd h (dayNum_lt_of_year_lt hd he hlt).ne
    · exact heq
    · exact absurd h (dayNum_lt_of_year_lt he hd hgt).ne'
  have hday : dayOfYear d = dayOfYear e := by
    rw [dayNum_eq hd, dayNum_eq he, hyear] at h
    omega
  have hfill := fillMonthAndDay_dayOfYear hd
  rw [hday, hyear, fillMonthAndDay_dayOfYear he, Prod.mk.injEq] at hfill
  have hge := hd.month_ge
  have hge' := he.month_ge
  have hday_ge := hd.day_ge
  have hday_ge' := he.day_ge
  obtain ⟨year, month, day⟩ := d
  obtain ⟨year', month', day'⟩ := e
  simp only [Date.mk.injEq] at *
  omega

theorem after_iff_dayNum {k : Int} {d e : Date} (hd : d.Valid) (he : e.Valid) :
    d.After k e ↔ (dayNum e : Int) = dayNum d + k := by
  refine @Date.after_iff (fun d => (dayNum d : Int)) (fun d hd => ?_) (fun d e hd he h => ?_) k d e hd he
  · exact_mod_cast dayNum_next hd
  · exact dayNum_injective hd he (by exact_mod_cast h)

/-- The date that `fromDayNum` finds for the number of `d`. -/
def landing (d : Date) : Date := if d.LeapYearEnd then d.next else d

theorem fromDayNum_dayNum (t : MyDateTime) {d : Date} (h : d.Valid) (hyear : d.year < 2 ^ 16 - 1) :
    fromDayNum t (dayNum d) = .ok (t.withDate (landing d)) := by
  have hnonneg : ¬ (dayNum d : Int) < 0 := by omega
  unfold fromDayNum landing
  rw [if_neg hnonneg, Int.toNat_natCast, dayNum_eq h]
  split_ifs with hend
  · rw [dayOfYear_leapYearEnd hend, yearOfDayNum_last h.year hend.1, Date.next_of_leapYearEnd hend]
    have hfill := fillMonthAndDay_eq (isLeapYear (d.year + 1)) 0 (by decide) 0 (by simp [monthLength])
    have hzero : daysBeforeMonth (isLeapYear (d.year + 1)) (0 + 1) + 0 = 0 := rfl
    rw [hzero] at hfill
    simp only [hfill, MyDateTime.withDate]
    rw [Nat.mod_eq_of_lt (by omega)]
    rfl
  · have hlength : daysInMonth d.year d.month ≤ 31 := by
      unfold daysInMonth
      split_ifs <;> omega
    have hmonth := h.month_le
    have hday := h.day_le
    rw [yearOfDayNum_eq h.year (dayOfYear_lt h hend)]
    simp only [fillMonthAndDay_dayOfYear h, MyDateTime.withDate, Nat.sub_add_cancel h.month_ge,
      Nat.sub_add_cancel h.day_ge]
    rw [Nat.mod_eq_of_lt (by omega), Nat.mod_eq_of_lt (by omega), Nat.mod_eq_of_lt (by omega)]

end TiFlash.Functions
