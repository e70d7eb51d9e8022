import Mathlib.Tactic

/-!
# The calendar

Dates of the Gregorian calendar, continued backwards to the year 1. A numbering that gives the next day the
next number gives the day `k` days later the number larger by `k`.
-/

namespace TiFlash.Lib

/-- Of the Gregorian calendar -/
def isLeapYear (year : Nat) : Bool := year % 400 = 0 || (year % 4 = 0 && year % 100 ≠ 0)

/-- Days of a month -/
def daysInMonth (year month : Nat) : Nat :=
  if month = 2 then if isLeapYear year then 29 else 28
  else if month = 4 ∨ month = 6 ∨ month = 9 ∨ month = 11 then 30
  else 31

/-- A date -/
structure Date where
  year : Nat
  month : Nat
  day : Nat
  deriving DecidableEq, Repr

namespace Date

/-- A date that exists -/
structure Valid (d : Date) : Prop where
  year : 1 ≤ d.year
  month_ge : 1 ≤ d.month
  month_le : d.month ≤ 12
  day_ge : 1 ≤ d.day
  day_le : d.day ≤ daysInMonth d.year d.month

/-- The day after -/
def next (d : Date) : Date :=
  if d.day < daysInMonth d.year d.month then ⟨d.year, d.month, d.day + 1⟩
  else if d.month < 12 then ⟨d.year, d.month + 1, 1⟩
  else ⟨d.year + 1, 1, 1⟩

/-- The date `e` is `k` days after `d`; if `k` is negative, before it. -/
def After (k : Int) (d e : Date) : Prop :=
  (∃ n : Nat, k = n ∧ next^[n] d = e) ∨ ∃ n : Nat, k = -n ∧ next^[n] e = d

/-- The last day of a leap year -/
def LeapYearEnd (d : Date) : Prop := isLeapYear d.year = true ∧ d.month = 12 ∧ d.day = 31

instance (d : Date) : Decidable d.LeapYearEnd := inferInstanceAs (Decidable (_ ∧ _))

theorem daysInMonth_pos (year month : Nat) : 28 ≤ daysInMonth year month := by
  unfold daysInMonth
  split_ifs <;> omega

theorem Valid.next {d : Date} (h : d.Valid) : d.next.Valid := by
  obtain ⟨hyear, hge, hle, hday, hday'⟩ := h
  unfold Date.next
  split_ifs with hlast hmonth
  · exact ⟨hyear, hge, hle, by simp, hlast⟩
  · have := daysInMonth_pos d.year (d.month + 1)
    exact ⟨hyear, by simp, hmonth, le_rfl, by simp only; omega⟩
  · have := daysInMonth_pos (d.year + 1) 1
    exact ⟨by simp, le_rfl, by simp, le_rfl, by simp only; omega⟩

theorem Valid.iterate_next {d : Date} (h : d.Valid) (n : Nat) : (Date.next^[n] d).Valid := by
  induction n with
  | zero => exact h
  | succ n ih =>
    rw [Function.iterate_succ_apply']
    exact ih.next

theorem next_of_leapYearEnd {d : Date} (h : d.LeapYearEnd) : d.next = ⟨d.year + 1, 1, 1⟩ := by
  obtain ⟨-, hmonth, hday⟩ := h
  unfold Date.next
  rw [hmonth, hday, if_neg (by simp [daysInMonth]), if_neg (by decide)]

theorem not_leapYearEnd_next {d : Date} (h : d.LeapYearEnd) : ¬ d.next.LeapYearEnd := by
  rw [next_of_leapYearEnd h]
  rintro ⟨-, hmonth, -⟩
  cases hmonth

section Numbering

variable {number : Date → Int} (hnext : ∀ d : Date, d.Valid → number d.next = number d + 1)

include hnext

theorem number_iterate_next {d : Date} (h : d.Valid) (n : Nat) : number (Date.next^[n] d) = number d + n := by
  induction n with
  | zero => simp
  | succ n ih =>
    rw [Function.iterate_succ_apply', hnext _ (h.iterate_next n), ih]
    push_cast
    ring

/-- If the numbers are different, they tell how many days there are between two dates. -/
theorem after_iff (hinj : ∀ d e : Date, d.Valid → e.Valid → number d = number e → d = e) {k : Int}
    {d e : Date} (hd : d.Valid) (he : e.Valid) : After k d e ↔ number e = number d + k := by
  constructor
  · rintro (⟨n, rfl, rfl⟩ | ⟨n, rfl, rfl⟩)
    · exact number_iterate_next hnext hd n
    · rw [number_iterate_next hnext he n]
      ring
  · intro h
    rcases le_total 0 k with hk | hk
    · lift k to Nat using hk
      refine .inl ⟨k, rfl, hinj _ _ (hd.iterate_next k) he ?_⟩
      rw [number_iterate_next hnext hd, h]
    · refine .inr ⟨(-k).toNat, by omega, hinj _ _ (he.iterate_next _) hd ?_⟩
      rw [number_iterate_next hnext he, h]
      omega

end Numbering

end Date

end TiFlash.Lib
