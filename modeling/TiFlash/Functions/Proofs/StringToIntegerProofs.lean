import TiFlash.Functions.StringConversion

/-!
# Proofs: a string as an integer

The loop over the digits saturates. A sign that the loop meets is taken for a digit, and a minus in front
lets the loop give up at once, so the cast is right only if neither occurs.
-/

namespace TiFlash.Functions

open List

/-! ## What should hold -/

/-- Decimal digits, behind those that stand for `v`. -/
def digitsFrom (v : Nat) (digits : List Char) : Nat := digits.foldl (fun v ch => v * 10 + (ch.toNat - 48)) v

variable (s : List Char)

/-- What stands behind an optional sign. -/
def magnitude : List Char := if s.head?.any isSign then s.tail else s

/-- The value of the longest prefix that is an optional sign and digits. -/
def leadingInt : Int :=
  let n : Nat := digitsFrom 0 ((magnitude s).takeWhile Char.isDigit)
  if s.head? = some '-' then -n else n

/-- The least and the greatest integer of the type. -/
def intLimits (toUnsigned : Bool) (bits : Nat) : Int × Int :=
  if toUnsigned then (0, 2 ^ bits - 1) else (-2 ^ (bits - 1), 2 ^ (bits - 1) - 1)

/-- The integer between the limits that is closest to `v`. -/
def clamp (limits : Int × Int) (v : Int) : Int := max limits.1 (min limits.2 v)

/-- A result, and whether an overflow comes with it, as the flags have it returned. -/
def reported (flags : DAGFlags) (result : Int × Bool) : Except CastError Int := do
  if result.2 then flags.handleOverflowError "cast str as int"
  return result.1

/-- The cast of a number that is reported when it does not fit. -/
def saturated (flags : DAGFlags) (limits : Int × Int) (v : Int) : Except CastError Int :=
  reported flags (clamp limits v, decide (clamp limits v ≠ v))

/-- An optional plus and digits. -/
def Plain : Prop := s.head? ≠ some '-' ∧ ∀ ch ∈ magnitude s, ch.isDigit = true

instance (s : List Char) : Decidable (Plain s) :=
  @instDecidableAnd _ _ inferInstance (decidableBAll _ (magnitude s))

/-! ## The loop -/

theorem le_digitsFrom (v : Nat) (digits : List Char) : v ≤ digitsFrom v digits := by
  induction digits generalizing v with
  | nil => exact le_rfl
  | cons ch digits ih =>
    have h : v * 10 + (ch.toNat - 48) ≤ digitsFrom v (ch :: digits) := ih _
    omega

theorem isDigit_iff {ch : Char} : ch.isDigit = true ↔ 48 ≤ ch.toNat ∧ ch.toNat ≤ 57 := by
  simp [Char.isDigit, UInt32.le_iff_toNat_le]

theorem leadingInt_getValidIntPrefix : leadingInt (getValidIntPrefix s) = leadingInt s := by
  have hdigits : ∀ rest : List Char, (getValidIntPrefix rest).takeWhile Char.isDigit
      = rest.takeWhile Char.isDigit := by
    intro rest
    rw [getValidIntPrefix, takeWhile_takeWhile]
    congr 1
    funext ch
    cases ch.isDigit <;> rfl
  cases s with
  | nil => rfl
  | cons ch rest =>
    have hrest := hdigits rest
    unfold getValidIntPrefix at hrest ⊢
    cases hdigit : ch.isDigit <;> cases hsign : isSign ch
    · have hne : ch ≠ '-' := by rintro rfl; cases hsign
      simp [leadingInt, magnitude, hdigit, hsign, hne]
    · simp [leadingInt, magnitude, hsign, hrest]
    · simp [leadingInt, magnitude, hdigit, hsign, hrest]
    · simp [leadingInt, magnitude, hsign, hrest]

theorem magnitude_eq {s : List Char} (h : s.head? ≠ some '-') :
    (if s.head? = some '+' then s.tail else s) = magnitude s := by
  cases s with
  | nil => rfl
  | cons ch rest =>
    have hsign : (some ch).any isSign = true ↔ some ch = some '+' := by simp_all [isSign]
    exact if_congr hsign.symm rfl rfl

theorem mem_of_mem_magnitude {s : List Char} {ch : Char} (h : ch ∈ magnitude s) : ch ∈ s := by
  unfold magnitude at h
  split_ifs at h
  · exact mem_of_mem_tail h
  · exact h

/-- The digits that count are all there is, or a sign comes next. -/
theorem exists_digits_append {s : List Char} (hs : ∀ ch ∈ s, (ch.isDigit || isSign ch) = true)
    (hne : s.head? ≠ some '-') :
    ∃ digits rest, magnitude s = digits ++ rest ∧ (∀ ch ∈ digits, ch.isDigit = true) ∧
      leadingInt s = digitsFrom 0 digits ∧
      (Plain s ∧ rest = [] ∨ ¬ Plain s ∧ ∃ ch rest', rest = ch :: rest' ∧ isSign ch = true) := by
  refine ⟨_, _, takeWhile_append_dropWhile.symm, fun ch h => mem_takeWhile_imp h, if_neg hne, ?_⟩
  have hplain : Plain s ↔ (magnitude s).dropWhile Char.isDigit = [] := by
    rw [Plain, dropWhile_eq_nil_iff]
    exact and_iff_right hne
  cases hrest : (magnitude s).dropWhile Char.isDigit with
  | nil => exact .inl ⟨hplain.2 hrest, rfl⟩
  | cons ch rest' =>
    have hdigit : ch.isDigit = false := by
      have hhead := head_dropWhile_not Char.isDigit (l := magnitude s) (by rw [hrest]; exact cons_ne_nil _ _)
      simpa [hrest] using hhead
    have hmem : ch ∈ s :=
      mem_of_mem_magnitude (dropWhile_sublist Char.isDigit |>.mem (hrest ▸ mem_cons_self))
    have hsign := hs ch hmem
    rw [hdigit, Bool.false_or] at hsign
    exact .inr ⟨by rw [hplain, hrest]; exact cons_ne_nil _ _, ch, rest', rfl, hsign⟩

/-- Whatever the characters are, the loop gives up or returns no less than it started with. -/
theorem toUIntLoop_cases (bits : Nat) (chars : List Char) {ret : Nat} (hret : ret < 2 ^ bits) :
    toUIntLoop bits ret chars = (2 ^ bits - 1, true) ∨
      ∃ r, toUIntLoop bits ret chars = (r, false) ∧ ret ≤ r ∧ r < 2 ^ bits := by
  induction chars generalizing ret with
  | nil => exact .inr ⟨ret, rfl, le_rfl, hret⟩
  | cons ch chars ih =>
    rw [toUIntLoop]
    dsimp only
    split_ifs with hcut hless
    · exact .inl rfl
    · exact .inl rfl
    · have hnext : ((ret * 10 + (ch.toNat - 48) : Int) % 2 ^ bits).toNat < 2 ^ bits := by
        have hpos : (0 : Int) < 2 ^ bits := by positivity
        have hlt : (ret * 10 + (ch.toNat - 48) : Int) % 2 ^ bits < (2 ^ bits : Nat) :=
          (Int.emod_lt_of_pos _ hpos).trans_eq (by norm_cast)
        exact (Int.toNat_lt (Int.emod_nonneg _ hpos.ne')).2 hlt
      exact (ih hnext).imp_right fun h => h.imp fun r hr => ⟨hr.1, (not_lt.1 hless).trans hr.2.1, hr.2.2⟩

section

variable {bits : Nat} (hbits : 8 ≤ bits)
include hbits

theorem toUIntLoop_append {digits : List Char} (hdigits : ∀ ch ∈ digits, ch.isDigit = true) (rest : List Char)
    {ret : Nat} (hret : ret < 2 ^ bits) : toUIntLoop bits ret (digits ++ rest) =
      if digitsFrom ret digits < 2 ^ bits then toUIntLoop bits (digitsFrom ret digits) rest
      else (2 ^ bits - 1, true) := by
  have hwidth : 2 ^ 8 ≤ 2 ^ bits := Nat.pow_le_pow_right (by decide) hbits
  induction digits generalizing ret with
  | nil => exact (if_pos hret).symm
  | cons ch digits ih =>
    obtain ⟨hch, hdigits⟩ := forall_mem_cons.1 hdigits
    obtain ⟨hlow, hhigh⟩ := isDigit_iff.1 hch
    have hgrows : ret * 10 + (ch.toNat - 48) ≤ digitsFrom ret (ch :: digits) := le_digitsFrom _ _
    have hnext : ((ret * 10 + (ch.toNat - 48) : Int) % 2 ^ bits).toNat
        = (ret * 10 + (ch.toNat - 48)) % 2 ^ bits := by
      exact_mod_cast Int.toNat_natCast _
    rw [cons_append, toUIntLoop]
    simp only [hnext]
    by_cases hcut : ret > (2 ^ bits - 1) / 10
    · rw [if_pos hcut, if_neg (by omega)]
    · rw [if_neg hcut]
      by_cases hfits : ret * 10 + (ch.toNat - 48) < 2 ^ bits
      · rw [Nat.mod_eq_of_lt hfits, if_neg (by omega)]
        exact ih hdigits hfits
      · -- the sum wraps around to less than ten
        rw [Nat.mod_eq_sub_mod (not_lt.1 hfits), Nat.mod_eq_of_lt (by omega), if_pos (by omega),
          if_neg (by omega)]

/-- A sign stands for a negative digit, so the value grows all the same: 0 wraps around. -/
theorem toUIntLoop_sign {ch : Char} (hsign : isSign ch = true) (rest : List Char) {ret : Nat}
    (hret : ret < 2 ^ bits) : toUIntLoop bits ret (ch :: rest) = (2 ^ bits - 1, true) ∨
      ∃ r, toUIntLoop bits ret (ch :: rest) = (r, false) ∧ ret < r ∧ r < 2 ^ bits := by
  have hwidth : 2 ^ 8 ≤ 2 ^ bits := Nat.pow_le_pow_right (by decide) hbits
  obtain ⟨d, hd, hch⟩ : ∃ d : Nat, (d = 3 ∨ d = 5) ∧ (ch.toNat - 48 : Int) = -d := by
    obtain rfl | rfl : ch = '+' ∨ ch = '-' := by simpa [isSign] using hsign
    · exact ⟨5, .inr rfl, rfl⟩
    · exact ⟨3, .inl rfl, rfl⟩
  rw [toUIntLoop, hch]
  by_cases hcut : ret > (2 ^ bits - 1) / 10
  · exact .inl (if_pos hcut)
  · obtain ⟨next, hnext, hlt, hfits⟩ : ∃ next : Nat,
        ((ret * 10 + -d : Int) % 2 ^ bits).toNat = next ∧ ret < next ∧ next < 2 ^ bits := by
      rcases Nat.eq_zero_or_pos ret with rfl | hpos
      · have hcast : (2 ^ 8 : Int) ≤ 2 ^ bits := by exact_mod_cast hwidth
        refine ⟨2 ^ bits - d, ?_, by omega, by omega⟩
        have hwrap : ((0 : Nat) * 10 + -d : Int) % 2 ^ bits = (2 ^ bits - d : Nat) := by
          rw [← Int.add_emod_right, Nat.cast_sub (by omega)]
          push_cast
          rw [Int.emod_eq_of_lt] <;> omega
        rw [hwrap, Int.toNat_natCast]
      · refine ⟨ret * 10 - d, ?_, by omega, by omega⟩
        have hcast : (ret * 10 + -d : Int) = (ret * 10 - d : Nat) := by omega
        have hmod : ((ret * 10 - d : Nat) : Int) % 2 ^ bits = ((ret * 10 - d) % 2 ^ bits : Nat) := by norm_cast
        rw [hcast, hmod, Int.toNat_natCast, Nat.mod_eq_of_lt (by omega)]
    rw [if_neg hcut]
    simp only [hnext]
    rw [if_neg (by omega)]
    exact (toUIntLoop_cases bits rest hfits).imp_right fun h => h.imp fun r hr =>
      ⟨hr.1, hlt.trans_le hr.2.1, hr.2.2⟩

theorem toUInt_cases {s : List Char} (hs : ∀ ch ∈ s, (ch.isDigit || isSign ch) = true)
    (hne : s.head? ≠ some '-') : ∃ v : Nat, leadingInt s = v ∧
      (toUInt bits s = (2 ^ bits - 1, true) ∧ (2 ^ bits ≤ v ∨ ¬ Plain s) ∨
      ∃ r < 2 ^ bits, toUInt bits s = (r, false) ∧ (Plain s ∧ r = v ∨ ¬ Plain s ∧ v < r)) := by
  obtain ⟨digits, rest, hsplit, hdigits, hv, hrest⟩ := exists_digits_append hs hne
  refine ⟨_, hv, ?_⟩
  rw [toUInt, if_neg hne, magnitude_eq hne, hsplit, toUIntLoop_append hbits hdigits rest (by positivity)]
  by_cases hfits : digitsFrom 0 digits < 2 ^ bits
  · rw [if_pos hfits]
    rcases hrest with ⟨hplain, rfl⟩ | ⟨hplain, ch, rest', rfl, hsign⟩
    · exact .inr ⟨_, hfits, rfl, .inl ⟨hplain, rfl⟩⟩
    · rcases toUIntLoop_sign hbits hsign rest' hfits with hloop | ⟨r, hloop, hlt, hr⟩
      · exact .inl ⟨hloop, .inr hplain⟩
      · exact .inr ⟨r, hr, hloop, .inr ⟨hplain, hlt⟩⟩
  · exact .inl ⟨if_neg hfits, .inl (not_lt.1 hfits)⟩

end

/-! ## The cast -/

/-- What `strToInt` reads from the digits and signs, with whether it takes it for an overflow. -/
def readInt (toUnsigned : Bool) (bits : Nat) (s : List Char) : Int × Bool :=
  if toUnsigned then ((toUInt bits s).1, (toUInt bits s).2) else toInt bits s

theorem readInt_of_minus {s : List Char} (h : s.head? = some '-') (toUnsigned : Bool) (bits : Nat) :
    readInt toUnsigned bits s = ((intLimits toUnsigned bits).1, true) := by
  cases toUnsigned <;> simp [readInt, toInt, toUInt, intLimits, h]

theorem readInt_of_overflow {s : List Char} {bits : Nat} (h : s.head? ≠ some '-')
    (hover : toUInt bits s = (2 ^ bits - 1, true)) (toUnsigned : Bool) :
    readInt toUnsigned bits s = ((intLimits toUnsigned bits).2, true) := by
  cases toUnsigned <;> simp [readInt, toInt, intLimits, h, hover]

theorem readInt_of_read {s : List Char} {bits r : Nat} (h : s.head? ≠ some '-') (hr : r < 2 ^ bits)
    (hread : toUInt bits s = (r, false)) (toUnsigned : Bool) : readInt toUnsigned bits s
      = if (r : Int) ≤ (intLimits toUnsigned bits).2 then (↑r, false) else ((intLimits toUnsigned bits).2, true) := by
  cases toUnsigned with
  | true =>
    have hle : (r : Int) ≤ 2 ^ bits - 1 := Int.le_sub_one_iff.2 (by exact_mod_cast hr)
    simp [readInt, hread, intLimits, hle]
  | false =>
    simp only [readInt, toInt, hread, h, intLimits, Bool.false_eq_true, if_false, decide_false]
    split_ifs <;> first | rfl | omega

theorem intLimits_bounds (toUnsigned : Bool) (bits : Nat) : (intLimits toUnsigned bits).1 ≤ 0 ∧
    0 ≤ (intLimits toUnsigned bits).2 ∧ (intLimits toUnsigned bits).2 < 2 ^ bits := by
  have hpos : (0 : Int) < 2 ^ (bits - 1) := by positivity
  have hle : (2 : Int) ^ (bits - 1) ≤ 2 ^ bits := pow_le_pow_right₀ (by decide) (Nat.sub_le _ _)
  unfold intLimits
  split_ifs <;> simp only <;> omega

theorem leadingInt_nonpos {s : List Char} (h : s.head? = some '-') : leadingInt s ≤ 0 := by
  rw [leadingInt, if_pos h]
  exact Int.neg_nonpos_of_nonneg (Int.natCast_nonneg _)

/-- The digits and signs are read right exactly if they are plain or stand for an integer that does not fit. -/
theorem readInt_eq_clamp_iff {bits : Nat} (hbits : 8 ≤ bits) {s : List Char}
    (hs : ∀ ch ∈ s, (ch.isDigit || isSign ch) = true) (toUnsigned : Bool) :
    readInt toUnsigned bits s = (clamp (intLimits toUnsigned bits) (leadingInt s),
      decide (clamp (intLimits toUnsigned bits) (leadingInt s) ≠ leadingInt s)) ↔
    Plain s ∨ clamp (intLimits toUnsigned bits) (leadingInt s) ≠ leadingInt s := by
  obtain ⟨hlo, hhi, hlt⟩ := intLimits_bounds toUnsigned bits
  unfold clamp
  by_cases hne : s.head? = some '-'
  · have hv := leadingInt_nonpos hne
    have hplain : ¬ Plain s := fun h => h.1 hne
    rw [readInt_of_minus hne, min_eq_right (by omega), Prod.mk.injEq, eq_comm (a := true), decide_eq_true_iff]
    simp only [hplain, false_or, and_iff_right_iff_imp]
    omega
  · obtain ⟨v, hv, ⟨hover, hwhy⟩ | ⟨r, hr, hread, hwhy⟩⟩ := toUInt_cases hbits hs hne
    · have hpow : ((2 ^ bits : Nat) : Int) = 2 ^ bits := by norm_cast
      rw [readInt_of_overflow hne hover, hv, Prod.mk.injEq, eq_comm (a := true), decide_eq_true_iff]
      rcases hwhy with hlarge | hplain
      · exact iff_of_true (by omega) (.inr (by omega))
      · simp only [hplain, false_or]
        omega
    · rw [readInt_of_read hne hr hread, hv]
      rcases hwhy with ⟨hplain, rfl⟩ | ⟨hplain, hgt⟩
      · refine iff_of_true ?_ (.inl hplain)
        split_ifs with hle
        · rw [min_eq_right hle, max_eq_right (by omega)]
          simp
        · rw [min_eq_left (by omega), max_eq_right (by omega), decide_eq_true (by omega)]
      · simp only [hplain, false_or]
        split_ifs with hle
        · rw [Prod.mk.injEq, eq_comm (a := false), decide_eq_false_iff_not]
          omega
        · rw [Prod.mk.injEq, eq_comm (a := true), decide_eq_true_iff]
          omega

theorem forall_reported_iff (flags : DAGFlags) {a b : Int × Bool} :
    (∀ overflowAsWarning, reported { flags with overflowAsWarning } a = reported { flags with overflowAsWarning } b)
      ↔ a = b := by
  refine ⟨fun h => ?_, fun h _ => by rw [h]⟩
  have hvalue : ∀ c, reported { flags with overflowAsWarning := true } c = .ok c.1 := by
    intro c
    cases hc : c.2 <;> simp [reported, hc, DAGFlags.handleOverflowError, bind, Except.bind, pure, Except.pure]
  have hreport : ∀ c, reported { flags with overflowAsWarning := false } c
      = if c.2 then .error (.exception "Overflow error cast str as int") else .ok c.1 := by
    intro c
    cases hc : c.2 <;> simp [reported, hc, DAGFlags.handleOverflowError, bind, Except.bind, pure, Except.pure]
  have h₁ := h true
  have h₂ := h false
  rw [hvalue, hvalue, Except.ok.injEq] at h₁
  rw [hreport, hreport] at h₂
  refine Prod.ext h₁ ?_
  cases ha : a.2 <;> cases hb : b.2 <;> simp_all

theorem strToInt_of_nil {value : List Char} (hnil : getValidIntPrefix (trim value) = []) (flags : DAGFlags)
    (toUnsigned : Bool) (bits : Nat) : strToInt flags toUnsigned bits value = .ok 0 ↔
      value = [] ∨ (flags.ignoreTruncate || flags.truncateAsWarning) = true := by
  simp only [strToInt, hnil, or_true, if_true, DAGFlags.handleTruncateError]
  by_cases hvalue : value = []
  · simp [hvalue, pure, Except.pure]
  · rcases Bool.eq_false_or_eq_true (flags.ignoreTruncate || flags.truncateAsWarning) with hflags | hflags <;>
      simp [hvalue, hflags, bind, Except.bind, pure, Except.pure]

/-- The cast returns and reports what it should iff the leading digits and signs are an optional plus and
digits, or an integer that does not fit, and, where there are none, a truncation may pass. -/
theorem strToInt_eq_saturated_iff {bits : Nat} (hbits : 8 ≤ bits) (flags : DAGFlags) (toUnsigned : Bool)
    (value : List Char) :
    (∀ overflowAsWarning, strToInt { flags with overflowAsWarning } toUnsigned bits value
      = saturated { flags with overflowAsWarning } (intLimits toUnsigned bits) (leadingInt (trim value))) ↔
    (Plain (getValidIntPrefix (trim value)) ∨
      clamp (intLimits toUnsigned bits) (leadingInt (trim value)) ≠ leadingInt (trim value)) ∧
    (getValidIntPrefix (trim value) = [] →
      value = [] ∨ (flags.ignoreTruncate || flags.truncateAsWarning) = true) := by
  have hs : ∀ ch ∈ getValidIntPrefix (trim value), (ch.isDigit || isSign ch) = true :=
    fun _ => mem_takeWhile_imp (p := fun ch => ch.isDigit || isSign ch)
  have hiff := readInt_eq_clamp_iff hbits hs toUnsigned
  rw [leadingInt_getValidIntPrefix] at hiff
  by_cases hnil : getValidIntPrefix (trim value) = []
  · have hzero : leadingInt (trim value) = 0 := by
      rw [← leadingInt_getValidIntPrefix, hnil]
      rfl
    have hclamp : clamp (intLimits toUnsigned bits) 0 = 0 := by
      obtain ⟨hlo, hhi, -⟩ := intLimits_bounds toUnsigned bits
      rw [clamp, min_eq_right hhi, max_eq_right hlo]
    have hright : ∀ flags, saturated flags (intLimits toUnsigned bits) 0 = .ok 0 := by
      intro flags
      rw [saturated, hclamp]
      rfl
    have hplain : Plain [] := by decide
    simp only [hzero, hright, strToInt_of_nil hnil, hnil, hplain, true_or, true_and, forall_const]
  · have htrim : trim value ≠ [] := by
      intro htrim
      rw [htrim] at hnil
      exact hnil rfl
    have hcast : ∀ flags, strToInt flags toUnsigned bits value
        = reported flags (readInt toUnsigned bits (getValidIntPrefix (trim value))) := by
      intro flags
      simp only [strToInt, htrim, hnil, or_self, if_false]
      rfl
    simp only [hcast, saturated, forall_reported_iff, hiff, hnil, false_imp_iff, and_true]

theorem strToInt_300 : strToInt ⟨false, false, true⟩ false 8 " 300x".toList = .ok 127 ∧
    strToInt ⟨false, false, false⟩ false 8 "+300".toList = .error (.exception "Overflow error cast str as int") ∧
    strToInt ⟨false, false, true⟩ true 8 "-5".toList = .ok 0 :=
  ⟨((strToInt_eq_saturated_iff (by decide) ⟨false, false, true⟩ false _).2 (by decide) true).trans (by decide),
   ((strToInt_eq_saturated_iff (by decide) ⟨false, false, false⟩ false _).2 (by decide) false).trans (by decide),
   ((strToInt_eq_saturated_iff (by decide) ⟨false, false, true⟩ true _).2 (by decide) true).trans (by decide)⟩

theorem strToInt_minus_five : leadingInt "-5".toList = -5 ∧
    strToInt ⟨false, false, true⟩ false 8 "-5".toList = .ok (-128) ∧
    strToInt ⟨false, false, true⟩ true 8 "1+2".toList = .ok 52 := by
  decide

end TiFlash.Functions
