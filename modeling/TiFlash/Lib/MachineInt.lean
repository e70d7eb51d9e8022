import Mathlib.Tactic

/-!
# Machine integers

Signed integer types of a fixed width. The built-in ones wrap; the checked ones hold a sign and a
magnitude and throw when a result does not fit.
-/

namespace TiFlash.Lib

/-- A width, and whether it is a checked integer -/
structure IntType where
  bits : Nat
  checked : Bool
  deriving DecidableEq, Repr

namespace IntType

variable (t : IntType)

/-- The type has the value. -/
def InRange (v : Int) : Prop :=
  if t.checked then |v| < 2 ^ t.bits else -(2 ^ (t.bits - 1)) ≤ v ∧ v < 2 ^ (t.bits - 1)

instance (v : Int) : Decidable (t.InRange v) := inferInstanceAs (Decidable (ite _ _ _))

/-- The value of the type that is congruent to `v`. -/
def wrap (v : Int) : Int := v.bmod (2 ^ t.bits)

/-- What an operation with the result `v` leaves in a variable of the type. -/
def store {ε : Type} (overflow : ε) (v : Int) : Except ε Int :=
  if t.InRange v then .ok v else if t.checked then .error overflow else .ok (t.wrap v)

/-- The conversion of a value of the type `source`. A checked type on either side checks the value. -/
def cast {ε : Type} (overflow : ε) (source : IntType) (v : Int) : Except ε Int :=
  if t.InRange v then .ok v
  else if source.checked || t.checked then .error overflow else .ok (t.wrap v)

variable {t} {ε : Type} {overflow : ε} {source : IntType} {v : Int}

theorem store_of_inRange (h : t.InRange v) : t.store overflow v = .ok v := if_pos h

theorem cast_of_inRange (h : t.InRange v) : t.cast overflow source v = .ok v := if_pos h

theorem store_of_checked (hchecked : t.checked = true) (h : ¬ t.InRange v) :
    t.store overflow v = .error overflow := by
  rw [store, if_neg h, if_pos hchecked]

theorem cast_of_checked (hchecked : (source.checked || t.checked) = true) (h : ¬ t.InRange v) :
    t.cast overflow source v = .error overflow := by
  rw [cast, if_neg h, if_pos hchecked]

/-- A value that does not fit is refused, or changed by a multiple of the even number of values. -/
theorem store_cases (overflow : ε) (t : IntType) (v : Int) :
    t.store overflow v = .error overflow ∨ ∃ w, t.store overflow v = .ok w ∧ (0 < t.bits → w % 2 = v % 2) := by
  unfold store
  split_ifs
  · exact .inr ⟨v, rfl, fun _ => rfl⟩
  · exact .inl rfl
  · refine .inr ⟨t.wrap v, rfl, fun hbits => ?_⟩
    have hdvd : (2 : Int) ∣ (2 ^ t.bits : Nat) := by exact_mod_cast dvd_pow_self 2 hbits.ne'
    rw [wrap, ← Int.emod_emod_of_dvd _ hdvd, Int.bmod_emod, Int.emod_emod_of_dvd _ hdvd]

theorem inRange_of_abs_le {b : Int} (hv : |v| ≤ b) (hb : b < 2 ^ t.bits)
    (hb' : t.checked = false → b < 2 ^ (t.bits - 1)) : t.InRange v := by
  unfold InRange
  split_ifs with hchecked
  · exact hv.trans_lt hb
  · obtain ⟨hlo, hhi⟩ := abs_le.1 hv
    have hlt := hb' (Bool.eq_false_iff.2 hchecked)
    exact ⟨by omega, by omega⟩

end IntType

end TiFlash.Lib
