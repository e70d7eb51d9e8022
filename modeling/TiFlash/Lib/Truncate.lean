import Mathlib.Data.Rat.Floor
import Mathlib.Tactic

/-!
# Truncation toward zero

The integer part of a rational number, and that it is what the integer division of a machine computes.
-/

namespace TiFlash.Lib

/-- The integer next to `q` on the side of zero. -/
def truncate (q : ℚ) : ℤ := if 0 ≤ q then ⌊q⌋ else ⌈q⌉

variable {q : ℚ}

theorem truncate_of_nonneg (h : 0 ≤ q) : truncate q = ⌊q⌋ := if_pos h

theorem truncate_neg (q : ℚ) : truncate (-q) = -truncate q := by
  rcases lt_trichotomy q 0 with h | h | h
  · rw [truncate, if_pos (by linarith), truncate, if_neg (by linarith), Int.floor_neg]
  · subst h
    rfl
  · rw [truncate, if_neg (by linarith), truncate, if_pos h.le, Int.ceil_neg]

theorem truncate_intCast (n : ℤ) : truncate (n : ℚ) = n := by
  unfold truncate
  split_ifs
  · exact Int.floor_intCast n
  · exact Int.ceil_intCast n

theorem truncate_natCast_div (a b : ℕ) : truncate (((a : ℤ) : ℚ) / ((b : ℤ) : ℚ)) = (a : ℤ).tdiv b := by
  rw [truncate_of_nonneg (by positivity), Int.tdiv_eq_ediv_of_nonneg (Int.natCast_nonneg a),
    Int.cast_natCast b]
  exact Rat.floor_intCast_div_natCast a b

theorem truncate_div (a b : ℤ) : truncate ((a : ℚ) / b) = a.tdiv b := by
  obtain ⟨m, rfl | rfl⟩ := a.eq_nat_or_neg
  · obtain ⟨n, rfl | rfl⟩ := b.eq_nat_or_neg
    · exact truncate_natCast_div m n
    · rw [Int.cast_neg, div_neg, truncate_neg, Int.tdiv_neg, truncate_natCast_div]
  · obtain ⟨n, rfl | rfl⟩ := b.eq_nat_or_neg
    · rw [Int.cast_neg, neg_div, truncate_neg, Int.neg_tdiv, truncate_natCast_div]
    · rw [Int.cast_neg, Int.cast_neg, neg_div_neg_eq, Int.tdiv_neg, Int.neg_tdiv, neg_neg,
        truncate_natCast_div]

/-! ## Bounds -/

theorem truncate_lt_iff {n : ℤ} (hn : 0 < n) : truncate q < n ↔ q < n := by
  unfold truncate
  split_ifs with h
  · exact Int.floor_lt
  · have hq : q < n := (not_le.1 h).trans (by exact_mod_cast hn)
    have hceil : ⌈q⌉ ≤ 0 := Int.ceil_le.2 (by exact_mod_cast (not_le.1 h).le)
    exact ⟨fun _ => hq, fun _ => hceil.trans_lt hn⟩

theorem neg_lt_truncate_iff {n : ℤ} (hn : 0 < n) : -n < truncate q ↔ -(n : ℚ) < q := by
  have h := truncate_lt_iff (q := -q) hn
  rw [truncate_neg, neg_lt, neg_lt (a := q)] at h
  exact h

theorem truncate_le_neg_iff {n : ℤ} (hn : 0 < n) : truncate q ≤ -n ↔ q ≤ -(n : ℚ) := by
  rw [← not_lt, ← not_lt, neg_lt_truncate_iff hn]

theorem abs_truncate_lt_iff {n : ℤ} (hn : 0 < n) : |truncate q| < n ↔ |q| < n := by
  rw [abs_lt, abs_lt, neg_lt_truncate_iff hn, truncate_lt_iff hn]

end TiFlash.Lib
