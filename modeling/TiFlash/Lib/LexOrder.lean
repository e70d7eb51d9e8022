import Mathlib.Data.List.Lex
import Mathlib.Tactic

/-!
# The lexicographic order, piece by piece

Two lists are compared by comparing pieces of one length at their front and, if these are equal, what
is behind them.
-/

namespace TiFlash.Lib

open List

variable {α : Type*} [LinearOrder α]

theorem append_lt_append_iff {p q x y : List α} (hlen : p.length = q.length) :
    p ++ x < q ++ y ↔ p < q ∨ p = q ∧ x < y := by
  induction p generalizing q with
  | nil =>
    obtain rfl : q = [] := eq_nil_of_length_eq_zero hlen.symm
    simp
  | cons a p ih =>
    cases q with
    | nil => simp at hlen
    | cons b q =>
      have hlen' : p.length = q.length := by simpa using hlen
      rw [cons_append, cons_append, cons_lt_cons_iff, cons_lt_cons_iff, ih hlen', List.cons.injEq]
      tauto

theorem lt_iff_take_drop (n : Nat) {a b : List α} :
    a < b ↔ a.take n < b.take n ∨ a.take n = b.take n ∧ a.drop n < b.drop n := by
  induction n generalizing a b with
  | zero => simp
  | succ n ih =>
    cases a with
    | nil => cases b <;> simp
    | cons x a =>
      cases b with
      | nil => simp
      | cons y b =>
        simp only [take_succ_cons, drop_succ_cons, cons_lt_cons_iff, List.cons.injEq]
        rw [ih (a := a) (b := b)]
        tauto

theorem replicate_le_of_forall_ge {z : α} (hz : ∀ a, z ≤ a) {l : List α} {n : Nat} (hlen : l.length = n) :
    List.replicate n z ≤ l := by
  induction l generalizing n with
  | nil => obtain rfl : n = 0 := hlen.symm; exact le_refl _
  | cons a l ih =>
    obtain rfl : n = l.length + 1 := hlen.symm
    rw [replicate_succ, ← not_lt, cons_lt_cons_iff, not_or, not_and]
    exact ⟨not_lt.2 (hz a), fun _ => not_lt.2 (ih rfl)⟩

end TiFlash.Lib
