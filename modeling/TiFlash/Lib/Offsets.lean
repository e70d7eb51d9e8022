import Mathlib.Tactic

/-!
# Lists of groups, stored flat

A list of groups as one flat list with the position at which each group ends. `repeatBy` repeats the `i`-th
element as often as the `i`-th group is long, and `cutAt` gives the groups back.
-/

namespace TiFlash.Lib

open List

variable {α β γ : Type*}

/-- The positions at which groups of these lengths end, the first one starting at `start`. -/
def endsFrom (start : Nat) : List Nat → List Nat
  | [] => []
  | n :: ns => (start + n) :: endsFrom (start + n) ns

/-- Each element as often as its group is long. -/
def repeatBy (prev : Nat) : List Nat → List α → List α
  | o :: os, x :: xs => List.replicate (o - prev) x ++ repeatBy o os xs
  | _, _ => []

/-- The groups that end at the given positions. -/
def cutAt (prev : Nat) : List Nat → List α → List (List α)
  | o :: os, xs => xs.take (o - prev) :: cutAt o os (xs.drop (o - prev))
  | [], _ => []

variable (start : Nat)

theorem endsFrom_append (ns : List Nat) (n : Nat) :
    endsFrom start (ns ++ [n]) = endsFrom start ns ++ [start + ns.sum + n] := by
  induction ns generalizing start with
  | nil => simp [endsFrom]
  | cons m ns ih =>
    simp only [cons_append, endsFrom, ih, sum_cons]
    rw [Nat.add_assoc start m]

theorem repeatBy_endsFrom (len : α → Nat) (f : α → β) (as : List α) :
    repeatBy start (endsFrom start (as.map len)) (as.map f)
      = as.flatMap fun a => List.replicate (len a) (f a) := by
  induction as generalizing start with
  | nil => rfl
  | cons a as ih =>
    simp [endsFrom, repeatBy, ih]

theorem cutAt_endsFrom (g : α → List β) (as : List α) :
    cutAt start (endsFrom start (as.map fun a => (g a).length)) (as.flatMap g) = as.map g := by
  induction as generalizing start with
  | nil => rfl
  | cons a as ih =>
    simp only [map_cons, endsFrom, cutAt, Nat.add_sub_cancel_left, flatMap_cons]
    rw [take_left, drop_left, ih]

/-- Two flat lists with the same groups, combined group by group. -/
theorem zipWith_flatMap (h : β → γ → δ) (f : α → List β) (g : α → List γ) (as : List α)
    (hlen : ∀ a ∈ as, (f a).length = (g a).length) :
    List.zipWith h (as.flatMap f) (as.flatMap g) = as.flatMap fun a => List.zipWith h (f a) (g a) := by
  induction as with
  | nil => rfl
  | cons a as ih =>
    simp only [flatMap_cons]
    rw [zipWith_append (hlen a (by simp)), ih fun b hb => hlen b (mem_cons_of_mem _ hb)]

end TiFlash.Lib
