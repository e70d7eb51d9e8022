import Mathlib.Tactic

/-!
# Chains of pieces

Pieces with a left and a right end, each beginning where the one before it ends. When each leads upwards its
ends are in order, and the pieces tile what lies between the ends of the chain.
-/

namespace TiFlash.Lib

open List

variable {α β : Type*} (lo hi : α → β)

/-- The pieces lead from `a` to `b`. -/
def Chained : β → List α → β → Prop
  | a, [], b => a = b
  | a, x :: l, b => lo x = a ∧ Chained (hi x) l b

variable {lo hi} {a b : β} {x : α} {l l₁ l₂ mid mid' : List α}

@[simp] theorem chained_nil : Chained lo hi a [] b ↔ a = b := Iff.rfl

@[simp] theorem chained_cons : Chained lo hi a (x :: l) b ↔ lo x = a ∧ Chained lo hi (hi x) l b := Iff.rfl

theorem chained_append :
    Chained lo hi a (l₁ ++ l₂) b ↔ ∃ m, Chained lo hi a l₁ m ∧ Chained lo hi m l₂ b := by
  induction l₁ generalizing a with
  | nil => simp
  | cons x l ih => simp [ih, and_assoc]

/-- Pieces in the middle may be replaced by others with the same outer ends. -/
theorem Chained.replace (h : Chained lo hi a (l₁ ++ mid ++ l₂) b)
    (hmid : ∀ x y, Chained lo hi x mid y → Chained lo hi x mid' y) :
    Chained lo hi a (l₁ ++ mid' ++ l₂) b := by
  obtain ⟨y, hy, h₂⟩ := chained_append.1 h
  obtain ⟨x, h₁, hxy⟩ := chained_append.1 hy
  exact chained_append.2 ⟨y, chained_append.2 ⟨x, h₁, hmid x y hxy⟩, h₂⟩

theorem Chained.lo_next {y : α} (h : Chained lo hi a (l₁ ++ x :: y :: l₂) b) : lo y = hi x := by
  obtain ⟨m, -, hm⟩ := chained_append.1 h
  exact hm.2.1

theorem Chained.hi_last (h : Chained lo hi a (l₁ ++ [x]) b) : hi x = b := by
  obtain ⟨m, -, hm⟩ := chained_append.1 h
  exact hm.2

section Order

variable {γ : Type*} [LinearOrder γ] {v : β → γ}

section

variable (h : Chained lo hi a l b)
include h

section

variable (hup : ∀ x ∈ l, v (lo x) < v (hi x))
include hup

theorem Chained.le : v a ≤ v b := by
  induction l generalizing a with
  | nil => exact le_of_eq (congrArg v h)
  | cons x l ih =>
    have hx := hup x mem_cons_self
    have htl := ih h.2 fun y hy => hup y (mem_cons_of_mem x hy)
    rw [← h.1]
    exact hx.le.trans htl

theorem Chained.bounds (hx : x ∈ l) : v a ≤ v (lo x) ∧ v (hi x) ≤ v b := by
  obtain ⟨ls, rs, rfl⟩ := append_of_mem hx
  obtain ⟨m, h₁, h₂, h₃⟩ := chained_append.1 h
  have hle := h₁.le fun y hy => hup y (mem_append_left _ hy)
  have hge := h₃.le fun y hy => hup y (mem_append_right _ (mem_cons_of_mem x hy))
  exact ⟨h₂ ▸ hle, hge⟩

theorem Chained.pairwise : l.Pairwise fun x y => v (hi x) ≤ v (lo y) := by
  induction l generalizing a with
  | nil => exact List.Pairwise.nil
  | cons x l ih =>
    have hup' : ∀ y ∈ l, v (lo y) < v (hi y) := fun y hy => hup y (mem_cons_of_mem x hy)
    exact pairwise_cons.2 ⟨fun y hy => (h.2.bounds hup' hy).1, ih h.2 hup'⟩

end

theorem Chained.exists_mem {p : γ} (ha : v a ≤ p) (hb : p < v b) :
    ∃ ls x rs, l = ls ++ x :: rs ∧ v (lo x) ≤ p ∧ p < v (hi x) ∧ ∀ y ∈ ls, v (hi y) ≤ p := by
  induction l generalizing a with
  | nil =>
    obtain rfl : a = b := h
    exact absurd hb (not_lt.2 ha)
  | cons x l ih =>
    rcases lt_or_ge p (v (hi x)) with hp | hp
    · exact ⟨[], x, l, rfl, by rw [h.1]; exact ha, hp, by simp⟩
    · obtain ⟨ls, y, rs, rfl, h₁, h₂, h₃⟩ := ih h.2 hp
      refine ⟨x :: ls, y, rs, rfl, h₁, h₂, ?_⟩
      exact forall_mem_cons.2 ⟨hp, h₃⟩

end

end Order

end TiFlash.Lib
