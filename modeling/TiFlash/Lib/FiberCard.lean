import Mathlib.Data.Set.Card

/-!
# How many arguments a partial function maps to a value

What a reference counter keeps: `f` says what each reference points to, and changing `f` at one argument
changes the counts of two targets by one.
-/

namespace TiFlash.Lib

open Function

variable {α β : Type*}

/-- The number of arguments that `f` maps to `b`. -/
noncomputable def fiberCard (f : α → Option β) (b : β) : ℕ := {a | f a = some b}.ncard

/-- `f` is defined at finitely many arguments. -/
def FiniteSupport (f : α → Option β) : Prop := {a | f a ≠ none}.Finite

theorem FiniteSupport.fiber {f : α → Option β} (hf : FiniteSupport f) (b : β) :
    {a | f a = some b}.Finite := by
  refine Set.Finite.subset hf fun a ha => ?_
  rw [Set.mem_ofPred_eq] at ha ⊢
  rw [ha]
  exact Option.some_ne_none b

theorem fiberCard_pos_iff {f : α → Option β} (hf : FiniteSupport f) {b : β} :
    0 < fiberCard f b ↔ ∃ a, f a = some b :=
  Set.ncard_pos (hf.fiber b)

variable [DecidableEq α] {f : α → Option β} {a : α} {b : β} {v : Option β}

theorem FiniteSupport.update (hf : FiniteSupport f) (a : α) (v : Option β) :
    FiniteSupport (update f a v) := by
  refine Set.Finite.subset (hf.insert a) fun x hx => ?_
  by_cases hxa : x = a
  · exact .inl hxa
  · right
    rwa [Set.mem_ofPred_eq, update_of_ne hxa] at hx

theorem fiberCard_update_new (hf : FiniteSupport f) (h : f a ≠ some b) :
    fiberCard (update f a (some b)) b = fiberCard f b + 1 := by
  have hset : {x | update f a (some b) x = some b} = insert a {x | f x = some b} := by
    ext x
    by_cases hxa : x = a
    · simp [hxa]
    · simp [hxa]
  have hnot : a ∉ {x | f x = some b} := h
  rw [fiberCard, hset, Set.ncard_insert_of_notMem hnot (hf.fiber b)]
  rfl

theorem fiberCard_update_gone (hf : FiniteSupport f) (h : f a = some b) (hv : v ≠ some b) :
    fiberCard (update f a v) b + 1 = fiberCard f b := by
  have hset : {x | update f a v x = some b} = {x | f x = some b} \ {a} := by
    ext x
    by_cases hxa : x = a
    · simp [hxa, hv]
    · simp [hxa]
  rw [fiberCard, hset]
  exact Set.ncard_sdiff_singleton_add_one h (hf.fiber b)

theorem fiberCard_update_other (h : f a ≠ some b) (hv : v ≠ some b) :
    fiberCard (update f a v) b = fiberCard f b := by
  have hset : {x | update f a v x = some b} = {x | f x = some b} := by
    ext x
    by_cases hxa : x = a
    · simp [hxa, hv, h]
    · simp [update_of_ne hxa]
  rw [fiberCard, hset]
  rfl

end TiFlash.Lib
