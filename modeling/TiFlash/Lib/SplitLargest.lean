import Mathlib.Tactic

/-!
# Halving the largest

Again and again the largest piece is replaced by its two halves. Which of several largest is taken is up to
the heap; the results hold for every heap.
-/

namespace TiFlash.Lib

open List

/-- A heap, by what it does to the list of its elements: it gives one with the largest size. -/
structure MaxHeap (α : Type*) (size : α → Nat) where
  pop : List α → Option (α × List α)
  pop_ne_none : ∀ l, l ≠ [] → pop l ≠ none
  perm : ∀ l top rest, pop l = some (top, rest) → (top :: rest).Perm l
  max : ∀ l top rest, pop l = some (top, rest) → ∀ a ∈ l, size a ≤ size top

namespace MaxHeap

variable {α : Type*} {size : α → Nat}

def popFirst (size : α → Nat) : List α → Option (α × List α)
  | [] => none
  | a :: l =>
    match popFirst size l with
    | none => some (a, [])
    | some (top, rest) => if size top ≤ size a then some (a, l) else some (top, a :: rest)

theorem popFirst_eq_none_iff (l : List α) : popFirst size l = none ↔ l = [] := by
  cases l with
  | nil => simp [popFirst]
  | cons a l =>
    simp only [popFirst, reduceCtorEq, iff_false]
    split
    · simp
    · split_ifs <;> simp

theorem popFirst_spec (l : List α) {top : α} {rest : List α} (h : popFirst size l = some (top, rest)) :
    (top :: rest).Perm l ∧ ∀ a ∈ l, size a ≤ size top := by
  induction l generalizing top rest with
  | nil => simp [popFirst] at h
  | cons a l ih =>
    unfold popFirst at h
    split at h
    · rename_i hnone
      rw [popFirst_eq_none_iff] at hnone
      obtain ⟨rfl, rfl⟩ := h
      subst hnone
      simp
    · rename_i top' rest' hsome
      obtain ⟨hperm, hmax⟩ := ih hsome
      split_ifs at h with hle
      · obtain ⟨rfl, rfl⟩ := h
        refine ⟨.refl _, fun b hb => ?_⟩
        rcases mem_cons.1 hb with rfl | hb
        · exact le_rfl
        · exact (hmax b hb).trans hle
      · simp only [Option.some.injEq, Prod.mk.injEq] at h
        obtain ⟨rfl, rfl⟩ := h
        refine ⟨(List.Perm.swap a top' rest').trans (hperm.cons a), fun b hb => ?_⟩
        rcases mem_cons.1 hb with rfl | hb
        · exact (not_le.1 hle).le
        · exact hmax b hb

/-- The heap that takes the first one -/
def first (size : α → Nat) : MaxHeap α size where
  pop := popFirst size
  pop_ne_none l hl h := hl ((popFirst_eq_none_iff l).1 h)
  perm l _ _ h := (popFirst_spec l h).1
  max l _ _ h := (popFirst_spec l h).2

/-- All elements, each the largest of those that are left. -/
def drain (heap : MaxHeap α size) : Nat → List α → List α
  | 0, l => l
  | n + 1, l =>
    match heap.pop l with
    | none => []
    | some (top, rest) => top :: drain heap n rest

theorem drain_perm (heap : MaxHeap α size) (n : Nat) (l : List α) : (heap.drain n l).Perm l := by
  induction n generalizing l with
  | zero => exact .refl _
  | succ n ih =>
    unfold drain
    split
    · rename_i hpop
      have hnil : l = [] := by
        by_contra hne
        exact heap.pop_ne_none l hne hpop
      rw [hnil]
    · rename_i top rest hpop
      exact ((ih rest).cons top).trans (heap.perm l top rest hpop)

end MaxHeap

variable {α : Type*} {size : α → Nat} (heap : MaxHeap α size) (halve : α → α × α)

/-- At most `n` times the largest piece is replaced by its halves; a piece of size 1 is not. -/
def splitLargest : Nat → List α → List α
  | 0, l => l
  | n + 1, l =>
    match heap.pop l with
    | none => l
    | some (top, rest) =>
      if size top > 1 then splitLargest n ((halve top).1 :: (halve top).2 :: rest) else l

variable {heap halve}

/-- What holds of the pieces in any order, and stays true when one of them is halved, holds of the
result. -/
theorem splitLargest_induct {P : List α → Prop} (hperm : ∀ l l', l.Perm l' → P l → P l')
    (hhalve : ∀ a rest, 1 < size a → P (a :: rest) → P ((halve a).1 :: (halve a).2 :: rest))
    (n : Nat) {l : List α} (h : P l) : P (splitLargest heap halve n l) := by
  induction n generalizing l with
  | zero => exact h
  | succ n ih =>
    unfold splitLargest
    split
    · exact h
    · rename_i top rest hpop
      split_ifs with hsize
      · exact ih (hhalve top rest hsize (hperm _ _ (heap.perm l top rest hpop).symm h))
      · exact h

theorem length_eq_sum_of_size_one {l : List α} (h : ∀ a ∈ l, size a = 1) :
    (l.map size).sum = l.length := by
  have hmap : l.map size = List.replicate l.length 1 := by
    rw [eq_replicate_iff]
    exact ⟨length_map _, by simpa using h⟩
  rw [hmap]
  simp

/-- There are as many pieces as asked for, or every piece is of size 1. -/
theorem le_length_splitLargest
    (hhalve : ∀ a, 1 < size a → 0 < size (halve a).1 ∧ 0 < size (halve a).2 ∧
      size (halve a).1 + size (halve a).2 = size a)
    (n : Nat) {l : List α} (hpos : ∀ a ∈ l, 0 < size a) :
    min (l.length + n) (l.map size).sum ≤ (splitLargest heap halve n l).length := by
  induction n generalizing l with
  | zero => exact min_le_left _ _
  | succ n ih =>
    unfold splitLargest
    split
    · rename_i hpop
      have hnil : l = [] := by
        by_contra hne
        exact heap.pop_ne_none l hne hpop
      simp [hnil]
    · rename_i top rest hpop
      have hperm := heap.perm l top rest hpop
      split_ifs with hsize
      · obtain ⟨hleft, hright, hsum⟩ := hhalve top hsize
        have hstep := @ih ((halve top).1 :: (halve top).2 :: rest) (by
          intro a ha
          simp only [mem_cons] at ha
          rcases ha with rfl | rfl | ha
          · exact hleft
          · exact hright
          · exact hpos a (hperm.subset (mem_cons_of_mem _ ha)))
        have hlen := hperm.length_eq
        have htotal := (hperm.map size).sum_eq
        simp only [length_cons, map_cons, sum_cons] at hstep hlen htotal
        omega
      · have hone : ∀ a ∈ l, size a = 1 := by
          intro a ha
          have hle := heap.max l top rest hpop a ha
          have hlt := hpos a ha
          omega
        rw [length_eq_sum_of_size_one hone]
        exact min_le_right _ _

end TiFlash.Lib
