import Mathlib.Tactic

/-!
# Ordered maps

A `std::map` as the list of its entries in ascending order, for a comparison `lt`. A search ends at a place:
before it the keys are below the key, and only the entry at the place may have this key. Each operation is
described by what it does there.
-/

namespace TiFlash.Lib.SortedMap

open List

variable {κ V : Type*} (lt : κ → κ → Bool) (k : κ) (m : List (κ × V))

/-- The entries whose keys are below `k`. -/
def below : List (κ × V) := m.takeWhile fun e => lt e.1 k

/-- `lower_bound`: the entries from the first one on whose key is not below `k`. -/
def lowerBound : List (κ × V) := m.dropWhile fun e => lt e.1 k

/-- `upper_bound`: the first entry whose key is above `k`. -/
def upperBound : Option (κ × V) := (m.dropWhile fun e => !lt k e.1).head?

/-- The entry with the key -/
def find : Option (κ × V) :=
  match lowerBound lt k m with
  | [] => none
  | e :: _ => if lt k e.1 then none else some e

/-- Without the entry of the key -/
def erase : List (κ × V) := below lt k m ++ match lowerBound lt k m with
    | [] => []
    | e :: es => if lt k e.1 then e :: es else es

/-- `m[k] = v`: an entry that is there keeps its key. -/
def assign (v : V) (m : List (κ × V)) : List (κ × V) := below lt k m ++ match lowerBound lt k m with
    | [] => [(k, v)]
    | e :: es => if lt k e.1 then (k, v) :: e :: es else (e.1, v) :: es

/-- `emplace(k, v)`: an entry that is there stays. -/
def emplace (v : V) (m : List (κ × V)) : List (κ × V) := below lt k m ++ match lowerBound lt k m with
    | [] => [(k, v)]
    | e :: es => if lt k e.1 then (k, v) :: e :: es else e :: es

variable {lt} {k : κ} {ls rs : List (κ × V)} {e : κ × V}

theorem below_lowerBound (hls : ∀ x ∈ ls, lt x.1 k = true) (hrs : ∀ x ∈ rs.head?, lt x.1 k = false) :
    below lt k (ls ++ rs) = ls ∧ lowerBound lt k (ls ++ rs) = rs := by
  unfold below lowerBound
  induction ls with
  | nil =>
    cases rs with
    | nil => simp
    | cons x rs => simp [hrs x rfl]
  | cons x ls ih =>
    obtain ⟨h₁, h₂⟩ := ih fun y hy => hls y (mem_cons_of_mem x hy)
    have hx := hls x mem_cons_self
    simp [hx, h₁, h₂]

theorem mem_of_find {m : List (κ × V)} (h : find lt k m = some e) : e ∈ m := by
  unfold find at h
  cases hm : lowerBound lt k m with
  | nil => simp [hm] at h
  | cons x xs =>
    rw [hm] at h
    simp only [Option.ite_none_left_eq_some, Option.some.injEq] at h
    obtain ⟨-, rfl⟩ := h
    have hsub : (lowerBound lt k m).Sublist m := dropWhile_sublist _
    exact hsub.subset (hm ▸ mem_cons_self)

section At

variable (hls : ∀ x ∈ ls, lt x.1 k = true) (he : lt e.1 k = false)

include hls he

theorem find_at (hk : lt k e.1 = false) : find lt k (ls ++ e :: rs) = some e := by
  obtain ⟨-, h⟩ := below_lowerBound hls (show ∀ x ∈ (e :: rs).head?, lt x.1 k = false by simpa using he)
  simp [find, h, hk]

theorem erase_at (hk : lt k e.1 = false) : erase lt k (ls ++ e :: rs) = ls ++ rs := by
  obtain ⟨hb, h⟩ := below_lowerBound hls (show ∀ x ∈ (e :: rs).head?, lt x.1 k = false by simpa using he)
  simp [erase, hb, h, hk]

end At

section

variable (hls : ∀ x ∈ ls, lt x.1 k = true) (hrs : ∀ x ∈ rs.head?, lt x.1 k = false ∧ lt k x.1 = true)
include hls hrs

theorem assign_between {v : V} : assign lt k v (ls ++ rs) = ls ++ (k, v) :: rs := by
  obtain ⟨hb, h⟩ := below_lowerBound hls fun x hx => (hrs x hx).1
  unfold assign
  rw [hb, h]
  cases rs with
  | nil => rfl
  | cons x rs => simp [(hrs x rfl).2]

theorem emplace_between {v : V} : emplace lt k v (ls ++ rs) = ls ++ (k, v) :: rs := by
  obtain ⟨hb, h⟩ := below_lowerBound hls fun x hx => (hrs x hx).1
  unfold emplace
  rw [hb, h]
  cases rs with
  | nil => rfl
  | cons x rs => simp [(hrs x rfl).2]

end

theorem upperBound_at (hls : ∀ x ∈ ls, lt k x.1 = false) (he : lt k e.1 = true) :
    upperBound lt k (ls ++ e :: rs) = some e := by
  unfold upperBound
  induction ls with
  | nil => simp [he]
  | cons x ls ih =>
    have hx := hls x mem_cons_self
    simpa [hx] using ih fun y hy => hls y (mem_cons_of_mem x hy)

end TiFlash.Lib.SortedMap
