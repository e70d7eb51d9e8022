import Mathlib.Data.List.AList

/-!
# Hash maps and hash sets

`std::unordered_map` and `std::unordered_set` as association lists with distinct keys; the unspecified order
of a C++ loop is that of the list. Loops whose body touches only the visited cell do not depend on it
(`get_foldl`).
-/

namespace TiFlash.Lib

open AList Function

/-- `std::unordered_map<κ, ν>`. -/
abbrev HashMap (κ ν : Type) := AList (fun _ : κ => ν)

/-- `std::unordered_set<κ>`. -/
abbrev HashSet (κ : Type) := AList (fun _ : κ => Unit)

namespace HashMap

variable {κ ν σ β : Type} [DecidableEq κ] (m : HashMap κ ν)

theorem lookup_insert_ite (k k' : κ) (v : ν) :
    (m.insert k v).lookup k' = if k' = k then some v else m.lookup k' := by
  split_ifs with h
  · subst h
    exact lookup_insert m
  · exact lookup_insert_ne h

theorem lookup_insert_of_some {m : HashMap κ ν} {k k' : κ} {v v' : ν} (hnew : k ∉ m)
    (h : m.lookup k' = some v) : (m.insert k v').lookup k' = some v := by
  have hne : k' ≠ k := by
    rintro rfl
    rw [lookup_eq_none.2 hnew] at h
    cases h
  exact (lookup_insert_ne hne).trans h

theorem lookup_erase_ite (k k' : κ) :
    (m.erase k).lookup k' = if k' = k then none else m.lookup k' := by
  split_ifs with h
  · subst h
    exact lookup_erase k' m
  · exact lookup_erase_ne h

theorem lookup_insert_eq_update (k : κ) (v : ν) :
    (fun k' => (m.insert k v).lookup k') = update (fun k' => m.lookup k') k (some v) := by
  funext k'
  rw [lookup_insert_ite, update_apply]

theorem lookup_erase_eq_update (k : κ) :
    (fun k' => (m.erase k).lookup k') = update (fun k' => m.lookup k') k none := by
  funext k'
  rw [lookup_erase_ite, update_apply]

theorem update_eq_some_iff {get : κ → Option ν} {k k' : κ} {v : Option ν} {x : ν} :
    update get k v k' = some x ↔ k' = k ∧ v = some x ∨ k' ≠ k ∧ get k' = some x := by
  rw [update_apply]
  split_ifs with h <;> simp [h]

theorem mem_iff_lookup {m : HashMap κ ν} {k : κ} : k ∈ m ↔ ∃ v, m.lookup k = some v := by
  rw [← lookup_isSome, Option.isSome_iff_exists]

/-- A loop over a map whose body changes only the cell of the visited key, and that by `g`. -/
theorem get_foldl (get : σ → κ → β) {f : σ → κ → ν → σ} {g : κ → ν → β → β}
    (hself : ∀ s k v, get (f s k v) k = g k v (get s k))
    (hother : ∀ s k v k', k' ≠ k → get (f s k v) k' = get s k') (m : HashMap κ ν) (s : σ) (k : κ) :
    get (m.foldl f s) k = match m.lookup k with
      | some v => g k v (get s k)
      | none => get s k := by
  induction m using insertRec generalizing s with
  | H0 => rfl
  | IH a b m ha ih =>
    have hfold : (m.insert a b).foldl f s = m.foldl f (f s a b) := by
      simp only [foldl, entries_insert_of_notMem ha, List.foldl_cons]
    rw [hfold, ih]
    by_cases hk : k = a
    · subst hk
      rw [lookup_eq_none.2 ha, lookup_insert]
      exact hself s k b
    · rw [lookup_insert_ne hk, hother s a b k hk]

end HashMap

end TiFlash.Lib
