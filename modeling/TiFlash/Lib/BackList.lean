import Mathlib.Data.List.Nodup
import Mathlib.Data.List.Range
import Mathlib.Tactic

/-!
# Lists linked backwards on a heap

Nodes live at addresses and may link to the node before them; lists may share their older part. `Path` is
the list from an address. Appending nodes keeps a path, and another link at one node exchanges the part
behind it.
-/

namespace TiFlash.Lib.BackList

open List

variable {ν : Type*} (prev : ν → Option Nat)

/-- The addresses from a node back along its links. -/
def walk (heap : List ν) : Nat → Option Nat → List Nat
  | 0, _ => []
  | _ + 1, none => []
  | fuel + 1, some a =>
    match heap[a]? with
    | none => []
    | some x => a :: walk heap fuel (prev x)

/-- The list of addresses from `a` on ends at a node without a link. -/
inductive Path (heap : List ν) : Nat → List Nat → Prop
  | last {a : Nat} {x : ν} : heap[a]? = some x → prev x = none → Path heap a [a]
  | link {a b : Nat} {x : ν} {l : List Nat} :
    heap[a]? = some x → prev x = some b → Path heap b l → Path heap a (a :: l)

variable {prev} {heap heap' : List ν} {a b q t : Nat} {l l' m : List Nat} {x : ν}

section

variable (h : Path prev heap a l)
include h

theorem Path.head : ∃ l', l = a :: l' := by
  cases h with
  | last => exact ⟨[], rfl⟩
  | link => exact ⟨_, rfl⟩

theorem Path.unique (h' : Path prev heap a l') : l = l' := by
  induction h generalizing l' with
  | last hx hnone =>
    cases h' with
    | last => rfl
    | link hy hsome =>
      cases hx.symm.trans hy
      exact absurd (hnone.symm.trans hsome) (Option.some_ne_none _).symm
  | link hx hsome _ ih =>
    cases h' with
    | last hy hnone =>
      cases hx.symm.trans hy
      exact absurd (hnone.symm.trans hsome) (Option.some_ne_none _).symm
    | link hy hsome' htail =>
      cases hx.symm.trans hy
      cases hsome.symm.trans hsome'
      rw [ih htail]

theorem Path.of_mem (hb : b ∈ l) :
    ∃ l₁ l₂, l = l₁ ++ l₂ ∧ Path prev heap b l₂ := by
  induction h with
  | last hx hnone =>
    rw [mem_singleton] at hb
    subst hb
    exact ⟨[], _, rfl, .last hx hnone⟩
  | link hx hsome htail ih =>
    rcases mem_cons.1 hb with rfl | hmem
    · exact ⟨[], _, rfl, .link hx hsome htail⟩
    · obtain ⟨l₁, l₂, rfl, hpath⟩ := ih hmem
      exact ⟨_ :: l₁, l₂, rfl, hpath⟩

theorem Path.nodup : l.Nodup := by
  induction h with
  | last => exact nodup_singleton _
  | link hx hsome htail ih =>
    refine nodup_cons.2 ⟨fun hmem => ?_, ih⟩
    obtain ⟨l₁, l₂, rfl, hpath⟩ := htail.of_mem hmem
    have hlen := congrArg List.length (hpath.unique (.link hx hsome htail))
    simp only [length_cons, length_append] at hlen
    omega

theorem Path.get (hb : b ∈ l) : ∃ x, heap[b]? = some x := by
  obtain ⟨-, l₂, -, hpath⟩ := h.of_mem hb
  cases hpath with
  | last hx | link hx => exact ⟨_, hx⟩

theorem Path.lt (hb : b ∈ l) : b < heap.length := by
  obtain ⟨x, hx⟩ := h.get hb
  exact (List.getElem?_eq_some_iff.1 hx).1

theorem Path.length_le : l.length ≤ heap.length := by
  have hsub : l ⊆ List.range heap.length := fun b hb => mem_range.2 (h.lt hb)
  have hle := (subperm_of_subset h.nodup hsub).length_le
  rwa [length_range] at hle

theorem Path.walk_eq :
    ∀ fuel, l.length ≤ fuel → walk prev heap fuel (some a) = l := by
  induction h with
  | last hx hnone =>
    intro fuel hfuel
    obtain ⟨fuel, rfl⟩ : ∃ m, fuel = m + 1 := ⟨fuel - 1, by simp at hfuel; omega⟩
    simp only [walk, hx, hnone]
    cases fuel <;> rfl
  | link hx hsome _ ih =>
    intro fuel hfuel
    rw [length_cons] at hfuel
    obtain ⟨fuel, rfl⟩ : ∃ m, fuel = m + 1 := ⟨fuel - 1, by omega⟩
    simp only [walk, hx, hsome, ih fuel (by omega)]

theorem Path.congr (hkeep : ∀ b ∈ l, ∀ x, heap[b]? = some x → ∃ y, heap'[b]? = some y ∧ prev y = prev x) :
    Path prev heap' a l := by
  induction h with
  | last hx hnone =>
    obtain ⟨y, hy, hprev⟩ := hkeep _ mem_cons_self _ hx
    exact .last hy (hprev.trans hnone)
  | link hx hsome _ ih =>
    obtain ⟨y, hy, hprev⟩ := hkeep _ mem_cons_self _ hx
    exact .link hy (hprev.trans hsome) (ih fun b hb => hkeep b (mem_cons_of_mem _ hb))

/-- The node `q` gets a new link to `t`: the path from `q` on becomes that of `t`. -/
theorem Path.relink (hq : q ∈ l)
    (hkeep : ∀ b x, b ≠ q → heap[b]? = some x → ∃ y, heap'[b]? = some y ∧ prev y = prev x)
    (hx : heap'[q]? = some x) (ht : prev x = some t) (hpath : Path prev heap' t m) :
    ∃ l₁ l₂, l = l₁ ++ q :: l₂ ∧ Path prev heap q (q :: l₂) ∧ Path prev heap' a (l₁ ++ q :: m) := by
  induction h with
  | last hy hnone =>
    rw [mem_singleton] at hq
    subst hq
    exact ⟨[], [], rfl, .last hy hnone, .link hx ht hpath⟩
  | @link a b y l hy hsome hrest ih =>
    by_cases haq : a = q
    · subst haq
      exact ⟨[], l, rfl, .link hy hsome hrest, .link hx ht hpath⟩
    · have hmem : q ∈ l := (mem_cons.1 hq).resolve_left fun h => haq h.symm
      obtain ⟨l₁, l₂, rfl, hold, htail⟩ := ih hmem
      obtain ⟨z, hz, hprev⟩ := hkeep a y haq hy
      exact ⟨a :: l₁, l₂, rfl, hold, .link hz (hprev.trans hsome) htail⟩

end

theorem Path.tail (h : Path prev heap a (a :: l)) (hx : heap[a]? = some x) (hb : prev x = some b) :
    Path prev heap b l := by
  cases h with
  | last hy hnone =>
    cases hx.symm.trans hy
    exact absurd (hnone.symm.trans hb) (Option.some_ne_none b).symm
  | link hy hsome hrest =>
    cases hx.symm.trans hy
    cases hb.symm.trans hsome
    exact hrest

theorem Path.append (h : Path prev heap a l) (heap' : List ν) : Path prev (heap ++ heap') a l := by
  refine h.congr fun b hb x hx => ⟨x, ?_, rfl⟩
  rw [List.getElem?_append_left (h.lt hb), hx]

theorem Path.exists_link (h : Path prev heap a l) (hb : b ∈ l) (hne : b ≠ a) :
    ∃ q ∈ l, ∃ x, heap[q]? = some x ∧ prev x = some b := by
  induction h with
  | last => exact absurd (mem_singleton.1 hb) hne
  | @link a c x l hx hsome htail ih =>
    by_cases hbc : b = c
    · subst hbc
      exact ⟨a, mem_cons_self, x, hx, hsome⟩
    · obtain ⟨q, hq, y, hy, hlink⟩ := ih ((mem_cons.1 hb).resolve_left hne) hbc
      exact ⟨q, mem_cons_of_mem _ hq, y, hy, hlink⟩

end TiFlash.Lib.BackList
