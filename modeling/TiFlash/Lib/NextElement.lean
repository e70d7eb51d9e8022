import Mathlib.Tactic

/-!
# Lists seen with their next element

Maps and filters that may look at the element behind. The one behind the last is given from outside, so that
a list can be processed piece by piece.
-/

namespace TiFlash.Lib

variable {α β : Type*}

/-- Map `f` over a list, each element with the one behind it; `nx` stands behind the last one. -/
def mapNext (f : α → Option α → β) : List α → Option α → List β
  | [], _ => []
  | a :: l, nx => f a (l.head?.or nx) :: mapNext f l nx

/-- The elements that `p` accepts in view of the element behind them. -/
def filterNext (p : α → Option α → Bool) : List α → Option α → List α
  | [], _ => []
  | a :: l, nx => if p a (l.head?.or nx) then a :: filterNext p l nx else filterNext p l nx

variable (f : α → Option α → β)

@[simp] theorem mapNext_nil (nx : Option α) : mapNext f [] nx = [] := rfl

variable (p : α → Option α → Bool)

@[simp] theorem filterNext_nil (nx : Option α) :
    filterNext p [] nx = [] := rfl

variable {l : List α} {nx : Option α} {a : α}

theorem getElem?_mapNext {f : α → Option α → β} {i : Nat} {b : α}
    (ha : l[i]? = some a) (hb : l[i + 1]? = some b) : (mapNext f l nx)[i]? = some (f a (some b)) := by
  induction l generalizing i with
  | nil => cases ha
  | cons c l ih =>
    cases i with
    | zero =>
      obtain ⟨rest, rfl⟩ := List.head?_eq_some_iff.1 (List.head?_eq_getElem? ▸ hb)
      obtain rfl : c = a := Option.some.inj ha
      rfl
    | succ i => exact ih ha hb

/-- A piecewise computation: all pairs of neighbours, then the last element. -/
theorem zipWith_tail_append_getLast (l : List α) (nx : Option α) :
    List.zipWith (fun a b => f a (some b)) l l.tail ++ (l.getLast?.map fun a => f a nx).toList
      = mapNext f l nx := by
  induction l with
  | nil => rfl
  | cons a l ih =>
    cases l with
    | nil => simp [mapNext]
    | cons b l =>
      rw [mapNext, ← ih]
      simp

theorem head?_append_or (l₁ l₂ : List α) (nx : Option α) :
    (l₁ ++ l₂).head?.or nx = l₁.head?.or (l₂.head?.or nx) := by
  cases l₁ <;> simp

theorem filterNext_append (l₁ l₂ : List α) (nx : Option α) :
    filterNext p (l₁ ++ l₂) nx = filterNext p l₁ (l₂.head?.or nx) ++ filterNext p l₂ nx := by
  induction l₁ with
  | nil => rfl
  | cons a l₁ ih =>
    simp only [List.cons_append, filterNext, head?_append_or, ih]
    split <;> rfl

theorem filterNext_sublist (l : List α) (nx : Option α) :
    (filterNext p l nx).Sublist l := by
  induction l with
  | nil => exact List.Sublist.refl _
  | cons a l ih =>
    rw [filterNext]
    split
    · exact ih.cons_cons a
    · exact ih.cons a

variable {p : α → Option α → Bool}

theorem mem_of_mem_filterNext (h : a ∈ filterNext p l nx) : a ∈ l :=
  (filterNext_sublist p l nx).subset h

theorem head?_filterNext_of_pos (h : p a (l.head?.or nx) = true) : (filterNext p (a :: l) nx).head? = some a := by
  simp [filterNext, h]

/-- Two filters in a row are the second alone when dropping elements of a tail with the first neither hides
nor changes the second one's decision in front of it. -/
theorem filterNext_filterNext {R : α → α → Prop} {p q : α → Option α → Bool} (hl : l.Pairwise R)
    (h : ∀ a t, (a :: t).Pairwise R → (p a t.head? && q a (filterNext p t none).head?) = q a t.head?) :
    filterNext q (filterNext p l none) none = filterNext q l none := by
  induction l with
  | nil => rfl
  | cons a t ih =>
    have hat := h a t hl
    have ih' := ih hl.tail
    rw [filterNext, filterNext, Option.or_none]
    cases hp : p a t.head? with
    | false =>
      rw [hp, Bool.false_and] at hat
      simp [ih', ← hat]
    | true =>
      rw [hp, Bool.true_and] at hat
      simp [filterNext, ih', hat]

end TiFlash.Lib
