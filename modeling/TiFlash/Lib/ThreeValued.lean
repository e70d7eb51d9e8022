import Mathlib.Tactic

/-!
# Three-valued logic

The truth values of SQL: `some true`, `some false` and `none` for `NULL`.
-/

namespace TiFlash.Lib

/-- Conjunction: false wins over `NULL`. -/
def and3 : Option Bool → Option Bool → Option Bool
  | some false, _ => some false
  | _, some false => some false
  | some true, some true => some true
  | _, _ => none

/-- Disjunction: true wins over `NULL`. -/
def or3 : Option Bool → Option Bool → Option Bool
  | some true, _ => some true
  | _, some true => some true
  | some false, some false => some false
  | _, _ => none

/-- `NOT` -/
def not3 (v : Option Bool) : Option Bool := v.map (!·)

/-- A relation between two values either of which may be `NULL`. -/
def rel3 {α : Type*} (r : α → α → Bool) : Option α → Option α → Option Bool
  | some a, some b => some (r a b)
  | _, _ => none

variable {a b : Option Bool}

theorem and3_eq_false_iff :
    and3 a b = some false ↔ a = some false ∨ b = some false := by
  rcases a with _ | _ | _ <;> rcases b with _ | _ | _ <;> simp [and3]

theorem and3_eq_true_iff :
    and3 a b = some true ↔ a = some true ∧ b = some true := by
  rcases a with _ | _ | _ <;> rcases b with _ | _ | _ <;> simp [and3]

theorem or3_eq_false_iff :
    or3 a b = some false ↔ a = some false ∧ b = some false := by
  rcases a with _ | _ | _ <;> rcases b with _ | _ | _ <;> simp [or3]

theorem or3_eq_true_iff :
    or3 a b = some true ↔ a = some true ∨ b = some true := by
  rcases a with _ | _ | _ <;> rcases b with _ | _ | _ <;> simp [or3]

theorem not3_eq_some_iff {a : Option Bool} {b : Bool} : not3 a = some b ↔ a = some (!b) := by
  rcases a with _ | _ | _ <;> cases b <;> simp [not3]

@[simp] theorem not3_not3 (v : Option Bool) : not3 (not3 v) = v := by
  rcases v with _ | _ | _ <;> rfl

theorem not3_rel3 {α : Type*} (r : α → α → Bool) (a b : Option α) :
    not3 (rel3 r a b) = rel3 (fun x y => !r x y) a b := by
  cases a <;> cases b <;> rfl

end TiFlash.Lib
