import Mathlib.Tactic

/-!
# Lower bound by bisection

The classical loop over a half-open interval of positions, and what it finds when the predicate holds
on an initial piece of the interval.
-/

namespace TiFlash.Lib

open List

/-- The first position of `[first, first + count)` on which `p` fails, by bisection. -/
def bisect (p : Nat → Bool) (first count : Nat) : Nat :=
  if count = 0 then first
  else
    let step := count / 2
    let index := first + step
    if p index then bisect p (index + 1) (count - (step + 1)) else bisect p first step
termination_by count

/-- When `p` holds exactly before `e`, and `e` lies in the interval or at its end, `e` is found. -/
theorem bisect_eq {p : Nat → Bool} {first count e : Nat} (hlo : first ≤ e) (hhi : e ≤ first + count)
    (hp : ∀ i, first ≤ i → i < first + count → (p i = true ↔ i < e)) : bisect p first count = e := by
  fun_induction bisect p first count with
  | case1 first => omega
  | case2 first count hne step index hpi ih =>
    have hlt := (hp index (by omega) (by omega)).1 hpi
    exact ih (by omega) (by omega) fun i h1 h2 => hp i (by omega) (by omega)
  | case3 first count hne step index hpi ih =>
    have hge : ¬ index < e := fun h => hpi ((hp index (by omega) (by omega)).2 h)
    exact ih hlo (by omega) fun i h1 h2 => hp i (by omega) (by omega)

variable {α : Type*} {p : α → Bool}

/-- Where `p` is never true again once it is false, it holds exactly before the length of the initial piece.
-/
theorem getD_iff_lt_length_takeWhile {l : List α}
    (hp : l.Pairwise fun a b => p b = true → p a = true) (d : α) {i : Nat} (hi : i < l.length) :
    p (l.getD i d) = true ↔ i < (l.takeWhile p).length := by
  induction l generalizing i with
  | nil => simp at hi
  | cons a l ih =>
    obtain ⟨ha, hl⟩ := pairwise_cons.1 hp
    cases hpa : p a with
    | false =>
      rw [takeWhile_cons_of_neg (by simp [hpa])]
      cases i with
      | zero => simp [hpa]
      | succ i =>
        have hi' : i < l.length := by simpa using hi
        have hmem : l.getD i d ∈ l := by
          simp [List.getElem?_eq_getElem hi']
        have hne : p (l.getD i d) ≠ true := fun h => by simpa [hpa] using ha _ hmem h
        simpa using hne
    | true =>
      cases i with
      | zero => simp [hpa]
      | succ i => simpa [takeWhile_cons, hpa] using ih hl (by simpa using hi)

theorem bisect_getD {l : List α}
    (hp : l.Pairwise fun a b => p b = true → p a = true) (d : α) :
    bisect (fun i => p (l.getD i d)) 0 l.length = (l.takeWhile p).length := by
  refine bisect_eq (Nat.zero_le _) ?_ fun i _ hi => ?_
  · simpa using takeWhile_prefix p |>.length_le
  · exact getD_iff_lt_length_takeWhile hp d (by simpa using hi)

theorem filter_append_filter_not {l : List α}
    (h : l.Pairwise fun a b => p b = true → p a = true) :
    l.filter p ++ l.filter (fun a => !p a) = l := by
  induction l with
  | nil => rfl
  | cons a l ih =>
    obtain ⟨ha, hl⟩ := pairwise_cons.1 h
    cases hp : p a with
    | true => simp [hp, ih hl]
    | false =>
      have hnone : ∀ b ∈ l, p b = false := fun b hb => by
        by_contra hpb
        have := ha b hb (by simpa using hpb)
        simp [hp] at this
      have h1 : l.filter p = [] := filter_eq_nil_iff.2 fun b hb => by simp [hnone b hb]
      have h2 : l.filter (fun a => !p a) = l := filter_eq_self.2 fun b hb => by simp [hnone b hb]
      simp [hp, h1, h2]

/-- When `s` stays true and `e` stays false, the elements with both are the piece from the first with `s` to
the last with `e`. -/
theorem filter_eq_take_drop {s e : α → Bool} {l : List α}
    (hs : l.Pairwise fun a b => s a = true → s b = true)
    (he : l.Pairwise fun a b => e b = true → e a = true) :
    l.filter (fun a => s a && e a)
      = (l.drop (l.takeWhile fun a => !s a).length).take
          ((l.takeWhile e).length - (l.takeWhile fun a => !s a).length) := by
  induction l with
  | nil => rfl
  | cons a l ih =>
    obtain ⟨hsa, hsl⟩ := pairwise_cons.1 hs
    obtain ⟨hea, hel⟩ := pairwise_cons.1 he
    have ih' := ih hsl hel
    cases hE : e a with
    | false =>
      -- nothing behind `a` has `e` either
      have hnil : (a :: l).filter (fun a => s a && e a) = [] := by
        rw [filter_eq_nil_iff]
        intro b hb
        rcases mem_cons.1 hb with rfl | hb
        · simp [hE]
        · have : e b = false := by
            by_contra h
            simpa [hE] using hea b hb (by simpa using h)
          simp [this]
      rw [hnil, takeWhile_cons_of_neg (by simp [hE])]
      simp
    | true =>
      cases hS : s a with
      | false =>
        simp [hS, hE, ih']
      | true =>
        have hall : l.takeWhile (fun a => !s a) = [] := by
          cases l with
          | nil => rfl
          | cons b l => exact takeWhile_cons_of_neg (by simp [hsa b mem_cons_self hS])
        rw [hall] at ih'
        simp [hS, hE, ih']

end TiFlash.Lib
