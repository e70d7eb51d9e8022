import Mathlib.Data.List.Forall2
import Mathlib.Tactic

/-!
# Computations that may throw

A successful run in `Except` or `EStateM` is taken apart at its binds. `EStateM` keeps the changes made before
an exception, as C++ does.
-/

namespace TiFlash.Lib

open List Except

/-! ## Lists that are related element by element -/

section

variable {α β γ : Type*} {R : α → β → Prop} {l : List α} {l' : List β}

section

variable (h : List.Forall₂ R l l')
include h

theorem exists_of_forall₂ {b : β} (hb : b ∈ l') : ∃ a ∈ l, R a b := by
  induction h with
  | nil => simp at hb
  | cons hab _ ih =>
    rcases mem_cons.1 hb with rfl | hb
    · exact ⟨_, mem_cons_self, hab⟩
    · obtain ⟨a, ha, hr⟩ := ih hb
      exact ⟨a, mem_cons_of_mem _ ha, hr⟩

theorem exists_of_forall₂' {a : α} (ha : a ∈ l) : ∃ b ∈ l', R a b := exists_of_forall₂ h.flip ha

theorem map_eq_of_forall₂ {f : α → γ} {g : β → γ} (hfg : ∀ a b, R a b → g b = f a) : l'.map g = l.map f := by
  induction h with
  | nil => rfl
  | cons hab _ ih => rw [map_cons, map_cons, ih, hfg _ _ hab]

end

end

/-! ## `Except` -/

section

universe u

variable {ε : Type*} {α β : Type u}

theorem Except.bind_eq_ok_iff {x : Except ε α} {f : α → Except ε β} {b : β} :
    (x >>= f) = .ok b ↔ ∃ a, x = .ok a ∧ f a = .ok b := by
  cases x with
  | error e | ok a => simp [bind, Except.bind]

theorem Except.pure_eq_ok_iff {a b : α} : (pure a : Except ε α) = .ok b ↔ a = b := by
  simp [pure, Except.pure]

theorem Except.forall_ok_iff {x : Except ε α} {a : α} {P : α → Prop} (h : x = .ok a) :
    (∀ a', x = .ok a' → P a') ↔ P a := by
  subst h
  constructor
  · intro hall
    exact hall a rfl
  · rintro ha a' ⟨⟩
    exact ha

variable {f : α → Except ε β}

theorem Except.forall₂_of_mapM_eq_ok {as : List α} {bs : List β}
    (h : as.mapM f = .ok bs) : List.Forall₂ (fun a b => f a = .ok b) as bs := by
  induction as generalizing bs with
  | nil =>
    rw [mapM_nil, pure_eq_ok_iff] at h
    subst h
    exact .nil
  | cons a as ih =>
    rw [mapM_cons, bind_eq_ok_iff] at h
    obtain ⟨b, hb, h⟩ := h
    obtain ⟨bs', hbs, ⟨⟩⟩ := bind_eq_ok_iff.1 h
    exact .cons hb (ih hbs)

theorem Except.mem_of_mapM_eq_ok {as : List α} {bs : List β} {b : β}
    (h : as.mapM f = .ok bs) : b ∈ bs ↔ ∃ a ∈ as, f a = .ok b := by
  have hall := forall₂_of_mapM_eq_ok h
  refine ⟨exists_of_forall₂ hall, ?_⟩
  rintro ⟨a, ha, hb⟩
  obtain ⟨b', hb', h'⟩ := exists_of_forall₂' hall ha
  cases hb.symm.trans h'
  exact hb'

theorem Except.exists_of_mapM_eq_ok {as : List α} {bs : List β}
    (h : as.mapM f = .ok bs) {a : α} (ha : a ∈ as) : ∃ b, f a = .ok b := by
  obtain ⟨b, -, hb⟩ := exists_of_forall₂' (forall₂_of_mapM_eq_ok h) ha
  exact ⟨b, hb⟩

theorem Except.exists_forall₂_mapM_eq_ok {R : α → β → Prop} {as : List α}
    (h : ∀ a ∈ as, ∃ b, f a = .ok b ∧ R a b) : ∃ bs, as.mapM f = .ok bs ∧ List.Forall₂ R as bs := by
  induction as with
  | nil => exact ⟨[], rfl, .nil⟩
  | cons a as ih =>
    obtain ⟨b, hb, hab⟩ := h a mem_cons_self
    obtain ⟨bs, hbs, hall⟩ := ih fun a' ha' => h a' (mem_cons_of_mem _ ha')
    refine ⟨b :: bs, ?_, .cons hab hall⟩
    rw [mapM_cons, hb, hbs]
    rfl

theorem Except.exists_mapM_eq_ok {g : β → α} {as : List α}
    (h : ∀ a ∈ as, ∃ b, f a = .ok b ∧ g b = a) : ∃ bs, as.mapM f = .ok bs ∧ bs.map g = as := by
  obtain ⟨bs, hbs, hall⟩ := exists_forall₂_mapM_eq_ok h
  refine ⟨bs, hbs, ?_⟩
  rw [map_eq_of_forall₂ hall fun a b hab => hab, map_id']

section Loop

variable {α : Type*} {f : β → α → Except ε β} {P : List α → β → Prop} {l p : List α} {b : β} (h : P p b)
include h

/-- A loop whose steps succeed and keep an invariant. -/
theorem Except.exists_foldlM_eq_ok
    (hstep : ∀ a ∈ l, ∀ p b, P p b → ∃ b', f b a = .ok b' ∧ P (p ++ [a]) b') :
    ∃ b', l.foldlM f b = .ok b' ∧ P (p ++ l) b' := by
  induction l generalizing p b with
  | nil => exact ⟨b, rfl, by rwa [append_nil]⟩
  | cons a l ih =>
    obtain ⟨hhead, htail⟩ := forall_mem_cons.1 hstep
    obtain ⟨b₁, hb₁, h₁⟩ := hhead p b h
    obtain ⟨b', hb', h'⟩ := ih h₁ htail
    rw [append_assoc] at h'
    refine ⟨b', ?_, h'⟩
    rw [foldlM_cons, hb₁]
    exact hb'

/-- What the steps of a successful loop keep. -/
theorem Except.foldlM_invariant {b' : β} (hrun : l.foldlM f b = .ok b')
    (hstep : ∀ a ∈ l, ∀ p b b', P p b → f b a = .ok b' → P (p ++ [a]) b') : P (p ++ l) b' := by
  induction l generalizing p b with
  | nil =>
    rw [foldlM_nil, pure_eq_ok_iff] at hrun
    rwa [append_nil, ← hrun]
  | cons a l ih =>
    obtain ⟨hhead, htail⟩ := forall_mem_cons.1 hstep
    rw [foldlM_cons, bind_eq_ok_iff] at hrun
    obtain ⟨b₁, hb₁, hrun⟩ := hrun
    have h' := ih (hhead p b b₁ h hb₁) hrun htail
    rwa [append_assoc] at h'

end Loop

end

/-! ## `EStateM` -/

variable {ε σ α β : Type}

theorem EStateM.bind_eq_ok_iff {x : EStateM ε σ α} {f : α → EStateM ε σ β} {s s' : σ} {b : β} :
    (x >>= f) s = .ok b s' ↔ ∃ a s₁, x s = .ok a s₁ ∧ f a s₁ = .ok b s' := by
  show EStateM.bind x f s = .ok b s' ↔ _
  unfold EStateM.bind
  cases x s with
  | ok a s₁ | error e s₁ => simp

theorem EStateM.bind_of_ok {x : EStateM ε σ α} {f : α → EStateM ε σ β} {s s₁ : σ} {a : α}
    (h : x s = .ok a s₁) : (x >>= f) s = f a s₁ := by
  show EStateM.bind x f s = f a s₁
  unfold EStateM.bind
  rw [h]

@[simp] theorem EStateM.get_apply (s : σ) : (get : EStateM ε σ σ) s = .ok s s := rfl

@[simp] theorem EStateM.set_apply (s s' : σ) : (set s' : EStateM ε σ Unit) s = .ok () s' := rfl

@[simp] theorem EStateM.modify_apply (f : σ → σ) (s : σ) :
    (modify f : EStateM ε σ Unit) s = .ok () (f s) := rfl

@[simp] theorem EStateM.pure_apply (a : α) (s : σ) : (pure a : EStateM ε σ α) s = .ok a s := rfl

@[simp] theorem EStateM.throw_apply (e : ε) (s : σ) :
    (throw e : EStateM ε σ α) s = .error e s := rfl

/-- The state a run ends in, with or without an exception. -/
def EStateM.stateOf : EStateM.Result ε σ α → σ
  | .ok _ s => s
  | .error _ s => s

/-- `P` holds after the run if it holds before, with or without an exception. -/
def EStateM.Preserves (P : σ → Prop) (x : EStateM ε σ α) : Prop := ∀ s, P s → P (stateOf (x s))

namespace EStateM.Preserves

variable {P : σ → Prop}

theorem pure (a : α) : Preserves P (pure a : EStateM ε σ α) := fun _ h => h

theorem throw (e : ε) : Preserves P (throw e : EStateM ε σ α) := fun _ h => h

theorem modify {f : σ → σ} (h : ∀ s, P s → P (f s)) : Preserves P (modify f : EStateM ε σ Unit) := h

theorem set {s : σ} (h : P s) : Preserves P (set s : EStateM ε σ Unit) := fun _ _ => h

theorem bind {x : EStateM ε σ α} {f : α → EStateM ε σ β} (hx : Preserves P x)
    (hf : ∀ a, Preserves P (f a)) : Preserves P (x >>= f) := by
  intro s hs
  have h := hx s hs
  show P (stateOf (EStateM.bind x f s))
  unfold EStateM.bind
  cases hxs : x s with
  | ok a s₁ =>
    rw [hxs] at h
    exact hf a s₁ h
  | error e s₁ =>
    rw [hxs] at h
    exact h

theorem forM {f : α → EStateM ε σ Unit} (hf : ∀ a, Preserves P (f a)) (as : List α) :
    Preserves P (as.forM f) := by
  induction as with
  | nil => exact pure ()
  | cons a as ih => exact bind (hf a) fun _ => ih

theorem get_bind {f : σ → EStateM ε σ β} (hf : ∀ s, P s → P (stateOf (f s s))) :
    Preserves P (get >>= f) := fun s hs => hf s hs

end EStateM.Preserves

end TiFlash.Lib
