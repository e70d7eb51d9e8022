import Mathlib.Tactic

/-!
# Readers of binary data

A reader takes bytes off the front of its input. It reads a value from some bytes if it takes exactly these,
whatever is behind them.
-/

namespace TiFlash.Lib

open List

/-- The instance of the literals of all modules. -/
instance neZeroByte : NeZero 256 := ⟨by decide⟩

/-- Takes bytes from the front. -/
abbrev Reader (α : Type) := StateT (List (Fin 256)) Option α

variable {α β : Type}

def Reads (p : Reader α) (bytes : List (Fin 256)) (v : α) : Prop :=
  ∀ rest, p.run (bytes ++ rest) = some (v, rest)

theorem Reads.pure (v : α) : Reads (Pure.pure v) [] v := fun _ => rfl

theorem Reads.bind {p : Reader α} {f : α → Reader β} {a b : List (Fin 256)} {v : α} {w : β} (hp : Reads p a v)
    (hf : Reads (f v) b w) : Reads (p >>= f) (a ++ b) w := by
  intro rest
  rw [StateT.run_bind, append_assoc, hp]
  exact hf rest

theorem Reads.map {p : Reader α} {a : List (Fin 256)} {v : α} (hp : Reads p a v) (f : α → β) :
    Reads (f <$> p) a (f v) := by
  intro rest
  rw [StateT.run_map, hp]
  rfl

/-- One byte -/
def readByte : Reader (Fin 256)
  | [] => none
  | b :: s => some (b, s)

theorem readByte_reads (b : Fin 256) : Reads readByte [b] b := fun _ => rfl

/-- `n` bytes, or an exception -/
def readStrict (n : Nat) : Reader (List (Fin 256)) := fun s =>
  if n ≤ s.length then some (s.take n, s.drop n) else none

theorem readStrict_reads (s : List (Fin 256)) : Reads (readStrict s.length) s s := by
  intro rest
  show readStrict s.length (s ++ rest) = _
  rw [readStrict, if_pos (by simp), take_left, drop_left]

/-- The `w` lowest bytes of a number, the least significant one first -/
def writeLE : (w : Nat) → Nat → List (Fin 256)
  | 0, _ => []
  | w + 1, n => Fin.ofNat 256 n :: writeLE w (n / 256)

/-- `w` bytes, the lowest first -/
def readLE : (w : Nat) → Reader Nat
  | 0 => pure 0
  | w + 1 => do
    let b ← readByte
    let n ← readLE w
    pure (b.val + 256 * n)

theorem readLE_reads {w n : Nat} (h : n < 256 ^ w) : Reads (readLE w) (writeLE w n) n := by
  induction w generalizing n with
  | zero =>
    obtain rfl : n = 0 := by omega
    exact Reads.pure 0
  | succ w ih =>
    have hhigh := ih (n := n / 256) (Nat.div_lt_of_lt_mul (by rwa [← Nat.pow_succ']))
    refine (readByte_reads _).bind (b := writeLE w (n / 256)) ?_
    have hsum := hhigh.map fun m => n % 256 + 256 * m
    rwa [Nat.mod_add_div] at hsum

/-- Seven bits in each byte; the highest bit says that there are more. At most `turns` bytes are written. -/
def writeVarUInt : (turns : Nat) → Nat → List (Fin 256)
  | 0, _ => []
  | turns + 1, x =>
    if x / 128 = 0 then [Fin.ofNat 256 x]
    else Fin.ofNat 256 (x % 128 + 128) :: writeVarUInt turns (x / 128)

def readVarUInt : (turns : Nat) → Reader Nat
  | 0 => pure 0
  | turns + 1 => do
    let b ← readByte
    if b.val < 128 then pure b.val
    else do
      let x ← readVarUInt turns
      pure (b.val % 128 + 128 * x)

theorem readVarUInt_reads {turns x : Nat} (h : x < 128 ^ turns) :
    Reads (readVarUInt turns) (writeVarUInt turns x) x := by
  induction turns generalizing x with
  | zero =>
    obtain rfl : x = 0 := by omega
    exact Reads.pure 0
  | succ turns ih =>
    rw [readVarUInt, writeVarUInt]
    split_ifs with hsmall
    · have hval : (Fin.ofNat 256 x).val = x := Nat.mod_eq_of_lt (by omega)
      refine (readByte_reads _).bind ?_
      rw [hval, if_pos (by omega)]
      exact Reads.pure x
    · have hval : (Fin.ofNat 256 (x % 128 + 128)).val = x % 128 + 128 := Nat.mod_eq_of_lt (by omega)
      have hhigh := ih (x := x / 128) (Nat.div_lt_of_lt_mul (by rwa [← Nat.pow_succ']))
      refine (readByte_reads _).bind (b := writeVarUInt turns (x / 128)) ?_
      rw [hval, if_neg (by omega)]
      have hsum := hhigh.map fun n => (x % 128 + 128) % 128 + 128 * n
      rwa [show (x % 128 + 128) % 128 + 128 * (x / 128) = x by omega] at hsum

/-- `n` values -/
def readMany (p : Reader α) : Nat → Reader (List α)
  | 0 => pure []
  | n + 1 => do
    let v ← p
    let vs ← readMany p n
    pure (v :: vs)

theorem readMany_reads {p : Reader α} {write : α → List (Fin 256)} {vs : List α}
    (h : ∀ v ∈ vs, Reads p (write v) v) : Reads (readMany p vs.length) (vs.flatMap write) vs := by
  induction vs with
  | nil => exact Reads.pure []
  | cons v vs ih =>
    have hrest := ih fun u hu => h u (mem_cons_of_mem v hu)
    exact (h v mem_cons_self).bind (hrest.map (v :: ·))

end TiFlash.Lib
