import TiFlash.DM.Proofs.RowKeyRangeProofs
import TiFlash.Lib.LexOrder

/-!
# Proofs: all keys in one order

`compare` is the order of the positions of keys, which are strings; that of an integer handle is its
encoding. The ends of segments are canonical: they are stored as their position.
-/

namespace TiFlash.DM

open List RowKeyValue

/-! ## Encodings -/

/-- Digits of one length are in the order of their numbers, behind numbers that come before them. -/
theorem foldl_digits_lt_iff {a b : Bytes} (hlen : a.length = b.length) (x y : Nat) :
    a.foldl (fun n d => n * 256 + d.val) x < b.foldl (fun n d => n * 256 + d.val) y
      ↔ x < y ∨ (x = y ∧ a < b) := by
  induction a generalizing b x y with
  | nil =>
    obtain rfl : b = [] := eq_nil_of_length_eq_zero hlen.symm
    simp
  | cons d a ih =>
    cases b with
    | nil => simp at hlen
    | cons e b =>
      rw [foldl_cons, foldl_cons, ih (by simpa using hlen), cons_lt_cons_iff]
      rw [Fin.lt_def, Fin.ext_iff]
      constructor
      · rintro (h | ⟨h, hab⟩)
        · rcases lt_trichotomy x y with hxy | hxy | hxy
          · exact .inl hxy
          · exact .inr ⟨hxy, .inl (by omega)⟩
          · omega
        · exact .inr ⟨by omega, .inr ⟨by omega, hab⟩⟩
      · rintro (h | ⟨rfl, h | ⟨h, hab⟩⟩)
        · exact .inl (by omega)
        · exact .inl (by omega)
        · exact .inr ⟨by omega, hab⟩

variable (v : HandleID)

theorem length_encodeInt64 : (encodeInt64 v).length = 8 := rfl

theorem foldl_encodeInt64 :
    (((encodeInt64 v).foldl (fun n d => n * 256 + d.val) 0 : Nat) : Int) - 2 ^ 63 = v.val := by
  have h := decodeInt64_encodeInt64 v
  exact Option.some.inj h

theorem encodeInt64_lt_iff {v w : HandleID} : encodeInt64 v < encodeInt64 w ↔ v.val < w.val := by
  have hfold := foldl_digits_lt_iff (a := encodeInt64 v) (b := encodeInt64 w) rfl 0 0
  have hv := foldl_encodeInt64 v
  have hw := foldl_encodeInt64 w
  have hiff : encodeInt64 v < encodeInt64 w ↔ (encodeInt64 v).foldl (fun n d => n * 256 + d.val) 0
      < (encodeInt64 w).foldl (fun n d => n * 256 + d.val) 0 := by rw [hfold]; simp
  rw [hiff]
  omega

theorem encodeInt64_injective : Function.Injective encodeInt64 := by
  intro v w h
  have h₁ := (encodeInt64_lt_iff (v := v) (w := w)).not.1 (by rw [h]; exact lt_irrefl _)
  have h₂ := (encodeInt64_lt_iff (v := w) (w := v)).not.1 (by rw [h]; exact lt_irrefl _)
  exact Subtype.ext (by omega)

theorem encodeInt64_lt_intHandleMaxKeyValue : encodeInt64 v < intHandleMaxKeyValue := by
  have hle : encodeInt64 v ≤ encodeInt64 intHandleMax :=
    not_lt.1 fun h => absurd (encodeInt64_lt_iff.1 h) (not_lt.2 (le_intHandleMax v))
  exact lt_of_le_of_lt hle (by decide)

/-! ## Positions -/

namespace RowKeyValueRef

variable {c : Bool}

/-- Only the largest handle may come with the data of the "+infinity" key. -/
def Sound : {c : Bool} → RowKeyValueRef c → Prop
  | _, int data v => isInfData data = true → v = intHandleMax
  | _, common _ => True

/-- The string that stands for a key in the order of `compare`. -/
def pos : {c : Bool} → RowKeyValueRef c → Bytes
  | _, int data v => if isInfData data then intHandleMaxKeyValue else encodeInt64 v
  | _, common data => data

/-- Handles are compared by their numbers, and the "+infinity" key is behind the largest. -/
theorem compare_int {a b : Option Bytes} {v w : HandleID} (ha : (int a v).Sound)
    (hb : (int b w).Sound) : (int a v).compare (int b w)
      = if v.val < w.val then -1 else if w.val < v.val then 1
        else if isInfData a = isInfData b then 0 else if isInfData a then 1 else -1 := by
  unfold RowKeyValueRef.compare
  by_cases hvw : v = w
  · subst hvw
    have hfin : v ≠ intHandleMax ∨ (a = none ∧ b = none) → isInfData a = false ∧ isInfData b = false := by
      rintro (hv | ⟨rfl, rfl⟩)
      · exact ⟨by simpa using fun h => hv (ha h), by simpa using fun h => hv (hb h)⟩
      · exact ⟨rfl, rfl⟩
    by_cases hcase : v ≠ intHandleMax ∨ (a = none ∧ b = none)
    · obtain ⟨h₁, h₂⟩ := hfin hcase
      simp [hcase, h₁, h₂]
    · simp only [ne_eq, not_true_eq_false, if_false, hcase, lt_irrefl]
      by_cases hab : isInfData a = isInfData b <;> simp [hab]
  · have hne : v.val ≠ w.val := fun h => hvw (Subtype.ext h)
    simp only [ne_eq, hvw, not_false_eq_true, if_true]
    split_ifs <;> omega

variable {a b : RowKeyValueRef c}

section

variable (ha : a.Sound) (hb : b.Sound)
include ha hb

theorem compare_eq_compareBytes : a.compare b = compareBytes a.pos b.pos := by
  cases a with
  | common s =>
    cases b with
    | common t => rfl
  | int a v =>
    cases b with
    | int b w =>
      rw [compare_int ha hb, compareBytes_eq]
      have hv := encodeInt64_lt_intHandleMaxKeyValue v
      have hw := encodeInt64_lt_intHandleMaxKeyValue w
      cases hia : isInfData a <;> cases hib : isInfData b
      · simp [pos, hia, hib, encodeInt64_lt_iff]
      · obtain rfl := hb hib
        have hvle : ¬ intHandleMax.val < v.val := not_lt.2 (le_intHandleMax v)
        simp [pos, hia, hib, hv, hvle]
      · obtain rfl := ha hia
        have hwle : ¬ intHandleMax.val < w.val := not_lt.2 (le_intHandleMax w)
        simp [pos, hia, hib, hw, hw.not_gt, hwle]
      · obtain rfl := ha hia
        obtain rfl := hb hib
        simp [pos, hia, hib]

theorem compare_neg_iff : a.compare b < 0 ↔ a.pos < b.pos := by
  rw [compare_eq_compareBytes ha hb, compareBytes_neg_iff]

theorem compare_nonpos_iff : a.compare b ≤ 0 ↔ a.pos ≤ b.pos := by
  rw [compare_eq_compareBytes ha hb, compareBytes_nonpos_iff]

theorem compare_eq_zero_iff : a.compare b = 0 ↔ a.pos = b.pos := by
  rw [compare_eq_compareBytes ha hb, compareBytes_eq_zero_iff]

end

end RowKeyValueRef

variable {c : Bool}

namespace RowKey

/-- The position of a key of a column: of an integer handle, its encoding. -/
def pos (k : RowKey c) : Bytes := k.toRef.pos

theorem sound_toRef (k : RowKey c) : k.toRef.Sound := by
  cases k with
  | int v => exact fun h => absurd h (by simp [isInfData_none])
  | common s => trivial

end RowKey

namespace RowKeyValue

def pos (v : RowKeyValue c) : Bytes := v.toRowKeyValueRef.pos

theorem sound_toRowKeyValueRef (v : RowKeyValue c) : v.toRowKeyValueRef.Sound := by
  cases v with
  | common s => trivial
  | int d v h =>
    intro hinf
    rw [isInfData_some, decide_eq_true_eq] at hinf
    have hmax : decodeInt64 intHandleMaxKeyValue = some intHandleMax.val := by decide
    exact Subtype.ext (Option.some.inj (h.symm.trans (hinf ▸ hmax)))

/-- The end of a range is an encoded handle or the "+infinity" key: its string is its position. -/
def Canonical (v : RowKeyValue c) : Prop := v.pos = v.value

theorem value_injective : Function.Injective (value : RowKeyValue c → Bytes) := by
  intro a b h
  cases a with
  | common s =>
    cases b with
    | common t => exact congrArg common h
  | int s v hs =>
    cases b with
    | int t w ht =>
      obtain rfl : s = t := h
      obtain rfl : v = w := Subtype.ext (Option.some.inj (hs.symm.trans ht))
      rfl

theorem pos_of_encoded (v : HandleID) (h : decodeInt64 (encodeInt64 v) = some v.val) :
    (int (encodeInt64 v) v h).pos = encodeInt64 v := by
  have hne : encodeInt64 v ≠ intHandleMaxKeyValue := (encodeInt64_lt_intHandleMaxKeyValue v).ne
  simp [pos, toRowKeyValueRef, RowKeyValueRef.pos, isInfData_some, hne]

theorem canonical_ofKey (k : RowKey c) : (ofKey k).Canonical := by
  cases k with
  | int v => exact pos_of_encoded v _
  | common s => rfl

end RowKeyValue

namespace RowKeyRange

/-- Both ends are canonical. -/
structure Canonical (range : RowKeyRange c) : Prop where
  start : range.start.Canonical
  stop : range.stop.Canonical

theorem none_eq_false_iff {range : RowKeyRange c} :
    range.none = false ↔ range.start.value < range.stop.value := by
  simp [RowKeyRange.none]

theorem check_iff (range : RowKeyRange c) (k : RowKey c) :
    range.check k = true ↔ range.start.pos ≤ k.pos ∧ k.pos < range.stop.pos := by
  simp only [check, checkStart, checkEnd, Bool.and_eq_true, decide_eq_true_eq]
  rw [RowKeyValueRef.compare_nonpos_iff range.start.sound_toRowKeyValueRef k.sound_toRef,
    RowKeyValueRef.compare_neg_iff k.sound_toRef range.stop.sound_toRowKeyValueRef]
  rfl

theorem canonical_newAll (c : Bool) (n : Nat) : (newAll c n).Canonical := by
  cases c with
  | true => exact ⟨rfl, rfl⟩
  | false =>
    have hmax : intHandleMaxKey.pos = intHandleMaxKeyValue := by decide
    exact ⟨pos_of_encoded _ _, hmax⟩

theorem newAll_nonempty (c : Bool) {n : Nat} (hn : 0 < n) :
    (newAll c n).start.value < (newAll c n).stop.value := by
  cases c with
  | true =>
    obtain ⟨m, rfl⟩ := Nat.exists_eq_succ_of_ne_zero hn.ne'
    exact cons_lt_cons_iff.2 (.inl (by decide))
  | false => exact encodeInt64_lt_intHandleMaxKeyValue _

end RowKeyRange

variable {n : Nat}

/-! ## Strings and positions -/

theorem take_of_decodeInt64 {s : Bytes} {v : HandleID} (h : decodeInt64 s = some v.val) :
    8 ≤ s.length ∧ s.take 8 = encodeInt64 v := by
  unfold decodeInt64 at h
  split_ifs at h with hlen
  have hs : (s.take 8).length = (encodeInt64 v).length := by
    rw [length_encodeInt64, length_take]
    omega
  have hfold := Option.some.inj h
  have hv := foldl_encodeInt64 v
  refine ⟨by omega, le_antisymm ?_ ?_⟩
  · exact not_lt.1 fun hlt => absurd ((foldl_digits_lt_iff hs.symm 0 0).2 (.inr ⟨rfl, hlt⟩)) (by omega)
  · exact not_lt.1 fun hlt => absurd ((foldl_digits_lt_iff hs 0 0).2 (.inr ⟨rfl, hlt⟩)) (by omega)

namespace RowKeyValue

theorem pos_int (d : Bytes) (v : HandleID) (h : decodeInt64 d = some v.val) :
    (int d v h).pos = if d = intHandleMaxKeyValue then intHandleMaxKeyValue else d.take 8 := by
  rw [(take_of_decodeInt64 h).2]
  show (if isInfData (some d) then intHandleMaxKeyValue else encodeInt64 v) = _
  rw [isInfData_some]
  by_cases hd : d = intHandleMaxKeyValue <;> simp [hd]

theorem pos_le_value (v : RowKeyValue c) : v.pos ≤ v.value := by
  cases v with
  | common s => exact le_rfl
  | int d v h =>
    rw [pos_int]
    split_ifs with hd
    · exact hd.symm.le
    · have hprefix : ¬ d < d.take 8 := take_prefix 8 d |>.le
      exact not_lt.1 hprefix

/-- Only the exact string of "+infinity" has a position behind that of a longer string. -/
theorem pos_le_pos_of_ne {v w : RowKeyValue c} (h : v.value ≤ w.value)
    (hne : v.value = intHandleMaxKeyValue → w.value = intHandleMaxKeyValue) : v.pos ≤ w.pos := by
  cases v with
  | common s =>
    cases w with
    | common t => exact h
  | int d v hv =>
    cases w with
    | int e w hw' =>
      have hle : (int d v hv).pos ≤ d := pos_le_value (int d v hv)
      have hde : d ≤ e := h
      rw [pos_int e]
      split_ifs with he
      · exact hle.trans (hde.trans he.le)
      · have hd : d ≠ intHandleMaxKeyValue := fun hd => he (hne hd)
        rw [pos_int, if_neg hd]
        refine not_lt.1 fun hlt => absurd hde (not_le.2 ?_)
        exact (Lib.lt_iff_take_drop 8).2 (.inl hlt)

theorem pos_le_pos {v w : RowKeyValue c} (h : v.value ≤ w.value)
    (hw : w.value ≤ (RowKeyRange.newAll c n).stop.value) : v.pos ≤ w.pos := by
  cases c with
  | true =>
    cases v with
    | common s =>
      cases w with
      | common t => exact h
  | false => exact pos_le_pos_of_ne h fun hv => le_antisymm hw (hv.symm.trans_le h)

end RowKeyValue

theorem RowKeyRange.check_shrink {a b : RowKeyRange c}
    (has : a.start.value ≤ (newAll c n).stop.value) (hae : a.stop.value ≤ (newAll c n).stop.value)
    (hbs : b.start.value ≤ (newAll c n).stop.value) (hbe : b.stop.value ≤ (newAll c n).stop.value)
    (k : RowKey c) : (a.shrink b).check k = true ↔ a.check k = true ∧ b.check k = true := by
  have hstart : (a.shrink b).start.pos ≤ k.pos ↔ a.start.pos ≤ k.pos ∧ b.start.pos ≤ k.pos := by
    show (if b.start.value ≤ a.start.value then a.start else b.start).pos ≤ k.pos ↔ _
    split_ifs with hcmp
    · have := pos_le_pos hcmp has
      exact ⟨fun hk => ⟨hk, this.trans hk⟩, fun hk => hk.1⟩
    · have := pos_le_pos (not_le.1 hcmp).le hbs
      exact ⟨fun hk => ⟨this.trans hk, hk⟩, fun hk => hk.2⟩
  have hstop : k.pos < (a.shrink b).stop.pos ↔ k.pos < a.stop.pos ∧ k.pos < b.stop.pos := by
    show k.pos < (if a.stop.value < b.stop.value then a.stop else b.stop).pos ↔ _
    split_ifs with hcmp
    · have := pos_le_pos hcmp.le hbe
      exact ⟨fun hk => ⟨hk, hk.trans_le this⟩, fun hk => hk.1⟩
    · have := pos_le_pos (not_lt.1 hcmp) hae
      exact ⟨fun hk => ⟨hk.trans_le this, hk⟩, fun hk => hk.2⟩
  rw [check_iff, check_iff, check_iff, hstart, hstop]
  tauto

end TiFlash.DM
