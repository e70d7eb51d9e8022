import Mathlib.Data.List.TakeWhile
import TiFlash.DM.RowKeyFilter

/-!
# Proofs: row keys and row key ranges

`compareBytes` is the lexicographic order. Column keys are linearly ordered, and `check` is the half-open
interval of a range, except that the largest handle lies before "+infinity" though both have one number.
-/

namespace TiFlash.DM

open List RowKeyValue TiFlash.Lib RowKeyRange

theorem memcmp_cons (x y : Byte) (a b : Bytes) :
    memcmp (x :: a) (y :: b) = if x < y then -1 else if y < x then 1 else memcmp a b := by
  unfold memcmp
  rcases lt_trichotomy x y with h | h | h
  · simp [cons_lt_cons_iff, h]
  · subst h; simp
  · simp [cons_lt_cons_iff, h, h.not_gt, h.ne', h.ne]

theorem compareBytes_eq (a b : Bytes) :
    compareBytes a b = if a < b then -1 else if b < a then 1 else 0 := by
  induction a generalizing b with
  | nil => cases b <;> simp [compareBytes, memcmp]
  | cons x a ih =>
    cases b with
    | nil => simp [compareBytes, memcmp]
    | cons y b =>
      have hb := ih b
      simp only [compareBytes, length_cons, Nat.add_min_add_right, take_succ_cons,
        memcmp_cons, Nat.add_right_cancel_iff, gt_iff_lt, Nat.add_lt_add_iff_right] at hb ⊢
      rcases lt_trichotomy x y with h | h | h
      · simp [cons_lt_cons_iff, h]
      · subst h; simpa [cons_lt_cons_iff] using hb
      · simp [cons_lt_cons_iff, h, h.not_gt, h.ne', h.ne]

theorem compareBytes_neg_iff {a b : Bytes} : compareBytes a b < 0 ↔ a < b := by
  rw [compareBytes_eq]
  split_ifs with h h' <;> simp [h]

theorem compareBytes_nonpos_iff {a b : Bytes} : compareBytes a b ≤ 0 ↔ a ≤ b := by
  rw [compareBytes_eq]
  split_ifs with h h'
  · simp [le_of_lt h]
  · simp [not_le.2 h']
  · simp [not_lt.1 h']

theorem compareBytes_eq_zero_iff {a b : Bytes} : compareBytes a b = 0 ↔ a = b := by
  rw [compareBytes_eq]
  split_ifs with h h'
  · simp [h.ne]
  · simp [h'.ne']
  · simp [le_antisymm (not_lt.1 h') (not_lt.1 h)]

namespace RowKey

@[simp] theorem int_lt_int {v w : HandleID} : int v < int w ↔ v.val < w.val := Sum.Lex.inl_lt_inl_iff

@[simp] theorem int_le_int {v w : HandleID} : int v ≤ int w ↔ v.val ≤ w.val := Sum.Lex.inl_le_inl_iff

@[simp] theorem common_lt_common {s t : Bytes} : common s < common t ↔ s < t := Sum.Lex.inr_lt_inr_iff

@[simp] theorem common_le_common {s t : Bytes} : common s ≤ common t ↔ s ≤ t := Sum.Lex.inr_le_inr_iff

end RowKey

/-! ## What a range contains -/

/-- The end of a range lies behind every integer handle. -/
def RowKeyValue.IsInf : {c : Bool} → RowKeyValue c → Prop
  | _, int value intValue _ => intValue = intHandleMax ∧ value = intHandleMaxKeyValue
  | _, common _ => False

def RowKey.IsMax : {c : Bool} → RowKey c → Prop
  | _, int v => v = intHandleMax
  | _, common _ => False

variable {c : Bool}

theorem RowKeyValue.IsInf.isMax_of_key_le {v : RowKeyValue c} (hv : v.IsInf) {k : RowKey c}
    (hk : v.key ≤ k) : k.IsMax := by
  cases v with
  | common s => exact hv.elim
  | int value w h =>
    cases k with
    | int u =>
      obtain ⟨rfl, -⟩ := hv
      exact Subtype.ext (le_antisymm (le_intHandleMax u) (RowKey.int_le_int.1 hk))

theorem RowKey.IsMax.not_lt_key {k l : RowKey c} (hk : k.IsMax) : ¬ k < l := by
  cases k with
  | common s => exact hk.elim
  | int v =>
    cases l with
    | int w =>
      obtain rfl := hk
      exact fun h => absurd (le_intHandleMax w) (not_le.2 (RowKey.int_lt_int.1 h))

theorem isInfData_none : isInfData none = false := rfl

theorem isInfData_some (d : Bytes) : isInfData (some d) = decide (d = intHandleMaxKeyValue) := by
  simp [isInfData, compareBytes_eq_zero_iff]

theorem compare_swap (a b : RowKeyValueRef c) : a.compare b = -b.compare a := by
  unfold RowKeyValueRef.compare
  cases a with
  | common s =>
    cases b with
    | common t =>
      simp only [compareBytes_eq]
      rcases lt_trichotomy s t with h | rfl | h
      · simp [h, h.not_gt]
      · simp
      · simp [h, h.not_gt]
  | int d v =>
    cases b with
    | int e w =>
      rcases lt_trichotomy v.val w.val with h | h | h
      · simp [Subtype.ext_iff, h.ne, h.ne', h, h.not_gt]
      · obtain rfl := Subtype.ext h
        cases hd : isInfData d <;> cases he : isInfData e <;> simp [hd, he, and_comm, apply_ite Neg.neg]
      · simp [Subtype.ext_iff, h.ne, h.ne', h, h.not_gt]

theorem compare_start_int (value : Bytes) (v w : HandleID) :
    RowKeyValueRef.compare (.int (some value) v) (.int none w)
      = if v.val ≠ w.val then (if v.val > w.val then 1 else -1)
        else if w = intHandleMax ∧ value = intHandleMaxKeyValue then 1 else 0 := by
  unfold RowKeyValueRef.compare
  by_cases hvw : v = w
  · by_cases hmax : w = intHandleMax <;> by_cases hval : value = intHandleMaxKeyValue <;>
      simp [hvw, hmax, hval, isInfData_some, isInfData_none]
  · have hne : v.val ≠ w.val := fun h => hvw (Subtype.ext h)
    simp [hvw, hne]

namespace RowKeyRange

variable (range : RowKeyRange c)

theorem checkStart_iff (k : RowKey c) :
    range.checkStart k = true ↔ range.start.key ≤ k ∧ ¬ (k.IsMax ∧ range.start.IsInf) := by
  rcases range with ⟨start, stop, n⟩
  cases start with
  | common s =>
    cases k with
    | common t =>
      simp [checkStart, toRowKeyValueRef, RowKey.toRef, RowKeyValueRef.compare,
        compareBytes_nonpos_iff, key, RowKey.IsMax]
  | int value v h =>
    cases k with
    | int w =>
      simp only [checkStart, toRowKeyValueRef, RowKey.toRef, compare_start_int,
        key, RowKey.int_le_int, RowKey.IsMax, RowKeyValue.IsInf, decide_eq_true_eq]
      by_cases hvw : v.val = w.val
      · have heq : v = w := Subtype.ext hvw
        subst heq
        simp only [ne_eq, not_true_eq_false, if_false, le_refl, true_and]
        split_ifs with hinf
        · simp [hinf]
        · simpa using hinf
      · have hne : ¬ (w = intHandleMax ∧ v = intHandleMax ∧ value = intHandleMaxKeyValue) :=
          fun hh => hvw (by rw [hh.1, hh.2.1])
        simp only [ne_eq, hvw, not_false_eq_true, if_true, hne, and_true]
        split_ifs <;> omega

theorem checkEnd_iff (k : RowKey c) :
    range.checkEnd k = true ↔ k < range.stop.key ∨ (k.IsMax ∧ range.stop.IsInf) := by
  -- a key is before the end exactly when a range that starts there does not have it
  have hstart := not_congr (checkStart_iff { range with start := range.stop } k)
  rw [not_and_not_right, imp_iff_not_or, not_le] at hstart
  rw [← hstart, checkStart, checkEnd, compare_swap, decide_eq_true_eq, decide_eq_true_eq, not_le, neg_lt_zero]

end RowKeyRange

/-! ## Cutting blocks to a range -/

variable {c : Bool} {D : Type*} {range : RowKeyRange c}

theorem compareBytes_pos_iff {a b : Bytes} : compareBytes a b > 0 ↔ b < a := by
  rw [gt_iff_lt, ← not_le, compareBytes_nonpos_iff, not_le]

theorem RowKeyValueRef.compare_pos_iff (a b : RowKeyValueRef c) : a.compare b > 0 ↔ b.compare a < 0 := by
  cases a with
  | common s =>
    cases b with
    | common t => exact compareBytes_pos_iff.trans compareBytes_neg_iff.symm
  | int da v =>
    cases b with
    | int db w =>
      by_cases hvw : v = w
      · subst hvw
        simp only [RowKeyValueRef.compare, ne_eq, not_true_eq_false, if_false, and_comm, gt_iff_lt]
        split_ifs <;> simp_all
      · have hne : v.val ≠ w.val := fun h => hvw (Subtype.ext h)
        simp only [RowKeyValueRef.compare, ne_eq, hvw, Ne.symm hvw, not_false_eq_true, if_true, gt_iff_lt]
        split_ifs <;> omega

theorem checkStart_mono {k l : RowKey c} (hkl : k ≤ l) (h : range.checkStart k = true) :
    range.checkStart l = true := by
  rw [checkStart_iff] at h ⊢
  refine ⟨h.1.trans hkl, fun ⟨hmax, hinf⟩ => h.2 ⟨hinf.isMax_of_key_le h.1, hinf⟩⟩

theorem checkEnd_anti {k l : RowKey c} (hkl : k ≤ l) (h : range.checkEnd l = true) :
    range.checkEnd k = true := by
  rw [checkEnd_iff] at h ⊢
  rcases h with hlt | ⟨hmax, hinf⟩
  · exact .inl (hkl.trans_lt hlt)
  · rcases lt_or_ge k range.stop.key with hk | hk
    · exact .inl hk
    · exact .inr ⟨hinf.isMax_of_key_le hk, hinf⟩

section Sorted

variable {keys : List (RowKey c)} (hs : keys.Pairwise (· ≤ ·))

include hs

theorem lowerBound_start :
    lowerBound keys range.start.toRowKeyValueRef = (keys.takeWhile fun k => !range.checkStart k).length := by
  have hp : (fun k : RowKey c => decide (range.start.toRowKeyValueRef.compare k.toRef > 0))
      = fun k => !range.checkStart k := by
    funext k
    rw [checkStart, ← decide_not, decide_eq_decide]
    exact not_le.symm
  have hmono : keys.Pairwise fun a b => (!range.checkStart b) = true → (!range.checkStart a) = true :=
    hs.imp fun {a b} hab hb => by
      cases ha : range.checkStart a with
      | false => rfl
      | true => simp [checkStart_mono hab ha] at hb
  rw [lowerBound, ← bisect_getD hmono default]
  exact congrArg (fun q => bisect (fun i => q (keys.getD i default)) 0 keys.length) hp

theorem lowerBound_stop :
    lowerBound keys range.stop.toRowKeyValueRef = (keys.takeWhile range.checkEnd).length := by
  have hp : (fun k : RowKey c => decide (range.stop.toRowKeyValueRef.compare k.toRef > 0))
      = range.checkEnd := by
    funext k
    rw [checkEnd, decide_eq_decide, RowKeyValueRef.compare_pos_iff]
  have hanti : keys.Pairwise fun a b => range.checkEnd b = true → range.checkEnd a = true :=
    hs.imp fun hab hb => checkEnd_anti hab hb
  rw [lowerBound, ← bisect_getD hanti default]
  exact congrArg (fun q => bisect (fun i => q (keys.getD i default)) 0 keys.length) hp

/-- The end of the rows in the range, whichever way it is found. -/
theorem endIndex_eq : (if range.check (keys.getD (keys.length - 1) default) then keys.length
    else lowerBound keys range.stop.toRowKeyValueRef) = (keys.takeWhile range.checkEnd).length := by
  split_ifs with h
  · rcases eq_nil_or_concat keys with rfl | ⟨init, k, rfl⟩
    · rfl
    · have hk : range.checkEnd k = true := by
        simp only [check, Bool.and_eq_true] at h
        simpa using h.2
      have hall : ∀ x ∈ init ++ [k], range.checkEnd x = true := forall_mem_append.2 ⟨fun x hx =>
        checkEnd_anti ((pairwise_append.1 (by simpa using hs)).2.2 x hx k (by simp)) hk,
        forall_mem_singleton.2 hk⟩
      simp only [concat_eq_append]
      rw [takeWhile_eq_self_iff.2 hall]
  · exact lowerBound_stop hs

/-- The offset and the end of the rows in the range, whichever way they are found. -/
theorem getPosRange_eq : range.getPosRange keys = ((keys.takeWhile fun k => !range.checkStart k).length,
      (keys.takeWhile range.checkEnd).length - (keys.takeWhile fun k => !range.checkStart k).length) := by
  have hstart : (if range.check (keys.getD 0 default) then 0
      else lowerBound keys range.start.toRowKeyValueRef)
        = (keys.takeWhile fun k => !range.checkStart k).length := by
    split_ifs with h
    · cases keys with
      | nil => rfl
      | cons k keys =>
        have hk : range.checkStart k = true := by
          simp only [check, getD_cons_zero, Bool.and_eq_true] at h
          exact h.1
        simp [hk]
    · exact lowerBound_start hs
  rw [getPosRange, hstart, endIndex_eq hs]

end Sorted

theorem cutBlock_eq (rows : List (Row (RowKey c) D)) {offset limit : Nat}
    (h : offset + limit ≤ rows.length ∨ limit = 0) :
    cutBlock rows offset limit = (rows.drop offset).take limit := by
  unfold cutBlock
  split_ifs with h0 hall hoff
  · simp [h0]
  · simp [hall]
  · have hle : limit ≤ rows.length := by omega
    simp [hoff, Nat.sub_sub_self hle]
  · rfl

theorem filterSorted_eq_filter {rows : List (Row (RowKey c) D)}
    (hs : rows.Pairwise fun a b => a.handle ≤ b.handle) :
    filterSorted range rows = rows.filter fun r => range.check r.handle := by
  have hkeys : (rows.map Row.handle).Pairwise (· ≤ ·) := by rwa [pairwise_map]
  have hcut : ((rows.takeWhile fun r => !range.checkStart r.handle).length
      + ((rows.takeWhile fun r => range.checkEnd r.handle).length
        - (rows.takeWhile fun r => !range.checkStart r.handle).length) ≤ rows.length) ∨
      (rows.takeWhile fun r => range.checkEnd r.handle).length
        - (rows.takeWhile fun r => !range.checkStart r.handle).length = 0 := by
    have := takeWhile_prefix (fun r : Row (RowKey c) D => range.checkEnd r.handle) (l := rows) |>.length_le
    omega
  rw [filterSorted, getPosRange_eq hkeys]
  simp only [takeWhile_map, length_map]
  refine (cutBlock_eq rows hcut).trans (filter_eq_take_drop ?_ ?_).symm
  · exact hs.imp fun hab ha => checkStart_mono hab ha
  · exact hs.imp fun hab hb => checkEnd_anti hab hb

end TiFlash.DM
