import TiFlash.Lib.BinarySearch
import TiFlash.Lib.ExceptBind
import TiFlash.Transaction.RegionBlockReader

/-!
# Proofs: the order of unsigned handles

A list that is sorted by the signed handle is its negative handles followed by the others. As unsigned
numbers the negative ones come last, which is what the three reversals make of it.
-/

namespace TiFlash.Transaction

open TiFlash.Lib List Except

namespace HandleReadInfo

/-- The order by handle and version. -/
def Before (a b : Int × Timestamp) : Prop := a.1 < b.1 ∨ a.1 = b.1 ∧ a.2 ≤ b.2

instance : DecidableRel Before := fun a b => inferInstanceAs (Decidable (a.1 < b.1 ∨ a.1 = b.1 ∧ a.2 ≤ b.2))

/-- Sorted by handle and timestamp -/
def SortedBy (handle : BitVec 64 → Int) (dataList : List HandleReadInfo) : Prop :=
  dataList.Pairwise fun a b => Before (handle a.pk, a.commitTs) (handle b.pk, b.commitTs)

instance (handle : BitVec 64 → Int) (dataList : List HandleReadInfo) : Decidable (SortedBy handle dataList) :=
  inferInstanceAs (Decidable (Pairwise _ _))

theorem signed_cases (info : HandleReadInfo) :
    info.signed = true ∧ 2 ^ 63 ≤ info.pk.toNat ∧ info.pk.toInt = info.pk.toNat - 2 ^ 64 ∨
    info.signed = false ∧ info.pk.toNat < 2 ^ 63 ∧ info.pk.toInt = info.pk.toNat := by
  have hmsb : info.pk.getLsbD 63 = decide (2 ^ 63 ≤ info.pk.toNat) :=
    (BitVec.msb_eq_getLsbD_last _).symm.trans (BitVec.msb_eq_decide _)
  unfold signed signMask
  rw [BitVec.and_twoPow, hmsb, BitVec.toInt_eq_toNat_cond]
  by_cases hge : 2 ^ 63 ≤ info.pk.toNat
  · rw [if_pos (decide_eq_true hge), if_neg (by omega)]
    exact .inl ⟨by decide, hge, rfl⟩
  · rw [if_neg (mt of_decide_eq_true hge), if_pos (by omega)]
    exact .inr ⟨by decide, by omega, rfl⟩

section

variable {dataList : List HandleReadInfo} (hsorted : SortedBy BitVec.toInt dataList)
include hsorted

theorem SortedBy.append_eq :
    dataList.filter (·.signed) ++ dataList.filter (!·.signed) = dataList := by
  refine filter_append_filter_not (hsorted.imp fun {a b} h hb => ?_)
  rcases a.signed_cases with ⟨hneg, -⟩ | ⟨-, -, ha⟩
  · exact hneg
  · rcases b.signed_cases with ⟨-, -, hb⟩ | ⟨hpos, -⟩
    · rcases h with hlt | ⟨heq, -⟩ <;> simp only at * <;> omega
    · simp [hpos] at hb

variable (hpair : ∀ a b, dataList = [a, b] → a.signed = true → b.signed = true)
include hpair

theorem SortedBy.reorder_eq :
    reorderRegionDataReadList dataList = dataList.filter (!·.signed) ++ dataList.filter (·.signed) := by
  have heq := hsorted.append_eq
  have hneg : ∀ info ∈ dataList.filter (·.signed), info.signed = true := fun info h => (mem_filter.1 h).2
  have hpos : ∀ info ∈ dataList.filter (!·.signed), info.signed = false := fun info h => by
    simpa using (mem_filter.1 h).2
  generalize dataList.filter (·.signed) = neg at *
  generalize dataList.filter (!·.signed) = pos at *
  subst heq
  have htake : (neg ++ pos).takeWhile (·.signed) = neg := by
    rw [takeWhile_append_of_pos hneg]
    cases pos with
    | nil => simp
    | cons info pos => simp [hpos info mem_cons_self]
  rw [reorderRegionDataReadList, htake]
  cases neg with
  | nil => split_ifs <;> simp
  | cons a neg =>
    rcases eq_nil_or_concat' pos with rfl | ⟨pos, b, rfl⟩
    · split_ifs <;> simp
    · have ha := hneg a mem_cons_self
      have hb := hpos b (mem_append_right _ mem_cons_self)
      have hlen : (a :: neg ++ (pos ++ [b])).length > 2 := by
        by_contra hle
        simp only [length_append, length_cons, length_nil] at hle
        obtain rfl : neg = [] := length_eq_zero_iff.1 (by omega)
        obtain rfl : pos = [] := length_eq_zero_iff.1 (by omega)
        exact absurd (hpair a b rfl ha) (Bool.eq_false_iff.1 hb)
      have hlast : (a :: neg ++ (pos ++ [b])).getLast? = some b := by
        rw [← append_assoc, getLast?_concat]
      rw [if_pos hlen, hlast, if_pos (by simp [ha, hb])]
      simp

theorem SortedBy.reorder : SortedBy TMTPKType.uint64.handle (reorderRegionDataReadList dataList) := by
  -- within a part both orders agree, and a number without the sign bit is below any that has it
  have hpart : ∀ (p : HandleReadInfo → Bool) (sign : Bool), (∀ info, p info = true → info.signed = sign) →
      SortedBy TMTPKType.uint64.handle (dataList.filter p) := by
    intro p sign hp
    refine (Pairwise.filter p hsorted).imp_of_mem fun {a b} ha hb h => ?_
    have hsign : a.signed = b.signed := (hp a (mem_filter.1 ha).2).trans (hp b (mem_filter.1 hb).2).symm
    have hdiff : a.pk.toInt - b.pk.toInt = a.pk.toNat - b.pk.toNat := by
      rcases a.signed_cases with ⟨hsa, -, ha⟩ | ⟨hsa, -, ha⟩ <;>
        rcases b.signed_cases with ⟨hsb, -, hb⟩ | ⟨hsb, -, hb⟩
      · omega
      · simp [hsa, hsb] at hsign
      · simp [hsa, hsb] at hsign
      · omega
    simp only [Before, TMTPKType.handle, if_true] at h ⊢
    exact h.imp (fun hlt => by omega) (And.imp_left fun heq => by omega)
  rw [hsorted.reorder_eq hpair]
  refine pairwise_append.2 ⟨hpart _ false (by simp), hpart _ true (by simp), fun a ha b hb => .inl ?_⟩
  simp only [TMTPKType.handle, if_true]
  rcases a.signed_cases with ⟨hsa, -⟩ | ⟨-, hsmall, -⟩
  · simp [hsa] at ha
  · rcases b.signed_cases with ⟨-, hlarge, -⟩ | ⟨hsb, -⟩
    · omega
    · simp [hsb] at hb

end

end HandleReadInfo

theorem setColumnValues_sublist {ε V : Type} {pkType : TMTPKType} {tso : Timestamp} {scanFilter : Int → Bool}
    {decodeValue : HandleReadInfo → Except ε (Option V)} {dataList : List HandleReadInfo}
    {block : List (BlockRow V)} (h : setColumnValues pkType tso scanFilter decodeValue dataList = .ok (some block)) :
    (block.map fun row => (row.handle, row.version)).Sublist
      (dataList.map fun info => (pkType.handle info.pk, info.commitTs)) := by
  induction dataList generalizing block with
  | nil =>
    cases h
    exact .slnil
  | cons info dataList ih =>
    unfold setColumnValues at h
    split_ifs at h
    · exact (ih h).cons _
    · obtain ⟨values, -, h⟩ := bind_eq_ok_iff.1 h
      cases values with
      | none => cases h
      | some values =>
        obtain ⟨rows, hrows, h⟩ := bind_eq_ok_iff.1 h
        cases rows with
        | none => cases h
        | some rows =>
          cases h
          exact (ih hrows).cons_cons _

/-- Two records of which only the first is negative are not reordered, so they are not sorted. -/
theorem HandleReadInfo.not_sorted_reorder_pair {a b : HandleReadInfo} (ha : a.signed = true)
    (hb : b.signed = false) : ¬ SortedBy TMTPKType.uint64.handle (reorderRegionDataReadList [a, b]) := by
  intro hsorted
  have hbefore := pairwise_pair.1 hsorted
  simp only [Before, TMTPKType.handle, if_true] at hbefore
  rcases a.signed_cases with ⟨-, hlarge, -⟩ | ⟨hpos, -⟩
  · rcases b.signed_cases with ⟨hneg, -⟩ | ⟨-, hsmall, -⟩
    · simp [hneg] at hb
    · omega
  · simp [hpos] at ha

/-- The records are kept, and they and every block read from them are sorted by the unsigned handle iff they
are not two records of which only the first is negative. -/
theorem reorder_sorts_unsigned_iff {dataList : List HandleReadInfo}
    (hsorted : HandleReadInfo.SortedBy BitVec.toInt dataList) :
    (reorderRegionDataReadList dataList).Perm dataList ∧
    ((HandleReadInfo.SortedBy TMTPKType.uint64.handle (reorderRegionDataReadList dataList) ∧
      ∀ (ε V : Type) (tso : Timestamp) (scanFilter : Int → Bool)
        (decodeValue : HandleReadInfo → Except ε (Option V)) (block : List (BlockRow V)),
        readRegionBlock .uint64 tso scanFilter decodeValue dataList = .ok (some block) →
        (block.map fun row => (row.handle, row.version)).Pairwise HandleReadInfo.Before) ↔
      ∀ a b, dataList = [a, b] → a.signed = true → b.signed = true) := by
  refine ⟨?_, fun h a b hlist ha => ?_, fun hpair => ?_⟩
  · by_cases hpair : ∀ a b, dataList = [a, b] → a.signed = true → b.signed = true
    · rw [hsorted.reorder_eq hpair]
      exact perm_append_comm.trans (.of_eq hsorted.append_eq)
    · push Not at hpair
      obtain ⟨a, b, rfl, -⟩ := hpair
      exact .refl _
  · subst hlist
    by_contra hb
    exact HandleReadInfo.not_sorted_reorder_pair ha (Bool.eq_false_iff.2 hb) h.1
  · have hunsigned := hsorted.reorder hpair
    exact ⟨hunsigned, fun ε V tso scanFilter decodeValue block hblock =>
      (pairwise_map.2 hunsigned).sublist (setColumnValues_sublist hblock)⟩

/-- Handle -1 before two versions of handle 0. -/
def versionsAroundZero : List HandleReadInfo :=
  [⟨-1, .putFlag, 7, 0⟩, ⟨0, .putFlag, 5, 0⟩, ⟨0, .delFlag, 6, 0⟩]

theorem reorder_versionsAroundZero : (reorderRegionDataReadList versionsAroundZero).map (·.pk) = [0, 0, -1] ∧
    HandleReadInfo.SortedBy TMTPKType.uint64.handle (reorderRegionDataReadList versionsAroundZero) :=
  ⟨by decide, ((reorder_sorts_unsigned_iff (by decide)).2.2 fun _ _ h => by cases h).1⟩

/-- Two records are left as they are. -/
theorem reorder_leaves_two : HandleReadInfo.SortedBy BitVec.toInt (versionsAroundZero.take 2) ∧
    ¬ HandleReadInfo.SortedBy TMTPKType.uint64.handle (reorderRegionDataReadList (versionsAroundZero.take 2)) := by
  decide

end TiFlash.Transaction
