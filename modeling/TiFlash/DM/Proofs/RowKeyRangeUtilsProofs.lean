import TiFlash.DM.RowKeyRangeUtils
import TiFlash.DM.Proofs.RowKeyOrderProofs
import TiFlash.Lib.Chained
import TiFlash.Lib.ExceptBind

/-!
# Merging the ranges of a query keeps their keys

In a group every range is empty or begins where the one before it ends. If every empty range ends where the
one before it ends, the keys of a group are those between its outer ends. Halving keeps groups groups, so
how the heap chooses does not matter.
-/

namespace TiFlash.DM

open TiFlash.Lib List Except MergeRangeHelper RowKeyRange

variable {c : Bool}

theorem RowKeyValue.AtMostInf.pos_le_pos {v w : RowKeyValue c} (hw : w.AtMostInf)
    (h : v.value ≤ w.value) : v.pos ≤ w.pos := by
  cases w with
  | common t =>
    cases v with
    | common s => exact h
  | int d w hd => exact @RowKeyValue.pos_le_pos false 0 _ _ h hw

variable {range : RowKeyRange c}

theorem RowKeyRange.AtMostInf.check_of_none (hrange : range.AtMostInf)
    (h : range.none = true) (k : RowKey c) : range.check k = false := by
  rw [← Bool.not_eq_true, check_iff, not_and, not_lt]
  have hle : range.stop.value ≤ range.start.value := of_decide_eq_true h
  exact fun hk => (hrange.start.pos_le_pos hle).trans hk

/-! ## Groups -/

/-- The second range is empty, or begins where the first ends. -/
def Glued (prev current : RowKeyRange c) : Prop := current.none = true ∨ prev.stop.value = current.start.value

/-- What `genMergeStats` finds of two neighbours if every empty range ends where the one before it ends. -/
structure Follows (prev current : RowKeyRange c) : Prop where
  sorted : prev.start.value ≤ current.start.value
  stops : current.none = true → current.stop.value = prev.stop.value
  gap : prev.stop.value ≤ current.start.value

theorem Follows.stop_le {prev current : RowKeyRange c} (h : Follows prev current) :
    prev.stop.value ≤ current.stop.value := by
  cases hnone : current.none with
  | true => rw [h.stops hnone]
  | false => exact h.gap.trans (none_eq_false_iff.1 hnone).le

/-- The range from the start of the first to the end of the last. -/
def hull (first last : RowKeyRange c) (n : Nat) : RowKeyRange c := ⟨first.start, last.stop, n⟩

theorem hull_check_iff {first last next : RowKeyRange c} {n : Nat} (hlast : last.AtMostInf)
    (hnext : next.AtMostInf) (hfollows : Follows last next) (hglued : Glued last next)
    (hsorted : first.start.value ≤ next.start.value) (k : RowKey c) :
    (hull first next n).check k = true ↔ (hull first last n).check k = true ∨ next.check k = true := by
  cases hnone : next.none with
  | true =>
    have hstop : next.stop = last.stop := RowKeyValue.value_injective (hfollows.stops hnone)
    have hempty := hnext.check_of_none hnone k
    simp only [hull, hstop, hempty, Bool.false_eq_true, or_false]
  | false =>
    have hstart : next.start = last.stop :=
      (RowKeyValue.value_injective (hglued.resolve_left (by simp [hnone]))).symm
    have hlow : first.start.pos ≤ last.stop.pos := hlast.stop.pos_le_pos (hstart ▸ hsorted)
    have hhigh : last.stop.pos ≤ next.stop.pos := hnext.stop.pos_le_pos hfollows.stop_le
    simp only [check_iff, hull, hstart]
    constructor
    · rintro ⟨hge, hlt⟩
      rcases lt_or_ge k.pos last.stop.pos with hk | hk
      · exact .inl ⟨hge, hk⟩
      · exact .inr ⟨hk, hlt⟩
    · rintro (⟨hge, hlt⟩ | ⟨hge, hlt⟩)
      · exact ⟨hge, hlt.trans_le hhigh⟩
      · exact ⟨hlow.trans hge, hlt⟩

theorem hull_check_group {n : Nat} (first : RowKeyRange c) (rest : List (RowKeyRange c))
    (hinf : ∀ range ∈ first :: rest, range.AtMostInf) (hfollows : (first :: rest).IsChain Follows)
    (hglued : (first :: rest).IsChain Glued) (k : RowKey c) :
    (hull first ((first :: rest).getLast (cons_ne_nil _ _)) n).check k = true
      ↔ ∃ range ∈ first :: rest, range.check k = true := by
  -- the group is extended at its right end, with the first range kept
  induction rest using reverseRecOn with
  | nil => simp [hull, check_iff]
  | append_singleton rest next ih =>
    rw [← cons_append, isChain_append] at hfollows hglued
    obtain ⟨hfollows, -, hfnext⟩ := hfollows
    obtain ⟨hglued, -, hgnext⟩ := hglued
    have hmem : ∀ range ∈ first :: rest, range ∈ first :: (rest ++ [next]) := by
      intro range hrange
      exact mem_append_left _ hrange
    have hih := ih (fun range hrange => hinf range (hmem range hrange)) hfollows hglued
    set last := (first :: rest).getLast (cons_ne_nil _ _) with hlast
    have hlast? : last ∈ (first :: rest).getLast? := by
      rw [getLast?_eq_getLast_of_ne_nil (cons_ne_nil _ _), Option.mem_some_iff]
    have hlastMem : last ∈ first :: rest := getLast_mem _
    have hsorted : (first :: rest).Pairwise fun a b => a.start.value ≤ b.start.value := by
      rw [← isChain_iff_pairwise]
      exact hfollows.imp fun _ _ h => h.sorted
    have hstep := hfnext last hlast? next rfl
    have hle : first.start.value ≤ next.start.value := by
      rcases mem_cons.1 hlastMem with heq | hin
      · exact heq ▸ hstep.sorted
      · exact ((pairwise_cons.1 hsorted).1 last hin).trans hstep.sorted
    have hgetLast : (first :: (rest ++ [next])).getLast (cons_ne_nil _ _) = next := by simp
    rw [hgetLast, hull_check_iff (hinf last (hmem last hlastMem)) (hinf next (by simp)) hstep
      (hgnext last hlast? next rfl) hle, hih]
    simp [or_assoc]

/-! ## The groups of `genMergeStats` -/

def slice (ranges : List (RowKeyRange c)) (stat : OffsetCount) : List (RowKeyRange c) :=
  (ranges.drop stat.offset).take stat.count

/-- A group of ranges without gaps -/
structure IsGroup (ranges : List (RowKeyRange c)) (stat : OffsetCount) : Prop where
  pos : 0 < stat.count
  bound : stat.offset + stat.count ≤ ranges.length
  glued : (slice ranges stat).IsChain Glued

/-- The groups follow each other from one offset to another. -/
def Groups (ranges : List (RowKeyRange c)) (first : Nat) (stats : List OffsetCount) : Prop :=
  Chained OffsetCount.offset (fun stat => stat.offset + stat.count) first stats ranges.length ∧
    ∀ stat ∈ stats, IsGroup ranges stat

theorem isGroup_of_append {ranges before group rest : List (RowKeyRange c)}
    (hranges : ranges = before ++ group ++ rest) (hne : group ≠ []) (hglued : group.IsChain Glued) :
    IsGroup ranges ⟨before.length, group.length⟩ := by
  refine ⟨length_pos_of_ne_nil hne, ?_, ?_⟩
  · rw [hranges]
    simp
  · have hslice : slice ranges ⟨before.length, group.length⟩ = group := by
      unfold slice
      rw [hranges, append_assoc, drop_left, take_left]
    rw [hslice]
    exact hglued

namespace MergeRangeHelper

variable {prev : RowKeyRange c} {stats : List OffsetCount} {ranges rest : List (RowKeyRange c)}

theorem genMergeStatsFrom_groups {before group : List (RowKeyRange c)}
    (hranges : ranges = before ++ (group ++ [prev]) ++ rest) (hglued : (group ++ [prev]).IsChain Glued)
    (h : genMergeStatsFrom prev rest (before.length + (group ++ [prev]).length) before.length
      (group ++ [prev]).length = .ok stats) : Groups ranges before.length stats := by
  induction rest generalizing before group prev stats with
  | nil =>
    rw [genMergeStatsFrom, ok.injEq] at h
    subst h
    have hgroup := isGroup_of_append hranges (by simp) hglued
    refine ⟨⟨rfl, ?_⟩, by simpa using hgroup⟩
    rw [hranges]
    simp
  | cons current rest ih =>
    rw [genMergeStatsFrom] at h
    split_ifs at h with hmerge hgap
    · -- the range joins the group
      have hglued' : (group ++ [prev] ++ [current]).IsChain Glued := by
        refine isChain_append.2 ⟨hglued, isChain_singleton _, ?_⟩
        intro x hx y hy
        rw [getLast?_append, getLast?_singleton, Option.some_or, Option.mem_some_iff] at hx
        rw [head?_cons, Option.mem_some_iff] at hy
        subst hx hy
        simpa [Glued] using hmerge
      refine ih (by rw [hranges]; simp) hglued' ?_
      have hlen : (group ++ [prev] ++ [current]).length = (group ++ [prev]).length + 1 := by simp
      rw [hlen, ← Nat.add_assoc]
      exact h
    · -- the group is finished and another one begins
      obtain ⟨stats', hstats, ⟨⟩⟩ := bind_eq_ok_iff.1 h
      have hlen : (before ++ (group ++ [prev])).length = before.length + (group ++ [prev]).length :=
        length_append
      have hranges' : ranges = (before ++ (group ++ [prev])) ++ ([] ++ [current]) ++ rest := by
        rw [hranges]
        simp
      obtain ⟨hchained, hgroups⟩ := ih hranges' (isChain_singleton _) (by rw [hlen]; exact hstats)
      rw [hlen] at hchained
      refine ⟨⟨rfl, hchained⟩, ?_⟩
      exact forall_mem_cons.2 ⟨isGroup_of_append hranges (by simp) hglued, hgroups⟩

theorem genMergeStatsFrom_gap {i offset count : Nat} (h : genMergeStatsFrom prev rest i offset count = .ok stats) :
    (prev :: rest).IsChain fun prev current =>
      Glued prev current ∨ prev.stop.value < current.start.value := by
  induction rest generalizing prev i offset count stats with
  | nil => exact isChain_singleton _
  | cons current rest ih =>
    rw [genMergeStatsFrom] at h
    split_ifs at h with hmerge hgap
    · exact isChain_cons_cons.2 ⟨.inl (by simpa [Glued] using hmerge), ih h⟩
    · obtain ⟨stats', hstats, -⟩ := bind_eq_ok_iff.1 h
      exact isChain_cons_cons.2 ⟨.inr hgap, ih hstats⟩

/-- Ranges none of which is empty or begins before the one before it ends are merged. -/
theorem exists_genMergeStatsFrom (i offset count : Nat)
    (h : (prev :: rest).IsChain fun prev current => prev.stop.value ≤ current.start.value) :
    ∃ stats, genMergeStatsFrom prev rest i offset count = .ok stats := by
  induction rest generalizing prev i offset count with
  | nil => exact ⟨_, rfl⟩
  | cons current rest ih =>
    rw [isChain_cons_cons] at h
    rw [genMergeStatsFrom]
    split_ifs with hmerge hgap
    · exact ih _ _ _ h.2
    · obtain ⟨stats, hstats⟩ := ih (i + 1) i 1 h.2
      exact ⟨⟨offset, count⟩ :: stats, by rw [hstats]; rfl⟩
    · simp only [Bool.or_eq_true, decide_eq_true_eq, not_or] at hmerge
      exact absurd (lt_of_le_of_ne h.1 hmerge.2) hgap

theorem genMergeStats_groups (hne : ranges ≠ [])
    (h : genMergeStats ranges = .ok stats) : Groups ranges 0 stats := by
  obtain ⟨first, rest, rfl⟩ := exists_cons_of_ne_nil hne
  have hranges : first :: rest = [] ++ ([] ++ [first]) ++ rest := by simp
  exact genMergeStatsFrom_groups hranges (isChain_singleton _) h

end MergeRangeHelper

/-! ## Splitting groups -/

def GroupsPerm (ranges : List (RowKeyRange c)) (stats : List OffsetCount) : Prop :=
  ∃ sorted, stats.Perm sorted ∧ Groups ranges 0 sorted

variable {ranges : List (RowKeyRange c)} {top : OffsetCount}

theorem halve_isGroup (hsize : 1 < top.count) (h : IsGroup ranges top) :
    IsGroup ranges (halve top).1 ∧ IsGroup ranges (halve top).2 := by
  obtain ⟨hpos, hbound, hglued⟩ := h
  have hleft : slice ranges (halve top).1 = (slice ranges top).take (top.count / 2) := by
    simp only [slice, halve, take_take]
    congr 1
    omega
  have hright : slice ranges (halve top).2 = (slice ranges top).drop (top.count / 2) := by
    simp only [slice, halve, drop_take, drop_drop]
  refine ⟨⟨?_, ?_, ?_⟩, ?_, ?_, ?_⟩
  · show 0 < top.count / 2
    omega
  · show top.offset + top.count / 2 ≤ ranges.length
    omega
  · rw [hleft]
    exact hglued.take _
  · show 0 < top.count - top.count / 2
    omega
  · show top.offset + top.count / 2 + (top.count - top.count / 2) ≤ ranges.length
    omega
  · rw [hright]
    exact hglued.drop _

theorem GroupsPerm.halve {rest : List OffsetCount} (hsize : 1 < top.count) (h : GroupsPerm ranges (top :: rest)) :
    GroupsPerm ranges ((halve top).1 :: (halve top).2 :: rest) := by
  obtain ⟨sorted, hperm, hchained, hgroups⟩ := h
  obtain ⟨ls, rs, rfl⟩ := append_of_mem (hperm.subset mem_cons_self)
  obtain ⟨hleft, hright⟩ := halve_isGroup hsize (hgroups top (by simp))
  have hrest : rest.Perm (ls ++ rs) := (hperm.trans perm_middle).cons_inv
  refine ⟨ls ++ [(MergeRangeHelper.halve top).1, (MergeRangeHelper.halve top).2] ++ rs, ?_, ?_, ?_⟩
  · rw [append_assoc]
    exact ((hrest.cons _).cons _).trans (perm_append_comm_assoc ls [_, _] rs).symm
  · have hmid : Chained OffsetCount.offset (fun stat => stat.offset + stat.count) 0 (ls ++ [top] ++ rs)
        ranges.length := by simpa using hchained
    refine hmid.replace ?_
    rintro x y ⟨hx, hy⟩
    refine ⟨hx, rfl, ?_⟩
    rw [← hy]
    show top.offset + top.count / 2 + (top.count - top.count / 2) = top.offset + top.count
    omega
  · intro stat hstat
    simp only [mem_append, mem_cons, not_mem_nil, or_false] at hstat
    rcases hstat with (hstat | rfl | rfl) | hstat
    · exact hgroups stat (mem_append_left _ hstat)
    · exact hleft
    · exact hright
    · exact hgroups stat (mem_append_right _ (mem_cons_of_mem _ hstat))

variable {first : Nat} {stats : List OffsetCount}

theorem Groups.offset_lt (h : Groups ranges first stats) : stats.Pairwise fun a b => a.offset < b.offset := by
  have hup : ∀ stat ∈ stats, stat.offset < stat.offset + stat.count := by
    intro stat hstat
    have hpos := (h.2 stat hstat).pos
    omega
  refine (Chained.pairwise (v := id) h.1 hup).imp_of_mem ?_
  intro a b ha _ hab
  exact (hup a ha).trans_le hab

theorem GroupsPerm.insertionSort (h : GroupsPerm ranges stats) :
    Groups ranges 0 (stats.insertionSort fun a b => a.offset ≤ b.offset) := by
  obtain ⟨sorted, hperm, hgroups⟩ := h
  have hlt := hgroups.offset_lt
  have heq : stats.insertionSort (fun a b => a.offset ≤ b.offset) = sorted := by
    refine List.Perm.eq_of_pairwise ?_ (pairwise_insertionSort (fun a b => a.offset ≤ b.offset) stats)
      (hlt.imp le_of_lt) ((perm_insertionSort _ stats).trans hperm)
    intro a b ha hb hab hba
    have ha' : a ∈ sorted := hperm.subset ((perm_insertionSort _ stats).subset ha)
    by_contra hne
    have hdistinct : sorted.Pairwise fun a b => a.offset ≠ b.offset := hlt.imp ne_of_lt
    have : Std.Symm fun a b : OffsetCount => a.offset ≠ b.offset := ⟨fun _ _ h => h.symm⟩
    exact hdistinct.forall ha' hb hne (le_antisymm hab hba)
  rw [heq]
  exact hgroups

theorem trySplit_groups (heap : MaxHeap OffsetCount OffsetCount.count) (expected : Nat)
    (h : Groups ranges 0 stats) :
    Groups ranges 0 (trySplit heap stats expected) := by
  unfold trySplit
  split_ifs
  · exact h
  · have hsplit : GroupsPerm ranges
        (splitLargest heap halve (expected - stats.length) stats) := by
      refine splitLargest_induct ?_ ?_ _ ⟨stats, .refl _, h⟩
      · rintro l l' hperm ⟨sorted, hsorted, hgroups⟩
        exact ⟨sorted, hperm.symm.trans hsorted, hgroups⟩
      · intro top rest hsize htop
        exact htop.halve hsize
    exact hsplit.insertionSort

theorem Groups.sum_count (h : Groups ranges first stats) :
    first + (stats.map OffsetCount.count).sum = ranges.length := by
  obtain ⟨hchained, -⟩ := h
  induction stats generalizing first with
  | nil => exact hchained
  | cons stat stats ih =>
    obtain ⟨rfl, hrest⟩ := hchained
    have hsum : stat.offset + stat.count + (stats.map OffsetCount.count).sum = ranges.length := ih hrest
    rw [map_cons, sum_cons]
    omega

theorem le_length_trySplit (heap : MaxHeap OffsetCount OffsetCount.count) (expected : Nat)
    (h : Groups ranges 0 stats) :
    min expected ranges.length ≤ (trySplit heap stats expected).length := by
  unfold trySplit
  split_ifs with hexpected
  · exact (min_le_left _ _).trans hexpected
  · have hhalve : ∀ top : OffsetCount, 1 < top.count → 0 < (halve top).1.count ∧ 0 < (halve top).2.count ∧
        (halve top).1.count + (halve top).2.count = top.count := by
      intro top hsize
      simp only [halve]
      omega
    have hlen : min (stats.length + (expected - stats.length)) (stats.map OffsetCount.count).sum
        ≤ (splitLargest heap halve (expected - stats.length) stats).length :=
      le_length_splitLargest hhalve _ fun stat hstat => (h.2 stat hstat).pos
    have hsum := h.sum_count
    rw [length_insertionSort]
    refine le_trans ?_ hlen
    omega

/-! ## The merged ranges -/

theorem Groups.flatten_slice (h : Groups ranges first stats) :
    (stats.map (slice ranges)).flatten = ranges.drop first := by
  obtain ⟨hchained, hgroups⟩ := h
  induction stats generalizing first with
  | nil =>
    have hfirst : first = ranges.length := hchained
    simp [hfirst]
  | cons stat stats ih =>
    obtain ⟨rfl, hrest⟩ := hchained
    have hflat := ih hrest fun stat' hstat' => hgroups stat' (mem_cons_of_mem _ hstat')
    rw [map_cons, flatten_cons, hflat, ← drop_drop, slice, take_append_drop]

variable {stat : OffsetCount}

theorem IsGroup.slice_ne_nil (h : IsGroup ranges stat) : slice ranges stat ≠ [] := by
  obtain ⟨hpos, hbound, -⟩ := h
  have hlen : (slice ranges stat).length = stat.count := by
    rw [slice, length_take, length_drop]
    omega
  exact ne_nil_of_length_pos (by omega)

theorem IsGroup.getRange (h : IsGroup ranges stat) :
    ∃ n, getRange ranges stat
      = .ok (hull ((slice ranges stat).head h.slice_ne_nil) ((slice ranges stat).getLast h.slice_ne_nil) n) := by
  obtain ⟨hpos, hbound, -⟩ := id h
  have hne : ranges ≠ [] := ne_nil_of_length_pos (by omega)
  have hfirst : ranges[stat.offset]? = some ((slice ranges stat).head h.slice_ne_nil) := by
    rw [← head?_eq_some_head, slice, head?_take, if_neg hpos.ne', head?_drop]
  have hlast : ranges[stat.offset + stat.count - 1]? = some ((slice ranges stat).getLast h.slice_ne_nil) := by
    rw [← getLast?_eq_getLast_of_ne_nil, slice, getLast?_take, if_neg hpos.ne', getElem?_drop,
      Nat.add_sub_assoc hpos]
    rw [getElem?_eq_getElem (by omega), Option.some_or]
  refine ⟨(ranges.head hne).rowkeyColumnSize, ?_⟩
  rw [MergeRangeHelper.getRange, hfirst, hlast, List.head?_eq_some_head hne]
  rfl

theorem follows_of_genMergeStats (hsorted : SortedByStartEdge ranges) (hempty : EmptyAtEnd ranges)
    (h : genMergeStats ranges = .ok stats) : ranges.IsChain Follows := by
  cases ranges with
  | nil => exact isChain_nil
  | cons first rest =>
    have hgap := genMergeStatsFrom_gap h
    rw [isChain_iff_getElem] at hgap ⊢
    have hempty' := isChain_iff_getElem.1 hempty
    have hsorted' := isChain_iff_getElem.1 hsorted.isChain
    intro i hi
    have hle : (first :: rest)[i].start.value ≤ (first :: rest)[i + 1].start.value := by
      have hlt := hsorted' i hi
      unfold startEdgeLt at hlt
      split_ifs at hlt with heq
      · exact not_lt.1 (of_decide_eq_false hlt)
      · exact (not_not.1 heq).ge
    refine ⟨hle, hempty' i hi, ?_⟩
    rcases hgap i hi with (hnone | heq) | hlt
    · rw [← hempty' i hi hnone]
      exact of_decide_eq_true hnone
    · exact heq.le
    · exact hlt.le

/-- No key of `b` comes before one of `a`. -/
structure Before (a b : RowKeyRange c) : Prop where
  start : a.start.value ≤ b.start.value
  stop : a.stop.value ≤ b.stop.value
  gap : a.stop.value ≤ b.start.value

instance : IsTrans (RowKeyRange c) Before where
  trans _ _ _ hab hbc := ⟨hab.start.trans hbc.start, hab.stop.trans hbc.stop, hab.gap.trans hbc.start⟩

theorem pairwise_before (h : ranges.IsChain Follows) :
    ranges.Pairwise Before := by
  rw [← isChain_iff_pairwise]
  exact h.imp fun _ _ hab => ⟨hab.sorted, hab.stop_le, hab.gap⟩

variable {a b : RowKeyRange c}

theorem Before.disjoint (h : Before a b) (hb : b.AtMostInf) : a.Disjoint b := by
  rintro k ⟨hka, hkb⟩
  rw [check_iff] at hka hkb
  exact absurd (hka.2.trans_le (hb.start.pos_le_pos h.gap)) (not_lt.2 hkb.1)

theorem Before.startEdge (h : Before a b) : startEdgeLt b a = false := by
  unfold startEdgeLt
  split_ifs
  · exact decide_eq_false (not_lt.2 h.start)
  · exact decide_eq_false (not_lt.2 h.stop)

/-- A range that goes from the start of the first range of a group to the end of the last. -/
def IsHull (group : List (RowKeyRange c)) (range : RowKeyRange c) : Prop :=
  ∃ hne n, range = hull (group.head hne) (group.getLast hne) n

theorem IsHull.before {g₁ g₂ : List (RowKeyRange c)} (ha : IsHull g₁ a) (hb : IsHull g₂ b)
    (h : ∀ x ∈ g₁, ∀ y ∈ g₂, Before x y) : Before a b := by
  obtain ⟨hne₁, n₁, rfl⟩ := ha
  obtain ⟨hne₂, n₂, rfl⟩ := hb
  exact ⟨(h _ (head_mem hne₁) _ (head_mem hne₂)).start, (h _ (getLast_mem hne₁) _ (getLast_mem hne₂)).stop,
    (h _ (getLast_mem hne₁) _ (head_mem hne₂)).gap⟩

variable {result : List (RowKeyRange c)} {groups : List (List (RowKeyRange c))}

theorem pairwise_hulls (hhulls : List.Forall₂ IsHull groups result)
    (h : groups.Pairwise fun g₁ g₂ => ∀ x ∈ g₁, ∀ y ∈ g₂, Before x y) : result.Pairwise Before := by
  induction hhulls with
  | nil => exact List.Pairwise.nil
  | @cons group range groups result hhull hhulls ih =>
    rw [pairwise_cons] at h
    refine pairwise_cons.2 ⟨?_, ih h.2⟩
    intro range' hrange'
    obtain ⟨group', hgroup', hhull'⟩ := exists_of_forall₂ hhulls hrange'
    exact hhull.before hhull' (h.1 group' hgroup')

theorem IsHull.atMostInf {group : List (RowKeyRange c)} (h : IsHull group range)
    (hinf : ∀ r ∈ group, r.AtMostInf) : range.AtMostInf := by
  obtain ⟨hne, n, rfl⟩ := h
  exact ⟨(hinf _ (head_mem hne)).start, (hinf _ (getLast_mem hne)).stop⟩

theorem forall₂_hulls (hgroups : ∀ stat ∈ stats, IsGroup ranges stat)
    (h : getRanges ranges stats = .ok result) :
    List.Forall₂ IsHull (stats.map (slice ranges)) result := by
  have hforall := forall₂_of_mapM_eq_ok h
  rw [forall₂_map_left_iff]
  have hboth := (forall₂_and_left stats result).2 ⟨hgroups, hforall⟩
  refine List.Forall₂.imp ?_ hboth
  rintro stat range ⟨hgroup, hrange⟩
  obtain ⟨n, hget⟩ := hgroup.getRange
  rw [hget, ok.injEq] at hrange
  exact ⟨hgroup.slice_ne_nil, n, hrange.symm⟩

theorem union_hulls (hhulls : List.Forall₂ IsHull groups result)
    (hinf : ∀ group ∈ groups, ∀ range ∈ group, range.AtMostInf)
    (hfollows : ∀ group ∈ groups, group.IsChain Follows) (hglued : ∀ group ∈ groups, group.IsChain Glued)
    (k : RowKey c) :
    (∃ range ∈ result, range.check k = true) ↔ ∃ range ∈ groups.flatten, range.check k = true := by
  have hgroup : ∀ group ∈ groups, ∀ range, IsHull group range →
      (range.check k = true ↔ ∃ r ∈ group, r.check k = true) := by
    rintro group hmem range ⟨hne, n, rfl⟩
    obtain ⟨first, rest, rfl⟩ := exists_cons_of_ne_nil hne
    exact hull_check_group first rest (hinf _ hmem) (hfollows _ hmem) (hglued _ hmem) k
  constructor
  · rintro ⟨range, hrange, hk⟩
    obtain ⟨group, hmem, hhull⟩ := exists_of_forall₂ hhulls hrange
    obtain ⟨r, hr, hk'⟩ := (hgroup group hmem range hhull).1 hk
    exact ⟨r, mem_flatten.2 ⟨group, hmem, hr⟩, hk'⟩
  · rintro ⟨r, hr, hk⟩
    obtain ⟨group, hmem, hr⟩ := mem_flatten.1 hr
    obtain ⟨range, hrange, hhull⟩ := exists_of_forall₂' hhulls hmem
    exact ⟨range, hrange, (hgroup group hmem range hhull).2 ⟨r, hr, hk⟩⟩

theorem merged_of_groups {expected : Nat} (hinf : ∀ range ∈ ranges, range.AtMostInf)
    (hfollows : ranges.IsChain Follows) (hgroups : Groups ranges 0 stats)
    (hcount : min expected ranges.length ≤ stats.length)
    (h : getRanges ranges stats = .ok result) : Merged expected ranges result := by
  have hhulls := forall₂_hulls hgroups.2 h
  have hflatten : (stats.map (slice ranges)).flatten = ranges := by
    rw [hgroups.flatten_slice, drop_zero]
  have hmem : ∀ group ∈ stats.map (slice ranges), ∀ range ∈ group, range ∈ ranges := by
    intro group hgroup range hrange
    rw [← hflatten]
    exact mem_flatten.2 ⟨group, hgroup, hrange⟩
  have hbefore : result.Pairwise Before := by
    have hall := pairwise_before hfollows
    rw [← hflatten, pairwise_flatten] at hall
    exact pairwise_hulls hhulls hall.2
  have hinf' : ∀ range ∈ result, range.AtMostInf := by
    intro range hrange
    obtain ⟨group, hgroup, hhull⟩ := exists_of_forall₂ hhulls hrange
    exact hhull.atMostInf fun r hr => hinf r (hmem group hgroup r hr)
  constructor
  · exact hbefore.imp fun hab => hab.startEdge
  · exact hbefore.imp_of_mem fun _ hb hab => hab.disjoint (hinf' _ hb)
  · intro k
    have hslice : ∀ group ∈ stats.map (slice ranges), ∃ stat ∈ stats, slice ranges stat = group :=
      fun group hgroup => mem_map.1 hgroup
    rw [union_hulls hhulls (fun group hgroup r hr => hinf r (hmem group hgroup r hr)) ?_ ?_ k, hflatten]
    · intro group hgroup
      obtain ⟨stat, -, rfl⟩ := hslice group hgroup
      exact (hfollows.drop _).take _
    · intro group hgroup
      obtain ⟨stat, hstat, rfl⟩ := hslice group hgroup
      exact (hgroups.2 stat hstat).glued
  · intro _
    have hlen := hhulls.length_eq
    rw [length_map] at hlen
    omega

/-! ## `tryMergeRanges` -/

theorem merged_self (h : ranges.length ≤ 1) (expected : Nat) :
    Merged expected ranges ranges := by
  have hpairwise : ∀ R : RowKeyRange c → RowKeyRange c → Prop, ranges.Pairwise R := by
    intro R
    rcases ranges with _ | ⟨range, _ | ⟨next, rest⟩⟩
    · exact List.Pairwise.nil
    · exact pairwise_singleton R range
    · simp at h
  exact ⟨hpairwise _, hpairwise _, fun _ => Iff.rfl, fun _ => min_le_right _ _⟩

/-- Ranges that are not empty, none of which begins before the one before it ends, are merged. -/
theorem exists_tryMergeRanges (heap : MaxHeap OffsetCount OffsetCount.count) (expected : Nat)
    (hsorted : SortedByStartEdge ranges) (hproper : ∀ range ∈ ranges, range.none = false)
    (hinf : ∀ range ∈ ranges, range.AtMostInf)
    (hgap : ranges.IsChain fun prev current => prev.stop.value ≤ current.start.value) :
    ∃ result, tryMergeRanges heap ranges expected = .ok result ∧ Merged expected ranges result := by
  by_cases hlen : ranges.length ≤ 1
  · exact ⟨ranges, by rw [tryMergeRanges, if_pos hlen], merged_self hlen expected⟩
  obtain ⟨first, rest, rfl⟩ := exists_cons_of_ne_nil (show ranges ≠ [] by rintro rfl; simp at hlen)
  obtain ⟨stats, hstats⟩ := exists_genMergeStatsFrom 1 0 1 hgap
  have hgroups := trySplit_groups heap expected
    (genMergeStats_groups (cons_ne_nil _ _) hstats)
  obtain ⟨result, hresult, -⟩ := exists_forall₂_mapM_eq_ok (R := fun _ _ => True)
    fun stat hstat => (hgroups.2 stat hstat).getRange.elim fun _ hget => ⟨_, hget, trivial⟩
  refine ⟨result, ?_, merged_of_groups hinf ?_ hgroups (le_length_trySplit heap expected
    (genMergeStats_groups (cons_ne_nil _ _) hstats)) hresult⟩
  · rw [tryMergeRanges, if_neg hlen]
    exact bind_eq_ok_iff.2 ⟨stats, hstats, hresult⟩
  · refine follows_of_genMergeStats hsorted ?_ hstats
    rw [EmptyAtEnd, isChain_iff_getElem]
    intro i hi hnone
    exact absurd ((hproper _ (getElem_mem _)).symm.trans hnone) Bool.false_ne_true

/-- If every empty range ends where the range before it ends, and none of several ranges has an end behind
"+infinity", merging keeps the keys, for every heap. -/
theorem tryMergeRanges_merged (heap : MaxHeap OffsetCount OffsetCount.count) {expected : Nat}
    {ranges result : List (RowKeyRange c)} (hsorted : SortedByStartEdge ranges)
    (hempty : EmptyAtEnd ranges) (hinf : 1 < ranges.length → ∀ range ∈ ranges, range.AtMostInf)
    (h : tryMergeRanges heap ranges expected = .ok result) : Merged expected ranges result := by
  unfold tryMergeRanges at h
  split_ifs at h with hlen
  · rw [ok.injEq] at h
    subst h
    exact merged_self hlen expected
  · obtain ⟨stats, hstats, h⟩ := bind_eq_ok_iff.1 h
    have hgroups := genMergeStats_groups (by rintro rfl; simp at hlen) hstats
    exact merged_of_groups (hinf (not_le.1 hlen)) (follows_of_genMergeStats hsorted hempty hstats)
      (trySplit_groups heap expected hgroups) (le_length_trySplit heap expected hgroups) h

/-- Handles from `start` to `stop` -/
def intRange (start stop : HandleID) : RowKeyRange false := ⟨.ofKey (.int start), .ofKey (.int stop), 1⟩

/-- Two ranges that touch, with an empty one between them, and one behind a gap. -/
theorem merged_touching : ∃ result, tryMergeRanges (MaxHeap.first OffsetCount.count)
      [intRange ⟨1, by decide⟩ ⟨3, by decide⟩, intRange ⟨3, by decide⟩ ⟨3, by decide⟩,
        intRange ⟨3, by decide⟩ ⟨5, by decide⟩, intRange ⟨7, by decide⟩ ⟨9, by decide⟩] 3 = .ok result ∧
    Merged 3 [intRange ⟨1, by decide⟩ ⟨3, by decide⟩, intRange ⟨3, by decide⟩ ⟨3, by decide⟩,
      intRange ⟨3, by decide⟩ ⟨5, by decide⟩, intRange ⟨7, by decide⟩ ⟨9, by decide⟩] result := by
  obtain ⟨result, h⟩ : ∃ result, tryMergeRanges (MaxHeap.first OffsetCount.count)
      [intRange ⟨1, by decide⟩ ⟨3, by decide⟩, intRange ⟨3, by decide⟩ ⟨3, by decide⟩,
        intRange ⟨3, by decide⟩ ⟨5, by decide⟩, intRange ⟨7, by decide⟩ ⟨9, by decide⟩] 3 = .ok result :=
    ⟨_, rfl⟩
  refine ⟨result, h, tryMergeRanges_merged _ (by decide) (by decide) (fun _ => ?_) h⟩
  simp only [forall_mem_cons]
  refine ⟨⟨?_, ?_⟩, ⟨?_, ?_⟩, ⟨?_, ?_⟩, ⟨?_, ?_⟩, by simp⟩ <;>
    exact (encodeInt64_lt_intHandleMaxKeyValue _).le

/-- An empty range in the middle of another one: the keys from there on are lost. -/
theorem merge_loses_keys : ∃ ranges result : List (RowKeyRange false), ∃ k,
    SortedByStartEdge ranges ∧ tryMergeRanges (MaxHeap.first OffsetCount.count) ranges 1 = .ok result ∧
      (∃ range ∈ ranges, range.check k = true) ∧ ¬ ∃ range ∈ result, range.check k = true := by
  refine ⟨[intRange ⟨1, by decide⟩ ⟨10, by decide⟩, intRange ⟨3, by decide⟩ ⟨3, by decide⟩], _,
    .int ⟨5, by decide⟩, by decide, rfl, ?_, ?_⟩
  · exact ⟨_, mem_cons_self, by decide⟩
  · rintro ⟨range, hrange, hk⟩
    rw [mem_singleton.1 hrange] at hk
    revert hk
    decide

end TiFlash.DM
