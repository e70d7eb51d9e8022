import TiFlash.DM.Proofs.ReadTasksCoverProofs
import TiFlash.DM.Proofs.SegmentStepProofs

/-!
# Proofs: a query reads every key once

The ranges of a query come in any order. Sorted and merged, they are ranges that read tasks can be made from.
-/

namespace TiFlash.DM

open TiFlash.Lib List Except MergeRangeHelper RowKeyRange

variable {c : Bool} {n : Nat} {ranges result : List (RowKeyRange c)}

theorem sorted_sortRangesByStartEdge : SortedByStartEdge (sortRangesByStartEdge ranges) := by
  let r : RowKeyRange c → RowKeyRange c → Prop := fun lhs rhs => ¬ startEdgeLt rhs lhs
  have : Std.Total r := ⟨fun a b => by grind [startEdgeLt]⟩
  have : IsTrans _ r := ⟨fun a b d => by grind [startEdgeLt]⟩
  exact (pairwise_insertionSort r ranges).imp fun h => Bool.not_eq_true _ ▸ h

theorem Before.not_intersect {a b : RowKeyRange c} (h : Before a b) : a.intersect b = false := by
  cases h
  grind [intersect, shrink]

theorem pairwise_before_sorted (hproper : ∀ range ∈ ranges, range.none = false)
    (hdisjoint : ranges.Pairwise fun a b => a.intersect b = false) :
    (sortRangesByStartEdge ranges).Pairwise Before := by
  have hperm : (sortRangesByStartEdge ranges).Perm ranges := perm_insertionSort _ ranges
  have hapart : ranges.Pairwise fun a b => a.stop.value ≤ b.start.value ∨ b.stop.value ≤ a.start.value :=
    hdisjoint.imp_of_mem fun ha hb hab => le_of_not_intersect hab (hproper _ ha) (hproper _ hb)
  have hsorted := hapart.perm hperm.symm Or.symm
  refine (hsorted.and sorted_sortRangesByStartEdge).imp_of_mem fun {a b} _ hb hab => ?_
  have hle := none_eq_false_iff.1 (hproper b (hperm.subset hb))
  have hstart : a.start.value ≤ b.start.value := by grind [startEdgeLt]
  rcases hab.1 with hgap | hgap
  · exact ⟨hstart, by order, hgap⟩
  · order

section

variable (hbefore : ranges.Pairwise Before) (hproper : ∀ range ∈ ranges, range.none = false)
include hbefore hproper

theorem IsHull.none_of_sublist {group : List (RowKeyRange c)} {range : RowKeyRange c} (h : IsHull group range)
    (hsub : group.Sublist ranges) : range.none = false := by
  obtain ⟨hne, m, rfl⟩ := h
  obtain ⟨first, rest, rfl⟩ := exists_cons_of_ne_nil hne
  have hfirst := none_eq_false_iff.1 (hproper first (hsub.subset mem_cons_self))
  refine none_eq_false_iff.2 (hfirst.trans_le ?_)
  show first.stop.value ≤ ((first :: rest).getLast hne).stop.value
  rcases mem_cons.1 (getLast_mem hne) with hlast | hlast
  · rw [hlast]
  · exact ((pairwise_cons.1 (hbefore.sublist hsub)).1 _ hlast).stop

theorem tryMergeRanges_query (hinside : ∀ range ∈ ranges, range.Inside n)
    {heap : MaxHeap OffsetCount OffsetCount.count} {expected : Nat}
    (h : tryMergeRanges heap ranges expected = .ok result) :
    QueryRanges n result ∧ (∀ range ∈ result, range.none = false) ∧ (result = [] → ranges = []) := by
  unfold tryMergeRanges at h
  split_ifs at h with hlen
  · cases h
    exact ⟨⟨hbefore.imp Before.startEdge, hinside, hbefore.imp Before.not_intersect⟩, hproper, id⟩
  · obtain ⟨stats, hstats, h⟩ := bind_eq_ok_iff.1 h
    have hgroups := trySplit_groups heap expected (genMergeStats_groups (by rintro rfl; simp at hlen) hstats)
    have hhulls := forall₂_hulls hgroups.2 h
    have hflatten : _ = ranges := hgroups.flatten_slice
    have hresult : result.Pairwise Before := by
      rw [← hflatten, pairwise_flatten] at hbefore
      exact pairwise_hulls hhulls hbefore.2
    have hall : ∀ range ∈ result, range.Inside n ∧ range.none = false := by
      intro range hrange
      obtain ⟨group, hgroup, hhull⟩ := exists_of_forall₂ hhulls hrange
      have hsub : group.Sublist ranges := hflatten ▸ sublist_flatten_of_mem hgroup
      refine ⟨?_, hhull.none_of_sublist hbefore hproper hsub⟩
      obtain ⟨hne, m, rfl⟩ := hhull
      have hfirst := hinside _ (hsub.subset (head_mem hne))
      exact ⟨hfirst.start_ge, hfirst.start_le, (hinside _ (hsub.subset (getLast_mem hne))).stop_le⟩
    refine ⟨⟨hresult.imp Before.startEdge, fun range hrange => (hall range hrange).1,
      hresult.imp Before.not_intersect⟩, fun range hrange => (hall range hrange).2, ?_⟩
    rintro rfl
    rw [forall₂_nil_right_iff.1 hhulls] at hflatten
    exact hflatten.symm

end

theorem emptyApart_of_none (hquery : QueryRanges n ranges) (hnone : ∀ range ∈ ranges, range.none = false)
    (hne : ranges ≠ []) {segs : List (Segment c)} : EmptyApart n segs ranges := by
  obtain ⟨first, rest, rfl⟩ := exists_cons_of_ne_nil hne
  refine ⟨⟨first, rfl, (RowKeyValue.compare_neg_iff _ _).2 ?_⟩, hquery.disjoint.imp_of_mem fun hempty _ _ h => ?_⟩
  · calc first.start.pos ≤ first.start.value := RowKeyValue.pos_le_value _
      _ < first.stop.value := none_eq_false_iff.1 (hnone first mem_cons_self)
      _ ≤ (newAll c n).stop.value := (hquery.inside first mem_cons_self).stop_le
      _ = (newAll c n).stop.pos := (canonical_newAll c n).stop.symm
  · simp [hnone _ hempty] at h

/-- In every state that a store can reach, the tasks for a query read each key of its ranges once, in whatever
order the ranges come and however they are merged and split. -/
theorem query_reads_once (hn : 0 < n) {s : StoreSystem c} (hs : StoreSystem.Reachable n s) (hne : ranges ≠ [])
    (hproper : ∀ range ∈ ranges, range.none = false) (hinside : ∀ range ∈ ranges, range.Inside n)
    (hdisjoint : ranges.Pairwise fun a b => a.intersect b = false)
    (heap : MaxHeap OffsetCount OffsetCount.count) (taskHeap : MaxHeap (SegmentReadTask c) (·.ranges.length))
    (expectedRanges expectedTasks : Nat) : ∃ merged, getQueryRanges heap ranges n expectedRanges = .ok merged ∧
      CoversQuery n (getReadTasksByRanges taskHeap heap s.store.segments merged expectedTasks []) ranges := by
  have hinv := (storeSystemInv_of_reachable hn hs).store
  have hperm : (sortRangesByStartEdge ranges).Perm ranges := perm_insertionSort _ ranges
  have hbefore := pairwise_before_sorted hproper hdisjoint
  simp only [← hperm.mem_iff] at hproper hinside
  obtain ⟨merged, hmerged, hmerge⟩ := exists_tryMergeRanges heap expectedRanges sorted_sortRangesByStartEdge
    hproper (fun range hrange => (hinside range hrange).atMostInf) (hbefore.imp Before.gap).isChain
  obtain ⟨hquery, hnone, hnil⟩ := tryMergeRanges_query hbefore hproper hinside hmerged
  have hne' : merged ≠ [] := fun h => hne (hnil h ▸ hperm).nil_eq.symm
  obtain ⟨tasks, htasks, hreads⟩ := covers_of_emptyApart taskHeap heap expectedTasks hinv.tilesKeySpace hquery
    (emptyApart_of_none hquery hnone hne')
  refine ⟨merged, ?_, tasks, hinv.segments ▸ htasks, fun k hk => ?_⟩
  · -- a single range is returned as it is
    rcases ranges with _ | ⟨range, _ | ⟨next, rest⟩⟩
    · exact absurd rfl hne
    all_goals exact hmerged
  · rw [← hreads k hk, hmerge.union k]
    simp only [hperm.mem_iff]

/-- Two ranges in descending order, of a new store. -/
theorem query_reads_once_new :
    ∃ merged, getQueryRanges (MaxHeap.first _) [intRange 7 9, intRange 1 3] 1 4 = .ok merged ∧
      CoversQuery 1 (getReadTasksByRanges (MaxHeap.first _) (MaxHeap.first _) (DeltaMergeStore.create 1).segments
        merged 4 []) [intRange 7 9, intRange 1 3] := by
  refine query_reads_once Nat.one_pos .create (by simp) (by decide) ?_ (by decide) _ _ _ _
  exact forall_mem_cons.2 ⟨⟨by decide, by decide, by decide⟩,
    forall_mem_singleton.2 ⟨by decide, by decide, by decide⟩⟩

end TiFlash.DM
