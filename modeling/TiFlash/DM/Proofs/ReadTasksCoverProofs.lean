import TiFlash.DM.Proofs.ReadTasksProofs

/-!
# The tasks of a read cover the query

The sweep begins at the segment that has the start of the first range. Its tasks are of different segments,
so no key is read twice; splitting a task and merging its ranges keep the keys.
-/

namespace TiFlash.DM

open TiFlash.Lib List RowKeyRange RowKeyValue Bool EndRef

variable {c : Bool} {n : Nat}

/-! ## Keys and segments -/

namespace TilesKeySpace

variable {segs : List (Segment c)} (h : TilesKeySpace n segs)

include h

variable {k : RowKey c}

theorem eq_of_check {a b : Segment c} (ha : a ∈ segs) (hb : b ∈ segs) (hka : a.range.check k = true)
    (hkb : b.range.check k = true) : a = b := by
  have hpair : segs.Pairwise fun x y => x.range.stop.pos ≤ y.range.start.pos :=
    Chained.pairwise h.chained fun x hx => h.pos_lt hx
  have hapart : segs.Pairwise fun x y => ¬ (x.range.check k = true ∧ y.range.check k = true) := by
    refine hpair.imp fun {x y} hle hboth => ?_
    rw [check_iff, check_iff] at hboth
    exact absurd (hboth.1.2.trans_le (hle.trans hboth.2.1)) (lt_irrefl _)
  have hsymm : Std.Symm fun x y : Segment c => ¬ (x.range.check k = true ∧ y.range.check k = true) :=
    ⟨fun _ _ hxy hyx => hxy hyx.symm⟩
  by_contra hne
  exact hapart.forall ha hb hne ⟨hka, hkb⟩

theorem exists_check (hk : (newAll c n).check k = true) :
    ∃ seg ∈ segs, seg.range.check k = true := by
  rw [check_iff] at hk
  obtain ⟨passed, seg, rest, rfl, hge, hlt, -⟩ := Chained.exists_mem h.chained hk.1 hk.2
  exact ⟨seg, mem_append_right _ mem_cons_self, (check_iff _ _).2 ⟨hge, hlt⟩⟩

variable {seg : Segment c}

theorem pos_bounds (hseg : seg ∈ segs) :
    (newAll c n).start.pos ≤ seg.range.start.pos ∧ seg.range.stop.pos ≤ (newAll c n).stop.pos :=
  h.chained.bounds (v := pos) (fun _ hx => h.pos_lt hx) hseg

theorem check_newAll (hseg : seg ∈ segs) (hk : seg.range.check k = true) :
    (newAll c n).check k = true := by
  rw [check_iff] at hk ⊢
  exact ⟨(h.pos_bounds hseg).1.trans hk.1, hk.2.trans_le (h.pos_bounds hseg).2⟩

variable {first : RowKeyRange c}

/-- `upper_bound` of the start of a range that begins before the end of the key space. -/
theorem locate (hfirst : first.Inside n) (hlt : first.start.pos < (newAll c n).stop.pos) : ∃ passed seg rest,
      segs = passed ++ seg :: rest ∧ seg.range.start.pos ≤ first.start.pos ∧
      (∀ p ∈ passed, p.range.stop.pos ≤ first.start.pos) ∧
      (segs.map Segment.entry).dropWhile (fun e => !lt ⟨none, first.start.toRowKeyValueRef⟩ e.1)
        = (seg :: rest).map Segment.entry := by
  have hge : (newAll c n).start.pos ≤ first.start.pos := hfirst.atMostInf.start.pos_le_pos hfirst.start_ge
  obtain ⟨passed, seg, rest, rfl, hstart, hstop, hpassed⟩ := Chained.exists_mem h.chained hge hlt
  refine ⟨passed, seg, rest, rfl, hstart, hpassed, ?_⟩
  have hkeep : (fun e : EndRef c × Segment c => !lt ⟨none, first.start.toRowKeyValueRef⟩ e.1) seg.entry
      = false := by
    simp only [not_eq_false', lt, decide_eq_true_eq]
    exact (compare_neg_iff _ _).2 hstop
  rw [map_append, map_cons, dropWhile_append_of_pos, dropWhile_cons_of_neg]
  · exact not_eq_true _ ▸ hkeep
  · intro e he
    obtain ⟨p, hp, rfl⟩ := mem_map.1 he
    simp only [not_eq_true', lt, decide_eq_false_iff_not]
    exact fun hneg => absurd ((compare_neg_iff _ _).1 hneg) (not_lt.2 (hpassed p hp))

theorem locate_eq_nil (hle : (newAll c n).stop.pos ≤ first.start.pos) :
    (segs.map Segment.entry).dropWhile (fun e => !lt ⟨none, first.start.toRowKeyValueRef⟩ e.1) = [] := by
  rw [dropWhile_eq_nil_iff]
  intro e he
  obtain ⟨p, hp, rfl⟩ := mem_map.1 he
  have hbound := (h.pos_bounds hp).2
  simp only [not_eq_true', lt, decide_eq_false_iff_not]
  exact fun hneg => absurd ((compare_neg_iff _ _).1 hneg) (not_lt.2 (hbound.trans hle))

end TilesKeySpace

/-! ## The tasks of the sweep -/

section Sweep

variable {all : List (RowKeyRange c)} {segs passed rest : List (Segment c)} {seg : Segment c}

section

variable (htiles : TilesKeySpace n segs)
include htiles

theorem sweep_tasks (hsegs : segs = passed ++ rest) :
    ((sweep [] all rest []).map (·.segment.inst)).Nodup ∧
      ∀ task ∈ sweep [] all rest [], TaskOk all segs task := by
  have hinit : SweepShape all segs all rest [] :=
    ⟨nodup_nil, by simp, ⟨passed, hsegs.symm⟩, ⟨[], rfl, by simp⟩, by simp, by simp, by simp⟩
  obtain ⟨_, _, -, hend⟩ := sweep_induct (P := SweepShape all segs)
    (fun _ _ _ _ _ _ _ _ hstep h => h.step htiles hstep) hinit
  exact ⟨hend.nodup, hend.task⟩

theorem has_sweep (hquery : QueryRanges n all) (hapart : all.Pairwise (ApartFrom segs))
    (hsegs : segs = passed ++ seg :: rest) {first : RowKeyRange c} (hfirst : first ∈ all.head?)
    (hstart : seg.range.start.pos ≤ first.start.pos)
    (hpassed : ∀ p ∈ passed, p.range.stop.pos ≤ first.start.pos) {range : RowKeyRange c}
    (hrange : range ∈ all) {p : Segment c} (hp : p ∈ segs) {k : RowKey c} (hk : range.check k = true)
    (hkp : p.range.check k = true) : Has (sweep [] all (seg :: rest) []) p range := by
  obtain ⟨others, rfl⟩ : ∃ others, all = first :: others := List.head?_eq_some_iff.1 hfirst
  have hfirst_le : ∀ r ∈ first :: others, first.start.pos ≤ r.start.pos := by
    exact forall_mem_cons.2 ⟨le_rfl, fun r hr => hquery.start_pos_le hr⟩
  have hshape : SweepShape (first :: others) segs (first :: others) (seg :: rest) [] :=
    ⟨nodup_nil, by simp, ⟨passed, hsegs.symm⟩, ⟨[], rfl, by simp⟩, by simp, by simp, by simp⟩
  have hcovers : SweepCovers (first :: others) segs (newAll c n).stop (first :: others)
      (seg :: rest) [] := by
    refine ⟨fun r hr q hq k hk hkq => .inr ⟨hr, ?_⟩, ?_⟩
    · rw [hsegs] at hq
      rcases mem_append.1 hq with hq | hq
      · rw [check_iff] at hk hkq
        exact absurd (hkq.2.trans_le ((hpassed q hq).trans ((hfirst_le r hr).trans hk.1))) (lt_irrefl _)
      · exact hq
    · obtain ⟨start, -, hchained⟩ := chained_append.1 (hsegs ▸ htiles.chained)
      refine ⟨start, hchained, fun r hr hlt => ?_⟩
      rw [← (chained_cons.1 hchained).1]
      exact (hstart.trans (hfirst_le r hr)).trans_lt hlt
  obtain ⟨ranges', rest', hdone, -, hend⟩ := sweep_induct
    (P := fun ranges rest tasks => SweepShape (first :: others) segs ranges rest tasks ∧
      SweepCovers (first :: others) segs (newAll c n).stop ranges rest tasks)
    (fun _ _ _ _ _ _ _ _ hstep h =>
      ⟨h.1.step htiles hstep, h.2.step htiles hquery hapart hstep h.1⟩) ⟨hshape, hcovers⟩
  rcases hend.covers range hrange p hp k hk hkp with hhas | ⟨hin, hleft⟩
  · exact hhas
  · rcases hdone with rfl | rfl
    · cases hin
    · cases hleft

theorem countP_reads_eq_one_iff {tasks : List (SegmentReadTask c)}
    (hnodup : (tasks.map (·.segment.inst)).Nodup) (hknown : ∀ task ∈ tasks, task.segment ∈ segs)
    (k : RowKey c) : tasks.countP (·.reads k) = 1 ↔ ∃ task ∈ tasks, task.reads k = true := by
  have hle : tasks.countP (·.reads k) ≤ 1 := by
    induction tasks with
    | nil => simp
    | cons task tasks ih =>
      rw [map_cons, nodup_cons] at hnodup
      have hrest := ih hnodup.2 fun t ht => hknown t (mem_cons_of_mem _ ht)
      rw [countP_cons]
      split_ifs with hk
      · have hzero : tasks.countP (·.reads k) = 0 := by
          rw [countP_eq_zero]
          intro other hother hk'
          simp only [SegmentReadTask.reads, and_eq_true] at hk hk'
          have hsame := htiles.eq_of_check (hknown task mem_cons_self)
            (hknown other (mem_cons_of_mem _ hother)) hk.1 hk'.1
          exact hnodup.1 (hsame ▸ mem_map_of_mem hother)
        omega
      · exact hrest
  have hpos : 0 < tasks.countP (·.reads k) ↔ ∃ task ∈ tasks, task.reads k = true := countP_pos_iff
  rw [← hpos]
  omega

end

end Sweep

/-! ## Splitting and merging -/

section Pieces

variable {all : List (RowKeyRange c)}

/-- The ranges of a task are some of the query, and none is empty. -/
structure Piece (all : List (RowKeyRange c)) (task : SegmentReadTask c) : Prop where
  sublist : task.ranges.Sublist all
  proper : ∀ range ∈ task.ranges, range.none = false

theorem QueryRanges.pairwise_disjoint (h : QueryRanges n all) : all.Pairwise RowKeyRange.Disjoint := by
  refine h.disjoint.imp_of_mem fun {a b} ha hb hab k hk => ?_
  have hka := (check_iff a k).1 hk.1
  have hkb := (check_iff b k).1 hk.2
  have hmeets := intersect_of_pos (h.inside a ha).atMostInf (h.inside b hb).atMostInf
    (hka.1.trans_lt hka.2) (hka.1.trans_lt hkb.2) (hkb.1.trans_lt hka.2) (hkb.1.trans_lt hkb.2)
  rw [hab] at hmeets
  cases hmeets

variable {task : SegmentReadTask c}

theorem countP_halve (hquery : QueryRanges n all) (htask : Piece all task)
    (k : RowKey c) (rest : List (SegmentReadTask c)) :
    (task.halve.1 :: task.halve.2 :: rest).countP (·.reads k) = (task :: rest).countP (·.reads k) := by
  have hsplit := take_append_drop (task.ranges.length / 2) task.ranges
  have hany : task.ranges.any (·.check k)
      = ((task.ranges.take (task.ranges.length / 2)).any (·.check k) ||
        (task.ranges.drop (task.ranges.length / 2)).any (·.check k)) := by
    rw [← any_append, hsplit]
  have hnot : ¬ ((task.ranges.take (task.ranges.length / 2)).any (·.check k) = true ∧
      (task.ranges.drop (task.ranges.length / 2)).any (·.check k) = true) := by
    rintro ⟨hleft, hright⟩
    obtain ⟨a, ha, hka⟩ := any_eq_true.1 hleft
    obtain ⟨b, hb, hkb⟩ := any_eq_true.1 hright
    have hpair := hquery.pairwise_disjoint.sublist htask.sublist
    rw [← hsplit] at hpair
    exact (pairwise_append.1 hpair).2.2 a ha b hb k ⟨hka, hkb⟩
  simp only [countP_cons, SegmentReadTask.reads, SegmentReadTask.halve, hany, and_eq_true, or_eq_true]
  by_cases hseg : task.segment.range.check k = true
  · split_ifs <;> first | omega | tauto
  · simp [hseg]

variable {tasks : List (SegmentReadTask c)}

theorem trySplitReadTasks_spec (heap : MaxHeap (SegmentReadTask c) (·.ranges.length))
    (hquery : QueryRanges n all) (htasks : ∀ task ∈ tasks, Piece all task)
    (expected : Nat) :
    (∀ task ∈ SegmentReadTask.trySplitReadTasks heap tasks expected, Piece all task) ∧
      ∀ k, (SegmentReadTask.trySplitReadTasks heap tasks expected).countP (·.reads k)
        = tasks.countP (·.reads k) := by
  unfold SegmentReadTask.trySplitReadTasks
  split_ifs
  · exact ⟨htasks, fun _ => rfl⟩
  have hsplit : ∀ m, (∀ task ∈ splitLargest heap SegmentReadTask.halve m tasks, Piece all task) ∧
      ∀ k, (splitLargest heap SegmentReadTask.halve m tasks).countP (·.reads k)
        = tasks.countP (·.reads k) := by
    intro m
    refine splitLargest_induct (P := fun l => (∀ task ∈ l, Piece all task) ∧
      ∀ k, l.countP (·.reads k) = tasks.countP (·.reads k)) ?_ ?_ m ⟨htasks, fun _ => rfl⟩
    · intro l l' hperm hl
      exact ⟨fun task htask => hl.1 task (hperm.symm.subset htask),
        fun k => (hperm.countP_eq _).symm.trans (hl.2 k)⟩
    · intro task rest _ hl
      have htask := hl.1 task mem_cons_self
      refine ⟨?_, fun k => (countP_halve hquery htask k rest).trans (hl.2 k)⟩
      simp only [forall_mem_cons]
      refine ⟨⟨(take_sublist _ _).trans htask.sublist, ?_⟩,
        ⟨(drop_sublist _ _).trans htask.sublist, ?_⟩, fun t ht => hl.1 t (mem_cons_of_mem _ ht)⟩
      · exact fun range hrange => htask.proper range (mem_of_mem_take hrange)
      · exact fun range hrange => htask.proper range (mem_of_mem_drop hrange)
  have hperm := heap.drain_perm
  exact ⟨fun task htask => (hsplit _).1 task ((hperm _ _).subset htask),
    fun k => ((hperm _ _).countP_eq _).trans ((hsplit _).2 k)⟩

section

variable (heap : MaxHeap OffsetCount OffsetCount.count) (hquery : QueryRanges n all)
include heap hquery

theorem mergeRanges_spec (htask : Piece all task) :
    ∃ task', task.mergeRanges heap = .ok task' ∧ ∀ k, task'.reads k = task.reads k := by
  have hsub := hquery.sublist htask.sublist
  have hgap : task.ranges.IsChain fun prev current => prev.stop.value ≤ current.start.value := by
    refine List.Pairwise.isChain (hsub.gap.imp_of_mem fun {a b} ha hb hab => ?_)
    exact hab (htask.proper a ha) (htask.proper b hb)
  obtain ⟨result, hresult, hmerged⟩ := exists_tryMergeRanges heap 1 hsub.sorted htask.proper
    (fun range hrange => (hsub.inside range hrange).atMostInf) hgap
  refine ⟨{ task with ranges := result }, ?_, fun k => ?_⟩
  · unfold SegmentReadTask.mergeRanges
    rw [hresult]
    rfl
  · have hunion := hmerged.union k
    rw [← any_eq_true, ← any_eq_true, ← Bool.eq_iff_iff] at hunion
    unfold SegmentReadTask.reads
    rw [hunion]

theorem mergeTaskRanges_spec (htasks : ∀ task ∈ tasks, Piece all task) :
    ∃ result, mergeTaskRanges heap tasks = .ok result ∧
      ∀ k, result.countP (·.reads k) = tasks.countP (·.reads k) := by
  obtain ⟨result, hresult, hreads⟩ := Except.exists_forall₂_mapM_eq_ok
    fun task htask => mergeRanges_spec heap hquery (htasks task htask)
  refine ⟨result, by rw [mergeTaskRanges, hresult], fun k => ?_⟩
  have hmap : result.map (·.reads k) = tasks.map (·.reads k) := map_eq_of_forall₂ hreads fun _ _ hab => hab k
  have hcount : ∀ l : List (SegmentReadTask c), l.countP (·.reads k) = (l.map (·.reads k)).countP id :=
    fun l => by rw [countP_map]; rfl
  rw [hcount, hcount, hmap]

end

end Pieces

/-! ## The tasks of a read -/

section Read

variable (taskHeap : MaxHeap (SegmentReadTask c) (·.ranges.length))
  (heap : MaxHeap OffsetCount OffsetCount.count) (expected : Nat)
  {segs passed rest : List (Segment c)} {seg : Segment c} {ranges : List (RowKeyRange c)}

theorem exists_readTasks (htiles : TilesKeySpace n segs) (hquery : QueryRanges n ranges)
    {first : RowKeyRange c} (hfirst : first ∈ ranges.head?) (hsegs : segs = passed ++ seg :: rest)
    (hlocated : (segs.map Segment.entry).dropWhile
      (fun e => !lt ⟨none, first.start.toRowKeyValueRef⟩ e.1) = (seg :: rest).map Segment.entry) :
    ∃ tasks, getReadTasksByRanges taskHeap heap (segs.map Segment.entry) ranges expected [] = .ok tasks ∧
      ∀ k, tasks.countP (·.reads k) = (sweep [] ranges (seg :: rest) []).countP (·.reads k) := by
  obtain ⟨others, rfl⟩ := List.head?_eq_some_iff.1 hfirst
  have hpieces : ∀ task ∈ (sweep [] (first :: others) (seg :: rest) []).reverse,
      Piece (first :: others) task := by
    intro task htask
    have hok := (sweep_tasks htiles hsegs).2 task (mem_reverse.1 htask)
    exact ⟨hok.sublist, hok.proper⟩
  obtain ⟨hsplit, hcount⟩ := trySplitReadTasks_spec taskHeap hquery hpieces expected
  obtain ⟨tasks, htasks, hreads⟩ := mergeTaskRanges_spec heap hquery hsplit
  refine ⟨tasks, ?_, fun k => ?_⟩
  · have hsnd : ((seg :: rest).map Segment.entry).map (·.2) = seg :: rest := by
      rw [map_map]
      exact map_id _
    rw [map_cons] at hlocated hsnd
    simp only [getReadTasksByRanges, hlocated, hsnd]
    exact htasks
  · rw [hreads k, hcount k, countP_reverse]

theorem apartFrom_of_emptyApart (hquery : QueryRanges n ranges) (h : EmptyApart n segs ranges) :
    ranges.Pairwise (ApartFrom segs) := by
  refine h.apart.imp_of_mem fun {empty range} hempty hrange hapart hnone hlt p hp hge hle => ?_
  by_contra hbehind
  rw [not_le] at hbehind
  obtain ⟨k, hk⟩ := exists_key_pos (hquery.inside range hrange).atMostInf.stop hlt
  have hend : p.range.checkRef empty.stop.toRowKeyValueRef = true := by
    simp only [checkRef, and_eq_true, decide_eq_true_eq]
    refine ⟨?_, (compare_neg_iff _ _).2 (hle.trans_lt hbehind)⟩
    exact (RowKeyValueRef.compare_nonpos_iff p.range.start.sound_toRowKeyValueRef
      empty.stop.sound_toRowKeyValueRef).2 hge
  have hkp : p.range.check k = true := (check_iff _ _).2 (hk ▸ ⟨hge.trans hle, hbehind⟩)
  have hkr : range.check k = true := (check_iff _ _).2 ⟨hk.ge, hk ▸ hlt⟩
  rw [hapart hnone p hp hend k hkp] at hkr
  cases hkr

theorem covers_of_emptyApart (htiles : TilesKeySpace n segs) (hquery : QueryRanges n ranges)
    (h : EmptyApart n segs ranges) :
    CoversQuery n (getReadTasksByRanges taskHeap heap (segs.map Segment.entry) ranges expected []) ranges := by
  obtain ⟨first, hfirst, hlt⟩ := h.begins
  have hinside := hquery.inside first (mem_of_mem_head? hfirst)
  obtain ⟨passed, seg, rest, hsegs, hstart, hpassed, hlocated⟩ :=
    htiles.locate hinside ((compare_neg_iff _ _).1 hlt)
  obtain ⟨tasks, htasks, hcount⟩ := exists_readTasks taskHeap heap expected htiles hquery hfirst hsegs hlocated
  obtain ⟨hnodup, hok⟩ := sweep_tasks htiles hsegs
  refine ⟨tasks, htasks, fun k hk => ?_⟩
  rw [hcount k, countP_reads_eq_one_iff htiles hnodup fun task htask => (hok task htask).known]
  constructor
  · rintro ⟨range, hrange, hkr⟩
    obtain ⟨p, hp, hkp⟩ := htiles.exists_check hk
    obtain ⟨task, htask, rfl, hin⟩ := has_sweep htiles hquery (apartFrom_of_emptyApart hquery h) hsegs hfirst
      hstart hpassed hrange hp hkr hkp
    exact ⟨task, htask, and_eq_true_iff.2 ⟨hkp, any_eq_true.2 ⟨range, hin, hkr⟩⟩⟩
  · rintro ⟨task, htask, hreads⟩
    obtain ⟨range, hin, hkr⟩ := any_eq_true.1 (and_eq_true_iff.1 hreads).2
    exact ⟨range, (hok task htask).sublist.subset hin, hkr⟩

/-- A range behind an empty one is not given to a segment that has the end of the empty one. -/
theorem not_unblocked (hquery : QueryRanges n ranges) {i j : Nat} (hij : i < j) (hj : j < ranges.length)
    (hnone : ranges[i].none = true) {p : Segment c}
    (hend : p.range.checkRef ranges[i].stop.toRowKeyValueRef = true) {k : RowKey c}
    (hk : ranges[j].check k = true) {range : RowKeyRange c} (hkr : range.check k = true) :
    ¬ Unblocked ranges p range := by
  rintro ⟨before, behind, hall, hbefore⟩
  simp only [checkRef, and_eq_true, decide_eq_true_eq] at hend
  have hge : p.range.start.pos ≤ ranges[i].stop.pos :=
    (RowKeyValueRef.compare_nonpos_iff p.range.start.sound_toRowKeyValueRef
      ranges[i].stop.sound_toRowKeyValueRef).1 hend.1
  have hlen : before.length < ranges.length := by rw [hall]; simp
  have hat : ranges[before.length] = range := by simp [hall]
  have hdisjoint := pairwise_iff_getElem.1 hquery.pairwise_disjoint
  -- the range with the key is the one behind the empty range
  rcases lt_trichotomy before.length j with hlt | heq | hgt
  · exact hdisjoint _ _ hlen hj hlt k ⟨hat ▸ hkr, hk⟩
  · have hmem : ranges[i] ∈ before := by
      have hi : i < before.length := heq ▸ hij
      have hget : ranges[i] = before[i] := by simp [hall, getElem_append_left hi]
      exact hget ▸ getElem_mem hi
    exact absurd (hbefore _ hmem hnone) (not_lt.2 hge)
  · exact hdisjoint _ _ hj hlen hgt k ⟨hk, hat ▸ hkr⟩

theorem emptyApart_of_covers (htiles : TilesKeySpace n segs) (hquery : QueryRanges n ranges)
    (h : CoversQuery n (getReadTasksByRanges taskHeap heap (segs.map Segment.entry) ranges expected [])
      ranges) : EmptyApart n segs ranges := by
  obtain ⟨tasks, htasks, hcovers⟩ := h
  have hbegins : ∃ first ∈ ranges.head?, first.start.toRowKeyValueRef.compare
      (newAll c n).stop.toRowKeyValueRef < 0 := by
    cases ranges with
    | nil => cases htasks
    | cons first others =>
      refine ⟨first, rfl, ?_⟩
      by_contra hnot
      rw [compare_neg_iff, not_lt] at hnot
      simp only [getReadTasksByRanges, htiles.locate_eq_nil hnot] at htasks
      cases htasks
  refine ⟨hbegins, ?_⟩
  obtain ⟨first, hfirst, hlt⟩ := hbegins
  have hinside := hquery.inside first (mem_of_mem_head? hfirst)
  obtain ⟨passed, seg, rest, hsegs, -, -, hlocated⟩ := htiles.locate hinside ((compare_neg_iff _ _).1 hlt)
  obtain ⟨tasks', htasks', hcount⟩ := exists_readTasks taskHeap heap expected htiles hquery hfirst hsegs hlocated
  obtain rfl : tasks' = tasks := Except.ok.inj (htasks'.symm.trans htasks)
  obtain ⟨hnodup, hok⟩ := sweep_tasks htiles hsegs
  rw [pairwise_iff_getElem]
  intro i j hi hj hij hnone p hp hend k hkp
  by_contra hkr
  rw [not_eq_false] at hkr
  have hone := (hcovers k (htiles.check_newAll hp hkp)).1 ⟨_, getElem_mem hj, hkr⟩
  rw [hcount k, countP_reads_eq_one_iff htiles hnodup fun task htask => (hok task htask).known] at hone
  obtain ⟨task, htask, hreads⟩ := hone
  obtain ⟨hseg, hany⟩ := and_eq_true_iff.1 hreads
  obtain ⟨range, hin, hk⟩ := any_eq_true.1 hany
  have hunblocked := (hok task htask).unblocked range hin
  rw [htiles.eq_of_check (hok task htask).known hp hseg hkp] at hunblocked
  exact not_unblocked hquery hij hj hnone hend hkr hk hunblocked

/-- The tasks read every key of the ranges once and no other exactly if the first range begins before the end
of the key space, and no segment has the end of an empty range and a key of a range behind it. -/
theorem readTasks_cover_iff (htiles : TilesKeySpace n segs) (hquery : QueryRanges n ranges) :
    CoversQuery n (getReadTasksByRanges taskHeap heap (segs.map Segment.entry) ranges expected []) ranges
      ↔ EmptyApart n segs ranges :=
  ⟨emptyApart_of_covers taskHeap heap expected htiles hquery,
    covers_of_emptyApart taskHeap heap expected htiles hquery⟩

end Read

/-- Two segments that meet at 10 -/
def segmentsAtTen : List (Segment false) :=
  [⟨0, 0, ⟨(newAll false 1).start, .ofKey (.int ⟨10, by decide⟩), 1⟩, 1, 2⟩,
    ⟨1, 0, ⟨.ofKey (.int ⟨10, by decide⟩), (newAll false 1).stop, 1⟩, 2, 0⟩]

theorem tilesKeySpace_segmentsAtTen : TilesKeySpace 1 segmentsAtTen := by
  have hall := canonical_newAll false 1
  have hten : (ofKey (.int ⟨10, by decide⟩) : RowKeyValue false).Canonical := canonical_ofKey _
  refine ⟨⟨rfl, rfl, rfl⟩, ?_, by decide⟩
  unfold segmentsAtTen
  simp only [forall_mem_cons]
  exact ⟨⟨⟨hall.start, hten⟩, by decide⟩, ⟨⟨hten, hall.stop⟩, by decide⟩, by simp⟩

/-- A range, an empty range at 5, and a range behind it. -/
def rangesWithEmpty (start stop : HandleID) : List (RowKeyRange false) :=
  [intRange 1 3, intRange 5 5, intRange start stop]

/-- The empty range ends in the first segment, and the range behind it begins in the second. -/
theorem covers_with_empty_between :
    EmptyApart 1 segmentsAtTen (rangesWithEmpty ⟨12, by decide⟩ ⟨20, by decide⟩) ∧
    CoversQuery 1 (getReadTasksByRanges (MaxHeap.first _) (MaxHeap.first _) (segmentsAtTen.map Segment.entry)
        (rangesWithEmpty ⟨12, by decide⟩ ⟨20, by decide⟩) 4 [])
      (rangesWithEmpty ⟨12, by decide⟩ ⟨20, by decide⟩) := by
  have hapart : EmptyApart 1 segmentsAtTen (rangesWithEmpty ⟨12, by decide⟩ ⟨20, by decide⟩) := by
    refine ⟨⟨_, rfl, by decide⟩, ?_⟩
    simp only [rangesWithEmpty, pairwise_cons, forall_mem_cons]
    refine ⟨⟨fun h => absurd h (by decide), fun h => absurd h (by decide), by simp⟩, ⟨?_, by simp⟩, by simp⟩
    intro _ seg hseg hend k hk
    rcases mem_cons.1 hseg with rfl | hseg
    · rw [← not_eq_true, check_iff]
      rw [check_iff] at hk
      have hlt : (ofKey (.int ⟨10, by decide⟩) : RowKeyValue false).pos
          < (intRange ⟨12, by decide⟩ ⟨20, by decide⟩).start.pos := by decide
      exact fun hk' => absurd (hk.2.trans (hlt.trans_le hk'.1)) (lt_irrefl _)
    · rw [mem_singleton.1 hseg] at hend
      exact absurd hend (by decide)
  refine ⟨hapart, (readTasks_cover_iff _ _ _ tilesKeySpace_segmentsAtTen ⟨by decide, ?_, by decide⟩).2 hapart⟩
  simp only [rangesWithEmpty, forall_mem_cons]
  exact ⟨⟨by decide, by decide, by decide⟩, ⟨by decide, by decide, by decide⟩,
    ⟨by decide, by decide, by decide⟩, by simp⟩

/-- The segment is passed because of an empty range, and the range behind it is in no task. -/
theorem empty_range_loses_keys : ∃ (ranges : List (RowKeyRange false)) (tasks : List (SegmentReadTask false))
    (k : RowKey false), TilesKeySpace 1 segmentsAtTen ∧ QueryRanges 1 ranges ∧
      getReadTasksByRanges (MaxHeap.first _) (MaxHeap.first _) (segmentsAtTen.map Segment.entry) ranges 1 []
        = .ok tasks ∧
      (∃ range ∈ ranges, range.check k = true) ∧ tasks.countP (·.reads k) = 0 := by
  have hsweep : sweep [] (rangesWithEmpty ⟨6, by decide⟩ ⟨8, by decide⟩) segmentsAtTen []
      = [⟨segmentsAtTen.head (by decide), [intRange ⟨1, by decide⟩ ⟨3, by decide⟩]⟩] := by
    unfold segmentsAtTen rangesWithEmpty
    -- the first range meets the first segment, the empty range passes it, and is passed by the second
    rw [sweep, if_pos (by decide), if_pos (by decide), sweep, if_neg (by decide), if_neg (by decide), sweep,
      if_neg (by decide), if_pos (by decide), sweep, if_neg (by decide), if_pos (by decide), sweep]
    rfl
  refine ⟨rangesWithEmpty ⟨6, by decide⟩ ⟨8, by decide⟩, [⟨segmentsAtTen.head (by decide),
      [intRange ⟨1, by decide⟩ ⟨3, by decide⟩]⟩], .int ⟨7, by decide⟩, tilesKeySpace_segmentsAtTen,
    ⟨by decide, ?_, by decide⟩, ?_, by decide, by decide⟩
  · simp only [rangesWithEmpty, forall_mem_cons]
    exact ⟨⟨by decide, by decide, by decide⟩, ⟨by decide, by decide, by decide⟩,
      ⟨by decide, by decide, by decide⟩, by simp⟩
  · show mergeTaskRanges _ (SegmentReadTask.trySplitReadTasks _
      (sweep [] (rangesWithEmpty ⟨6, by decide⟩ ⟨8, by decide⟩) segmentsAtTen []).reverse 1) = _
    rw [hsweep]
    rfl

end TiFlash.DM
