import TiFlash.DM.ReadTasks
import TiFlash.DM.Proofs.RowKeyRangeUtilsProofs
import TiFlash.DM.Proofs.SegmentStoreProofs

/-!
# The sweep over ranges and segments

The sweep gives a segment ranges that meet it. A nonempty range is given to every segment with which it
shares a key, unless a segment passed because of an empty range has keys of a range behind it.
-/

namespace TiFlash.DM

open TiFlash.Lib List RowKeyRange RowKeyValue Bool

variable {c : Bool} {n : Nat}

/-- The segments of a map that tiles the key space, in the order of the map. -/
structure TilesKeySpace (n : Nat) (segs : List (Segment c)) : Prop where
  chained : RangesChained (newAll c n).start segs (newAll c n).stop
  proper : ∀ seg ∈ segs, seg.Proper
  inst : (segs.map (·.inst)).Nodup

theorem StoreInv.tilesKeySpace {s : DeltaMergeStore c} (h : StoreInv n s) : TilesKeySpace n s.segmentList := by
  refine ⟨h.ranges, fun seg hseg => h.proper seg (h.mem seg hseg), ?_⟩
  refine (List.Nodup.of_map _ h.nodup).map_on fun x hx y hy hinst => ?_
  exact h.inst_injective (h.mem x hx) (h.mem y hy) hinst

/-! ## Ends in the key space -/

theorem RowKeyValue.compare_neg_iff (a b : RowKeyValue c) :
    a.toRowKeyValueRef.compare b.toRowKeyValueRef < 0 ↔ a.pos < b.pos :=
  RowKeyValueRef.compare_neg_iff a.sound_toRowKeyValueRef b.sound_toRowKeyValueRef

theorem RowKeyValue.atMostInf_of_le {v : RowKeyValue c}
    (h : v.value ≤ (newAll c n).stop.value) : v.AtMostInf := by
  cases v with
  | int value v hv => exact h
  | common value => trivial

variable {range : RowKeyRange c}

theorem RowKeyRange.Inside.atMostInf (h : range.Inside n) : range.AtMostInf :=
  ⟨atMostInf_of_le h.start_le, atMostInf_of_le h.stop_le⟩

theorem exists_key_pos {v w : RowKeyValue c} (hw : w.AtMostInf) (h : v.pos < w.pos) :
    ∃ k : RowKey c, k.pos = v.pos := by
  cases v with
  | common value => exact ⟨.common value, rfl⟩
  | int value v hv =>
    refine ⟨.int v, ?_⟩
    have hle : w.pos ≤ intHandleMaxKeyValue := by
      cases w with
      | int d w hd => exact (pos_le_value (.int d w hd)).trans hw
    have hne : value ≠ intHandleMaxKeyValue := by
      rintro rfl
      exact absurd h (not_lt.2 hle)
    rw [pos_int, if_neg hne, (take_of_decodeInt64 hv).2]
    rfl

variable {a b : RowKeyRange c}

theorem intersect_of_pos (ha : a.AtMostInf) (hb : b.AtMostInf) (haa : a.start.pos < a.stop.pos)
    (hab : a.start.pos < b.stop.pos) (hba : b.start.pos < a.stop.pos) (hbb : b.start.pos < b.stop.pos) :
    a.intersect b = true := by
  have hlt : ∀ v w : RowKeyValue c, v.AtMostInf → v.pos < w.pos → v.value < w.value :=
    fun v w hv h => not_le.1 fun hle => absurd (hv.pos_le_pos hle) (not_le.2 h)
  unfold intersect
  rw [decide_eq_true_eq]
  show (if b.start.value ≤ a.start.value then a.start else b.start).value
    < (if a.stop.value < b.stop.value then a.stop else b.stop).value
  split_ifs
  · exact hlt _ _ ha.start haa
  · exact hlt _ _ ha.start hab
  · exact hlt _ _ hb.start hba
  · exact hlt _ _ hb.start hbb

theorem le_of_not_intersect (h : a.intersect b = false) (ha : a.none = false) (hb : b.none = false) :
    a.stop.value ≤ b.start.value ∨ b.stop.value ≤ a.start.value := by
  have ha' := none_eq_false_iff.1 ha
  have hb' := none_eq_false_iff.1 hb
  unfold intersect at h
  rw [decide_eq_false_iff_not] at h
  change ¬ (if b.start.value ≤ a.start.value then a.start else b.start).value
    < (if a.stop.value < b.stop.value then a.stop else b.stop).value at h
  rw [not_lt] at h
  split_ifs at h with hstop hstart hstart
  · exact absurd ha' (not_lt.2 h)
  · exact .inl h
  · exact .inr h
  · exact absurd hb' (not_lt.2 h)

theorem intersect_of_none (h : a.none = true) : a.intersect b = false := by
  have hle : a.stop.value ≤ a.start.value := of_decide_eq_true h
  unfold intersect
  rw [decide_eq_false_iff_not, not_lt]
  show (if a.stop.value < b.stop.value then a.stop else b.stop).value
    ≤ (if b.start.value ≤ a.start.value then a.start else b.start).value
  split_ifs with hstop hstart hstart
  · exact hle
  · exact hle.trans (not_le.1 hstart).le
  · exact (not_lt.1 hstop).trans hle
  · exact (not_lt.1 hstop).trans (hle.trans (not_le.1 hstart).le)

theorem RowKeyRange.none_of_intersect (h : a.intersect b = true) : a.none = false := by
  by_contra hnone
  rw [intersect_of_none (not_eq_false _ ▸ hnone)] at h
  cases h

theorem RowKeyRange.AtMostInf.none_of_lt (h : range.AtMostInf) (hlt : range.start.pos < range.stop.pos) :
    range.none = false := by
  rw [none_eq_false_iff]
  exact not_le.1 fun hle => absurd (h.start.pos_le_pos hle) (not_le.2 hlt)

theorem RowKeyRange.lt_of_check {k : RowKey c} (h : range.check k = true) :
    range.start.pos < range.stop.pos := by
  rw [check_iff] at h
  exact h.1.trans_lt h.2

namespace QueryRanges

variable {ranges : List (RowKeyRange c)}

theorem sublist {ranges' : List (RowKeyRange c)} (h : QueryRanges n ranges) (hsub : ranges'.Sublist ranges) :
    QueryRanges n ranges' :=
  ⟨h.sorted.sublist hsub, fun r hr => h.inside r (hsub.subset hr), h.disjoint.sublist hsub⟩

theorem start_le (h : QueryRanges n ranges) : ranges.Pairwise fun a b => a.start.value ≤ b.start.value := by
  refine h.sorted.imp fun {a b} hlt => ?_
  unfold startEdgeLt at hlt
  split_ifs at hlt with heq
  · exact not_lt.1 (of_decide_eq_false hlt)
  · exact (not_not.1 heq).ge

theorem gap (h : QueryRanges n ranges) : ranges.Pairwise fun a b => a.none = false → b.none = false →
    a.stop.value ≤ b.start.value := by
  refine (h.start_le.and h.disjoint).imp fun {a b} hab ha hb => ?_
  rcases le_of_not_intersect hab.2 ha hb with hle | hle
  · exact hle
  · exact absurd (hab.1.trans_lt (none_eq_false_iff.1 hb)) (not_lt.2 hle)

end QueryRanges

/-! ## One turn of the loop -/

/-- What one turn does: the ranges, the segments and the tasks behind it. -/
inductive SweepStep (req : RowKeyRange c) (ranges : List (RowKeyRange c)) (seg : Segment c)
    (segs : List (Segment c)) (tasks : List (SegmentReadTask c)) :
    List (RowKeyRange c) → List (Segment c) → List (SegmentReadTask c) → Prop
  | meetsBefore (h : req.intersect seg.range = true) (hlt : req.stop.pos < seg.range.stop.pos) :
      SweepStep req ranges seg segs tasks ranges (seg :: segs) (addRange tasks seg req)
  | meetsBehind (h : req.intersect seg.range = true) (hlt : seg.range.stop.pos < req.stop.pos) :
      SweepStep req ranges seg segs tasks (req :: ranges) segs (addRange tasks seg req)
  | meetsBoth (h : req.intersect seg.range = true) (heq : req.stop.pos = seg.range.stop.pos) :
      SweepStep req ranges seg segs tasks ranges segs (addRange tasks seg req)
  | passesRange (h : req.intersect seg.range = false) (hlt : req.stop.pos < seg.range.start.pos) :
      SweepStep req ranges seg segs tasks ranges (seg :: segs) tasks
  | passesSegment (h : req.intersect seg.range = false) (hle : seg.range.start.pos ≤ req.stop.pos) :
      SweepStep req ranges seg segs tasks (req :: ranges) segs tasks

theorem exists_sweepStep (req : RowKeyRange c) (ranges : List (RowKeyRange c)) (seg : Segment c)
    (segs : List (Segment c)) (tasks : List (SegmentReadTask c)) : ∃ ranges' segs' tasks',
      SweepStep req ranges seg segs tasks ranges' segs' tasks' ∧
        ranges'.length + segs'.length < (req :: ranges).length + (seg :: segs).length ∧
        sweep [] (req :: ranges) (seg :: segs) tasks = sweep [] ranges' segs' tasks' := by
  rw [sweep]
  simp only [isEmpty_nil, Bool.true_or, Bool.and_true, RowKeyValue.compare_neg_iff]
  split_ifs with hmeets hbefore hbehind hpass
  · exact ⟨_, _, _, .meetsBefore hmeets hbefore, by simp, rfl⟩
  · exact ⟨_, _, _, .meetsBehind hmeets hbehind, by simp, rfl⟩
  · exact ⟨_, _, _, .meetsBoth hmeets (le_antisymm (not_lt.1 hbehind) (not_lt.1 hbefore)),
      by simp only [length_cons]; omega, rfl⟩
  · exact ⟨_, _, _, .passesRange (Bool.not_eq_true _ ▸ hmeets) hpass, by simp, rfl⟩
  · exact ⟨_, _, _, .passesSegment (Bool.not_eq_true _ ▸ hmeets) (not_lt.1 hpass), by simp, rfl⟩

variable {segs : List (Segment c)} {tasks : List (SegmentReadTask c)}

/-- What every turn keeps holds at the end. -/
theorem sweep_induct {P : List (RowKeyRange c) → List (Segment c) → List (SegmentReadTask c) → Prop}
    (hstep : ∀ req ranges seg segs tasks ranges' segs' tasks',
      SweepStep req ranges seg segs tasks ranges' segs' tasks' → P (req :: ranges) (seg :: segs) tasks →
        P ranges' segs' tasks') {ranges : List (RowKeyRange c)} (h : P ranges segs tasks) :
    ∃ ranges' segs', (ranges' = [] ∨ segs' = []) ∧ P ranges' segs' (sweep [] ranges segs tasks) := by
  induction hn : ranges.length + segs.length using Nat.strongRecOn generalizing ranges segs tasks with
  | ind m ih =>
    cases ranges with
    | nil => exact ⟨[], segs, .inl rfl, by rw [sweep]; exact h⟩
    | cons req ranges =>
      cases segs with
      | nil => exact ⟨req :: ranges, [], .inr rfl, by rw [sweep]; exact h⟩
      | cons seg segs =>
        obtain ⟨ranges', segs', tasks', hnext, hlt, heq⟩ := exists_sweepStep req ranges seg segs tasks
        rw [heq]
        exact ih _ (hn ▸ hlt) (hstep _ _ _ _ _ _ _ _ hnext h) rfl

def Has (tasks : List (SegmentReadTask c)) (seg : Segment c) (range : RowKeyRange c) : Prop :=
  ∃ task ∈ tasks, task.segment = seg ∧ range ∈ task.ranges

variable {seg : Segment c}

section

variable (hinst : ∀ task ∈ tasks, task.segment.inst = seg.inst → task.segment = seg) (req : RowKeyRange c)
include hinst req

theorem addRange_cases : (∃ back rest, tasks = back :: rest ∧ back.segment = seg ∧
      addRange tasks seg req = { back with ranges := back.ranges ++ [req] } :: rest) ∨
    ((∀ task ∈ tasks.head?, task.segment ≠ seg) ∧ addRange tasks seg req = ⟨seg, [req]⟩ :: tasks) := by
  cases tasks with
  | nil => exact .inr ⟨by simp, rfl⟩
  | cons back rest =>
    by_cases heq : back.segment.inst = seg.inst
    · refine .inl ⟨back, rest, rfl, hinst back mem_cons_self heq, ?_⟩
      rw [addRange, if_neg (not_not.2 heq)]
    · refine .inr ⟨?_, ?_⟩
      · rintro task htask rfl
        rw [List.head?_cons, Option.mem_some_iff] at htask
        exact heq (htask ▸ rfl)
      · rw [addRange, if_pos heq]

theorem has_addRange : Has (addRange tasks seg req) seg req ∧
      ∀ seg' range, Has tasks seg' range → Has (addRange tasks seg req) seg' range := by
  rcases addRange_cases hinst req with ⟨back, rest, rfl, hback, hadd⟩ | ⟨-, hadd⟩
  · rw [hadd]
    refine ⟨⟨_, mem_cons_self, hback, by simp⟩, ?_⟩
    rintro seg' range ⟨task, htask, hseg, hrange⟩
    rcases mem_cons.1 htask with rfl | htask
    · exact ⟨_, mem_cons_self, hseg, mem_append_left _ hrange⟩
    · exact ⟨task, mem_cons_of_mem _ htask, hseg, hrange⟩
  · rw [hadd]
    refine ⟨⟨_, mem_cons_self, rfl, mem_cons_self⟩, ?_⟩
    rintro seg' range ⟨task, htask, hseg, hrange⟩
    exact ⟨task, mem_cons_of_mem _ htask, hseg, hrange⟩

end

/-! ## What the tasks are -/

/-- No empty range before `range` ends at or behind the start of the segment. -/
def Unblocked (all : List (RowKeyRange c)) (seg : Segment c) (range : RowKeyRange c) : Prop :=
  ∃ before behind, all = before ++ range :: behind ∧
    ∀ empty ∈ before, empty.none = true → empty.stop.pos < seg.range.start.pos

/-- A task of one of the segments `segs` for some of the ranges `all`. -/
structure TaskOk (all : List (RowKeyRange c)) (segs : List (Segment c)) (task : SegmentReadTask c) :
    Prop where
  known : task.segment ∈ segs
  sublist : task.ranges.Sublist all
  nonempty : task.ranges ≠ []
  proper : ∀ range ∈ task.ranges, range.none = false
  unblocked : ∀ range ∈ task.ranges, Unblocked all task.segment range

/-- The state of the loop: the ranges and the segments that are left. -/
structure SweepShape (all : List (RowKeyRange c)) (segs : List (Segment c)) (ranges : List (RowKeyRange c))
    (rest : List (Segment c)) (tasks : List (SegmentReadTask c)) : Prop where
  nodup : (tasks.map (·.segment.inst)).Nodup
  task : ∀ task ∈ tasks, TaskOk all segs task
  suffix : rest <:+ segs
  done : ∃ done, all = done ++ ranges ∧
    ∀ empty ∈ done, empty.none = true → ∀ seg ∈ rest, empty.stop.pos < seg.range.start.pos
  behind : ∀ task ∈ tasks.tail, task.segment ∉ rest
  ahead : ∀ task ∈ tasks, task.segment ∉ rest.tail
  current : ∀ task ∈ tasks, task.segment ∈ rest → (task.ranges ++ ranges).Sublist all

theorem TilesKeySpace.pos_lt (h : TilesKeySpace n segs) (hseg : seg ∈ segs) :
    seg.range.start.pos < seg.range.stop.pos := by
  have hproper := h.proper seg hseg
  rw [hproper.canonical.start, hproper.canonical.stop]
  exact hproper.upward

theorem TilesKeySpace.inst_injective (h : TilesKeySpace n segs) {a b : Segment c} (ha : a ∈ segs)
    (hb : b ∈ segs) (hinst : a.inst = b.inst) : a = b :=
  inj_on_of_nodup_map h.inst ha hb hinst

namespace SweepShape

variable {all ranges : List (RowKeyRange c)} {segs rest : List (Segment c)} {seg : Segment c}
  {req : RowKeyRange c} {tasks : List (SegmentReadTask c)}

theorem mem_segs (h : SweepShape all segs ranges rest tasks) (hseg : seg ∈ rest) : seg ∈ segs :=
  h.suffix.subset hseg

section

variable (htiles : TilesKeySpace n segs) (h : SweepShape all segs ranges (seg :: rest) tasks)
include htiles h

theorem inst_eq : ∀ task ∈ tasks, task.segment.inst = seg.inst → task.segment = seg :=
  fun task htask hinst => htiles.inst_injective (h.task task htask).known (h.mem_segs mem_cons_self) hinst

theorem seg_not_mem : seg ∉ rest := by
  have hnodup : ((seg :: rest).map (·.inst)).Nodup := htiles.inst.sublist (h.suffix.sublist.map _)
  rw [map_cons, nodup_cons] at hnodup
  exact fun hmem => hnodup.1 (mem_map_of_mem hmem)

end

theorem dropSegment (h : SweepShape all segs ranges (seg :: rest) tasks) :
    SweepShape all segs ranges rest tasks := by
  obtain ⟨done, hall, hdone⟩ := h.done
  refine ⟨h.nodup, h.task, (suffix_cons seg rest).trans h.suffix, ?_, ?_, ?_, ?_⟩
  · exact ⟨done, hall, fun empty hempty hnone p hp => hdone empty hempty hnone p (mem_cons_of_mem _ hp)⟩
  · exact fun task htask hmem => h.behind task htask (mem_cons_of_mem _ hmem)
  · exact fun task htask hmem => h.ahead task htask (mem_of_mem_tail hmem)
  · exact fun task htask hmem => absurd hmem (h.ahead task htask)

/-- The range is passed: it is not empty, or ends before the segments that are left. -/
theorem dropRange (h : SweepShape all segs (req :: ranges) rest tasks)
    (hreq : req.none = true → ∀ seg ∈ rest, req.stop.pos < seg.range.start.pos) :
    SweepShape all segs ranges rest tasks := by
  obtain ⟨done, hall, hdone⟩ := h.done
  refine ⟨h.nodup, h.task, h.suffix, ⟨done ++ [req], by rw [hall]; simp, ?_⟩, h.behind, h.ahead, ?_⟩
  · exact forall_mem_append.2 ⟨hdone, forall_mem_singleton.2 hreq⟩
  · intro task htask hmem
    exact ((sublist_cons_self req ranges).append_left task.ranges).trans (h.current task htask hmem)

section

variable (htiles : TilesKeySpace n segs)
include htiles

/-- The range is given to the segment, and the ranges that may follow it in the task are those behind it. -/
theorem give (h : SweepShape all segs (req :: ranges) (seg :: rest) tasks) (hreq : req.none = false) :
    ((addRange tasks seg req).map (·.segment.inst)).Nodup ∧
      (∀ task ∈ addRange tasks seg req, TaskOk all segs task ∧ task.segment ∉ rest ∧
        (task.segment = seg → (task.ranges ++ ranges).Sublist all)) ∧
      ∀ task ∈ (addRange tasks seg req).tail, task.segment ∉ seg :: rest := by
  obtain ⟨done, hall, hdone⟩ := h.done
  have hsublist : (req :: ranges).Sublist all := hall ▸ sublist_append_right _ _
  have hunblocked : Unblocked all seg req :=
    ⟨done, ranges, hall, fun empty hempty hnone => hdone empty hempty hnone seg mem_cons_self⟩
  rcases addRange_cases (h.inst_eq htiles) req with ⟨back, others, rfl, hback, hadd⟩ | ⟨hhead, hadd⟩
  · -- the last task gets the range
    rw [hadd]
    have hcurrent : (back.ranges ++ [req] ++ ranges).Sublist all := by
      have hcur := h.current back mem_cons_self (hback ▸ mem_cons_self)
      simpa using hcur
    have hok := h.task back mem_cons_self
    refine ⟨h.nodup, fun task htask => ?_, h.behind⟩
    rcases mem_cons.1 htask with rfl | htask
    · refine ⟨⟨hok.known, (sublist_append_left _ _).trans hcurrent, by simp, ?_, ?_⟩,
        h.ahead back mem_cons_self, fun _ => hcurrent⟩
      · exact forall_mem_append.2 ⟨hok.proper, forall_mem_singleton.2 hreq⟩
      · exact forall_mem_append.2 ⟨hok.unblocked, forall_mem_singleton.2 (hback ▸ hunblocked)⟩
    · have hmem := mem_cons_of_mem back htask
      exact ⟨h.task task hmem, h.ahead task hmem, fun hseg =>
        absurd (hseg ▸ mem_cons_self) (h.behind task htask)⟩
  · -- a new task begins
    rw [hadd]
    have hnot : ∀ task ∈ tasks, task.segment ≠ seg := by
      intro task htask heq
      cases tasks with
      | nil => cases htask
      | cons back others =>
        rcases mem_cons.1 htask with rfl | hin
        · exact hhead task rfl heq
        · exact h.behind task hin (heq ▸ mem_cons_self)
    refine ⟨?_, fun task htask => ?_, fun task htask hmem => ?_⟩
    · rw [map_cons, nodup_cons]
      refine ⟨fun hmem => ?_, h.nodup⟩
      obtain ⟨task, htask, hinst⟩ := mem_map.1 hmem
      exact hnot task htask (h.inst_eq htiles task htask hinst)
    · rcases mem_cons.1 htask with rfl | htask
      · refine ⟨⟨h.mem_segs mem_cons_self, ?_, cons_ne_nil _ _, ?_, ?_⟩, h.seg_not_mem htiles,
          fun _ => hsublist⟩
        · exact (singleton_sublist.2 mem_cons_self).trans hsublist
        · exact fun range hrange => mem_singleton.1 hrange ▸ hreq
        · exact fun range hrange => mem_singleton.1 hrange ▸ hunblocked
      · exact ⟨h.task task htask, h.ahead task htask, fun hseg => absurd hseg (hnot task htask)⟩
    · rcases mem_cons.1 hmem with heq | hmem
      · exact hnot task htask heq
      · exact h.ahead task htask hmem

/-- The segments behind the first of those that are left begin where it ends or later. -/
theorem stop_le (h : SweepShape all segs ranges (seg :: rest) tasks) {p : Segment c} (hp : p ∈ rest) :
    seg.range.stop.pos ≤ p.range.start.pos := by
  obtain ⟨passed, hsegs⟩ := h.suffix
  have hpair : segs.Pairwise fun x y => x.range.stop.value ≤ y.range.start.value :=
    Chained.pairwise htiles.chained fun x hx => (htiles.proper x hx).upward
  rw [← hsegs] at hpair
  have hle := (pairwise_cons.1 (pairwise_append.1 hpair).2.1).1 p hp
  have hproper := htiles.proper p (h.mem_segs (mem_cons_of_mem _ hp))
  rw [hproper.canonical.start]
  exact (pos_le_value _).trans hle

theorem start_le (h : SweepShape all segs ranges (seg :: rest) tasks) (p : Segment c) (hp : p ∈ seg :: rest) :
    seg.range.start.pos ≤ p.range.start.pos := by
  rcases mem_cons.1 hp with rfl | hp
  · exact le_rfl
  · exact (htiles.pos_lt (h.mem_segs mem_cons_self)).le.trans (h.stop_le htiles hp)

theorem step {ranges' : List (RowKeyRange c)} {rest' : List (Segment c)} {tasks' : List (SegmentReadTask c)}
    (hstep : SweepStep req ranges seg rest tasks ranges' rest' tasks')
    (h : SweepShape all segs (req :: ranges) (seg :: rest) tasks) :
    SweepShape all segs ranges' rest' tasks' := by
  have hproper : req.intersect seg.range = true → req.none = false := none_of_intersect
  -- the state in which the range has been given to the segment and both are still there to be passed
  have hgiven : req.none = false → SweepShape all segs ranges (seg :: rest) (addRange tasks seg req) := by
    intro hreq
    obtain ⟨hnodup, htask, hbehind⟩ := h.give htiles hreq
    have hnext := h.dropRange fun hnone => absurd (hreq.symm.trans hnone) false_ne_true
    refine ⟨hnodup, fun task hin => (htask task hin).1, h.suffix, hnext.done, hbehind,
      fun task hin => (htask task hin).2.1, fun task hin hmem => ?_⟩
    rcases mem_cons.1 hmem with heq | hmem
    · exact (htask task hin).2.2 heq
    · exact absurd hmem (htask task hin).2.1
  cases hstep with
  | meetsBefore hmeets _ => exact hgiven (hproper hmeets)
  | meetsBoth hmeets _ => exact (hgiven (hproper hmeets)).dropSegment
  | meetsBehind hmeets _ =>
    have hnext := (hgiven (hproper hmeets)).dropSegment
    exact ⟨hnext.nodup, hnext.task, hnext.suffix, h.dropSegment.done, hnext.behind, hnext.ahead,
      fun task hin hmem => absurd hmem ((hgiven (hproper hmeets)).ahead task hin)⟩
  | passesRange _ hlt =>
    exact h.dropRange fun _ p hp => hlt.trans_le (h.start_le htiles p hp)
  | passesSegment _ _ => exact h.dropSegment

end

theorem query (hquery : QueryRanges n all) (h : SweepShape all segs ranges rest tasks) :
    QueryRanges n ranges := by
  obtain ⟨done, rfl, -⟩ := h.done
  exact hquery.sublist (sublist_append_right _ _)

end SweepShape

/-! ## What the tasks have -/

namespace QueryRanges

variable {req : RowKeyRange c} {ranges : List (RowKeyRange c)}

theorem start_pos_le (h : QueryRanges n (req :: ranges)) {range : RowKeyRange c} (hrange : range ∈ ranges) :
    req.start.pos ≤ range.start.pos :=
  (h.inside range (mem_cons_of_mem _ hrange)).atMostInf.start.pos_le_pos
    ((pairwise_cons.1 h.start_le).1 range hrange)

theorem stop_pos_le (h : QueryRanges n (req :: ranges)) (hreq : req.none = false) {range : RowKeyRange c}
    (hrange : range ∈ ranges) (hlt : range.start.pos < range.stop.pos) : req.stop.pos ≤ range.start.pos := by
  have hinf := (h.inside range (mem_cons_of_mem _ hrange)).atMostInf
  exact hinf.start.pos_le_pos ((pairwise_cons.1 h.gap).1 range hrange hreq (hinf.none_of_lt hlt))

end QueryRanges

/-- No segment has both the end of an empty range and the start of a range with keys behind it. -/
def ApartFrom (segs : List (Segment c)) (empty range : RowKeyRange c) : Prop :=
  empty.none = true → range.start.pos < range.stop.pos → ∀ seg ∈ segs, seg.range.start.pos ≤ empty.stop.pos →
    empty.stop.pos ≤ range.start.pos → seg.range.stop.pos ≤ range.start.pos

/-- What the loop still has to give to the segments that are left. -/
structure SweepCovers (all : List (RowKeyRange c)) (segs : List (Segment c)) (stop : RowKeyValue c)
    (ranges : List (RowKeyRange c)) (rest : List (Segment c)) (tasks : List (SegmentReadTask c)) : Prop where
  covers : ∀ range ∈ all, ∀ seg ∈ segs, ∀ k, range.check k = true → seg.range.check k = true →
    Has tasks seg range ∨ (range ∈ ranges ∧ seg ∈ rest)
  reaches : ∃ start, RangesChained start rest stop ∧
    ∀ range ∈ ranges, range.start.pos < range.stop.pos → start.pos < range.stop.pos

namespace SweepCovers

variable {all ranges : List (RowKeyRange c)} {segs rest : List (Segment c)} {seg : Segment c}
  {req : RowKeyRange c} {tasks : List (SegmentReadTask c)} {stop : RowKeyValue c}

theorem mono {tasks' : List (SegmentReadTask c)} (h : SweepCovers all segs stop ranges rest tasks)
    (htasks : ∀ seg range, Has tasks seg range → Has tasks' seg range) :
    SweepCovers all segs stop ranges rest tasks' := by
  refine ⟨fun range hrange p hp k hk hkp => ?_, h.reaches⟩
  exact (h.covers range hrange p hp k hk hkp).imp_left (htasks p range)

theorem dropRange (h : SweepCovers all segs stop (req :: ranges) rest tasks)
    (hreq : ∀ p ∈ rest, Has tasks p req ∨ req.stop.pos ≤ p.range.start.pos) :
    SweepCovers all segs stop ranges rest tasks := by
  obtain ⟨start, hchained, hlt⟩ := h.reaches
  refine ⟨fun range hrange p hp k hk hkp => ?_, start, hchained, fun r hr => hlt r (mem_cons_of_mem _ hr)⟩
  rcases h.covers range hrange p hp k hk hkp with hhas | ⟨hin, hleft⟩
  · exact .inl hhas
  rcases mem_cons.1 hin with rfl | hin
  · rcases hreq p hleft with hhas | hle
    · exact .inl hhas
    · rw [check_iff] at hk hkp
      exact absurd (hk.2.trans_le (hle.trans hkp.1)) (lt_irrefl _)
  · exact .inr ⟨hin, hleft⟩

theorem dropSegment (h : SweepCovers all segs stop ranges (seg :: rest) tasks)
    (hseg : ∀ range ∈ ranges, range.start.pos < range.stop.pos →
      (Has tasks seg range ∧ seg.range.stop.pos < range.stop.pos) ∨ seg.range.stop.pos ≤ range.start.pos) :
    SweepCovers all segs stop ranges rest tasks := by
  obtain ⟨start, hchained, -⟩ := h.reaches
  refine ⟨fun range hrange p hp k hk hkp => ?_, seg.range.stop, (chained_cons.1 hchained).2, ?_⟩
  · rcases h.covers range hrange p hp k hk hkp with hhas | ⟨hin, hleft⟩
    · exact .inl hhas
    rcases mem_cons.1 hleft with rfl | hleft
    · rcases hseg range hin (lt_of_check hk) with ⟨hhas, -⟩ | hle
      · exact .inl hhas
      · rw [check_iff] at hk hkp
        exact absurd (hkp.2.trans_le (hle.trans hk.1)) (lt_irrefl _)
    · exact .inr ⟨hin, hleft⟩
  · intro range hin hlt
    rcases hseg range hin hlt with ⟨-, hlt'⟩ | hle
    · exact hlt'
    · exact hle.trans_lt hlt

section

variable (htiles : TilesKeySpace n segs) (hquery : QueryRanges n all) (hapart : all.Pairwise (ApartFrom segs))
include htiles hquery hapart

/-- A segment that the range does not meet has no key of the ranges that are left. -/
theorem stop_le_of_passes (hshape : SweepShape all segs (req :: ranges) (seg :: rest) tasks)
    (h : SweepCovers all segs stop (req :: ranges) (seg :: rest) tasks)
    (hpass : req.intersect seg.range = false) (hle : seg.range.start.pos ≤ req.stop.pos)
    {range : RowKeyRange c} (hrange : range ∈ req :: ranges) (hlt : range.start.pos < range.stop.pos) :
    seg.range.stop.pos ≤ range.start.pos := by
  have hleft := hshape.query hquery
  have hmem := hshape.mem_segs mem_cons_self
  have hproper := htiles.proper seg hmem
  have hreqInf := (hleft.inside req mem_cons_self).atMostInf
  have hstart : req.start.pos ≤ range.start.pos := by
    rcases mem_cons.1 hrange with rfl | hrange
    · exact le_rfl
    · exact hleft.start_pos_le hrange
  cases hnone : req.none with
  | true =>
    have hempty : req.stop.pos ≤ req.start.pos := hreqInf.start.pos_le_pos (of_decide_eq_true hnone)
    rcases mem_cons.1 hrange with rfl | hrange
    · exact absurd hlt (not_lt.2 hempty)
    · obtain ⟨done, rfl, -⟩ := hshape.done
      have hpair := (pairwise_cons.1 (pairwise_append.1 hapart).2.1).1 range hrange
      exact hpair hnone hlt seg hmem hle (hempty.trans hstart)
  | false =>
    have hsegNone : seg.range.none = false := none_eq_false_iff.2 hproper.upward
    rcases le_of_not_intersect hpass hnone hsegNone with hbefore | hbehind
    · -- the range ends where the segment begins, although it has keys
      obtain ⟨start, hchained, hreach⟩ := h.reaches
      have heq : start = seg.range.start := (chained_cons.1 hchained).1.symm
      have hlt' : req.start.pos < seg.range.start.pos := by
        rw [hproper.canonical.start]
        exact (pos_le_value req.start).trans_lt
          ((none_eq_false_iff.1 hnone).trans_le hbefore)
      have hfar := hreach req mem_cons_self (hlt'.trans_le hle)
      have hstop : req.stop.pos ≤ seg.range.start.pos := by
        rw [hproper.canonical.start]
        exact (pos_le_value req.stop).trans hbefore
      rw [heq] at hfar
      exact absurd hfar (not_lt.2 hstop)
    · exact (hreqInf.start.pos_le_pos hbehind).trans hstart

theorem step {ranges' : List (RowKeyRange c)} {rest' : List (Segment c)}
    {tasks' : List (SegmentReadTask c)} (hstep : SweepStep req ranges seg rest tasks ranges' rest' tasks')
    (hshape : SweepShape all segs (req :: ranges) (seg :: rest) tasks)
    (h : SweepCovers all segs stop (req :: ranges) (seg :: rest) tasks) :
    SweepCovers all segs stop ranges' rest' tasks' := by
  have hleft := hshape.query hquery
  obtain ⟨hhas, hmono⟩ := has_addRange (hshape.inst_eq htiles) req
  have hproper : req.intersect seg.range = true → req.none = false := none_of_intersect
  -- the segments behind the current one begin where it ends or later
  have hbehind : ∀ p ∈ rest, seg.range.stop.pos ≤ p.range.start.pos :=
    fun p hp => hshape.stop_le htiles hp
  cases hstep with
  | meetsBefore hmeets hlt =>
    refine (h.mono hmono).dropRange fun p hp => ?_
    rcases mem_cons.1 hp with rfl | hp
    · exact .inl hhas
    · exact .inr (hlt.le.trans (hbehind p hp))
  | meetsBehind hmeets hlt =>
    refine (h.mono hmono).dropSegment fun range hrange hne => ?_
    rcases mem_cons.1 hrange with rfl | hrange
    · exact .inl ⟨hhas, hlt⟩
    · exact .inr (hlt.le.trans (hleft.stop_pos_le (hproper hmeets) hrange hne))
  | meetsBoth hmeets heq =>
    have hnext := (h.mono hmono).dropRange fun p hp => by
      rcases mem_cons.1 hp with rfl | hp
      · exact .inl hhas
      · exact .inr (heq.le.trans (hbehind p hp))
    refine hnext.dropSegment fun range hrange hne => .inr ?_
    exact heq.ge.trans (hleft.stop_pos_le (hproper hmeets) hrange hne)
  | passesRange _ hlt =>
    exact h.dropRange fun p hp => .inr (hlt.le.trans (hshape.start_le htiles p hp))
  | passesSegment hpass hle =>
    exact h.dropSegment fun range hrange hne =>
      .inr (h.stop_le_of_passes htiles hquery hapart hshape hpass hle hrange hne)

end

end SweepCovers

end TiFlash.DM
