import TiFlash.DM.SegmentStore
import TiFlash.DM.Proofs.RowKeyOrderProofs
import TiFlash.Lib.Chained

/-!
# Proofs: the segments tile the key space

The segments form a chain of ranges from the smallest key to "+infinity", and a chain of ids from the first
id. Every operation replaces neighbours in it by others with the same outer ends.
-/

namespace TiFlash.DM

open TiFlash.Lib List Function DeltaMergeStore SortedMap EndRef

variable {c : Bool}

/-! ## Segments in order -/

abbrev RangesChained : RowKeyValue c → List (Segment c) → RowKeyValue c → Prop :=
  Chained (fun x : Segment c => x.range.start) (fun x => x.range.stop)

/-- The id of a segment is the `next_segment_id` of the one before. -/
abbrev IdsChained : Nat → List (Segment c) → Nat → Prop :=
  Chained (fun x : Segment c => x.segmentId) (fun x => x.nextSegmentId)

/-- The ends of a range are canonical, and it is not empty. -/
structure Segment.Proper (x : Segment c) : Prop where
  canonical : x.range.Canonical
  upward : x.range.start.value < x.range.stop.value

/-- The ends ascend. -/
structure EndsOrdered (segs : List (Segment c)) : Prop where
  canonical : ∀ x ∈ segs, x.range.stop.Canonical
  ascending : segs.Pairwise fun x y => x.range.stop.value < y.range.stop.value

variable {segs : List (Segment c)}

theorem EndsOrdered.sublist {segs' : List (Segment c)} (h : EndsOrdered segs) (hsub : segs'.Sublist segs) :
    EndsOrdered segs' :=
  ⟨fun x hx => h.canonical x (hsub.subset hx), h.ascending.sublist hsub⟩

theorem ordered_of_chained {a b : RowKeyValue c}
    (h : RangesChained a segs b) (hproper : ∀ x ∈ segs, x.Proper) : EndsOrdered segs := by
  refine ⟨fun x hx => (hproper x hx).canonical.stop, ?_⟩
  have hpair : segs.Pairwise fun x y => x.range.stop.value ≤ y.range.start.value :=
    Chained.pairwise h fun x hx => (hproper x hx).upward
  refine hpair.imp_of_mem fun _ hy hxy => ?_
  exact lt_of_le_of_lt hxy (hproper _ hy).upward

variable {x y : Segment c}

theorem endRef_lt_iff (hx : x.range.stop.Canonical) (hy : y.range.stop.Canonical) :
    x.endRef.lt y.endRef = true ↔ x.range.stop.value < y.range.stop.value := by
  unfold lt Segment.endRef
  rw [decide_eq_true_eq, RowKeyValueRef.compare_neg_iff x.range.stop.sound_toRowKeyValueRef
    y.range.stop.sound_toRowKeyValueRef, ← hx, ← hy]
  rfl

theorem endRef_lt_eq_false_iff (hx : x.range.stop.Canonical) (hy : y.range.stop.Canonical) :
    x.endRef.lt y.endRef = false ↔ y.range.stop.value ≤ x.range.stop.value := by
  rw [← Bool.not_eq_true, endRef_lt_iff hx hy, not_lt]

/-- The entry of the map `segments` -/
def Segment.entry (x : Segment c) : EndRef c × Segment c := (x.endRef, x)

section Map

variable {ls rs : List (Segment c)} {x : Segment c} (h : EndsOrdered (ls ++ x :: rs))

include h

variable {e : EndRef c × Segment c}

theorem EndsOrdered.lt_of_mem_left (he : e ∈ ls.map Segment.entry) :
    e.1.lt x.endRef = true := by
  obtain ⟨y, hy, rfl⟩ := mem_map.1 he
  have hasc := (pairwise_append.1 h.ascending).2.2 y hy x mem_cons_self
  exact (endRef_lt_iff (h.canonical y (mem_append_left _ hy)) (h.canonical x (by simp))).2 hasc

theorem EndsOrdered.lt_of_mem_right (he : e ∈ rs.map Segment.entry) :
    e.1.lt x.endRef = false ∧ x.endRef.lt e.1 = true := by
  obtain ⟨y, hy, rfl⟩ := mem_map.1 he
  have hasc := (pairwise_cons.1 (pairwise_append.1 h.ascending).2.1).1 y hy
  have hcx := h.canonical x (by simp)
  have hcy := h.canonical y (by simp [hy])
  exact ⟨(endRef_lt_eq_false_iff hcy hcx).2 hasc.le, (endRef_lt_iff hcx hcy).2 hasc⟩

theorem EndsOrdered.erase : erase lt x.endRef ((ls ++ x :: rs).map Segment.entry)
    = (ls ++ rs).map Segment.entry := by
  have hcx := h.canonical x (by simp)
  have hself := (endRef_lt_eq_false_iff hcx hcx).2 le_rfl
  rw [map_append, map_cons, map_append]
  exact erase_at (fun e he => h.lt_of_mem_left he) hself hself

theorem EndsOrdered.assign : assign lt x.endRef x ((ls ++ rs).map Segment.entry)
    = (ls ++ x :: rs).map Segment.entry := by
  rw [map_append, map_append, map_cons]
  exact assign_between (fun e he => h.lt_of_mem_left he)
    fun e he => h.lt_of_mem_right (mem_of_mem_head? he)

theorem EndsOrdered.emplace : emplace lt x.endRef x ((ls ++ rs).map Segment.entry)
    = (ls ++ x :: rs).map Segment.entry := by
  rw [map_append, map_append, map_cons]
  exact emplace_between (fun e he => h.lt_of_mem_left he)
    fun e he => h.lt_of_mem_right (mem_of_mem_head? he)

end Map

/-! ## Segments by id -/

/-- `id_to_segment` holds exactly these segments. -/
def IdMap (m : Nat → Option (Segment c)) (segs : List (Segment c)) : Prop :=
  ∀ id x, m id = some x ↔ x ∈ segs ∧ x.segmentId = id

section IdMap

variable {m : Nat → Option (Segment c)} {ls rs : List (Segment c)} {x : Segment c}

theorem mem_insert_of_id_ne {y : Segment c} (hid : y.segmentId ≠ x.segmentId) :
    y ∈ ls ++ x :: rs ↔ y ∈ ls ++ rs := by
  have hne : y ≠ x := fun hyx => hid (by rw [hyx])
  simp [hne]

theorem IdMap.erase (h : IdMap m (ls ++ x :: rs))
    (hnodup : ((ls ++ x :: rs).map Segment.segmentId).Nodup) :
    IdMap (update m x.segmentId none) (ls ++ rs) := by
  have hx : ∀ y ∈ ls ++ rs, y.segmentId ≠ x.segmentId := by
    intro y hy heq
    rw [map_append, map_cons, nodup_middle, nodup_cons, ← map_append] at hnodup
    exact hnodup.1 (heq ▸ mem_map_of_mem hy)
  intro id y
  by_cases hid : id = x.segmentId
  · subst hid
    simp only [update_self, reduceCtorEq, false_iff, not_and]
    exact hx y
  · rw [update_of_ne hid, h id y]
    exact and_congr_left fun hy => mem_insert_of_id_ne (hy ▸ hid)

theorem IdMap.insert (h : IdMap m (ls ++ rs)) (hx : ∀ y ∈ ls ++ rs, y.segmentId ≠ x.segmentId) :
    IdMap (update m x.segmentId (some x)) (ls ++ x :: rs) := by
  intro id y
  by_cases hid : id = x.segmentId
  · subst hid
    simp only [update_self, Option.some.injEq]
    constructor
    · rintro rfl
      exact ⟨by simp, rfl⟩
    · rintro ⟨hy, hid⟩
      by_contra hne
      have hy' : y ∈ ls ++ rs := by simpa [Ne.symm hne] using hy
      exact hx y hy' hid
  · rw [update_of_ne hid, h id y]
    exact and_congr_left fun hy => (mem_insert_of_id_ne (hy ▸ hid)).symm

theorem IdMap.eq_none (h : IdMap m ls) (hx : ∀ y ∈ ls, y.segmentId ≠ x.segmentId) :
    m x.segmentId = none := by
  cases hm : m x.segmentId with
  | none => rfl
  | some y =>
    obtain ⟨hy, hid⟩ := (h _ y).1 hm
    exact absurd hid (hx y hy)

theorem IdMap.emplace (h : IdMap m (ls ++ rs)) (hx : ∀ y ∈ ls ++ rs, y.segmentId ≠ x.segmentId) :
    IdMap (update m x.segmentId (some ((m x.segmentId).getD x))) (ls ++ x :: rs) := by
  rw [h.eq_none hx]
  exact h.insert hx

end IdMap

/-! ## The invariant -/

/-- The invariant of the store -/
structure StoreInv (n : Nat) (s : DeltaMergeStore c) : Prop where
  segments : s.segments = s.segmentList.map Segment.entry
  inst : ∀ (i : Nat) (x : Segment c), s.instances[i]? = some x → x.inst = i
  proper : ∀ x ∈ s.instances, x.Proper
  mem : ∀ x ∈ s.segmentList, x ∈ s.instances
  ranges : RangesChained (RowKeyRange.newAll c n).start s.segmentList (RowKeyRange.newAll c n).stop
  ids : IdsChained 1 s.segmentList 0
  nodup : (s.segmentList.map Segment.segmentId).Nodup
  pos : ∀ x ∈ s.segmentList, 0 < x.segmentId
  le : ∀ x ∈ s.segmentList, x.segmentId ≤ s.maxMetaPageId
  idToSegment : IdMap s.idToSegment s.segmentList
  /-- The instances that are not in the map are the abandoned ones. -/
  live : ∀ x ∈ s.instances, x ∈ s.segmentList ↔ x.inst ∉ s.abandoned
  abandoned_lt : ∀ i ∈ s.abandoned, i < s.instances.length

namespace StoreInv

variable {n : Nat} {s : DeltaMergeStore c}

section

variable (h : StoreInv n s)
include h

theorem ordered : EndsOrdered s.segmentList := ordered_of_chained h.ranges fun x hx => h.proper x (h.mem x hx)

variable {x : Segment c}

theorem inst_injective {y : Segment c} (hx : x ∈ s.instances) (hy : y ∈ s.instances)
    (hxy : x.inst = y.inst) : x = y := by
  obtain ⟨i, hi⟩ := mem_iff_getElem?.1 hx
  obtain ⟨j, hj⟩ := mem_iff_getElem?.1 hy
  have hij : i = j := by rw [← h.inst i x hi, ← h.inst j y hj, hxy]
  exact Option.some.inj (hi.symm.trans (hij ▸ hj))

theorem inst_lt (hx : x ∈ s.instances) :
    x.inst < s.instances.length := by
  obtain ⟨i, hi⟩ := mem_iff_getElem?.1 hx
  rw [h.inst i x hi]
  exact (List.getElem?_eq_some_iff.1 hi).1

theorem of_isSegmentValid (hx : x ∈ s.instances) (hvalid : s.isSegmentValid x = true) :
    x ∈ s.segmentList ∧ s.hasAbandoned x = false := by
  unfold isSegmentValid at hvalid
  cases hab : s.hasAbandoned x with
  | true => simp [hab] at hvalid
  | false =>
    refine ⟨?_, rfl⟩
    cases hfind : find lt x.endRef s.segments with
    | none => simp [hab, hfind] at hvalid
    | some e =>
      have hinst : e.2.inst = x.inst := by simpa [hab, hfind] using hvalid
      have hmem : e.2 ∈ s.segmentList := mem_map_of_mem (mem_of_find hfind)
      rwa [← h.inst_injective (h.mem _ hmem) hx hinst]

end

end StoreInv

variable {s : DeltaMergeStore c}

theorem segmentList_of_segments (h : s.segments = segs.map Segment.entry) : s.segmentList = segs := by
  unfold segmentList
  rw [h, map_map]
  exact map_id segs

/-- New segments fit in the place of neighbours in the map. -/
structure SegmentsFit (s : DeltaMergeStore c) (ls mid mid' rs : List (Segment c)) : Prop where
  before : s.segmentList = ls ++ mid ++ rs
  proper : ∀ x ∈ mid', x.Proper
  ranges : ∀ a b, RangesChained a mid b → RangesChained a mid' b
  ids : ∀ a b, IdsChained a mid b → IdsChained a mid' b
  nodup : (mid'.map Segment.segmentId).Nodup
  fresh : ∀ x ∈ mid', x.segmentId ∈ mid.map Segment.segmentId ∨ s.maxMetaPageId < x.segmentId

/-- `mid` has been replaced by `mid'`. -/
structure SegmentsReplaced (s s' : DeltaMergeStore c) (ls mid mid' rs : List (Segment c)) : Prop
    extends SegmentsFit s ls mid mid' rs where
  segments : s'.segments = (ls ++ mid' ++ rs).map Segment.entry
  instances : s'.instances = s.instances ++ mid'
  inst : ∀ (i : Nat) (x : Segment c), (s.instances ++ mid')[i]? = some x → x.inst = i
  le : ∀ x ∈ mid', x.segmentId ≤ s'.maxMetaPageId
  mono : s.maxMetaPageId ≤ s'.maxMetaPageId
  idToSegment : IdMap s'.idToSegment (ls ++ mid' ++ rs)
  abandoned : ∀ i, i ∈ s'.abandoned ↔ i ∈ s.abandoned ∨ i ∈ mid.map Segment.inst

section SegmentsFit

variable {n : Nat} {s : DeltaMergeStore c} {ls mid mid' rs : List (Segment c)}
  (h : StoreInv n s) (hfits : SegmentsFit s ls mid mid' rs)

include h hfits

theorem SegmentsFit.chained :
    RangesChained (RowKeyRange.newAll c n).start (ls ++ mid' ++ rs) (RowKeyRange.newAll c n).stop :=
  (hfits.before ▸ h.ranges).replace hfits.ranges

theorem SegmentsFit.ordered : EndsOrdered (ls ++ mid' ++ rs) := by
  refine ordered_of_chained (hfits.chained h) fun y hy => ?_
  have hcases : y ∈ mid' ∨ y ∈ s.segmentList := by
    rw [hfits.before]
    simp only [mem_append] at hy ⊢
    tauto
  rcases hcases with hy | hy
  · exact hfits.proper y hy
  · exact h.proper y (h.mem y hy)

theorem SegmentsFit.disjoint {x y : Segment c} (hx : x ∈ mid') (hy : y ∈ ls ++ rs) :
    y.segmentId ≠ x.segmentId := by
  have hymem : y ∈ s.segmentList := by
    rw [hfits.before]
    simp only [mem_append] at hy ⊢
    tauto
  rcases hfits.fresh x hx with hx | hx
  · intro heq
    have hnd := h.nodup
    rw [hfits.before, map_append, map_append, append_assoc] at hnd
    have hperm := (perm_append_comm_assoc (ls.map Segment.segmentId) (mid.map Segment.segmentId)
      (rs.map Segment.segmentId)).nodup_iff.1 hnd
    rw [← map_append] at hperm
    exact (nodup_append.1 hperm).2.2 _ hx _ (mem_map_of_mem hy) heq.symm
  · have := h.le y hymem
    omega

end SegmentsFit

variable {s' : DeltaMergeStore c} {ls mid mid' rs : List (Segment c)}

theorem SegmentsReplaced.inst_ge
    (hr : SegmentsReplaced s s' ls mid mid' rs) (hx : x ∈ mid') : s.instances.length ≤ x.inst := by
  obtain ⟨i, hi⟩ := mem_iff_getElem?.1 hx
  have hget : (s.instances ++ mid')[s.instances.length + i]? = some x := by
    rw [List.getElem?_append_right (Nat.le_add_right _ i), Nat.add_sub_cancel_left]
    exact hi
  have := hr.inst _ x hget
  omega

section SegmentsReplaced

variable {n : Nat} {s s' : DeltaMergeStore c} {ls mid mid' rs : List (Segment c)}
  (h : StoreInv n s) (hr : SegmentsReplaced s s' ls mid mid' rs)

include h hr

theorem SegmentsReplaced.abandoned_lt : ∀ i ∈ s'.abandoned, i < s'.instances.length := by
  intro i hi
  rw [hr.instances, length_append]
  rcases (hr.abandoned i).1 hi with hi | hi
  · have := h.abandoned_lt i hi
    omega
  · obtain ⟨x, hx, rfl⟩ := mem_map.1 hi
    have := h.inst_lt (h.mem x (by rw [hr.before]; simp [hx]))
    omega

theorem SegmentsReplaced.live :
    ∀ x ∈ s'.instances, x ∈ s'.segmentList ↔ x.inst ∉ s'.abandoned := by
  intro x hx
  rw [segmentList_of_segments hr.segments, hr.abandoned]
  rw [hr.instances] at hx
  have hmid : ∀ y ∈ mid, y ∈ s.instances := fun y hy => h.mem y (by rw [hr.before]; simp [hy])
  rcases mem_append.1 hx with hold | hnew
  · have hlt := h.inst_lt hold
    have hmid' : x ∉ mid' := fun hx' => absurd (hr.inst_ge hx') (by omega)
    have hinst : x.inst ∈ mid.map Segment.inst ↔ x ∈ mid := by
      refine ⟨fun hx' => ?_, mem_map_of_mem⟩
      obtain ⟨y, hy, heq⟩ := mem_map.1 hx'
      rwa [← h.inst_injective (hmid y hy) hold heq]
    have hnodup : (ls ++ mid ++ rs).Nodup := hr.before ▸ h.nodup.of_map
    have hlive := h.live x hold
    rw [hr.before] at hlive
    rw [hinst, not_or, ← hlive]
    simp only [nodup_append, mem_append] at hnodup ⊢
    constructor
    · rintro ((hl | hm) | hr')
      · exact ⟨.inl (.inl hl), fun hm => hnodup.1.2.2 x hl x hm rfl⟩
      · exact absurd hm hmid'
      · exact ⟨.inr hr', fun hm => hnodup.2.2 x (.inr hm) x hr' rfl⟩
    · rintro ⟨(hl | hm) | hr', hnm⟩
      · exact .inl (.inl hl)
      · exact absurd hm hnm
      · exact .inr hr'
  · have hge := hr.inst_ge hnew
    refine iff_of_true (by simp [hnew]) ?_
    rintro (hab | hm)
    · have := h.abandoned_lt _ hab
      omega
    · obtain ⟨y, hy, heq⟩ := mem_map.1 hm
      have := h.inst_lt (hmid y hy)
      omega

end SegmentsReplaced

theorem StoreInv.replaced {n : Nat} (h : StoreInv n s) (hr : SegmentsReplaced s s' ls mid mid' rs) : StoreInv n s' := by
  have hlist : s'.segmentList = ls ++ mid' ++ rs := segmentList_of_segments hr.segments
  have hsub : ∀ y ∈ ls ++ rs, y ∈ s.segmentList := by
    intro y hy
    rw [hr.before]
    simp only [mem_append] at hy ⊢
    tauto
  have hcases : ∀ y ∈ s'.segmentList, y ∈ mid' ∨ y ∈ ls ++ rs := by
    intro y hy
    rw [hlist] at hy
    simp only [mem_append] at hy ⊢
    tauto
  refine ⟨by rw [hlist]; exact hr.segments, ?_, ?_, ?_, ?_, ?_, ?_, ?_, ?_,
    by rw [hlist]; exact hr.idToSegment, hr.live h, hr.abandoned_lt h⟩
  · rw [hr.instances]
    exact hr.inst
  · rw [hr.instances]
    exact forall_mem_append.2 ⟨h.proper, hr.proper⟩
  · intro x hx
    rw [hr.instances]
    rcases hcases x hx with hx | hx
    · exact mem_append_right _ hx
    · exact mem_append_left _ (h.mem x (hsub x hx))
  · rw [hlist]
    exact hr.chained h
  · rw [hlist]
    exact (hr.before ▸ h.ids).replace hr.ids
  · rw [hlist, append_assoc, map_append, map_append]
    refine (perm_append_comm_assoc _ _ _).nodup_iff.1 ?_
    rw [← map_append]
    refine nodup_append.2 ⟨hr.nodup, ?_, ?_⟩
    · have hnd := h.nodup
      rw [hr.before] at hnd
      refine hnd.sublist (List.Sublist.map _ ?_)
      exact (sublist_append_left ls mid).append (List.Sublist.refl rs)
    · rintro _ hxid _ hyid
      obtain ⟨x, hx, rfl⟩ := mem_map.1 hxid
      obtain ⟨y, hy, rfl⟩ := mem_map.1 hyid
      exact (hr.disjoint h hx hy).symm
  · intro x hx
    rcases hcases x hx with hx | hx
    · rcases hr.fresh x hx with hold | hnew
      · obtain ⟨y, hy, heq⟩ := mem_map.1 hold
        have hy' : y ∈ s.segmentList := by rw [hr.before]; simp [hy]
        rw [← heq]
        exact h.pos y hy'
      · omega
    · exact h.pos x (hsub x hx)
  · intro x hx
    rcases hcases x hx with hx | hx
    · exact hr.le x hx
    · exact (h.le x (hsub x hx)).trans hr.mono

/-! ## The second locks -/

theorem inst_concat {l : List (Segment c)} (h : ∀ (i : Nat) (x : Segment c), l[i]? = some x → x.inst = i) (hy : y.inst = l.length) (i : Nat) (x : Segment c) (hi : (l ++ [y])[i]? = some x) :
    x.inst = i := by
  rw [List.getElem?_append] at hi
  split_ifs at hi with hlt
  · exact h i x hi
  · have hi' : i - l.length = 0 := by
      by_contra hne
      rw [List.getElem?_eq_none (by simp; omega)] at hi
      exact absurd hi (by simp)
    rw [hi'] at hi
    obtain rfl : y = x := by simpa using hi
    omega

section Commit

variable {n : Nat} {s : DeltaMergeStore c} {t : DeltaMergeStore c} {left right x : Segment c} {info : SplitInfo c}

theorem commitSplit_applied (hvalid : s.isSegmentValid x = true) (habandoned : s.hasAbandoned x = false)
    (happly : s.applySplit x info = (left, right, t)) :
    ∃ s', s.commitSplit x info = (.applied, s') ∧ s'.segments = assign lt right.endRef right
        (assign lt left.endRef left (erase lt x.endRef s.segments)) ∧
      s'.idToSegment = (((s.eraseSegment x).emplaceId left).emplaceId right).idToSegment ∧
      s'.instances = s.instances ++ [left, right] ∧ s'.maxMetaPageId = s.maxMetaPageId + 2 ∧
      s'.abandoned = x.inst :: s.abandoned := by
  obtain ⟨rfl, rfl, rfl⟩ : left = _ ∧ right = _ ∧ t = _ := by
    simpa [Prod.ext_iff, eq_comm] using happly
  have hab : (s.applySplit x info).2.2.hasAbandoned x = false := habandoned
  unfold commitSplit
  simp only [hvalid, Bool.not_true, Bool.false_eq_true, if_false, abandon, hab]
  exact ⟨_, rfl, rfl, rfl, append_assoc _ _ _, rfl, rfl⟩

theorem StoreInv.commitSplit (h : StoreInv n s) (hx : x ∈ s.instances) (hcanonical : info.splitPoint.Canonical)
    (hlo : x.range.start.value < info.splitPoint.value)
    (hhi : info.splitPoint.value < x.range.stop.value) :
    s.commitSplit x info = (.gaveUp, s) ∨ ∃ s' ls rs left right, s.commitSplit x info = (.applied, s') ∧
        SegmentsReplaced s s' ls [x] [left, right] rs := by
  cases hvalid : s.isSegmentValid x with
  | false => exact .inl (by simp [DeltaMergeStore.commitSplit, hvalid])
  | true =>
    obtain ⟨hmem, habandoned⟩ := h.of_isSegmentValid hx hvalid
    obtain ⟨ls, rs, hlist⟩ := append_of_mem hmem
    have hproper := h.proper x hx
    have hle := h.le x hmem
    set left : Segment c := ⟨s.instances.length, x.epoch + 1, (x.splitRanges info.splitPoint).1,
      x.segmentId, s.maxMetaPageId + 1⟩ with hleft
    set right : Segment c := ⟨s.instances.length + 1, 0, (x.splitRanges info.splitPoint).2,
      s.maxMetaPageId + 1, x.nextSegmentId⟩ with hright
    have happly : s.applySplit x info = (left, right, (s.applySplit x info).2.2) := by
      simp [applySplit, makeSegment, newMetaPageId, hleft, hright]
    obtain ⟨s', hcommit, hsegs, hids, hinstances, hmax, hab⟩ := commitSplit_applied hvalid habandoned happly
    have hfits : SegmentsFit s ls [x] [left, right] rs := by
      refine ⟨by simpa using hlist, ?_, ?_, ?_, ?_, ?_⟩
      · exact forall_mem_cons.2 ⟨⟨⟨hproper.canonical.start, hcanonical⟩, hlo⟩,
          forall_mem_singleton.2 ⟨⟨hcanonical, hproper.canonical.stop⟩, hhi⟩⟩
      · rintro a b ⟨rfl, rfl⟩
        exact ⟨rfl, rfl, rfl⟩
      · rintro a b ⟨rfl, rfl⟩
        exact ⟨rfl, rfl, rfl⟩
      · simp only [hleft, hright, map_cons, map_nil, nodup_cons, mem_singleton,
          not_mem_nil, not_false_eq_true, nodup_nil, and_true]
        omega
      · exact forall_mem_cons.2 ⟨.inl (by simp [hleft]), forall_mem_singleton.2 (.inr (Nat.lt_succ_self _))⟩
    have hord : EndsOrdered (ls ++ [left] ++ right :: rs) := by simpa using hfits.ordered h
    have hordLeft : EndsOrdered (ls ++ left :: rs) := hord.sublist (by simp)
    have hordOld : EndsOrdered (ls ++ x :: rs) := hlist ▸ h.ordered
    have hdisjoint : ∀ y ∈ ls ++ left :: rs, y.segmentId ≠ right.segmentId := by
      intro y hy
      rcases mem_append.1 hy with hy | hy
      · exact hfits.disjoint h (by simp) (mem_append_left _ hy)
      · rcases mem_cons.1 hy with rfl | hy
        · simp only [hleft, hright]
          omega
        · exact hfits.disjoint h (by simp) (mem_append_right _ hy)
    refine .inr ⟨s', ls, rs, left, right, hcommit, hfits, ?_, hinstances, ?_, ?_, by omega, ?_,
      by simp [hab, or_comm]⟩
    · rw [hsegs, h.segments, hlist, hordOld.erase, hordLeft.assign]
      have hassign := hord.assign
      simpa using hassign
    · have hone := inst_concat h.inst (y := left) rfl
      have htwo := inst_concat hone (y := right) (by simp [hright])
      simpa using htwo
    · intro y hy
      rcases mem_pair.1 hy with rfl | rfl
      · simp only [hleft]; omega
      · simp only [hright]; omega
    · rw [hids]
      have herase := (hlist ▸ h.idToSegment).erase (hlist ▸ h.nodup)
      have hone := herase.emplace fun y hy => hfits.disjoint h (x := left) (by simp) hy
      rw [← singleton_append, ← append_assoc] at hone hdisjoint
      have htwo := hone.emplace hdisjoint
      rw [append_assoc, singleton_append] at htwo
      rw [append_assoc]
      exact htwo

theorem commitMerge_applied {merged : Segment c} (hleft : s.isSegmentValid left = true)
    (hright : s.isSegmentValid right = true) (hableft : s.hasAbandoned left = false)
    (habright : s.hasAbandoned right = false) (hne : right.inst ≠ left.inst)
    (happly : s.applyMerge left right = (merged, t)) :
    ∃ s', s.commitMerge left right = (.applied, s') ∧ s'.segments = emplace lt merged.endRef merged
        (erase lt right.endRef (erase lt left.endRef s.segments)) ∧
      s'.idToSegment = (((s.eraseSegment left).eraseSegment right).emplaceId merged).idToSegment ∧
      s'.instances = s.instances ++ [merged] ∧ s'.maxMetaPageId = s.maxMetaPageId ∧
      s'.abandoned = right.inst :: left.inst :: s.abandoned := by
  obtain ⟨rfl, rfl⟩ : merged = _ ∧ t = _ := by simpa [Prod.ext_iff, eq_comm] using happly
  have habl : (s.applyMerge left right).2.hasAbandoned left = false := hableft
  have habr : right.inst ∉ left.inst :: s.abandoned := by
    have : right.inst ∉ s.abandoned := by simpa [hasAbandoned] using habright
    simpa [hne] using this
  unfold commitMerge
  simp only [hleft, hright, Bool.not_true, Bool.or_self, Bool.false_eq_true, if_false, abandon, habl]
  have habr' : hasAbandoned
      { (s.applyMerge left right).2 with
        abandoned := left.inst :: (s.applyMerge left right).2.abandoned } right = false := by
    show decide (right.inst ∈ left.inst :: s.abandoned) = false
    simpa using habr
  simp only [habr', Bool.false_eq_true, if_false]
  exact ⟨_, rfl, rfl, rfl, rfl, rfl, rfl⟩

theorem StoreInv.neighbours (h : StoreInv n s) (hleft : left ∈ s.segmentList)
    (hright : right ∈ s.segmentList) (hnext : left.nextSegmentId = right.segmentId) :
    ∃ ls rs, s.segmentList = ls ++ left :: right :: rs := by
  obtain ⟨ls, rest, hlist⟩ := append_of_mem hleft
  have hids := h.ids
  rw [hlist] at hids
  cases rest with
  | nil =>
    have hlast : left.nextSegmentId = 0 := hids.hi_last
    have := h.pos right hright
    omega
  | cons y rs =>
    have hy : y.segmentId = left.nextSegmentId := hids.lo_next
    have hmem : y ∈ s.segmentList := by simp [hlist]
    obtain rfl : y = right := inj_on_of_nodup_map h.nodup hmem hright (hy.trans hnext)
    exact ⟨ls, rs, hlist⟩

theorem StoreInv.commitMerge (h : StoreInv n s) (hleft : left ∈ s.instances)
    (hright : right ∈ s.instances) (hends : left.range.stop = right.range.start)
    (hnext : left.nextSegmentId = right.segmentId) :
    s.commitMerge left right = (.gaveUp, s) ∨ ∃ s' ls rs merged, s.commitMerge left right = (.applied, s') ∧
        SegmentsReplaced s s' ls [left, right] [merged] rs := by
  by_cases hvalid : s.isSegmentValid left = true ∧ s.isSegmentValid right = true
  swap
  · refine .inl ?_
    unfold DeltaMergeStore.commitMerge
    rw [if_pos (by simpa [-not_and, not_and_or] using hvalid)]
  obtain ⟨hvalidl, hvalidr⟩ := hvalid
  obtain ⟨hmeml, habl⟩ := h.of_isSegmentValid hleft hvalidl
  obtain ⟨hmemr, habr⟩ := h.of_isSegmentValid hright hvalidr
  obtain ⟨ls, rs, hlist⟩ := h.neighbours hmeml hmemr hnext
  have hnodup : ((ls ++ left :: right :: rs).map Segment.segmentId).Nodup := hlist ▸ h.nodup
  have hne : right.inst ≠ left.inst := by
    intro heq
    obtain rfl := h.inst_injective hright hleft heq
    simp [nodup_append] at hnodup
  have hpl := h.proper left hleft
  have hpr := h.proper right hright
  set merged : Segment c := ⟨s.instances.length, left.epoch + 1,
    ⟨left.range.start, right.range.stop, left.range.rowkeyColumnSize⟩, left.segmentId,
    right.nextSegmentId⟩ with hmerged
  have happly : s.applyMerge left right = (merged, (s.applyMerge left right).2) := rfl
  obtain ⟨s', hcommit, hsegs, hids, hinstances, hmax, hab⟩ :=
    commitMerge_applied hvalidl hvalidr habl habr hne happly
  have hfits : SegmentsFit s ls [left, right] [merged] rs := by
    refine ⟨by simpa using hlist, ?_, ?_, ?_, nodup_singleton _, ?_⟩
    · exact forall_mem_singleton.2 ⟨⟨hpl.canonical.start, hpr.canonical.stop⟩,
        hpl.upward.trans (hends ▸ hpr.upward)⟩
    · rintro a b ⟨rfl, -, rfl⟩
      exact ⟨rfl, rfl⟩
    · rintro a b ⟨rfl, -, rfl⟩
      exact ⟨rfl, rfl⟩
    · exact forall_mem_singleton.2 (.inl (by simp [hmerged]))
  have hordOld : EndsOrdered (ls ++ left :: right :: rs) := hlist ▸ h.ordered
  have hordRight : EndsOrdered (ls ++ right :: rs) := hordOld.sublist (by simp)
  have hord : EndsOrdered (ls ++ merged :: rs) := by simpa using hfits.ordered h
  refine .inr ⟨s', ls, rs, merged, hcommit, hfits, ?_, hinstances, ?_, ?_, by omega, ?_,
    by intro i; simp only [hab, mem_cons, map_cons, map_nil, not_mem_nil]; tauto⟩
  · rw [hsegs, h.segments, hlist, hordOld.erase, hordRight.erase, hord.emplace, append_assoc,
      singleton_append]
  · exact inst_concat h.inst rfl
  · have hle : left.segmentId ≤ s.maxMetaPageId := h.le left hmeml
    exact forall_mem_singleton.2 (hle.trans_eq hmax.symm)
  · rw [hids, append_assoc, singleton_append]
    have hone := (hlist ▸ h.idToSegment).erase hnodup
    have htwo := hone.erase (hnodup.sublist (List.Sublist.map _ (by simp)))
    exact htwo.emplace fun y hy => hfits.disjoint h (by simp) hy

theorem commitMergeDelta_applied {x' : Segment c} (hvalid : s.isSegmentValid x = true)
    (habandoned : s.hasAbandoned x = false) (happly : s.applyMergeDelta x = (x', t)) :
    ∃ s', s.commitMergeDelta x = (.applied, s') ∧ s'.segments = assign lt x'.endRef x'
        (erase lt x.endRef s.segments) ∧
      s'.idToSegment = ((s.eraseSegment x).assignId x').idToSegment ∧
      s'.instances = s.instances ++ [x'] ∧ s'.maxMetaPageId = s.maxMetaPageId ∧
      s'.abandoned = x.inst :: s.abandoned := by
  obtain ⟨rfl, rfl⟩ : x' = _ ∧ t = _ := by simpa [Prod.ext_iff, eq_comm] using happly
  have hab : ((((s.applyMergeDelta x).2.eraseSegment x).assignSegment (s.applyMergeDelta x).1).assignId
      (s.applyMergeDelta x).1).hasAbandoned x = false := habandoned
  unfold commitMergeDelta
  simp only [hvalid, Bool.not_true, Bool.false_eq_true, if_false, abandon, hab]
  exact ⟨_, rfl, rfl, rfl, rfl, rfl, rfl⟩

theorem StoreInv.commitMergeDelta (h : StoreInv n s) (hx : x ∈ s.instances) :
    s.commitMergeDelta x = (.gaveUp, s) ∨
      ∃ s' ls rs x', s.commitMergeDelta x = (.applied, s') ∧ SegmentsReplaced s s' ls [x] [x'] rs := by
  cases hvalid : s.isSegmentValid x with
  | false => exact .inl (by simp [DeltaMergeStore.commitMergeDelta, hvalid])
  | true =>
    obtain ⟨hmem, habandoned⟩ := h.of_isSegmentValid hx hvalid
    obtain ⟨ls, rs, hlist⟩ := append_of_mem hmem
    have hproper := h.proper x hx
    set x' : Segment c := ⟨s.instances.length, x.epoch + 1, x.range, x.segmentId, x.nextSegmentId⟩ with hx'
    have happly : s.applyMergeDelta x = (x', (s.applyMergeDelta x).2) := rfl
    obtain ⟨s', hcommit, hsegs, hids, hinstances, hmax, hab⟩ :=
      commitMergeDelta_applied hvalid habandoned happly
    have hfits : SegmentsFit s ls [x] [x'] rs := by
      refine ⟨by simpa using hlist, ?_, ?_, ?_, nodup_singleton _, ?_⟩
      · exact forall_mem_singleton.2 ⟨hproper.canonical, hproper.upward⟩
      · exact fun a b hab => hab
      · exact fun a b hab => hab
      · exact forall_mem_singleton.2 (.inl (by simp [hx']))
    have hordOld : EndsOrdered (ls ++ x :: rs) := hlist ▸ h.ordered
    have hord : EndsOrdered (ls ++ x' :: rs) := by simpa using hfits.ordered h
    refine .inr ⟨s', ls, rs, x', hcommit, hfits, ?_, hinstances, ?_, ?_, by omega, ?_,
      by simp [hab, or_comm]⟩
    · rw [hsegs, h.segments, hlist, hordOld.erase, hord.assign, append_assoc, singleton_append]
    · exact inst_concat h.inst rfl
    · exact forall_mem_singleton.2 ((h.le x hmem).trans_eq hmax.symm)
    · rw [hids, append_assoc, singleton_append]
      have herase := (hlist ▸ h.idToSegment).erase (hlist ▸ h.nodup)
      exact herase.insert fun y hy => hfits.disjoint h (by simp) hy

end Commit

end TiFlash.DM
