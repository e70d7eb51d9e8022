import TiFlash.DM.Proofs.SegmentStoreProofs

/-!
# Proofs: runs of a store

A thread remembers between two locks that a split point lies properly inside its segment, or that two
segments are consecutive. Steps of other threads cannot change that, since it speaks of instances. So every
step keeps the invariant, and one that does not apply its operation leaves both maps as they are.
-/

namespace TiFlash.DM

open TiFlash.Lib List RowKeyRange Except Function RowKeyValue

variable {c : Bool}

/-! ## Preparations -/

variable {v : RowKeyValue c}

theorem canonical_of_getSplitPointFast {stableRows : Nat} {dmFiles : List (List (List (RowKey c)))}
    (h : getSplitPointFast stableRows dmFiles = .ok v) : v.Canonical := by
  unfold getSplitPointFast at h
  split_ifs at h
  split at h
  · exact absurd h (by simp)
  · obtain rfl := ok.inj h
    exact canonical_ofKey _

theorem canonical_of_getSplitPointSlow {range : RowKeyRange c} {blocks : List (List (RowKey c))}
    (h : getSplitPointSlow range blocks = .ok v) : v.Canonical := by
  unfold getSplitPointSlow at h
  simp only at h
  split at h
  · exact absurd h (by simp)
  · split_ifs at h
    obtain rfl := ok.inj h
    exact canonical_ofKey _

/-- A split point with which the code goes on. -/
structure GoodSplit (x : Segment c) (v : RowKeyValue c) : Prop where
  canonical : v.Canonical
  start_lt : x.range.start.value < v.value
  lt_stop : v.value < x.range.stop.value

variable {x : Segment c} {info : SplitInfo c}

theorem goodSplit_of_checkedSplit {isLogical : Bool} (hv : v.Canonical)
    (h : x.checkedSplit isLogical v = .ok info) :
    GoodSplit x info.splitPoint := by
  unfold Segment.checkedSplit at h
  split_ifs at h with hnone
  obtain rfl := ok.inj h
  simp only [Bool.or_eq_true, not_or, Bool.not_eq_true] at hnone
  exact ⟨hv, none_eq_false_iff.1 hnone.1, none_eq_false_iff.1 hnone.2⟩

theorem goodSplit_of_prepareSplitPhysical {input : SplitInput c}
    (h : x.prepareSplitPhysical input = .ok info) : GoodSplit x info.splitPoint := by
  unfold Segment.prepareSplitPhysical at h
  cases hslow : getSplitPointSlow x.range input.placedBlocks with
  | error e => rw [hslow] at h; exact absurd h (by simp [bind, Except.bind])
  | ok v =>
    rw [hslow] at h
    exact goodSplit_of_checkedSplit (canonical_of_getSplitPointSlow hslow) h

theorem goodSplit_of_prepareSplit {input : SplitInput c} (h : x.prepareSplit input = .ok info) :
    GoodSplit x info.splitPoint := by
  unfold Segment.prepareSplit at h
  split_ifs at h with hphysical
  · exact goodSplit_of_prepareSplitPhysical h
  · cases hfast : getSplitPointFast input.stableRows input.dmFiles with
    | error e => rw [hfast] at h; exact absurd h (by simp [bind, Except.bind])
    | ok v =>
      rw [hfast] at h
      simp only [bind, Except.bind] at h
      split_ifs at h with hbad
      · exact goodSplit_of_prepareSplitPhysical h
      · exact goodSplit_of_checkedSplit (canonical_of_getSplitPointFast hfast) h

theorem consecutive_of_prepareMerge {left right : Segment c} (hleft : left.Proper) (hright : right.Proper)
    (h : left.prepareMerge right = .ok ()) :
    left.range.stop = right.range.start ∧ left.nextSegmentId = right.segmentId := by
  unfold Segment.prepareMerge at h
  split_ifs at h with hcond
  push Not at hcond
  obtain ⟨hcompare, hnext⟩ := hcond
  rw [RowKeyValueRef.compare_eq_zero_iff left.range.stop.sound_toRowKeyValueRef
    right.range.start.sound_toRowKeyValueRef] at hcompare
  have hvalue : left.range.stop.value = right.range.start.value := by
    rw [← hleft.canonical.stop, ← hright.canonical.start]
    exact hcompare
  exact ⟨value_injective hvalue, hnext⟩

/-! ## Steps -/

def StoreThreadOk (instances : List (Segment c)) : StoreThread c → Prop
  | .idle => True
  | .split x => x ∈ instances
  | .splitPrepared x info => x ∈ instances ∧ GoodSplit x info.splitPoint
  | .merge left right => left ∈ instances ∧ right ∈ instances
  | .mergePrepared left right => left ∈ instances ∧ right ∈ instances ∧
      left.range.stop = right.range.start ∧ left.nextSegmentId = right.segmentId
  | .mergeDelta x => x ∈ instances
  | .mergeDeltaPrepared x => x ∈ instances

variable {thread : StoreThread c}

theorem StoreThreadOk.mono {instances instances' : List (Segment c)} (hsub : instances ⊆ instances')
    (h : StoreThreadOk instances thread) : StoreThreadOk instances' thread := by
  cases thread with
  | idle => trivial
  | split x | mergeDelta x | mergeDeltaPrepared x => exact hsub h
  | splitPrepared x info => exact ⟨hsub h.1, h.2⟩
  | merge left right => exact ⟨hsub h.1, hsub h.2⟩
  | mergePrepared left right => exact ⟨hsub h.1, hsub h.2.1, h.2.2⟩

/-- The invariant of store and threads -/
structure StoreSystemInv (n : Nat) (s : StoreSystem c) : Prop where
  store : StoreInv n s.store
  threads : ∀ t, StoreThreadOk s.store.instances (s.threads t)

variable {n : Nat}

theorem StoreInv.takeIds {s : DeltaMergeStore c} (h : StoreInv n s) (ids : Nat) :
    StoreInv n { s with maxMetaPageId := s.maxMetaPageId + ids } :=
  ⟨h.segments, h.inst, h.proper, h.mem, h.ranges, h.ids, h.nodup, h.pos,
    fun x hx => (h.le x hx).trans (Nat.le_add_right _ ids), h.idToSegment, h.live, h.abandoned_lt⟩

variable {s : StoreSystem c}

theorem StoreSystemInv.update (h : StoreSystemInv n s) {store : DeltaMergeStore c}
    (hstore : StoreInv n store) (hsub : s.store.instances ⊆ store.instances)
    (hthread : StoreThreadOk store.instances thread) (t : Nat) :
    StoreSystemInv n (s.update t thread store) := by
  refine ⟨hstore, fun t' => ?_⟩
  show StoreThreadOk store.instances (Function.update s.threads t thread t')
  by_cases ht : t' = t
  · rw [ht, update_self]
    exact hthread
  · rw [update_of_ne ht]
    exact (h.threads t').mono hsub

/-- A step keeps the invariant, and both maps unless it applies its operation. -/
structure StoreStepSpec (n : Nat) (s : StoreSystem c) (outcome : Outcome) (s' : StoreSystem c) : Prop where
  inv : StoreSystemInv n s'
  instances : s.store.instances ⊆ s'.store.instances
  segments : outcome ≠ .applied → s'.store.segments = s.store.segments
  idToSegment : outcome ≠ .applied → s'.store.idToSegment = s.store.idToSegment

/-- A step that does not touch the store but for its counter. -/
theorem StoreSystemInv.keep (h : StoreSystemInv n s) (t ids : Nat) (outcome : Outcome)
    (hthread : StoreThreadOk s.store.instances thread) :
    StoreStepSpec n s outcome
      (s.update t thread { s.store with maxMetaPageId := s.store.maxMetaPageId + ids }) :=
  ⟨h.update (h.store.takeIds ids) (List.Subset.refl _) hthread t, List.Subset.refl _, fun _ => rfl, fun _ => rfl⟩

theorem StoreSystemInv.start (h : StoreSystemInv n s) (t : Nat) (ok : Bool)
    (hthread : StoreThreadOk s.store.instances thread) :
    StoreStepSpec n s (s.start t ok thread).1 (s.start t ok thread).2 := by
  cases ok with
  | true => exact h.keep t 0 .pending hthread
  | false => exact ⟨h, List.Subset.refl _, fun _ => rfl, fun _ => rfl⟩

/-- A second lock ends in giving up, with the store as it is, or in a replacement. -/
theorem StoreSystemInv.commit (h : StoreSystemInv n s) (t : Nat) {res : Outcome × DeltaMergeStore c}
    (hres : res = (.gaveUp, s.store) ∨
      ∃ s' ls mid mid' rs, res = (.applied, s') ∧ SegmentsReplaced s.store s' ls mid mid' rs) :
    StoreStepSpec n s res.1 (s.update t .idle res.2) := by
  rcases hres with rfl | ⟨s', ls, mid, mid', rs, rfl, hr⟩
  · exact h.keep t 0 .gaveUp trivial
  · have hsub : s.store.instances ⊆ s'.instances := by
      rw [hr.instances]
      exact subset_append_left _ _
    have hidle : StoreThreadOk s'.instances (StoreThread.idle : StoreThread c) := trivial
    exact ⟨h.update (h.store.replaced hr) hsub hidle t, hsub, fun hne => absurd rfl hne,
      fun hne => absurd rfl hne⟩

theorem StoreSystemInv.step {s s' : StoreSystem c} {outcome : Outcome} (h : StoreSystemInv n s)
    (hstep : StoreSystem.Step s outcome s') : StoreStepSpec n s outcome s' := by
  cases hstep with
  | splitStart t x created ht hx res hres | mergeDeltaStart t x created ht hx res hres =>
    subst hres
    exact h.start t _ hx
  | splitPrepare t x input ht res hres =>
    have hx : x ∈ s.store.instances := by simpa [ht, StoreThreadOk] using h.threads t
    subst hres
    unfold StoreSystem.prepareSplit
    cases hprep : x.prepareSplit input with
    | error e => exact h.keep t 0 .threw trivial
    | ok info => exact h.keep t 1 .pending ⟨hx, goodSplit_of_prepareSplit hprep⟩
  | splitCommit t x info ht res hres =>
    obtain ⟨hx, hgood⟩ : x ∈ s.store.instances ∧ GoodSplit x info.splitPoint := by
      simpa [ht, StoreThreadOk] using h.threads t
    refine h.commit t ?_
    rw [← hres]
    rcases h.store.commitSplit hx hgood.canonical hgood.start_lt hgood.lt_stop with
      hgave | ⟨s', ls, rs, left, right, hcommit, hr⟩
    · exact .inl hgave
    · exact .inr ⟨s', ls, _, _, rs, hcommit, hr⟩
  | mergeStart t left right created ht hleft hright res hres =>
    subst hres
    exact h.start t _ ⟨hleft, hright⟩
  | mergePrepare t left right ht res hres =>
    obtain ⟨hleft, hright⟩ : left ∈ s.store.instances ∧ right ∈ s.store.instances := by
      simpa [ht, StoreThreadOk] using h.threads t
    subst hres
    unfold StoreSystem.prepareMerge
    cases hprep : left.prepareMerge right with
    | error e => exact h.keep t 0 .threw trivial
    | ok u =>
      have hcons := consecutive_of_prepareMerge (h.store.proper left hleft)
        (h.store.proper right hright) hprep
      exact h.keep t 0 .pending ⟨hleft, hright, hcons⟩
  | mergeCommit t left right ht res hres =>
    obtain ⟨hleft, hright, hends, hnext⟩ : left ∈ s.store.instances ∧ right ∈ s.store.instances ∧
        left.range.stop = right.range.start ∧ left.nextSegmentId = right.segmentId := by
      simpa [ht, StoreThreadOk] using h.threads t
    refine h.commit t ?_
    rw [← hres]
    rcases h.store.commitMerge hleft hright hends hnext with hgave | ⟨s', ls, rs, merged, hcommit, hr⟩
    · exact .inl hgave
    · exact .inr ⟨s', ls, _, _, rs, hcommit, hr⟩
  | mergeDeltaPrepare t x ht =>
    have hx : x ∈ s.store.instances := by simpa [ht, StoreThreadOk] using h.threads t
    exact h.keep t 0 .pending hx
  | mergeDeltaCommit t x ht res hres =>
    have hx : x ∈ s.store.instances := by simpa [ht, StoreThreadOk] using h.threads t
    refine h.commit t ?_
    rw [← hres]
    rcases h.store.commitMergeDelta hx with hgave | ⟨s', ls, rs, x', hcommit, hr⟩
    · exact .inl hgave
    · exact .inr ⟨s', ls, _, _, rs, hcommit, hr⟩
  | fail t ids => exact h.keep t ids .threw trivial

/-! ## Runs -/

theorem storeSystemInv_create (hn : 0 < n) : StoreSystemInv n (StoreSystem.create n : StoreSystem c) := by
  set first : Segment c := ⟨0, 0, .newAll c n, 1, 0⟩ with hfirst
  have hstore : (StoreSystem.create n : StoreSystem c).store
      = ⟨[first.entry], update (fun _ => none) 1 (some first), [], [first], 3⟩ := rfl
  refine ⟨?_, fun t => trivial⟩
  rw [hstore]
  have hlist : ∀ x, x ∈ [first] → x = first := fun x hx => mem_singleton.1 hx
  refine ⟨rfl, ?_, ?_, fun x hx => hx, ⟨rfl, rfl⟩, ⟨rfl, rfl⟩, nodup_singleton _, ?_, ?_, ?_, ?_, ?_⟩
  · exact inst_concat (l := []) (by simp) rfl
  · intro x hx
    obtain rfl := hlist x hx
    exact ⟨canonical_newAll c n, newAll_nonempty c hn⟩
  · intro x hx
    obtain rfl := hlist x hx
    exact Nat.one_pos
  · intro x hx
    obtain rfl := hlist x hx
    show 1 ≤ 3
    omega
  · have hempty : IdMap (fun _ => none) ([] ++ [] : List (Segment c)) := by
      intro id x
      simp
    exact hempty.insert (x := first) (by simp)
  · intro x hx
    exact iff_of_true hx (by simp)
  · simp

theorem storeSystemInv_of_reachable (hn : 0 < n) (h : StoreSystem.Reachable n s) : StoreSystemInv n s := by
  induction h with
  | create => exact storeSystemInv_create hn
  | step _ hstep ih => exact (ih.step hstep).inv

/-- The segments tile the key space, and the maps agree. -/
structure Tiled (n : Nat) (s : DeltaMergeStore c) : Prop where
  /-- The keys of the map point into the instances that the map holds. -/
  keys : ∀ e ∈ s.segments, e.1 = e.2.endRef
  sorted : s.segments.Pairwise fun a b => a.1.lt b.1 = true
  ranges : RangesChained (newAll c n).start s.segmentList (newAll c n).stop
  nonempty : ∀ x ∈ s.segmentList, x.range.none = false ∧
    x.range.start.toRowKeyValueRef.compare x.range.stop.toRowKeyValueRef < 0
  ids : IdsChained 1 s.segmentList 0
  idToSegment : IdMap s.idToSegment s.segmentList

theorem StoreInv.tiled {s : DeltaMergeStore c} (h : StoreInv n s) : Tiled n s := by
  refine ⟨?_, ?_, h.ranges, ?_, h.ids, h.idToSegment⟩
  · intro e he
    rw [h.segments] at he
    obtain ⟨x, -, rfl⟩ := mem_map.1 he
    rfl
  · rw [h.segments, pairwise_map]
    have hord := h.ordered
    refine hord.ascending.imp_of_mem fun hx hy hxy => ?_
    exact (endRef_lt_iff (hord.canonical _ hx) (hord.canonical _ hy)).2 hxy
  · intro x hx
    have hproper := h.proper x (h.mem x hx)
    refine ⟨none_eq_false_iff.2 hproper.upward, ?_⟩
    rw [RowKeyValueRef.compare_neg_iff x.range.start.sound_toRowKeyValueRef
      x.range.stop.sound_toRowKeyValueRef]
    show x.range.start.pos < x.range.stop.pos
    rw [hproper.canonical.start, hproper.canonical.stop]
    exact hproper.upward

/-- In every state that a store can reach its segments tile the key space, and a step that gives up or
throws changes neither map. -/
theorem segments_tile_key_space {n : Nat} (hn : 0 < n) {s : StoreSystem c}
    (hs : StoreSystem.Reachable n s) :
    Tiled n s.store ∧ ∀ outcome s', StoreSystem.Step s outcome s' → outcome ≠ .applied →
      s'.store.segments = s.store.segments ∧ s'.store.idToSegment = s.store.idToSegment := by
  have hinv := storeSystemInv_of_reachable hn hs
  refine ⟨hinv.store.tiled, fun outcome s' hstep hne => ?_⟩
  have hspec := hinv.step hstep
  exact ⟨hspec.segments hne, hspec.idToSegment hne⟩

/-- A store of integer handles whose only segment is split at the handle 5. -/
theorem segments_tile_key_space_split :
    ∃ s : StoreSystem false, StoreSystem.Reachable 1 s ∧ s.store.segmentList.length = 2 ∧
      Tiled 1 s.store := by
  set first : Segment false := ⟨0, 0, .newAll false 1, 1, 0⟩
  set input : SplitInput false := ⟨false, 0, 0, 0, [], [[.int ⟨5, by decide⟩]]⟩
  have hreach : StoreSystem.Reachable 1 _ := .step (.step (.step .create
      (.splitStart _ 0 first true rfl (mem_singleton.2 rfl) _ rfl))
      (.splitPrepare _ 0 first input rfl _ rfl))
      (.splitCommit _ 0 first ⟨false, .ofKey (.int ⟨5, by decide⟩)⟩ (by with_unfolding_all rfl) _ rfl)
  exact ⟨_, hreach, by with_unfolding_all rfl, (segments_tile_key_space Nat.one_pos hreach).1⟩

end TiFlash.DM
