import TiFlash.DM.Proofs.FlushCommitProofs

/-!
# Proofs: the steps of `compact`

The packs of the tasks are saved. While a compaction runs no other one does, and a flush leaves saved
packs alone, so at the commit the tasks are where they were.
-/

namespace TiFlash.DM

variable {c : Bool} {D : Type*}

open DeltaValueSpace List

/-! ## Preparing the tasks -/

section Prepare

variable {d : DeltaValueSpace c D} {appended : List (DeltaItem c D)} {groups : List (List PackPtr)}

variable {ps : List PackPtr}

theorem Located.ne_nil (h : Located groups ps) :
    ∀ group ∈ groups, group ≠ [] := by
  induction groups generalizing ps with
  | nil => simp
  | cons g groups ih =>
    obtain ⟨hne, pre, post, rfl, hrest⟩ := h
    exact forall_mem_cons.2 ⟨hne, ih hrest⟩

theorem Located.concat {group : List PackPtr} (h : Located groups ps)
    (hne : group ≠ []) : Located (groups ++ [group]) (ps ++ group) := by
  induction groups generalizing ps with
  | nil => exact ⟨hne, ps, [], by simp, trivial⟩
  | cons g groups ih =>
    obtain ⟨hg, pre, post, rfl, hrest⟩ := h
    exact ⟨hg, pre, post ++ group, by simp, ih hrest⟩

/-- Tasks in the order of the packs, without a delete range. -/
structure TasksIn (d : DeltaValueSpace c D) (tasks : List (List PackPtr)) (ps : List PackPtr) : Prop where
  located : Located tasks ps
  rows : ∀ group ∈ tasks, ∀ p ∈ group, (d.packAt p).isDeleteRange = false

variable {tasks : List (List PackPtr)}

theorem TasksIn.append (h : TasksIn d tasks ps) (qs : List PackPtr) : TasksIn d tasks (ps ++ qs) :=
  ⟨h.located.append qs, h.rows⟩

variable {task : List PackPtr}

theorem TasksIn.concat (h : TasksIn d tasks ps)
    (hlen : task.length ≥ 2) (htask : ∀ p ∈ task, (d.packAt p).isDeleteRange = false) :
    TasksIn d (tasks ++ [task]) (ps ++ task) := by
  refine ⟨h.located.concat (fun hnil => by simp [hnil] at hlen), ?_⟩
  exact forall_mem_append.2 ⟨h.rows, forall_mem_singleton.2 htask⟩

/-- The tasks found so far, the task at hand and what is left lie in this order. -/
theorem compactTasks_spec (smallPackRows : Nat) {front : List PackPtr}
    (hps : ∀ p ∈ ps, (d.packAt p).saved = true → (d.packAt p).dataFlushable = false) {tasks : List (List PackPtr)} (htasks : TasksIn d tasks front)
    (htask : ∀ p ∈ task, (d.packAt p).isDeleteRange = false) (dropped : List PackPtr) :
    ∃ tasks' dropped', d.compactTasks smallPackRows task tasks dropped ps = some (tasks', dropped') ∧
      TasksIn d tasks' (front ++ task ++ ps.takeWhile fun p => (d.packAt p).saved) ∧
      dropped' ⊆ dropped ++ task ++ ps.takeWhile fun p => (d.packAt p).saved := by
  have hend : ∀ {task : List PackPtr} {tasks : List (List PackPtr)} {front : List PackPtr},
      TasksIn d tasks front → (∀ p ∈ task, (d.packAt p).isDeleteRange = false) →
      TasksIn d (if task.length ≥ 2 then tasks ++ [task] else tasks) (front ++ task) := by
    intro task tasks front htasks htask
    split_ifs with hlen
    · exact htasks.concat hlen htask
    · exact htasks.append task
  induction ps generalizing front task tasks dropped with
  | nil => exact ⟨_, dropped, rfl, by simpa using hend htasks htask, by simp⟩
  | cons p ps ih =>
    obtain ⟨hflushable, hps⟩ := forall_mem_cons.1 hps
    cases hs : (d.packAt p).saved with
    | false =>
      rw [compactTasks, hs]
      exact ⟨_, dropped, rfl, by simpa [hs] using hend htasks htask, by simp [hs]⟩
    | true =>
      -- every branch goes on with the same packs, cut differently
      have hnext : ∃ front' task' tasks' dropped',
          d.compactTasks smallPackRows task tasks dropped (p :: ps)
            = d.compactTasks smallPackRows task' tasks' dropped' ps ∧
          TasksIn d tasks' front' ∧ (∀ q ∈ task', (d.packAt q).isDeleteRange = false) ∧
          front' ++ task' = front ++ task ++ [p] ∧ dropped' ++ task' ⊆ dropped ++ task ++ [p] := by
        rw [compactTasks]
        simp only [hs, Bool.not_true, Bool.false_eq_true, if_false, hflushable hs]
        have hone : (!(d.packAt p).isDeleteRange && decide ((d.packAt p).rows < smallPackRows)) = true →
            ∀ q ∈ [p], (d.packAt q).isDeleteRange = false := by
          simp +contextual
        split_ifs with hcut hsp hlen hlen
        · exact ⟨front ++ task, [p], tasks ++ [task], dropped, rfl, htasks.concat hlen htask, hone hsp, rfl,
            by simp⟩
        · exact ⟨front ++ task, [p], tasks, dropped ++ task, rfl, htasks.append task, hone hsp, rfl, by simp⟩
        · exact ⟨front ++ task ++ [p], [], tasks ++ [task], dropped ++ [p], rfl,
            (htasks.concat hlen htask).append [p], by simp, by simp, by simp⟩
        · exact ⟨front ++ task ++ [p], [], tasks, dropped ++ task ++ [p], rfl,
            (htasks.append task).append [p], by simp, by simp, by simp⟩
        · have hp := hone (by simp at hcut ⊢; exact hcut.1)
          exact ⟨front, task ++ [p], tasks, dropped, rfl, htasks, forall_mem_append.2 ⟨htask, hp⟩, by simp,
            by simp⟩
      obtain ⟨front', task', tasks', dropped', hstep, htasks', htask', hcut, hdrop⟩ := hnext
      obtain ⟨ts, dr, heq, hts, hdr⟩ := ih hps htasks' htask' dropped'
      rw [takeWhile_cons_of_pos (by simpa using hs), append_cons (front ++ task),
        append_cons (dropped ++ task), ← hcut]
      exact ⟨ts, dr, hstep.trans heq, hts, List.Subset.trans hdr
        (append_subset.2 ⟨subset_append_of_subset_left _ hdrop, subset_append_right _ _⟩)⟩

variable {pack : Pack c D}

theorem PackOk.not_flushable_of_saved (h : PackOk d pack) (hs : pack.saved = true) :
    pack.dataFlushable = false := by
  by_contra hno
  obtain ⟨-, xs, -, hxs⟩ := h.cache_of_flushable (by simpa using hno)
  have h0 : pack.dataPage = 0 := by simpa [Pack.dataFlushable, hxs.notRange] using hno
  simp [(hxs.unpaged h0).1] at hs

theorem PackOk.same_dropped (h : PackOk d pack) (hs : pack.saved = true) :
    SamePack pack { pack with cache := none } := by
  refine ⟨rfl, ?_, id⟩
  rcases h with hr | ⟨xs, hxs⟩
  · exact .inl hr.cache.symm
  · refine .inr ⟨fun h0 => ?_, rfl⟩
    simp [(hxs.unpaged h0).1] at hs

theorem takeWhile_saved (h : DeltaOk d appended) :
    (d.packs.takeWhile fun p => (d.packAt p).saved) = d.savedPtrs := by
  have hsaved : ∀ p ∈ d.savedPtrs, (d.packAt p).saved = true := fun p hp => (mem_savedPtrs.1 hp).2
  conv_lhs => rw [← h.packs_eq]
  rw [takeWhile_append_of_pos hsaved]
  cases hun : d.unsavedPtrs with
  | nil => simp
  | cons p ps =>
    have hp : (d.packAt p).saved = false := (mem_unsavedPtrs.1 (hun ▸ mem_cons_self)).2
    rw [takeWhile_cons_of_neg (by simp [hp]), append_nil]

theorem dropCaches_frame (h : DeltaOk d appended) {dropped : List PackPtr}
    (hdropped : ∀ p ∈ dropped, p ∈ d.savedPtrs) : Frame [] [] d (d.dropCaches dropped) := by
  refine ⟨le_rfl, le_rfl, le_rfl, ?_, fun _ _ => ⟨rfl, prefix_rfl⟩, fun _ _ _ => rfl⟩
  intro p _ _
  by_cases hp : p ∈ dropped
  · obtain ⟨hin, hs⟩ := mem_savedPtrs.1 (hdropped p hp)
    simpa [dropCaches, hp] using (h.ok p hin).same_dropped hs
  · simpa [dropCaches, hp] using SamePack.refl (d.packAt p)

end Prepare

variable {s : DeltaSystem c D} {t : Nat}

theorem SystemOk.compactPrepare (h : SystemOk s) (ht : s.threads t = .compactStarted) (smallPackRows : Nat) :
    ∃ tasks d', s.delta.compactPrepare smallPackRows = some (tasks, d') ∧
      SystemOk (s.update t
        (if tasks.isEmpty then .compactFinished [] else .compactWriting tasks [] [] []) d') := by
  have hupd : (s.threads t).Updates := by rw [ht]; trivial
  have hflag : s.delta.isUpdating = true := h.updating t hupd
  cases habandoned : s.delta.abandoned with
  | true =>
    refine ⟨[], s.delta, by simp [DeltaValueSpace.compactPrepare, habandoned], ?_⟩
    exact h.stepQuiet (Frame.refl [] [] _) rfl (fun _ _ => rfl) rfl rfl (by simp) trivial .nil
      (by simp [Thread.pages]) .inl (fun _ => ⟨hflag, .inl hupd⟩)
  | false =>
    have hnone : TasksIn s.delta [] [] := ⟨trivial, by simp⟩
    obtain ⟨tasks, dropped, heq, htasks, hdropped⟩ := compactTasks_spec smallPackRows
      (fun p hp => (h.delta.ok p hp).not_flushable_of_saved) hnone (forall_mem_nil _) []
    rw [takeWhile_saved h.delta] at htasks hdropped
    have hframe : Frame [] [] s.delta (s.delta.dropCaches dropped) :=
      dropCaches_frame h.delta fun p hp => hdropped hp
    refine ⟨tasks, s.delta.dropCaches dropped, ?_, ?_⟩
    · simp [DeltaValueSpace.compactPrepare, habandoned, heq]
    · split_ifs with hempty
      · exact h.stepQuiet hframe rfl (fun _ _ => rfl) rfl rfl (by simp) trivial .nil
          (by simp [Thread.pages]) .inl (fun _ => ⟨hflag, .inl hupd⟩)
      · refine h.stepQuiet hframe rfl (fun _ _ => rfl) rfl rfl (by simp) ?_ .nil
          (by simp [Thread.pages]) .inl (fun _ => ⟨hflag, .inl hupd⟩)
        refine ⟨?_, ?_, by simp, rfl, rfl⟩
        · rw [(hframe.ptrs_eq h.delta rfl).1]
          simpa using htasks.located
        · intro group hg p hp
          have hin : p ∈ s.delta.packs := (mem_savedPtrs.1 (by simpa using htasks.located.mem group hg p hp)).1
          rw [(hframe.same_packs h.delta p hin).isDeleteRange]
          exact htasks.rows group hg p hp

/-! ## Writing the tasks -/

section Write

variable {d : DeltaValueSpace c D} {group : List PackPtr}

theorem readGroup (h : ∀ p ∈ group, ∃ xs, Holds d (d.packAt p) xs) :
    ∃ blocks, (group.mapM fun p => d.readPack (d.packAt p)) = some blocks ∧
      blocks.flatten.length = totalRows (group.map d.packAt) ∧
      ∃ groups, List.Forall₂ List.Perm (group.flatMap fun p => (d.packAt p).origin) groups ∧
        groups.flatten = blocks.flatten := by
  induction group with
  | nil => exact ⟨[], rfl, rfl, [], .nil, rfl⟩
  | cons p group ih =>
    obtain ⟨xs, hxs⟩ := h p mem_cons_self
    obtain ⟨blocks, hread, hlen, groups, hperm, hflat⟩ := ih fun q hq => h q (mem_cons_of_mem p hq)
    obtain ⟨gs, hgs, hgsflat⟩ := hxs.groups
    refine ⟨xs :: blocks, ?_, ?_, gs ++ groups, ?_, ?_⟩
    · rw [mapM_cons, hxs.readPack_eq, hread]
      rfl
    · simp [hlen, totalRows, hxs.rows]
    · exact rel_append hgs hperm
    · simp [hgsflat, hflat]

theorem items_group {pack : Pack c D} (hpack : pack.isDeleteRange = false)
    (horigin : pack.origin = group.flatMap fun p => (d.packAt p).origin)
    (hgroup : ∀ p ∈ group, (d.packAt p).isDeleteRange = false) :
    pack.items = (group.map d.packAt).flatMap Pack.items := by
  rw [items_of_rows hpack, horigin]
  clear horigin
  induction group with
  | nil => rfl
  | cons p group ih =>
    have hrest := ih fun q hq => hgroup q (mem_cons_of_mem p hq)
    rw [flatMap_cons, flatten_append, map_append, hrest, map_cons, flatMap_cons,
      items_of_rows (hgroup p mem_cons_self)]

theorem CompactOk.push {pending : List (List PackPtr)} {group : List PackPtr} {tasks : List CompactTask}
    {writtenLog removedLog : List PageId} {p : PackPtr}
    (h : CompactOk d (group :: pending) tasks writtenLog removedLog) (hp : CompactResult d ⟨group, p⟩) :
    CompactOk d pending (tasks ++ [⟨group, p⟩]) (writtenLog ++ [(d.packAt p).dataPage])
      (removedLog ++ group.map fun q => (d.packAt q).dataPage) := by
  have hgroups : (tasks ++ [CompactTask.mk group p]).map CompactTask.toCompact ++ pending
      = tasks.map CompactTask.toCompact ++ group :: pending := by
    simp
  refine ⟨hgroups ▸ h.located, hgroups ▸ h.rows, ?_, ?_, ?_⟩
  · exact forall_mem_append.2 ⟨h.result, forall_mem_singleton.2 hp⟩
  · rw [h.written, map_append, map_singleton]
  · rw [h.removed, flatMap_append, flatMap_singleton]

theorem compactWrite_spec (hne : group ≠ []) (hpos : 0 < d.nextPage)
    (hbound : ∀ p ∈ group, p < d.nextPack) (hgroup : ∀ p ∈ group, ∃ xs, Holds d (d.packAt p) xs)
    (bytes : Nat) :
    ∃ d', d.compactWrite group bytes = some d' ∧ Frame [] [] d d' ∧
      d' = { d with
        packAt := d'.packAt, logPages := d'.logPages, nextPack := d.nextPack + 1,
        nextPage := d.nextPage + 1 } ∧
      (d'.packAt d.nextPack).dataPage = d.nextPage ∧ CompactResult d' ⟨group, d.nextPack⟩ := by
  obtain ⟨blocks, hread, hlen, hgroups⟩ := readGroup hgroup
  have hrange : ∀ p ∈ group, (d.packAt p).isDeleteRange = false := by
    intro p hp
    obtain ⟨xs, hxs⟩ := hgroup p hp
    exact hxs.notRange
  have hany : (group.any fun p => (d.packAt p).isDeleteRange) = false := by
    simpa using hrange
  obtain ⟨p₀, rest, rfl⟩ := exists_cons_of_ne_nil hne
  obtain ⟨xs₀, hxs₀⟩ := hgroup p₀ mem_cons_self
  set pack : Pack c D :=
    { rows := blocks.flatten.length
      bytes := bytes
      schema := (d.packAt p₀).schema
      dataPage := d.nextPage
      saved := true
      appendable := false
      origin := (p₀ :: rest).flatMap fun p => (d.packAt p).origin } with hpack
  set d' := (d.writePackData blocks.flatten).makePack pack with hd'
  have hf : Frame [] [] d d' := (Frame.writePackData blocks.flatten).trans (Frame.makePack pack)
  have hnew : d'.packAt d.nextPack = pack := by
    simp [hd', makePack, writePackData]
  have hold : ∀ p ∈ p₀ :: rest, d'.packAt p = d.packAt p := by
    intro p hp
    simp [hd', makePack, writePackData, (hbound p hp).ne]
  have hmap : (p₀ :: rest).map d'.packAt = (p₀ :: rest).map d.packAt := map_congr_left hold
  refine ⟨d', ?_, hf, rfl, by rw [hnew], ?_⟩
  · unfold compactWrite
    rw [if_neg (by simp [hany]), hread]
    rfl
  · refine ⟨Nat.lt_succ_self _, by rw [hnew], by rw [hnew], ⟨blocks.flatten, ?_⟩, ?_, ?_⟩
    · rw [hnew]
      refine ⟨rfl, rfl, by simp [hpack], ?_, fun h0 => absurd h0 hpos.ne', hxs₀.schema, hgroups,
        by simp [hpack]⟩
      intro _
      refine ⟨Nat.lt_succ_self _, ?_⟩
      simp [hd', hpack, makePack, writePackData]
    · rw [hnew, hmap, ← hlen]
    · rw [hnew, hmap]
      exact items_group rfl rfl hrange

end Write

theorem SystemOk.compactWrite (h : SystemOk s) {group : List PackPtr}
    {pending : List (List PackPtr)} {tasks : List CompactTask} {writtenLog removedLog : List PageId}
    (ht : s.threads t = .compactWriting (group :: pending) tasks writtenLog removedLog) (bytes : Nat) :
    ∃ d', s.delta.compactWrite group bytes = some d' ∧
      SystemOk (s.update t
        (.compactWriting pending (tasks ++ [⟨group, s.delta.nextPack⟩]) (writtenLog ++ [s.delta.nextPage])
          (removedLog ++ group.map fun p => (s.delta.packAt p).dataPage)) d') := by
  have hupd : (s.threads t).Updates := by rw [ht]; trivial
  have hflag : s.delta.isUpdating = true := h.updating t hupd
  have hpagesEq : (s.threads t).pages = writtenLog := by rw [ht]; rfl
  have hc : CompactOk s.delta (group :: pending) tasks writtenLog removedLog := by
    have := h.thread t
    rwa [ht] at this
  have hmem : group ∈ tasks.map CompactTask.toCompact ++ group :: pending := by simp
  have hin : ∀ p ∈ group, p ∈ s.delta.packs :=
    fun p hp => (mem_savedPtrs.1 (hc.located.mem group hmem p hp)).1
  have hholds : ∀ p ∈ group, ∃ xs, Holds s.delta (s.delta.packAt p) xs := by
    intro p hp
    rcases h.delta.ok p (hin p hp) with hr | hxs
    · have := hc.rows group hmem p hp
      simp [hr.range] at this
    · exact hxs
  obtain ⟨d', heq, hf, hd', hpage, hresult⟩ := compactWrite_spec (hc.located.ne_nil group hmem)
    h.delta.pagePos (fun p hp => h.delta.bound p (hin p hp)) hholds bytes
  have hpacks : d'.packs = s.delta.packs := by rw [hd']
  have hsaved : d'.savedPtrs = s.delta.savedPtrs ++ [] := by
    rw [(hf.ptrs_eq h.delta hpacks).1, append_nil]
  have hold : CompactOk d' (group :: pending) tasks writtenLog removedLog :=
    hc.frame h.delta (hf.toStep h.delta hpacks (KeepsPages.nil _)) (fun _ _ => not_mem_nil) hsaved
  have hremoved : (group.map fun p => (s.delta.packAt p).dataPage)
      = group.map fun p => (d'.packAt p).dataPage :=
    map_congr_left fun p hp => ((hf.same_packs h.delta p (hin p hp)).dataPage).symm
  have hnew : ∀ page ∈ writtenLog, page ≠ 0 ∧ page < s.delta.nextPage := by
    intro page hp
    obtain ⟨h0, hlt, -⟩ := h.pages t page (hpagesEq ▸ hp)
    exact ⟨h0, hlt⟩
  refine ⟨d', heq, h.stepQuiet hf hpacks (fun _ _ => by rw [hd']) (by rw [hd']; rfl) (by rw [hd'])
    (by simp) ?_ ?_ ?_ (fun _ => .inr hupd) (fun _ => ⟨by rw [hd']; exact hflag, .inl hupd⟩)⟩
  · have hpush := hold.push hresult
    rw [hpage, ← hremoved] at hpush
    exact hpush
  · show (writtenLog ++ [s.delta.nextPage]).Nodup
    have hnd := h.pagesNodup t
    rw [hpagesEq] at hnd
    rw [nodup_append]
    refine ⟨hnd, nodup_singleton _, ?_⟩
    intro page hp page' hp'
    rw [mem_singleton.1 hp']
    exact (hnew page hp).2.ne
  · intro page hp
    have hnext : d'.nextPage = s.delta.nextPage + 1 := by rw [hd']
    rcases mem_append.1 hp with hp | hp
    · obtain ⟨h0, hlt⟩ := hnew page hp
      exact ⟨h0, hlt.trans_le hf.nextPage, .inl (hpagesEq ▸ hp)⟩
    · rw [mem_singleton.1 hp, hnext]
      exact ⟨h.delta.pagePos.ne', Nat.lt_succ_self _, .inr le_rfl⟩

end TiFlash.DM
