import TiFlash.DM.Proofs.DeltaStepProofs
import TiFlash.Lib.ExceptBind

/-!
# Proofs: the steps of `flush`
-/

namespace TiFlash.DM

variable {c : Bool} {D : Type*}

open DeltaValueSpace TiFlash.Lib List

/-! ## Preparing the tasks -/

section Prepare

variable {d : DeltaValueSpace c D} {appended : List (DeltaItem c D)}

def prepTask (d : DeltaValueSpace c D) (p : PackPtr) : FlushPackTask c D where
  pack := p
  blockData :=
    if (d.packAt p).dataFlushable then (d.packAt p).cache.map (d.readPackFromCache (d.packAt p)) else none

theorem PackOk.cache_of_flushable {pack : Pack c D} (h : PackOk d pack) (hf : pack.dataFlushable = true) :
    ∃ cp xs, pack.cache = some cp ∧ Holds d pack xs := by
  simp only [Pack.dataFlushable, Bool.and_eq_true, Bool.not_eq_true', decide_eq_true_eq] at hf
  rcases h with h | ⟨xs, h⟩
  · simp [h.range] at hf
  · obtain ⟨-, cp, hcp⟩ := h.unpaged hf.2
    exact ⟨cp, xs, hcp, h⟩

/-- The tasks are those of the packs that are not saved. Since these come last, nothing is thrown. -/
theorem flushPackTasks_eq {ps : List PackPtr} (hok : ∀ p ∈ ps, PackOk d (d.packAt p))
    (hsaved : ps.Pairwise fun p q => (d.packAt q).saved = true → (d.packAt p).saved = true)
    (tasks : List (FlushPackTask c D)) (htasks : tasks ≠ [] → ∀ p ∈ ps, (d.packAt p).saved = false) :
    d.flushPackTasks tasks ps =
      some (tasks ++ (ps.filter fun p => !(d.packAt p).saved).map (prepTask d)) := by
  induction ps generalizing tasks with
  | nil => simp [flushPackTasks]
  | cons p ps ih =>
    obtain ⟨hp, hrest⟩ := pairwise_cons.1 hsaved
    have hok' : ∀ q ∈ ps, PackOk d (d.packAt q) := fun q hq => hok q (mem_cons_of_mem p hq)
    rw [flushPackTasks]
    cases hps : (d.packAt p).saved with
    | true =>
      have hnil : tasks = [] := by
        by_contra hne
        simp [htasks hne p mem_cons_self] at hps
      subst hnil
      simp [hps, ih hok' hrest [] (fun hne => absurd rfl hne)]
    | false =>
      -- behind a pack that is not saved none is
      have hun : ∀ q ∈ ps, (d.packAt q).saved = false := by
        intro q hq
        by_contra hqs
        have := hp q hq (by simpa using hqs)
        simp [hps] at this
      cases hflush : (d.packAt p).dataFlushable with
      | true =>
        obtain ⟨cp, xs, hcp, -⟩ := (hok p mem_cons_self).cache_of_flushable hflush
        simp [hps, hcp, ih hok' hrest _ (fun _ => hun), prepTask, hflush]
      | false =>
        simp [hps, ih hok' hrest _ (fun _ => hun), prepTask, hflush]

theorem rowsOfPacks_eq (d : DeltaValueSpace c D) (ps : List PackPtr) :
    d.rowsOfPacks ps = totalRows (ps.map d.packAt) := by
  rw [rowsOfPacks, totalRows, map_map]
  rfl

theorem deletesOfPacks_eq (d : DeltaValueSpace c D) (ps : List PackPtr) :
    d.deletesOfPacks ps = totalDeletes (ps.map d.packAt) := by
  rw [deletesOfPacks, totalDeletes, map_map]
  rfl

theorem unsavedPacks_packList (d : DeltaValueSpace c D) :
    unsavedPacks d.packList = d.unsavedPtrs.map d.packAt := by
  rw [unsavedPacks, packList, filter_map]
  rfl

/-- The state in which no pack of the list can be appended to. -/
def closePacks (d : DeltaValueSpace c D) : DeltaValueSpace c D := { d with
    packAt := fun p => if p ∈ d.packs then { d.packAt p with appendable := false } else d.packAt p }

theorem closePacks_frame (d : DeltaValueSpace c D) : Frame [] [] d (closePacks d) := by
  refine ⟨le_rfl, le_rfl, le_rfl, ?_, fun _ _ => ⟨rfl, prefix_rfl⟩, fun _ _ _ => rfl⟩
  intro p _ _
  by_cases hp : p ∈ d.packs
  · simpa [closePacks, hp] using samePack_close (d.packAt p)
  · simpa [closePacks, hp] using SamePack.refl (d.packAt p)

/-- The local variables of a flush that starts now. -/
def preparedTasks (d : DeltaValueSpace c D) : FlushTasks c D where
  tasks := d.unsavedPtrs.map (prepTask d)
  flushRows := d.unsavedRows
  flushDeletes := d.unsavedDeletes

theorem preparedTasks_pack (d : DeltaValueSpace c D) :
    (preparedTasks d).tasks.map FlushPackTask.pack = d.unsavedPtrs := by
  rw [preparedTasks, map_map]
  exact map_id _

theorem flushPrepare_eq (h : DeltaOk d appended) (habandoned : d.abandoned = false) :
    d.flushPrepare = some (if d.unsavedPtrs = [] then none else some (preparedTasks d), closePacks d) := by
  have hledger := h.ledger
  have hsaved : d.packs.Pairwise fun p q => (d.packAt q).saved = true → (d.packAt p).saved = true :=
    pairwise_map.1 hledger.savedPrefix
  have htasks : d.flushPackTasks [] d.packs = some (d.unsavedPtrs.map (prepTask d)) :=
    flushPackTasks_eq h.ok hsaved [] fun hne => absurd rfl hne
  have hptrs : (d.unsavedPtrs.map (prepTask d)).map FlushPackTask.pack = d.unsavedPtrs := preparedTasks_pack d
  have hur : d.rowsOfPacks d.unsavedPtrs = d.unsavedRows := by
    rw [rowsOfPacks_eq, ← unsavedPacks_packList]
    exact hledger.unsavedRows.symm
  have hud : d.deletesOfPacks d.unsavedPtrs = d.unsavedDeletes := by
    rw [deletesOfPacks_eq, ← unsavedPacks_packList]
    exact hledger.unsavedDeletes.symm
  have hr : d.rowsOfPacks d.packs = d.rows := by
    rw [rowsOfPacks_eq]
    exact hledger.rows.symm
  have hd : d.deletesOfPacks d.packs = d.deletes := by
    rw [deletesOfPacks_eq]
    exact hledger.deletes.symm
  unfold flushPrepare
  rw [if_neg (by simp [habandoned]), htasks]
  simp only [hptrs, hur, hud, hr, hd, ne_eq, not_true_eq_false, or_self, if_false, isEmpty_map]
  by_cases hnil : d.unsavedPtrs = []
  · simp [hnil, closePacks]
  · simp [hnil, closePacks, preparedTasks]

theorem preparedTasks_ok (h : DeltaOk d appended) (hne : d.unsavedPtrs ≠ []) :
    FlushOk TaskPrepared (closePacks d) (preparedTasks d) := by
  have hf := closePacks_frame d
  have hsame := hf.same_packs h
  have hptrs := (hf.ptrs_eq h rfl).2
  have hpacks := preparedTasks_pack d
  have hclosed : ∀ p ∈ d.packs, ((closePacks d).packAt p).appendable = false := by
    intro p hp
    simp [closePacks, hp]
  have htask : ∀ task ∈ (preparedTasks d).tasks, ∃ p ∈ d.unsavedPtrs, prepTask d p = task :=
    fun task ht => mem_map.1 ht
  have hsum : ∀ {α : Type} (f : Pack c D → α), (∀ q, f q.core = f q) →
      ((preparedTasks d).tasks.map fun task => (closePacks d).packAt task.pack).map f
        = (d.unsavedPtrs.map d.packAt).map f := by
    intro α f hcore
    have hmap : ((preparedTasks d).tasks.map fun task => (closePacks d).packAt task.pack)
        = d.unsavedPtrs.map (closePacks d).packAt := by
      rw [preparedTasks, map_map]
      rfl
    rw [hmap]
    exact SamePack.map_field (fun p hp => hsame p (mem_unsavedPtrs.1 hp).1) f hcore
  refine ⟨?_, ?_, ?_⟩
  · simpa [preparedTasks] using hne
  · intro p hp
    have hmem : p ∈ d.unsavedPtrs := by
      rw [← hpacks]
      exact mem_of_mem_head? (by rw [List.head?_map]; exact hp)
    obtain ⟨hin, hs⟩ := mem_unsavedPtrs.1 hmem
    exact ⟨h.bound p hin, (hsame p hin).saved.trans hs⟩
  · intro _ _ _
    refine ⟨⟨?_, ?_, ?_, ?_⟩, ?_⟩
    · rw [hpacks, hptrs]
    · intro task ht
      obtain ⟨p, hp, rfl⟩ := htask task ht
      exact hclosed p (mem_unsavedPtrs.1 hp).1
    · rw [totalRows, hsum Pack.rows fun _ => rfl]
      rw [← unsavedPacks_packList]
      exact h.ledger.unsavedRows
    · rw [totalDeletes, hsum (fun q => q.isDeleteRange.toNat) fun _ => rfl]
      rw [← unsavedPacks_packList]
      exact h.ledger.unsavedDeletes
    · intro task ht
      obtain ⟨p, hp, rfl⟩ := htask task ht
      have hin := (mem_unsavedPtrs.1 hp).1
      show if ((closePacks d).packAt p).dataFlushable = true then _ else _
      rw [(hsame p hin).dataFlushable]
      split_ifs with hflush
      · obtain ⟨cp, xs, hcp, hxs⟩ := (h.ok p hin).cache_of_flushable hflush
        refine ⟨d.readPackFromCache (d.packAt p) cp, ?_, ?_⟩
        · simp [prepTask, hflush, hcp]
        · have hxs' := hxs.frame hf (hsame p hin) not_mem_nil
          show (closePacks d).readPack ((closePacks d).packAt p) = _
          rw [hxs'.readPack_eq]
          simp [readPackFromCache, hxs.rows, (hxs.cached cp hcp).2]
      · simp [prepTask, hflush]

end Prepare

theorem SystemOk.flushPrepare {s : DeltaSystem c D} (h : SystemOk s) (t : Nat) :
    ∃ f d', s.delta.flushPrepare = some (f, d') ∧ SystemOk (s.update t (f.elim .idle .flushPrepared) d') := by
  cases habandoned : s.delta.abandoned with
  | true =>
    refine ⟨none, s.delta, by simp [DeltaValueSpace.flushPrepare, habandoned], ?_⟩
    exact h.stepQuiet (Frame.refl [] [] _) rfl (fun _ _ => rfl) rfl rfl (by simp) trivial .nil
      (by simp [Thread.pages])
      .inl (fun hno => hno.elim)
  | false =>
    refine ⟨_, _, flushPrepare_eq h.delta habandoned, ?_⟩
    split_ifs with hnil
    · exact h.stepQuiet (closePacks_frame _) rfl (fun _ _ => rfl) rfl rfl (by simp) trivial .nil
        (by simp [Thread.pages]) .inl (fun hno => hno.elim)
    · refine h.stepQuiet (closePacks_frame _) rfl (fun _ _ => rfl) rfl rfl (by simp)
        ⟨preparedTasks_ok h.delta hnil, ?_⟩ .nil (by simp [Thread.pages]) .inl (fun hno => hno.elim)
      intro task htask
      obtain ⟨p, -, rfl⟩ := mem_map.1 htask
      rfl

/-! ## Writing the tasks -/

theorem sortBlockByPk_perm (rows : List (Row (RowKey c) D)) : (sortBlockByPk rows).2.Perm rows := by
  unfold sortBlockByPk
  split_ifs
  · exact .refl _
  · exact mergeSort_perm rows pkLe

theorem sortBlockByPk_sorted {rows : List (Row (RowKey c) D)} (h : (sortBlockByPk rows).1 = false) :
    (sortBlockByPk rows).2 = rows := by
  unfold sortBlockByPk at h ⊢
  split_ifs at h ⊢ with hs
  rfl

section Write

variable {d : DeltaValueSpace c D}

/-- The task has got a page with its rows. -/
structure WrittenAs (d d' : DeltaValueSpace c D) (task task' : FlushPackTask c D) : Prop where
  pack : task'.pack = task.pack
  none : task.blockData = none → task' = task
  some : ∀ block, task.blockData = some block →
    task'.blockData = some ⟨block.columns, (sortBlockByPk block.rows).2⟩ ∧
      task'.sorted = (sortBlockByPk block.rows).1 ∧ d.nextPage ≤ task'.dataPage ∧
      task'.dataPage < d'.nextPage ∧ d'.logPages task'.dataPage = some (sortBlockByPk block.rows).2

theorem writeTasks_eq (d : DeltaValueSpace c D) (tasks : List (FlushPackTask c D)) :
    (d.writeTasks tasks).2 =
      { d with logPages := (d.writeTasks tasks).2.logPages, nextPage := (d.writeTasks tasks).2.nextPage } := by
  induction tasks generalizing d with
  | nil => rfl
  | cons task tasks ih =>
    rw [writeTasks]
    cases task.blockData with
    | none => exact ih d
    | some block => exact ih (d.writePackData (sortBlockByPk block.rows).2)

theorem writeTasks_keeps (d : DeltaValueSpace c D) (tasks : List (FlushPackTask c D)) :
    (d.writeTasks tasks).2.packAt = d.packAt ∧ (d.writeTasks tasks).2.packs = d.packs ∧
      (d.writeTasks tasks).2.cacheAt = d.cacheAt ∧ (d.writeTasks tasks).2.counters = d.counters ∧
      (d.writeTasks tasks).2.metaPage = d.metaPage ∧ (d.writeTasks tasks).2.isUpdating = d.isUpdating := by
  rw [writeTasks_eq]
  exact ⟨rfl, rfl, rfl, rfl, rfl, rfl⟩

theorem writeTasks_frame (d : DeltaValueSpace c D) (tasks : List (FlushPackTask c D)) :
    Frame [] [] d (d.writeTasks tasks).2 := by
  induction tasks generalizing d with
  | nil => exact .refl ..
  | cons task tasks ih =>
    rw [writeTasks]
    cases task.blockData with
    | none => exact ih d
    | some block => exact (Frame.writePackData _).trans (ih _)

theorem writeTasks_spec (d : DeltaValueSpace c D) (tasks : List (FlushPackTask c D)) :
    List.Forall₂ (WrittenAs d (d.writeTasks tasks).2) tasks (d.writeTasks tasks).1 := by
  induction tasks generalizing d with
  | nil => exact .nil
  | cons task tasks ih =>
    rw [writeTasks]
    cases hb : task.blockData with
    | none => exact .cons ⟨rfl, fun _ => rfl, fun block hb' => by simp [hb] at hb'⟩ (ih d)
    | some block =>
      have hf := writeTasks_frame (d.writePackData (sortBlockByPk block.rows).2) tasks
      have hlt : d.nextPage < (d.writePackData (sortBlockByPk block.rows).2).nextPage := Nat.lt_succ_self _
      refine .cons ⟨rfl, fun hno => by simp [hb] at hno, ?_⟩ ((ih _).imp ?_)
      · intro block' hb'
        obtain rfl : block = block' := Option.some.inj (hb.symm.trans hb')
        refine ⟨rfl, rfl, le_rfl, hlt.trans_le hf.nextPage, ?_⟩
        rw [hf.page d.nextPage hlt not_mem_nil]
        simp [writePackData]
      · intro task₁ task₂ h
        refine ⟨h.pack, h.none, fun block' hb' => ?_⟩
        obtain ⟨h1, h2, h3, h4, h5⟩ := h.some block' hb'
        exact ⟨h1, h2, hlt.le.trans h3, h4, h5⟩

theorem writeTasks_pages {d : DeltaValueSpace c D} (hpos : 0 < d.nextPage)
    {tasks : List (FlushPackTask c D)} (hzero : ∀ task ∈ tasks, task.dataPage = 0) :
    (((d.writeTasks tasks).1.map FlushPackTask.dataPage).filter (· ≠ 0)).Nodup ∧
      ∀ task ∈ (d.writeTasks tasks).1, task.dataPage ≠ 0 →
        d.nextPage ≤ task.dataPage ∧ task.dataPage < (d.writeTasks tasks).2.nextPage := by
  induction tasks generalizing d with
  | nil => simp [writeTasks]
  | cons task tasks ih =>
    obtain ⟨htask, hzero⟩ := forall_mem_cons.1 hzero
    rw [writeTasks]
    cases hb : task.blockData with
    | none =>
      obtain ⟨hnodup, hpages⟩ := ih hpos hzero
      exact ⟨by simpa [htask] using hnodup, forall_mem_cons.2 ⟨absurd htask, hpages⟩⟩
    | some block =>
      have hlt : d.nextPage < (d.writePackData (sortBlockByPk block.rows).2).nextPage := Nat.lt_succ_self _
      have hf := writeTasks_frame (d.writePackData (sortBlockByPk block.rows).2) tasks
      obtain ⟨hnodup, hpages⟩ := ih (hpos.trans hlt) hzero
      refine ⟨?_, ?_⟩
      · rw [map_cons, filter_cons_of_pos (by simpa using hpos.ne'), nodup_cons]
        refine ⟨?_, hnodup⟩
        intro hmem
        obtain ⟨hmem, h0⟩ := mem_filter.1 hmem
        obtain ⟨q, hq, hqp⟩ := mem_map.1 hmem
        have hge := (hpages q hq (by rw [hqp]; simpa using h0)).1
        rw [hqp] at hge
        exact hlt.not_ge hge
      · exact forall_mem_cons.2 ⟨fun _ => ⟨le_rfl, hlt.trans_le hf.nextPage⟩,
          fun q hq h0 => (hpages q hq h0).imp_left hlt.le.trans⟩

theorem writeTasks_ok {appended : List (DeltaItem c D)} (h : DeltaOk d appended) {f : FlushTasks c D}
    (hf : FlushOk TaskPrepared d f) (hzero : ∀ task ∈ f.tasks, task.dataPage = 0) :
    FlushOk TaskWritten (d.flushWrite f).2 (d.flushWrite f).1 := by
  have hspec := writeTasks_spec d f.tasks
  have hframe := writeTasks_frame d f.tasks
  have hd' : (d.flushWrite f).2 = (d.writeTasks f.tasks).2 := rfl
  have htasks : (d.flushWrite f).1.tasks = (d.writeTasks f.tasks).1 := rfl
  obtain ⟨hpack, hpacks, -⟩ := writeTasks_keeps d f.tasks
  have hstep := hframe.toStep h hpacks (KeepsPages.nil d)
  have hptrs : (d.writeTasks f.tasks).1.map FlushPackTask.pack = f.tasks.map FlushPackTask.pack :=
    map_eq_of_forall₂ hspec fun _ _ hw => hw.pack
  have hhead : (d.writeTasks f.tasks).1.head?.map FlushPackTask.pack = f.tasks.head?.map FlushPackTask.pack := by
    rw [← List.head?_map, hptrs, List.head?_map]
  have hvals : ((d.writeTasks f.tasks).1.map fun task => d.packAt task.pack)
      = f.tasks.map fun task => d.packAt task.pack :=
    map_eq_of_forall₂ hspec fun _ _ hw => by rw [hw.pack]
  rw [hd']
  refine ⟨?_, ?_, ?_⟩
  · intro hnil
    rw [htasks] at hnil
    rw [hnil] at hptrs
    exact hf.nonempty (map_eq_nil_iff.1 hptrs.symm)
  · intro p hp
    rw [htasks, hhead] at hp
    rw [hpack]
    exact ⟨(hf.head p hp).1.trans_le hframe.nextPack, (hf.head p hp).2⟩
  · intro p hp hin
    rw [htasks, hhead] at hp
    rw [hpacks] at hin
    obtain ⟨hlive, hok⟩ := hf.live p hp hin
    refine ⟨⟨?_, ?_, ?_, ?_⟩, ?_⟩
    · rw [htasks, hptrs, (hframe.ptrs_eq h hpacks).2]
      exact hlive.place
    · intro task' ht'
      obtain ⟨task, ht, hw⟩ := exists_of_forall₂ hspec ht'
      rw [hpack, hw.pack]
      exact hlive.closed task ht
    · rw [htasks, hpack, hvals]
      exact hlive.flushRows
    · rw [htasks, hpack, hvals]
      exact hlive.flushDeletes
    · intro task' ht'
      obtain ⟨task, ht, hw⟩ := exists_of_forall₂ hspec ht'
      have hin' : task.pack ∈ d.packs := (mem_unsavedPtrs.1 (hlive.place.subset (mem_map_of_mem ht))).1
      have hsame := hframe.same_packs h task.pack hin'
      have hprep := hok task ht
      unfold TaskPrepared at hprep
      unfold TaskWritten
      rw [hw.pack, hsame.dataFlushable]
      split_ifs at hprep ⊢ with hflush
      · obtain ⟨block, hb, hread⟩ := hprep
        obtain ⟨hb', hsorted, hge, -, hlog⟩ := hw.some block hb
        refine ⟨_, block.rows, hb', ?_, sortBlockByPk_perm _, ?_, ?_, hlog⟩
        · exact (hstep.readPack h hin' hsame (dataFlushable_isDeleteRange hflush)).trans hread
        · rw [hsorted]
          exact sortBlockByPk_sorted
        · exact (h.pagePos.trans_le hge).ne'
      · rw [hw.none hprep]
        exact ⟨hprep, hzero task ht⟩

end Write

theorem SystemOk.flushWrite {s : DeltaSystem c D} (h : SystemOk s) {t : Nat} {f : FlushTasks c D}
    (ht : s.threads t = .flushPrepared f) :
    SystemOk (s.update t (.flushWritten (s.delta.flushWrite f).1) (s.delta.flushWrite f).2) := by
  obtain ⟨hflush, hzero⟩ : ThreadOk s.delta (.flushPrepared f) := ht ▸ h.thread t
  obtain ⟨hnodup, hpages⟩ := writeTasks_pages h.delta.pagePos hzero
  obtain ⟨-, hpacks, hcache, hcounters, hmeta, hupdating⟩ := writeTasks_keeps s.delta f.tasks
  refine h.stepQuiet (writeTasks_frame s.delta f.tasks) hpacks (fun cp _ => congrFun hcache cp)
    hcounters hmeta (by simp) ⟨writeTasks_ok h.delta hflush hzero, rfl⟩ hnodup ?_
    (fun hflag => .inl (hupdating.trans hflag)) (fun hno => hno.elim)
  intro page hp
  obtain ⟨hmem, h0⟩ := mem_filter.1 hp
  obtain ⟨task, htask, rfl⟩ := mem_map.1 hmem
  have h0' : task.dataPage ≠ 0 := by simpa using h0
  exact ⟨h0', (hpages task htask h0').2, .inr (hpages task htask h0').1⟩

/-! ## Copying the packs of the tasks -/

/-- Packs and caches are only added. -/
structure ExtendsObjects (d d' : DeltaValueSpace c D) : Prop where
  nextPack : d.nextPack ≤ d'.nextPack
  nextCache : d.nextCache ≤ d'.nextCache
  packAt : ∀ p < d.nextPack, d'.packAt p = d.packAt p
  cacheAt : ∀ cp < d.nextCache, d'.cacheAt cp = d.cacheAt cp
  rest : d' = { d with
    packAt := d'.packAt, cacheAt := d'.cacheAt, nextPack := d'.nextPack, nextCache := d'.nextCache }

namespace ExtendsObjects

variable {d d' d'' : DeltaValueSpace c D}

theorem refl (d : DeltaValueSpace c D) : ExtendsObjects d d :=
  ⟨le_rfl, le_rfl, fun _ _ => rfl, fun _ _ => rfl, rfl⟩

theorem trans (h : ExtendsObjects d d') (h' : ExtendsObjects d' d'') : ExtendsObjects d d'' := by
  refine ⟨h.nextPack.trans h'.nextPack, h.nextCache.trans h'.nextCache, ?_, ?_, ?_⟩
  · exact fun p hp => (h'.packAt p (hp.trans_le h.nextPack)).trans (h.packAt p hp)
  · exact fun cp hcp => (h'.cacheAt cp (hcp.trans_le h.nextCache)).trans (h.cacheAt cp hcp)
  · rw [h'.rest, h.rest]

theorem makePack (d : DeltaValueSpace c D) (pack : Pack c D) : ExtendsObjects d (d.makePack pack) := by
  refine ⟨Nat.le_succ _, le_rfl, fun p hp => ?_, fun _ _ => rfl, rfl⟩
  simp [DeltaValueSpace.makePack, hp.ne]

theorem makeCache (d : DeltaValueSpace c D) (block : DataBlock c D) :
    ExtendsObjects d (d.makeCache block) := by
  refine ⟨le_rfl, Nat.le_succ _, fun _ _ => rfl, fun cp hcp => ?_, rfl⟩
  simp [DeltaValueSpace.makeCache, hcp.ne]

theorem frame (h : ExtendsObjects d d') : Frame [] [] d d' := by
  refine ⟨h.nextPack, h.nextCache, ?_, ?_, ?_, ?_⟩
  · rw [h.rest]
  · exact fun p hp _ => h.packAt p hp ▸ .refl _
  · intro cp hcp
    rw [h.cacheAt cp hcp]
    exact ⟨rfl, prefix_rfl⟩
  · intro page _ _
    rw [h.rest]

end ExtendsObjects

/-- The saved copy of the pack of a task -/
structure SavedAs (d d' : DeltaValueSpace c D) (task : FlushPackTask c D) (p' : PackPtr) : Prop where
  fresh : d.nextPack ≤ p'
  bound : p' < d'.nextPack
  core : (d'.packAt p').core = { (d.packAt task.pack).core with
      saved := true
      dataPage := if task.dataPage ≠ 0 then task.dataPage else (d.packAt task.pack).dataPage }
  cache : (∃ block cp, task.sorted = true ∧ task.blockData = some block ∧
      (d'.packAt p').cache = some cp ∧ cp < d'.nextCache ∧ d'.cacheAt cp = block) ∨
    ((task.sorted = false ∨ task.blockData = none) ∧ (d'.packAt p').cache = (d.packAt task.pack).cache)

theorem makeSavedPack_spec (d : DeltaValueSpace c D) (task : FlushPackTask c D) :
    ExtendsObjects d (d.makeSavedPack task) ∧ d.nextPack < (d.makeSavedPack task).nextPack ∧
      SavedAs d (d.makeSavedPack task) task d.nextPack := by
  unfold makeSavedPack
  cases hs : task.sorted with
  | true =>
    cases hb : task.blockData with
    | some block =>
      refine ⟨(ExtendsObjects.makeCache d block).trans (.makePack _ _), Nat.lt_succ_self _, le_rfl,
        Nat.lt_succ_self _, ?_, .inl ⟨block, d.nextCache, hs, hb, ?_, Nat.lt_succ_self _, ?_⟩⟩
      · simp [makePack, makeCache, Pack.core]
      · simp [makePack, makeCache]
      · simp [makePack, makeCache]
    | none =>
      refine ⟨.makePack d _, Nat.lt_succ_self _, le_rfl, Nat.lt_succ_self _, ?_, .inr ⟨.inr hb, ?_⟩⟩
      · simp [makePack, Pack.core]
      · simp [makePack]
  | false =>
    refine ⟨.makePack d _, Nat.lt_succ_self _, le_rfl, Nat.lt_succ_self _, ?_, .inr ⟨.inl hs, ?_⟩⟩
    · simp [makePack, Pack.core]
    · simp [makePack]

theorem SavedAs.extend {d d' d'' : DeltaValueSpace c D} {task : FlushPackTask c D} {p' : PackPtr}
    (h : SavedAs d d' task p') (he : ExtendsObjects d' d'') : SavedAs d d'' task p' := by
  refine ⟨h.fresh, h.bound.trans_le he.nextPack, ?_, ?_⟩
  · rw [he.packAt p' h.bound]
    exact h.core
  · rw [he.packAt p' h.bound]
    rcases h.cache with ⟨block, cp, hs, hb, hc, hlt, hcp⟩ | hold
    · exact .inl ⟨block, cp, hs, hb, hc, hlt.trans_le he.nextCache, (he.cacheAt cp hlt).trans hcp⟩
    · exact .inr hold

theorem makeSavedPacks_spec (d : DeltaValueSpace c D) {tasks : List (FlushPackTask c D)}
    (hlt : ∀ task ∈ tasks, task.pack < d.nextPack) :
    ExtendsObjects d (d.makeSavedPacks tasks).2 ∧ (d.makeSavedPacks tasks).1.Pairwise (· < ·) ∧
      List.Forall₂ (SavedAs d (d.makeSavedPacks tasks).2) tasks (d.makeSavedPacks tasks).1 := by
  induction tasks generalizing d with
  | nil => exact ⟨.refl d, .nil, .nil⟩
  | cons task tasks ih =>
    obtain ⟨hone, hnext, hsaved⟩ := makeSavedPack_spec d task
    obtain ⟨hext, hpw, hall⟩ := ih (d.makeSavedPack task) fun q hq =>
      (hlt q (mem_cons_of_mem task hq)).trans_le hone.nextPack
    refine ⟨hone.trans hext, pairwise_cons.2 ⟨?_, hpw⟩, .cons (hsaved.extend hext) ?_⟩
    · intro p' hp'
      obtain ⟨q, -, hq⟩ := exists_of_forall₂ hall hp'
      exact hnext.trans_le hq.fresh
    · -- the packs of the remaining tasks are not the new one
      have hmem : List.Forall₂ (fun q p' => q ∈ tasks ∧
          SavedAs (d.makeSavedPack task) ((d.makeSavedPack task).makeSavedPacks tasks).2 q p')
          tasks ((d.makeSavedPack task).makeSavedPacks tasks).1 :=
        (List.forall₂_and_left _ _).2 ⟨fun q hq => hq, hall⟩
      refine hmem.imp fun q p' hq => ?_
      have hold := hone.packAt q.pack (hlt q (mem_cons_of_mem task hq.1))
      refine ⟨hone.nextPack.trans hq.2.fresh, hq.2.bound, ?_, ?_⟩
      · rw [← hold]
        exact hq.2.core
      · rw [← hold]
        exact hq.2.cache

namespace SavedAs

variable {d d' : DeltaValueSpace c D} {task : FlushPackTask c D} {p' : PackPtr}

section

variable (h : SavedAs d d' task p')
include h

theorem field {α : Type*} (f : Pack c D → α) (hcore : ∀ q, f q.core = f q)
    (hsaved : ∀ q b page, f { q with saved := b, dataPage := page } = f q) :
    f (d'.packAt p') = f (d.packAt task.pack) := by
  rw [← hcore, h.core, hsaved, hcore]

theorem rows : (d'.packAt p').rows = (d.packAt task.pack).rows :=
  h.field Pack.rows (fun _ => rfl) fun _ _ _ => rfl

theorem isDeleteRange :
    (d'.packAt p').isDeleteRange = (d.packAt task.pack).isDeleteRange :=
  h.field Pack.isDeleteRange (fun _ => rfl) fun _ _ _ => rfl

theorem items : (d'.packAt p').items = (d.packAt task.pack).items :=
  h.field Pack.items (fun _ => rfl) fun _ _ _ => rfl

theorem origin : (d'.packAt p').origin = (d.packAt task.pack).origin :=
  h.field Pack.origin (fun _ => rfl) fun _ _ _ => rfl

theorem schema : (d'.packAt p').schema = (d.packAt task.pack).schema :=
  h.field Pack.schema (fun _ => rfl) fun _ _ _ => rfl

theorem saved : (d'.packAt p').saved = true := congrArg (fun q : Pack c D => q.saved) h.core

theorem dataPage : (d'.packAt p').dataPage =
    if task.dataPage ≠ 0 then task.dataPage else (d.packAt task.pack).dataPage :=
  congrArg (fun q : Pack c D => q.dataPage) h.core

section

variable (he : ExtendsObjects d d') (hw : TaskWritten d task) (hpage : task.dataPage < d.nextPage)
  (hs : (d.packAt task.pack).saved = false)
include he hw hpage hs

theorem holds {xs : List (Row (RowKey c) D)} (hxs : Holds d (d.packAt task.pack) xs) :
    ∃ ys, Holds d' (d'.packAt p') ys := by
  have hlog : d'.logPages = d.logPages := by rw [he.rest]
  have hnext : d'.nextPage = d.nextPage := by rw [he.rest]
  have hcached : ∀ cp, (d.packAt task.pack).cache = some cp →
      cp < d'.nextCache ∧ (d'.cacheAt cp).rows.take xs.length = xs := by
    intro cp hcp
    obtain ⟨hlt, htake⟩ := hxs.cached cp hcp
    exact ⟨hlt.trans_le he.nextCache, by rw [he.cacheAt cp hlt, htake]⟩
  unfold TaskWritten at hw
  split_ifs at hw with hflush
  · -- the rows went to a new page
    obtain ⟨block, xs', hb, hread, hperm, hsorted, h0, hblock⟩ := hw
    obtain rfl : xs = xs' := Option.some.inj (hxs.readPack_eq.symm.trans hread)
    refine ⟨block.rows, h.isDeleteRange.trans hxs.notRange, ?_, ?_, ?_, ?_, ?_, ?_, ?_⟩
    · rw [h.rows, hxs.rows, hperm.length_eq]
    · intro cp hcp
      rcases h.cache with ⟨block', cp', -, hb', hc, hlt, hcp'⟩ | ⟨hno, hc⟩
      · obtain rfl : block = block' := Option.some.inj (hb.symm.trans hb')
        obtain rfl : cp' = cp := Option.some.inj (hc.symm.trans hcp)
        exact ⟨hlt, by rw [hcp', take_length]⟩
      · have hsame : block.rows = xs := hsorted (hno.resolve_right fun hnone => by simp [hb] at hnone)
        rw [hsame]
        exact hcached cp (hc.symm.trans hcp)
    · intro _
      rw [h.dataPage, if_pos h0, hlog, hnext]
      exact ⟨hpage, hblock⟩
    · rw [h.dataPage, if_pos h0]
      exact fun hno => absurd hno h0
    · rw [h.schema]
      exact hxs.schema
    · rw [h.origin, hxs.unsaved hs]
      exact ⟨[block.rows], .cons hperm.symm .nil, by simp⟩
    · intro hno
      simp [h.saved] at hno
  · -- the rows were in a page before
    obtain ⟨hb, h0⟩ := hw
    have hdp : (d'.packAt p').dataPage = (d.packAt task.pack).dataPage := by
      rw [h.dataPage, if_neg (by simpa using h0)]
    have hold : (d.packAt task.pack).dataPage ≠ 0 := by
      simpa [Pack.dataFlushable, hxs.notRange] using hflush
    have hc : (d'.packAt p').cache = (d.packAt task.pack).cache := by
      rcases h.cache with ⟨block', -, -, hb', -⟩ | ⟨-, hc⟩
      · simp [hb] at hb'
      · exact hc
    refine ⟨xs, h.isDeleteRange.trans hxs.notRange, h.rows.trans hxs.rows, ?_, ?_, ?_, ?_, ?_, ?_⟩
    · rw [hc]
      exact hcached
    · rw [hdp, hlog, hnext]
      exact hxs.paged
    · rw [hdp]
      exact fun hno => absurd hno hold
    · rw [h.schema]
      exact hxs.schema
    · rw [h.origin]
      exact hxs.groups
    · intro hno
      simp [h.saved] at hno

theorem packOk (hok : PackOk d (d.packAt task.pack)) : PackOk d' (d'.packAt p') := by
  rcases hok with hr | ⟨xs, hxs⟩
  · have hflush : ¬ (d.packAt task.pack).dataFlushable = true := by
      simp [Pack.dataFlushable, hr.range]
    unfold TaskWritten at hw
    rw [if_neg hflush] at hw
    refine .inl ⟨h.isDeleteRange.trans hr.range, h.rows.trans hr.rows, h.schema.trans hr.schema, ?_, ?_⟩
    · rw [h.dataPage, if_neg (by simpa using hw.2), hr.dataPage]
    · rcases h.cache with ⟨block', -, -, hb', -⟩ | ⟨-, hc⟩
      · simp [hw.1] at hb'
      · exact hc.trans hr.cache
  · exact .inr (h.holds he hw hpage hs hxs)

end

end

end SavedAs

end TiFlash.DM
