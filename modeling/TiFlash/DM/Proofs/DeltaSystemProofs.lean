import TiFlash.DM.Proofs.CompactCommitProofs

/-!
# Proofs: a delta value space in every reachable state

Every step keeps `SystemOk`, and a delta value space starts with it. What a reader may rely on, whatever
the threads have done so far, is `Consistent`.
-/

namespace TiFlash.DM

variable {c : Bool} {D : Type*}

open DeltaValueSpace List Option

/-! ## The remaining steps -/

section Flags

variable {s : DeltaSystem c D}

theorem SystemOk.abandon (h : SystemOk s) {d' : DeltaValueSpace c D} (hd' : s.delta.abandon = some d') :
    SystemOk { s with delta := d' } := by
  unfold DeltaValueSpace.abandon at hd'
  split_ifs at hd' with habandoned
  obtain rfl := some.inj hd'
  have hf : Frame [] [] s.delta { s.delta with abandoned := true } :=
    (Frame.refl [] [] s.delta).congr rfl rfl rfl rfl rfl rfl
  have hkeep := KeepsPages.nil s.delta
  exact h.stepAppend (hf.toStep h.delta rfl hkeep) (h.delta.quiet hf rfl hkeep (fun _ _ => rfl) rfl rfl)
    (fun p hp _ => .inl ⟨p, hp, rfl⟩) ⟨[], (append_nil _).symm⟩ rfl

theorem SystemOk.startUpdating (h : SystemOk s) {t : Nat} {thread : Thread c D}
    (hthread : thread = .idle ∨
      s.delta.startUpdating.1 = true ∧ (thread = .compactStarted ∨ thread = .updateSnapshot)) :
    SystemOk (s.update t thread s.delta.startUpdating.2) := by
  have hf : Frame [] [] s.delta s.delta.startUpdating.2 := by
    unfold DeltaValueSpace.startUpdating
    split_ifs
    · exact Frame.refl [] [] s.delta
    · exact (Frame.refl [] [] s.delta).congr rfl rfl rfl rfl rfl rfl
  have heq : s.delta.startUpdating.2 = { s.delta with isUpdating := true } := by
    unfold DeltaValueSpace.startUpdating
    split_ifs with hflag
    · rw [← hflag]
    · rfl
  rw [heq] at hf ⊢
  have hpages : thread.pages = [] := by
    rcases hthread with rfl | ⟨-, rfl | rfl⟩ <;> rfl
  have hok : ThreadOk { s.delta with isUpdating := true } thread := by
    rcases hthread with rfl | ⟨-, rfl | rfl⟩ <;> trivial
  refine h.stepQuiet hf rfl (fun _ _ => rfl) rfl rfl (by simp) hok (by rw [hpages]; exact .nil)
    (by simp [hpages]) (fun _ => .inl rfl) fun hupd => ⟨rfl, .inr ?_⟩
  rcases hthread with rfl | ⟨hset, -⟩
  · exact hupd.elim
  · unfold DeltaValueSpace.startUpdating at hset
    split_ifs at hset with hflag
    simpa using hflag

/-- The thread that has set `is_updating` resets it and removes the pages it holds. -/
theorem SystemOk.stopUpdating (h : SystemOk s) {t : Nat} (hupd : (s.threads t).Updates)
    {removed : List PageId} (hremoved : (s.threads t).pages = removed) :
    SystemOk (s.update t .idle { s.delta.delPages removed with isUpdating := false }) := by
  have hf : Frame removed [] s.delta { s.delta.delPages removed with isUpdating := false } :=
    (Frame.delPages removed).congr rfl rfl rfl rfl rfl rfl
  exact h.stepQuiet hf rfl (fun _ _ => rfl) rfl rfl (fun page hp => hremoved ▸ hp) trivial .nil
    (by simp [Thread.pages]) (fun _ => .inr hupd) (fun hno => hno.elim)

end Flags

/-! ## Runs -/

variable {s s' : DeltaSystem c D}

theorem SystemOk.step (h : SystemOk s) (hstep : DeltaSystem.Step s s') :
    SystemOk s' := by
  cases hstep with
  | appendToCache cacheLimitRows block offset limit bytes res hcolumns hlimit hres =>
    obtain ⟨res', heq, hok⟩ := h.appendToCache cacheLimitRows hcolumns hlimit bytes
    obtain rfl := some.inj (heq.symm.trans hres)
    exact hok
  | appendToDisk block bytes hcolumns => exact h.appendToDisk hcolumns bytes
  | appendDeleteRange range hrange => exact h.appendDeleteRange hrange
  | abandon delta hd => exact h.abandon hd
  | flushPrepare t f delta ht hres =>
    obtain ⟨f', d', heq, hok⟩ := h.flushPrepare t
    obtain ⟨rfl, rfl⟩ := Prod.mk.inj (some.inj (heq.symm.trans hres))
    exact hok
  | flushWrite t f ht => exact h.flushWrite ht
  | flushCommit t f smallPackRows res ht hres =>
    obtain ⟨res', heq, hok⟩ := h.flushCommit ht smallPackRows
    obtain rfl := some.inj (heq.symm.trans hres)
    exact hok
  | compactStart t ht =>
    refine h.startUpdating ?_
    split_ifs with hset
    · exact .inr ⟨hset, .inl rfl⟩
    · exact .inl rfl
  | compactPrepare t smallPackRows tasks delta ht hres =>
    obtain ⟨tasks', d', heq, hok⟩ := h.compactPrepare ht smallPackRows
    obtain ⟨rfl, rfl⟩ := Prod.mk.inj (some.inj (heq.symm.trans hres))
    exact hok
  | compactWrite t bytes toCompact pending tasks writtenLog removedLog delta ht hres =>
    obtain ⟨d', heq, hok⟩ := h.compactWrite ht bytes
    obtain rfl := some.inj (heq.symm.trans hres)
    exact hok
  | compactCommit t tasks writtenLog removedLog res ht hres =>
    obtain ⟨res', heq, hok⟩ := h.compactCommit ht
    obtain rfl := some.inj (heq.symm.trans hres)
    exact hok
  | compactFinish t removedLog ht =>
    exact h.stopUpdating (by rw [ht]; trivial) (by rw [ht]; rfl)
  | createSnapshot t ht =>
    refine h.startUpdating ?_
    split_ifs with hset
    · exact .inr ⟨(Bool.and_eq_true_iff.1 hset).1, .inr rfl⟩
    · exact .inl rfl
  | releaseSnapshot t ht =>
    have hpages : (s.threads t).pages = [] := by rw [ht]; rfl
    have hok := h.stopUpdating (by rw [ht]; trivial) hpages
    simpa [delPages] using hok

theorem SystemOk.run (h : SystemOk s) (hrun : Relation.ReflTransGen DeltaSystem.Step s s') : SystemOk s' := by
  induction hrun with
  | refl => exact h
  | tail _ hstep ih => exact ih.step hstep

/-! ## What a reader may rely on -/

/-- A delta value space just created from readable packs: those of a meta page, or clones that nobody may
append to. -/
structure Created (s : DeltaSystem c D) : Prop where
  setUp : s.delta = s.delta.setUp
  idle : ∀ t, s.threads t = .idle
  nodup : s.delta.packs.Nodup
  bound : ∀ p ∈ s.delta.packs, p < s.delta.nextPack
  ok : ∀ p ∈ s.delta.packs, PackOk s.delta (s.delta.packAt p)
  closed : ∀ p ∈ s.delta.packs, (s.delta.packAt p).isAppendable = false
  savedPrefix : s.delta.packList.Pairwise fun p q => q.saved = true → p.saved = true
  metaPage : serializeSavedPacks s.delta.packList = some s.delta.metaPage
  appended : s.delta.packList.flatMap Pack.items = s.appended
  pagePos : 0 < s.delta.nextPage
  pages : DistinctPages s.delta.pageList

theorem Created.systemOk (h : Created s) : SystemOk s := by
  have hcounters : s.delta.counters = s.delta.setUp.counters := by rw [← h.setUp]
  have hledger : Ledger s.delta.packList s.delta.counters s.appended s.delta.metaPage := by
    rw [hcounters]
    refine ⟨h.savedPrefix, rowsOfPacks_eq _ _, deletesOfPacks_eq _ _, ?_, ?_, h.appended, h.metaPage⟩
    · rw [unsavedPacks_packList]
      exact rowsOfPacks_eq _ _
    · rw [unsavedPacks_packList]
      exact deletesOfPacks_eq _ _
  refine ⟨⟨h.nodup, h.bound, h.ok, ?_, hledger, h.pagePos, h.pages⟩, ?_, ?_, ?_, ?_, ?_, ?_⟩
  · intro p hp happ
    rw [h.closed p (mem_of_getLast? hp)] at happ
    cases happ
  · intro t
    rw [h.idle t]
    trivial
  · intro t
    rw [h.idle t]
    exact .nil
  · intro t page hp
    rw [h.idle t] at hp
    cases hp
  · intro t u _ page hp
    rw [h.idle t] at hp
    cases hp
  · intro t hupd
    rw [h.idle t] at hupd
    exact hupd.elim
  · intro t u hupd
    rw [h.idle t] at hupd
    exact hupd.elim

/-- Saved packs come first, the counters are the sums over the packs, the packs hold what was appended, and
the meta page has the saved ones. -/
structure Consistent (s : DeltaSystem c D) : Prop where
  savedPrefix : ∃ saved unsaved, s.delta.packList = saved ++ unsaved ∧ (∀ p ∈ saved, p.saved = true) ∧
    ∀ p ∈ unsaved, p.saved = false
  rows : s.delta.rows = totalRows s.delta.packList
  deletes : s.delta.deletes = totalDeletes s.delta.packList
  unsavedRows : s.delta.unsavedRows = totalRows (unsavedPacks s.delta.packList)
  unsavedDeletes : s.delta.unsavedDeletes = totalDeletes (unsavedPacks s.delta.packList)
  /-- The packs stand for everything that was appended, in the order of the appends. -/
  appended : s.delta.packList.flatMap Pack.items = s.appended
  /-- A pack is read as the rows that were appended to it; a flush may have permuted them in the pack
  it wrote. -/
  read : ∀ p ∈ s.delta.packList, p.isDeleteRange = false →
    ∃ groups, List.Forall₂ List.Perm p.origin groups ∧ s.delta.readPack p = some groups.flatten ∧
      (p.saved = false → groups = p.origin)
  metaPage : deserializePacks s.delta.metaPage
    = some ((s.delta.packList.takeWhile Pack.saved).map Pack.stored)

theorem Holds.read {d : DeltaValueSpace c D} {pack : Pack c D} {xs : List (Row (RowKey c) D)}
    (h : Holds d pack xs) :
    ∃ groups, List.Forall₂ List.Perm pack.origin groups ∧ d.readPack pack = some groups.flatten ∧
      (pack.saved = false → groups = pack.origin) := by
  cases hs : pack.saved with
  | true =>
    obtain ⟨groups, hperm, hflat⟩ := h.groups
    exact ⟨groups, hperm, by rw [h.readPack_eq, hflat], by simp⟩
  | false =>
    have horigin := h.unsaved hs
    refine ⟨[xs], ?_, by simp [h.readPack_eq], fun _ => horigin.symm⟩
    rw [horigin]
    exact .cons (.refl _) .nil

theorem SystemOk.consistent (h : SystemOk s) : Consistent s := by
  have hledger := h.delta.ledger
  have hser : ∀ q ∈ s.delta.packList, q.Serializable := by
    intro q hq
    obtain ⟨p, hp, rfl⟩ := mem_map.1 hq
    exact (h.delta.ok p hp).serializable
  refine ⟨⟨s.delta.savedPtrs.map s.delta.packAt, s.delta.unsavedPtrs.map s.delta.packAt, ?_, ?_, ?_⟩,
    hledger.rows, hledger.deletes, hledger.unsavedRows, hledger.unsavedDeletes, hledger.items, ?_, ?_⟩
  · rw [← map_append, h.delta.packs_eq, packList]
  · intro q hq
    obtain ⟨p, hp, rfl⟩ := mem_map.1 hq
    exact (mem_savedPtrs.1 hp).2
  · intro q hq
    obtain ⟨p, hp, rfl⟩ := mem_map.1 hq
    exact (mem_unsavedPtrs.1 hp).2
  · intro q hq hrange
    obtain ⟨p, hp, rfl⟩ := mem_map.1 hq
    rcases h.delta.ok p hp with hr | ⟨xs, hxs⟩
    · simp [hr.range] at hrange
    · exact hxs.read
  · obtain ⟨page, hpage, hread⟩ := deserializePacks_serializeSavedPacks hser
    obtain rfl := some.inj (hledger.metaPage.symm.trans hpage)
    exact hread

/-- However its threads are interleaved, a delta value space stays consistent. -/
theorem delta_value_space_consistent {s s' : DeltaSystem c D} (h : Created s)
    (hrun : Relation.ReflTransGen DeltaSystem.Step s s') : Consistent s' :=
  (h.systemOk.run hrun).consistent

/-- A delta without packs, and no thread at work -/
def emptyDelta : DeltaSystem false Nat where
  delta :=
    { packAt := fun _ => {}
      cacheAt := fun _ => ⟨[], []⟩
      logPages := fun _ => none
      metaPage := ⟨currentVersion, 0, []⟩
      nextPack := 0
      nextCache := 0
      nextSchema := 0
      nextPage := 1
      packs := []
      rows := 0
      deletes := 0
      unsavedRows := 0
      unsavedDeletes := 0
      abandoned := false
      isUpdating := false }
  threads := fun _ => .idle
  appended := []

theorem emptyDelta_created : Created emptyDelta :=
  ⟨rfl, fun _ => rfl, .nil, by simp [emptyDelta], by simp [emptyDelta], by simp [emptyDelta], .nil, rfl, rfl,
    Nat.zero_lt_one, .nil⟩

/-- Two rows that are not in the order of their handles. -/
def twoRows : DataBlock false Nat :=
  ⟨[⟨-1, "_tidb_rowid", "Int64"⟩],
    [⟨.int 7, 1, false, 0⟩, ⟨.int 3, 1, false, 0⟩]⟩

theorem delta_value_space_consistent_flushed :
    ∃ s, Relation.ReflTransGen DeltaSystem.Step emptyDelta s ∧ s.delta.rows = 2 ∧
      s.delta.unsavedRows = 0 ∧ Consistent s := by
  have happended := Relation.ReflTransGen.single
    (DeltaSystem.Step.appendToDisk emptyDelta twoRows 32 (by simp [twoRows]))
  have hprepared := happended.tail (.flushPrepare _ 0 _ _ rfl rfl)
  have hwritten := hprepared.tail (.flushWrite _ 0 _ rfl)
  have hcommitted := hwritten.tail (.flushCommit _ 0 _ 8 _ rfl rfl)
  exact ⟨_, hcommitted, rfl, rfl, delta_value_space_consistent emptyDelta_created hcommitted⟩

end TiFlash.DM
