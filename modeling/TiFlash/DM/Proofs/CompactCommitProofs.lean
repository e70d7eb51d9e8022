import TiFlash.DM.Proofs.CompactProofs

/-!
# Proofs: the commit of `compact`

Only `compact` takes saved packs out of the list, one thread at a time (`is_updating`). So the packs of the
tasks still stand where they were found, and each result takes their place (`Replaced`).
-/

namespace TiFlash.DM

variable {c : Bool} {D : Type*}

open DeltaValueSpace List

/-! ## Replacing groups of packs -/

/-- The second list is the first one with the result of every task in the place of its packs. -/
inductive Replaced : List CompactTask → List PackPtr → List PackPtr → Prop
  | nil (ps : List PackPtr) : Replaced [] ps ps
  | cons {task : CompactTask} {tasks : List CompactTask} (pre : List PackPtr) {post post' : List PackPtr}
      (h : Replaced tasks post post') :
      Replaced (task :: tasks) (pre ++ task.toCompact ++ post) (pre ++ task.result :: post')

theorem Located.replaced {tasks : List CompactTask} {ps : List PackPtr}
    (h : Located (tasks.map CompactTask.toCompact) ps) : ∃ ps', Replaced tasks ps ps' := by
  induction tasks generalizing ps with
  | nil => exact ⟨ps, .nil ps⟩
  | cons task tasks ih =>
    obtain ⟨-, pre, post, rfl, hrest⟩ := h
    obtain ⟨post', hpost⟩ := ih hrest
    exact ⟨_, .cons pre hpost⟩

namespace Replaced

variable {tasks : List CompactTask} {ps ps' : List PackPtr}

section

variable (h : Replaced tasks ps ps')
include h

theorem append (qs : List PackPtr) :
    Replaced tasks (ps ++ qs) (ps' ++ qs) := by
  induction h with
  | nil ps => exact .nil _
  | @cons task tasks pre post post' h ih =>
    have hcons : Replaced (task :: tasks) (pre ++ task.toCompact ++ (post ++ qs))
        (pre ++ task.result :: (post' ++ qs)) := .cons pre ih
    simpa using hcons

theorem replaceTasks_eq (hne : ∀ task ∈ tasks, task.toCompact ≠ []) (hnodup : ps.Nodup) :
    replaceTasks tasks ps = some ps' := by
  induction h with
  | nil ps => rfl
  | @cons task tasks pre post post' h ih =>
    have hpost : replaceTasks tasks post = some post' :=
      ih (fun t ht => hne t (mem_cons_of_mem task ht)) (nodup_append.1 hnodup).2.1
    obtain ⟨first, group, hfirst⟩ := exists_cons_of_ne_nil (hne task mem_cons_self)
    obtain ⟨front, last, hlast⟩ : ∃ front last, task.toCompact = front ++ [last] :=
      ⟨_, _, (dropLast_append_getLast (hne task mem_cons_self)).symm⟩
    obtain ⟨hpg, -, -⟩ := nodup_append.1 hnodup
    obtain ⟨-, hg, hdisj⟩ := nodup_append.1 hpg
    have hfirstNew : first ∉ pre := fun hin => hdisj first hin first (by simp [hfirst]) rfl
    have hlastNew : last ∉ front := by
      rw [hlast, nodup_append] at hg
      exact fun hin => hg.2.2 last hin last (by simp) rfl
    have hbefore : (pre ++ task.toCompact ++ post).takeWhile
        (fun p => decide (some p ≠ task.toCompact.head?)) = pre := by
      rw [hfirst, append_assoc, List.head?_cons]
      exact takeWhile_ne_head hfirstNew _
    have hback : (task.toCompact ++ post).dropWhile (fun p => decide (some p ≠ task.toCompact.getLast?))
        = last :: post := by
      rw [hlast, List.getLast?_concat, append_assoc]
      have hsplit := takeWhile_ne_head hlastNew post
      have happ := takeWhile_append_dropWhile (p := fun q => decide (some q ≠ some last))
        (l := front ++ last :: post)
      rw [hsplit] at happ
      exact append_cancel_left happ
    rw [replaceTasks]
    simp only [hbefore]
    rw [append_assoc, drop_left, hback]
    simp only [hpost]
    rfl

theorem sublist : (tasks.flatMap CompactTask.toCompact).Sublist ps := by
  induction h with
  | nil ps => exact nil_sublist ps
  | cons pre h ih =>
    rw [flatMap_cons, append_assoc]
    exact ((List.Sublist.refl _).append ih).trans (sublist_append_right _ _)

/-- A pack of the new list is a result or an old pack of no task. -/
theorem mem (hnodup : ps.Nodup) {p : PackPtr} (hp : p ∈ ps') :
    (∃ task ∈ tasks, p = task.result) ∨ (p ∈ ps ∧ ∀ task ∈ tasks, p ∉ task.toCompact) := by
  induction h with
  | nil ps => exact .inr ⟨hp, by simp⟩
  | @cons task tasks pre post post' h ih =>
    obtain ⟨hpg, hpost, hdisj⟩ := nodup_append.1 hnodup
    obtain ⟨-, -, hdisj'⟩ := nodup_append.1 hpg
    rcases mem_append.1 hp with hpre | hp
    · refine .inr ⟨by simp [hpre], fun t ht hin => ?_⟩
      rcases mem_cons.1 ht with rfl | ht
      · exact hdisj' p hpre p hin rfl
      · have hgroup : p ∈ post := h.sublist.subset (mem_flatMap.2 ⟨t, ht, hin⟩)
        exact hdisj p (mem_append_left _ hpre) p hgroup rfl
    · rcases mem_cons.1 hp with rfl | hp
      · exact .inl ⟨task, mem_cons_self, rfl⟩
      · rcases ih hpost hp with ⟨t, ht, rfl⟩ | ⟨hin, hno⟩
        · exact .inl ⟨t, mem_cons_of_mem task ht, rfl⟩
        · refine .inr ⟨by simp [hin], fun t ht hpt => ?_⟩
          rcases mem_cons.1 ht with rfl | ht
          · exact hdisj p (mem_append_right _ hpt) p hin rfl
          · exact hno t ht hpt

theorem mem_or {p : PackPtr} (hp : p ∈ ps') :
    p ∈ ps ∨ ∃ task ∈ tasks, p = task.result := by
  induction h with
  | nil => exact .inl hp
  | @cons task tasks pre post post' h ih =>
    rcases mem_append.1 hp with hp | hp
    · exact .inl (by simp [hp])
    · rcases mem_cons.1 hp with rfl | hp
      · exact .inr ⟨task, mem_cons_self, rfl⟩
      · rcases ih hp with hin | ⟨t, ht, rfl⟩
        · exact .inl (by simp [hin])
        · exact .inr ⟨t, mem_cons_of_mem task ht, rfl⟩

theorem pairwise {R : PackPtr → PackPtr → Prop} (hps : ps.Pairwise R)
    (hresults : tasks.Pairwise fun t u => R t.result u.result)
    (hcross : ∀ p ∈ ps, ∀ task ∈ tasks, R p task.result ∧ R task.result p) : ps'.Pairwise R := by
  induction h with
  | nil ps => exact hps
  | @cons task tasks pre post post' h ih =>
    obtain ⟨hpg, hpost, hfar⟩ := pairwise_append.1 hps
    obtain ⟨hpre, -, -⟩ := pairwise_append.1 hpg
    obtain ⟨hhead, hrest⟩ := pairwise_cons.1 hresults
    have hpost' := ih hpost hrest fun p hp t ht =>
      hcross p (mem_append_right _ hp) t (mem_cons_of_mem task ht)
    refine pairwise_append.2 ⟨hpre, pairwise_cons.2 ⟨?_, hpost'⟩, ?_⟩
    · intro p hp
      rcases h.mem_or hp with hin | ⟨t, ht, rfl⟩
      · exact (hcross p (mem_append_right _ hin) task mem_cons_self).2
      · exact hhead t ht
    · intro q hq p hp
      have hqin : q ∈ pre ++ task.toCompact ++ post := by simp [hq]
      rcases mem_cons.1 hp with rfl | hp
      · exact (hcross q hqin task mem_cons_self).1
      · rcases h.mem_or hp with hin | ⟨t, ht, rfl⟩
        · exact hfar q (mem_append_left _ hq) p hin
        · exact (hcross q hqin t (mem_cons_of_mem task ht)).1

theorem flatMap_eq {α : Type*} {g : PackPtr → List α}
    (hresult : ∀ task ∈ tasks, g task.result = task.toCompact.flatMap g) : ps'.flatMap g = ps.flatMap g := by
  induction h with
  | nil => rfl
  | @cons task tasks pre post post' h ih =>
    rw [flatMap_append, flatMap_cons, flatMap_append, flatMap_append, append_assoc,
      hresult task mem_cons_self, ih fun t ht => hresult t (mem_cons_of_mem task ht)]

theorem sum_eq {g : PackPtr → Nat} (hresult : ∀ task ∈ tasks, g task.result = (task.toCompact.map g).sum) :
    (ps'.map g).sum = (ps.map g).sum := by
  induction h with
  | nil => rfl
  | @cons task tasks pre post post' h ih =>
    have hpost := ih fun t ht => hresult t (mem_cons_of_mem task ht)
    simp only [map_append, map_cons, sum_append, sum_cons, hpost, hresult task mem_cons_self]
    omega

end

end Replaced

/-! ## The commit -/

section Commit

variable {d : DeltaValueSpace c D} {appended : List (DeltaItem c D)} {tasks : List CompactTask}
  {saved' : List PackPtr} {page : MetaPage c}

theorem DeltaOk.page_ne (h : DeltaOk d appended) {p q : PackPtr} (hp : p ∈ d.packs) (hq : q ∈ d.packs)
    (hne : p ≠ q) (h0 : (d.packAt p).dataPage ≠ 0) : (d.packAt p).dataPage ≠ (d.packAt q).dataPage := by
  have hpages : d.packs.Pairwise fun p q =>
      (d.packAt p).dataPage ≠ 0 → (d.packAt p).dataPage ≠ (d.packAt q).dataPage :=
    pairwise_map.1 h.pages
  have : Std.Symm fun p q : PackPtr =>
      (d.packAt p).dataPage ≠ 0 → (d.packAt p).dataPage ≠ (d.packAt q).dataPage :=
    ⟨fun _ _ himp hq0 heq => himp (heq ▸ hq0) heq.symm⟩
  exact hpages.forall hp hq hne h0

/-- What holds between the preparation and the commit -/
structure Compacting (d : DeltaValueSpace c D) (appended : List (DeltaItem c D)) (tasks : List CompactTask)
    (saved' : List PackPtr) : Prop where
  delta : DeltaOk d appended
  replaced : Replaced tasks d.savedPtrs saved'
  rows : ∀ task ∈ tasks, ∀ p ∈ task.toCompact, (d.packAt p).isDeleteRange = false
  result : ∀ task ∈ tasks, CompactResult d task
  nodup : (tasks.map fun task => (d.packAt task.result).dataPage).Nodup
  pages : ∀ task ∈ tasks, ∀ p ∈ d.packs, (d.packAt p).dataPage ≠ (d.packAt task.result).dataPage

namespace Compacting

/-- The delta behind the commit -/
def after (d : DeltaValueSpace c D) (saved' : List PackPtr) (page : MetaPage c) : DeltaValueSpace c D :=
  { d with metaPage := page, packs := saved' ++ d.unsavedPtrs }

section

variable (h : Compacting d appended tasks saved')
include h

theorem replaced_packs :
    Replaced tasks d.packs (saved' ++ d.unsavedPtrs) := by
  have := h.replaced.append d.unsavedPtrs
  rwa [h.delta.packs_eq] at this

theorem mem {p : PackPtr} (hp : p ∈ saved' ++ d.unsavedPtrs) :
    (∃ task ∈ tasks, p = task.result) ∨ (p ∈ d.packs ∧ ∀ task ∈ tasks, p ∉ task.toCompact) :=
  h.replaced_packs.mem h.delta.nodup hp

theorem saved_mem {p : PackPtr} (hp : p ∈ saved') :
    (d.packAt p).saved = true := by
  rcases h.replaced.mem_or hp with hin | ⟨task, ht, rfl⟩
  · exact (mem_savedPtrs.1 hin).2
  · exact (h.result task ht).saved

end

theorem unsaved_mem {p : PackPtr} (hp : p ∈ d.unsavedPtrs) : (d.packAt p).saved = false :=
  (mem_unsavedPtrs.1 hp).2

section

variable (h : Compacting d appended tasks saved')
include h

theorem packOk :
    ∀ p ∈ saved' ++ d.unsavedPtrs, p < d.nextPack ∧ PackOk d (d.packAt p) := by
  intro p hp
  rcases h.mem hp with ⟨task, ht, rfl⟩ | ⟨hin, -⟩
  · exact ⟨(h.result task ht).bound, .inr (h.result task ht).holds⟩
  · exact ⟨h.delta.bound p hin, h.delta.ok p hin⟩

theorem nodup_packs : (saved' ++ d.unsavedPtrs).Nodup := by
  refine h.replaced_packs.pairwise h.delta.nodup ?_ ?_
  · exact (pairwise_map.1 h.nodup).imp fun hne heq => hne (by rw [heq])
  · intro p hp task ht
    have hne : p ≠ task.result := fun heq => h.pages task ht p hp (by rw [heq])
    exact ⟨hne, hne.symm⟩

theorem distinctPages :
    DistinctPages ((saved' ++ d.unsavedPtrs).map fun p => (d.packAt p).dataPage) := by
  refine pairwise_map.2 (h.replaced_packs.pairwise (pairwise_map.1 h.delta.pages) ?_ ?_)
  · refine (pairwise_map.1 h.nodup).imp ?_
    exact fun hne _ => hne
  · intro p hp task ht
    exact ⟨fun _ => h.pages task ht p hp, fun _ => (h.pages task ht p hp).symm⟩

theorem rows_eq :
    totalRows ((saved' ++ d.unsavedPtrs).map d.packAt) = totalRows d.packList := by
  rw [totalRows, totalRows, packList, map_map, map_map]
  refine h.replaced_packs.sum_eq fun task ht => ?_
  have := (h.result task ht).rows
  rwa [totalRows, map_map] at this

theorem deletes_eq :
    totalDeletes ((saved' ++ d.unsavedPtrs).map d.packAt) = totalDeletes d.packList := by
  rw [totalDeletes, totalDeletes, packList, map_map, map_map]
  refine h.replaced_packs.sum_eq fun task ht => ?_
  obtain ⟨xs, hxs⟩ := (h.result task ht).holds
  have hzero : ∀ n ∈ task.toCompact.map fun p => (d.packAt p).isDeleteRange.toNat, n = 0 := by
    intro n hn
    obtain ⟨p, hp, rfl⟩ := mem_map.1 hn
    rw [h.rows task ht p hp]
    rfl
  show (d.packAt task.result).isDeleteRange.toNat = _
  rw [hxs.notRange]
  exact (sum_eq_zero hzero).symm

theorem items_eq :
    ((saved' ++ d.unsavedPtrs).map d.packAt).flatMap Pack.items = d.packList.flatMap Pack.items := by
  rw [packList, flatMap_map, flatMap_map]
  refine h.replaced_packs.flatMap_eq fun task ht => ?_
  have := (h.result task ht).items
  rwa [flatMap_map] at this

theorem unsavedPacks_eq :
    unsavedPacks ((saved' ++ d.unsavedPtrs).map d.packAt) = unsavedPacks d.packList := by
  have hnone : unsavedPacks (saved'.map d.packAt) = [] := by
    refine filter_eq_nil_iff.2 fun q hq => ?_
    obtain ⟨p, hp, rfl⟩ := mem_map.1 hq
    simp [h.saved_mem hp]
  have hall : unsavedPacks (d.unsavedPtrs.map d.packAt) = d.unsavedPtrs.map d.packAt := by
    refine filter_eq_self.2 fun q hq => ?_
    obtain ⟨p, hp, rfl⟩ := mem_map.1 hq
    simp [unsaved_mem hp]
  rw [map_append, unsavedPacks_append, hnone, hall, unsavedPacks_packList, nil_append]

theorem ledger (hpage : serializeSavedPacks ((saved' ++ d.unsavedPtrs).map d.packAt) = some page) :
    Ledger ((saved' ++ d.unsavedPtrs).map d.packAt) d.counters appended page := by
  have hsame : d.counters = ⟨d.counters.rows, d.counters.deletes, d.counters.unsavedRows - 0,
      d.counters.unsavedDeletes - 0⟩ := rfl
  rw [hsame]
  refine h.delta.ledger.replace ?_ h.rows_eq h.deletes_eq ?_ ?_ h.items_eq hpage
  · rw [pairwise_map]
    refine pairwise_append.2 ⟨?_, ?_, ?_⟩
    · exact pairwise_of_forall_mem_list fun p hp _ _ _ => h.saved_mem hp
    · exact pairwise_of_forall_mem_list fun p _ q hq hqs => by simp [unsaved_mem hq] at hqs
    · exact fun p hp _ _ _ => h.saved_mem hp
  · rw [h.unsavedPacks_eq, Nat.add_zero]
  · rw [h.unsavedPacks_eq, Nat.add_zero]

theorem writable {p : PackPtr} (hp : (saved' ++ d.unsavedPtrs).getLast? = some p) :
    Writable d (d.packAt p) := by
  have hok := (h.packOk p (mem_of_getLast? hp)).2
  rw [List.getLast?_append] at hp
  cases hun : d.unsavedPtrs.getLast? with
  | none =>
    rw [hun, Option.none_or] at hp
    intro happ
    rw [hok.closed_of_saved (h.saved_mem (mem_of_getLast? hp))] at happ
    cases happ
  | some q =>
    obtain rfl : q = p := by simpa [hun] using hp
    apply h.delta.writable
    rw [← h.delta.packs_eq, List.getLast?_append, hun]
    rfl

theorem deltaOk (hpage : serializeSavedPacks ((saved' ++ d.unsavedPtrs).map d.packAt) = some page) :
    DeltaOk (after d saved' page) appended := by
  have hf : Frame [] [] d (after d saved' page) := (Frame.refl [] [] d).congr rfl rfl rfl rfl rfl rfl
  refine ⟨h.nodup_packs, fun p hp => (h.packOk p hp).1, ?_, fun p hp => h.writable hp, h.ledger hpage,
    h.delta.pagePos, h.distinctPages⟩
  exact fun p hp => (h.packOk p hp).2.frame hf (.refl _) (fun _ => not_mem_nil) not_mem_nil

theorem compactCommit_eq (habandoned : d.abandoned = false) (hne : ∀ task ∈ tasks, task.toCompact ≠ [])
    (writtenLog : List PageId) :
    ∃ page, serializeSavedPacks ((saved' ++ d.unsavedPtrs).map d.packAt) = some page ∧
      d.compactCommit tasks writtenLog = some (true, after d saved' page) := by
  have hser : ∀ q ∈ (saved' ++ d.unsavedPtrs).map d.packAt, q.Serializable := by
    intro q hq
    obtain ⟨p, hp, rfl⟩ := mem_map.1 hq
    exact (h.packOk p hp).2.serializable
  obtain ⟨page, hpage, -⟩ := deserializePacks_serializeSavedPacks hser
  refine ⟨page, hpage, ?_⟩
  have hledger := h.ledger hpage
  have hrows : d.rowsOfPacks (saved' ++ d.unsavedPtrs) = d.rows := by
    rw [rowsOfPacks_eq]
    exact hledger.rows.symm
  have hdeletes : d.deletesOfPacks (saved' ++ d.unsavedPtrs) = d.deletes := by
    rw [deletesOfPacks_eq]
    exact hledger.deletes.symm
  have hall : (((saved' ++ d.unsavedPtrs).dropWhile fun p => (d.packAt p).saved).all
      fun p => !(d.packAt p).saved) = true := by
    rw [dropWhile_append_of_pos fun p hp => h.saved_mem hp, all_eq_true]
    intro p hp
    simp [unsaved_mem ((dropWhile_sublist _).subset hp)]
  have hcheck : d.checkNewPacks (saved' ++ d.unsavedPtrs) = true := by
    simp [checkNewPacks, hall, hrows, hdeletes]
  unfold compactCommit
  rw [if_neg (by simp [habandoned]), h.replaced_packs.replaceTasks_eq hne h.delta.nodup]
  simp only [hcheck, hpage]
  rfl

theorem evolves (page : MetaPage c) :
    Evolves d (after d saved' page) := by
  have hun : (after d saved' page).unsavedPtrs = d.unsavedPtrs := by
    have hpacks : (after d saved' page).packs = saved' ++ d.unsavedPtrs := rfl
    have hnone : (saved'.filter fun p => !(d.packAt p).saved) = [] :=
      filter_eq_nil_iff.2 fun p hp => by simp [h.saved_mem hp]
    have hall : (d.unsavedPtrs.filter fun p => !(d.packAt p).saved) = d.unsavedPtrs :=
      filter_eq_self.2 fun p hp => by simp [unsaved_mem hp]
    rw [unsavedPtrs, hpacks, filter_append]
    show (saved'.filter fun p => !(d.packAt p).saved) ++ _ = _
    rw [hnone, nil_append]
    exact hall
  constructor
  · intro l p _ hl _
    rw [hun]
    exact hl
  · intro p _ hs hno hin
    rcases h.mem hin with ⟨task, ht, rfl⟩ | ⟨hin', -⟩
    · simp [(h.result task ht).saved] at hs
    · exact hno hin'

theorem removedPages :
    (tasks.flatMap fun task => task.toCompact.map fun p => (d.packAt p).dataPage).Nodup ∧
      ∀ page ∈ tasks.flatMap fun task => task.toCompact.map fun p => (d.packAt p).dataPage,
        page ≠ 0 ∧ page < d.nextPage ∧ (∀ p ∈ saved' ++ d.unsavedPtrs, (d.packAt p).dataPage ≠ page) ∧
          ∃ p ∈ d.packs, (d.packAt p).dataPage = page := by
  have hmap : (tasks.flatMap fun task => task.toCompact.map fun p => (d.packAt p).dataPage)
      = (tasks.flatMap CompactTask.toCompact).map fun p => (d.packAt p).dataPage := by
    rw [map_flatMap]
  have hgroup : ∀ p ∈ tasks.flatMap CompactTask.toCompact,
      p ∈ d.packs ∧ (d.packAt p).dataPage ≠ 0 ∧ ∃ task ∈ tasks, p ∈ task.toCompact := by
    intro p hp
    obtain ⟨task, ht, hpt⟩ := mem_flatMap.1 hp
    obtain ⟨hin, hs⟩ := mem_savedPtrs.1 (h.replaced.sublist.subset hp)
    refine ⟨hin, fun h0 => ?_, task, ht, hpt⟩
    rcases h.delta.ok p hin with hr | ⟨xs, hxs⟩
    · simpa [hr.range] using h.rows task ht p hpt
    · simp [(hxs.unpaged h0).1] at hs
  rw [hmap]
  constructor
  · refine pairwise_map.2 ?_
    have hsub := (pairwise_map.1 h.delta.pages).sublist h.replaced_packs.sublist
    exact hsub.imp_of_mem fun {p q} hp _ himp => himp (hgroup p hp).2.1
  · intro page hpage
    obtain ⟨p, hp, rfl⟩ := mem_map.1 hpage
    obtain ⟨hin, h0, task, ht, hpt⟩ := hgroup p hp
    refine ⟨h0, (h.delta.ok p hin).page_lt h.delta.pagePos, ?_, p, hin, rfl⟩
    intro q hq
    rcases h.mem hq with ⟨u, hu, rfl⟩ | ⟨hqin, hno⟩
    · exact (h.pages u hu p hin).symm
    · have hne : p ≠ q := fun heq => hno task ht (heq ▸ hpt)
      exact (h.delta.page_ne hin hqin hne h0).symm

end

end Compacting

end Commit

theorem SystemOk.compactCommit {s : DeltaSystem c D} (h : SystemOk s) {t : Nat} {tasks : List CompactTask}
    {writtenLog removedLog : List PageId}
    (ht : s.threads t = .compactWriting [] tasks writtenLog removedLog) :
    ∃ res, s.delta.compactCommit tasks writtenLog = some res ∧
      SystemOk (s.update t (.compactFinished (if res.1 then removedLog else [])) res.2) := by
  have hupd : (s.threads t).Updates := by rw [ht]; trivial
  have hflag : s.delta.isUpdating = true := h.updating t hupd
  have hown : (s.threads t).pages = writtenLog := by rw [ht]; rfl
  have hc : CompactOk s.delta [] tasks writtenLog removedLog := by
    have := h.thread t
    rwa [ht] at this
  cases habandoned : s.delta.abandoned with
  | true =>
    refine ⟨(false, s.delta.delPages writtenLog), by simp [DeltaValueSpace.compactCommit, habandoned], ?_⟩
    exact h.stepQuiet (Frame.delPages writtenLog) rfl (fun _ _ => rfl) rfl rfl (fun page hp => hown ▸ hp)
      trivial .nil (by simp [Thread.pages]) .inl (fun _ => ⟨hflag, .inl hupd⟩)
  | false =>
    have hlocated := hc.located
    rw [append_nil] at hlocated
    obtain ⟨saved', hreplaced⟩ := hlocated.replaced
    have hmem : ∀ task ∈ tasks, (s.delta.packAt task.result).dataPage ∈ (s.threads t).pages := by
      intro task htask
      rw [hown, hc.written]
      exact mem_map_of_mem htask
    have hcompact : Compacting s.delta s.appended tasks saved' := by
      refine ⟨h.delta, hreplaced, ?_, hc.result, ?_, ?_⟩
      · intro task htask p hp
        exact hc.rows task.toCompact (mem_append_left _ (mem_map_of_mem htask)) p hp
      · rw [← hc.written, ← hown]
        exact h.pagesNodup t
      · exact fun task htask p hp => (h.pages t _ (hmem task htask)).2.2 p hp
    have hne : ∀ task ∈ tasks, task.toCompact ≠ [] :=
      fun task htask => hlocated.ne_nil _ (mem_map_of_mem htask)
    obtain ⟨page, hpage, heq⟩ := hcompact.compactCommit_eq habandoned hne writtenLog
    have hremoved := hcompact.removedPages
    rw [← hc.removed] at hremoved
    refine ⟨_, heq, ?_⟩
    refine h.stepThread
      ⟨(Frame.refl [] [] s.delta).congr rfl rfl rfl rfl rfl rfl, hcompact.evolves page, by simp,
        not_mem_nil, fun _ _ _ => not_mem_nil⟩
      (hcompact.deltaOk hpage) ?_ (by simp) trivial hremoved.1 ?_ (.inr hupd) .inl
      (fun _ => ⟨hflag, .inl hupd⟩)
    · intro p hp _
      rcases hcompact.mem hp with ⟨task, htask, rfl⟩ | ⟨hin, -⟩
      · exact .inr (.inl (hmem task htask))
      · exact .inl ⟨p, hin, rfl⟩
    · intro q hq
      obtain ⟨h0, hlt, hlist, hold⟩ := hremoved.2 q hq
      exact ⟨h0, hlt, hlist, .inr (.inr hold)⟩

end TiFlash.DM
