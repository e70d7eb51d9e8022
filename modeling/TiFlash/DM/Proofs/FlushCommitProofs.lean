import TiFlash.DM.Proofs.FlushProofs
import TiFlash.Lib.BinarySearch
import Mathlib.Data.List.TakeWhile

/-!
# Proofs: the commit of `flush`

A flush whose first pack has been replaced gives up. Otherwise its packs are the first ones that are not
saved, and their saved copies take their places.
-/

namespace TiFlash.DM

variable {c : Bool} {D : Type*}

open DeltaValueSpace TiFlash.Lib List

theorem distinctPages_replace {τ : Type*} {front back : List PageId} {ts : List τ} {own old : τ → PageId}
    (h : DistinctPages (front ++ ts.map old ++ back))
    (hown : ∀ t ∈ ts, own t ≠ 0 → own t ∉ front ++ ts.map old ++ back)
    (hnodup : ((ts.map own).filter (· ≠ 0)).Nodup) :
    DistinctPages (front ++ ts.map (fun t => if own t ≠ 0 then own t else old t) ++ back) := by
  have hpw : ts.Pairwise fun t u => own t ≠ 0 → own t ≠ own u := by
    have hfilter := pairwise_map.1 (pairwise_filter.1 hnodup)
    refine hfilter.imp fun {t u} htu h0 heq => ?_
    exact htu (by simpa using h0) (by simpa [← heq] using h0) heq
  obtain ⟨hft, hback, hcross⟩ := pairwise_append.1 h
  obtain ⟨hfront, hts, hcross'⟩ := pairwise_append.1 hft
  have hnotin : ∀ t ∈ ts, own t ≠ 0 →
      (∀ page ∈ front, page ≠ own t) ∧ (∀ u ∈ ts, old u ≠ own t) ∧ ∀ page ∈ back, page ≠ own t := by
    intro t ht h0
    have hno := hown t ht h0
    simp only [mem_append, not_or] at hno
    exact ⟨fun page hp heq => hno.1.1 (heq ▸ hp), fun u hu heq => hno.1.2 (heq ▸ mem_map_of_mem hu),
      fun page hp heq => hno.2 (heq ▸ hp)⟩
  refine pairwise_append.2 ⟨pairwise_append.2 ⟨hfront, ?_, ?_⟩, hback, ?_⟩
  · refine pairwise_map.2 ((hpw.and (pairwise_map.1 hts)).imp_of_mem fun {t u} ht hu htu => ?_)
    split_ifs with h1 h2 h2
    · exact htu.1
    · exact fun h0 heq => (hnotin t ht h1).2.1 u hu heq.symm
    · exact fun h0 heq => (hnotin u hu h2).2.1 t ht heq
    · exact htu.2
  · intro page hp page' hp' h0
    obtain ⟨t, ht, rfl⟩ := mem_map.1 hp'
    split_ifs with h1
    · exact (hnotin t ht h1).1 page hp
    · exact hcross' page hp _ (mem_map_of_mem ht) h0
  · intro page hp page' hp' h0
    rcases mem_append.1 hp with hp | hp
    · exact hcross page (mem_append_left _ hp) page' hp' h0
    · obtain ⟨t, ht, rfl⟩ := mem_map.1 hp
      split_ifs at h0 ⊢ with h1
      · exact ((hnotin t ht h1).2.2 page' hp').symm
      · exact hcross _ (mem_append_right _ (mem_map_of_mem ht)) page' hp' h0

section Commit

variable {d : DeltaValueSpace c D} {appended : List (DeltaItem c D)} {f : FlushTasks c D}

theorem DeltaOk.packs_eq (h : DeltaOk d appended) : d.savedPtrs ++ d.unsavedPtrs = d.packs :=
  filter_append_filter_not (pairwise_map.1 h.ledger.savedPrefix)

theorem matchTasks_eq {tasks : List (FlushPackTask c D)}
    (h : ∀ task ∈ tasks, (d.packAt task.pack).saved = false) (rest : List PackPtr) :
    d.matchTasks tasks (tasks.map FlushPackTask.pack ++ rest) = some rest := by
  induction tasks with
  | nil => cases rest <;> rfl
  | cons task tasks ih =>
    rw [map_cons, cons_append, matchTasks, if_neg (by simp [h task mem_cons_self])]
    exact ih fun q hq => h q (mem_cons_of_mem task hq)

theorem takeWhile_ne_head {start : List PackPtr} {p : PackPtr} (hp : p ∉ start) (rest : List PackPtr) :
    (start ++ p :: rest).takeWhile (fun q => decide (some q ≠ some p)) = start := by
  have hstart : ∀ q ∈ start, decide (some q ≠ some p) = true :=
    fun q hq => by simpa using ne_of_mem_of_not_mem hq hp
  rw [takeWhile_append_of_pos hstart, takeWhile_cons_of_neg (by simp), append_nil]

/-- The packs of the tasks follow the saved ones. -/
structure Placed (d : DeltaValueSpace c D) (f : FlushTasks c D) (rest : List PackPtr) : Prop where
  packs : d.packs = d.savedPtrs ++ f.tasks.map FlushPackTask.pack ++ rest
  unsaved : d.unsavedPtrs = f.tasks.map FlushPackTask.pack ++ rest
  task : ∀ task ∈ f.tasks, task.pack ∈ d.packs ∧ (d.packAt task.pack).saved = false
  rest : ∀ p ∈ rest, p ∈ d.packs ∧ (d.packAt p).saved = false

theorem LiveTasks.placed (h : DeltaOk d appended) (hlive : LiveTasks d f) : ∃ rest, Placed d f rest := by
  obtain ⟨rest, hrest⟩ := hlive.place
  have hmem : ∀ p ∈ f.tasks.map FlushPackTask.pack ++ rest,
      p ∈ d.packs ∧ (d.packAt p).saved = false := fun p hp => mem_unsavedPtrs.1 (hrest ▸ hp)
  refine ⟨rest, ?_, hrest.symm, ?_, ?_⟩
  · rw [append_assoc, hrest, h.packs_eq]
  · exact fun task ht => hmem _ (mem_append_left _ (mem_map_of_mem ht))
  · exact fun p hp => hmem p (mem_append_right _ hp)

def committedPacks (d : DeltaValueSpace c D) (f : FlushTasks c D) (rest : List PackPtr) : List PackPtr :=
  d.savedPtrs ++ (d.makeSavedPacks f.tasks).1 ++ rest

/-- The state after the commit, before large caches are dropped. -/
def committed (d : DeltaValueSpace c D) (f : FlushTasks c D) (rest : List PackPtr) (page : MetaPage c) :
    DeltaValueSpace c D :=
  { (d.makeSavedPacks f.tasks).2 with
    metaPage := page
    packs := committedPacks d f rest
    unsavedRows := d.unsavedRows - f.flushRows
    unsavedDeletes := d.unsavedDeletes - f.flushDeletes }

abbrev copies (d : DeltaValueSpace c D) (f : FlushTasks c D) : List PackPtr := (d.makeSavedPacks f.tasks).1

/-- The state in which the copies exist and are not in the list yet. -/
abbrev withCopies (d : DeltaValueSpace c D) (f : FlushTasks c D) : DeltaValueSpace c D :=
  (d.makeSavedPacks f.tasks).2

/-- What holds when the flush commits -/
structure Committing (d : DeltaValueSpace c D) (appended : List (DeltaItem c D)) (f : FlushTasks c D)
    (rest : List PackPtr) : Prop extends Placed d f rest where
  delta : DeltaOk d appended
  live : LiveTasks d f
  nonempty : f.tasks ≠ []
  written : ∀ task ∈ f.tasks, TaskWritten d task
  pages : ∀ task ∈ f.tasks, task.dataPage ≠ 0 → task.dataPage < d.nextPage ∧ task.dataPage ∉ d.pageList
  pagesNodup : ((f.tasks.map FlushPackTask.dataPage).filter (· ≠ 0)).Nodup

namespace Committing

variable {rest : List PackPtr} {page : MetaPage c}

section

variable (h : Committing d appended f rest)
include h

theorem spec :
    ExtendsObjects d (withCopies d f) ∧ (copies d f).Pairwise (· < ·) ∧
      List.Forall₂ (SavedAs d (withCopies d f)) f.tasks (copies d f) :=
  makeSavedPacks_spec d fun task ht => h.delta.bound _ (h.task task ht).1

variable {p : PackPtr}

theorem copy (hp : p ∈ copies d f) :
    ∃ task ∈ f.tasks, SavedAs d (withCopies d f) task p :=
  exists_of_forall₂ h.spec.2.2 hp

theorem old (hp : p ∈ d.packs) :
    (withCopies d f).packAt p = d.packAt p :=
  h.spec.1.packAt p (h.delta.bound p hp)

theorem mem_rest (hp : p ∈ rest) : p ∈ d.packs := (h.rest p hp).1

/-- A pack of the new list is an old one or the copy of a flushed one. -/
theorem mem (hp : p ∈ committedPacks d f rest) :
    p ∈ d.savedPtrs ∨ p ∈ rest ∨ ∃ task ∈ f.tasks, SavedAs d (withCopies d f) task p := by
  rcases mem_append.1 hp with hp | hp
  · exact (mem_append.1 hp).imp_right fun hp => .inr (h.copy hp)
  · exact .inr (.inl hp)

theorem nodup_packs : (committedPacks d f rest).Nodup := by
  have hnd := h.delta.nodup
  rw [h.packs, append_assoc] at hnd
  obtain ⟨hsaved, htail, hdisj⟩ := nodup_append.1 hnd
  obtain ⟨-, hrest, -⟩ := nodup_append.1 htail
  have hfresh : ∀ p ∈ copies d f, p ∉ d.packs := by
    intro p hp hin
    obtain ⟨task, -, hcopy⟩ := h.copy hp
    exact (h.delta.bound p hin).not_ge hcopy.fresh
  rw [committedPacks, append_assoc, nodup_append]
  refine ⟨hsaved, nodup_append.2 ⟨h.spec.2.1.imp fun hlt => hlt.ne, hrest, ?_⟩, ?_⟩
  · intro p hp q hq heq
    exact hfresh p hp (heq ▸ h.mem_rest hq)
  · intro p hp q hq heq
    rcases mem_append.1 hq with hq | hq
    · exact hfresh q hq (heq ▸ (mem_savedPtrs.1 hp).1)
    · exact hdisj p hp q (mem_append_right _ hq) heq

theorem packOk :
    ∀ p ∈ committedPacks d f rest, p < (withCopies d f).nextPack ∧
      PackOk (withCopies d f) ((withCopies d f).packAt p) := by
  have hext := h.spec.1
  have hkeep : ∀ p ∈ d.packs, p < (withCopies d f).nextPack ∧
      PackOk (withCopies d f) ((withCopies d f).packAt p) := by
    intro p hp
    refine ⟨(h.delta.bound p hp).trans_le hext.nextPack, ?_⟩
    refine (h.delta.ok p hp).frame hext.frame ?_ (fun _ => not_mem_nil) not_mem_nil
    rw [h.old hp]
    exact .refl _
  intro p hp
  rcases h.mem hp with hp | hp | ⟨task, ht, hcopy⟩
  · exact hkeep p (mem_savedPtrs.1 hp).1
  · exact hkeep p (h.mem_rest hp)
  · obtain ⟨hin, hs⟩ := h.task task ht
    refine ⟨hcopy.bound, hcopy.packOk hext (h.written task ht) ?_ hs (h.delta.ok _ hin)⟩
    by_cases h0 : task.dataPage = 0
    · rw [h0]
      exact h.delta.pagePos
    · exact (h.pages task ht h0).1

theorem map_committed {α : Type*} (g : Pack c D → α) :
    ((committedPacks d f rest).map (withCopies d f).packAt).map g = (d.savedPtrs.map d.packAt).map g ++
        ((copies d f).map (withCopies d f).packAt).map g ++
        (rest.map d.packAt).map g := by
  have hsaved : d.savedPtrs.map (withCopies d f).packAt = d.savedPtrs.map d.packAt :=
    map_congr_left fun p hp => h.old (mem_savedPtrs.1 hp).1
  have hrest : rest.map (withCopies d f).packAt = rest.map d.packAt :=
    map_congr_left fun p hp => h.old (h.mem_rest hp)
  rw [committedPacks, map_append, map_append, map_append, map_append, hsaved, hrest]

theorem packList_eq : d.packList =
    d.savedPtrs.map d.packAt ++ (f.tasks.map fun task => d.packAt task.pack) ++ rest.map d.packAt := by
  rw [packList]
  conv_lhs => rw [h.packs]
  rw [map_append, map_append, map_map]
  rfl

theorem ledger
    (hpage : serializeSavedPacks ((committedPacks d f rest).map (withCopies d f).packAt) = some page) :
    Ledger ((committedPacks d f rest).map (withCopies d f).packAt)
      ⟨d.rows, d.deletes, d.unsavedRows - f.flushRows, d.unsavedDeletes - f.flushDeletes⟩ appended page := by
  have hall := h.spec.2.2
  have hlist := h.map_committed id
  simp only [map_id] at hlist
  have hledger := h.delta.ledger
  rw [h.packList_eq] at hledger
  rw [hlist] at hpage ⊢
  rw [h.live.flushRows, h.live.flushDeletes]
  refine hledger.save ?_ ?_ ?_ ?_ ?_ ?_ ?_ hpage
  · intro q hq
    obtain ⟨p, hp, rfl⟩ := mem_map.1 hq
    exact (mem_savedPtrs.1 hp).2
  · intro q hq
    obtain ⟨task, ht, rfl⟩ := mem_map.1 hq
    exact (h.task task ht).2
  · intro q hq
    obtain ⟨p, hp, rfl⟩ := mem_map.1 hq
    obtain ⟨task, -, hcopy⟩ := h.copy hp
    exact hcopy.saved
  · intro q hq
    obtain ⟨p, hp, rfl⟩ := mem_map.1 hq
    exact (h.rest p hp).2
  · rw [map_map, map_map]
    exact map_eq_of_forall₂ hall fun _ _ hs => hs.rows
  · rw [map_map, map_map]
    exact map_eq_of_forall₂ hall fun _ _ hs => hs.isDeleteRange
  · rw [map_map, map_map]
    exact map_eq_of_forall₂ hall fun _ _ hs => hs.items

theorem distinctPages :
    DistinctPages ((committedPacks d f rest).map fun p => ((withCopies d f).packAt p).dataPage) := by
  have hold : d.pageList = (d.savedPtrs.map d.packAt).map Pack.dataPage ++
      (f.tasks.map fun task => (d.packAt task.pack).dataPage) ++ (rest.map d.packAt).map Pack.dataPage := by
    have hmap : d.pageList = d.packList.map Pack.dataPage := (map_map ..).symm
    rw [hmap, h.packList_eq]
    simp only [map_append, map_map, Function.comp_def]
  have hnew := h.map_committed Pack.dataPage
  have hcopies : ((copies d f).map (withCopies d f).packAt).map Pack.dataPage
      = f.tasks.map fun task =>
        if task.dataPage ≠ 0 then task.dataPage else (d.packAt task.pack).dataPage := by
    rw [map_map]
    exact map_eq_of_forall₂ h.spec.2.2 fun _ _ hs => hs.dataPage
  rw [map_map, hcopies] at hnew
  have hpages := h.delta.pages
  rw [hold] at hpages
  have := distinctPages_replace hpages (fun task ht h0 => hold ▸ (h.pages task ht h0).2) h.pagesNodup
  rw [← hnew] at this
  exact this

theorem writable (hp : (committedPacks d f rest).getLast? = some p) :
    Writable (withCopies d f) ((withCopies d f).packAt p) := by
  have hext := h.spec.1
  rw [committedPacks, getLast?_append] at hp
  cases hrest : rest.getLast? with
  | some q =>
    obtain rfl : q = p := by simpa [hrest] using hp
    have hin : q ∈ d.packs := h.mem_rest (mem_of_getLast? hrest)
    have hlast : d.packs.getLast? = some q := by
      rw [h.packs, getLast?_append, hrest]
      rfl
    refine (h.delta.writable q hlast).same (h.delta.ok q hin) ?_ hext.cacheAt
    rw [h.old hin]
    exact .refl _
  | none =>
    have hin : p ∈ committedPacks d f rest := by
      apply mem_of_getLast?
      rw [committedPacks, getLast?_append]
      exact hp
    rw [hrest, Option.none_or] at hp
    have hne : copies d f ≠ [] := by
      intro hnil
      have hlen := h.spec.2.2.length_eq
      rw [hnil] at hlen
      exact h.nonempty (length_eq_zero_iff.1 hlen)
    obtain ⟨q, hq⟩ : ∃ q, (copies d f).getLast? = some q := ⟨_, getLast?_eq_some_getLast hne⟩
    obtain rfl : q = p := by simpa [hq] using hp
    obtain ⟨task, -, hcopy⟩ := h.copy (mem_of_getLast? hq)
    intro happ
    rw [(h.packOk q hin).2.closed_of_saved hcopy.saved] at happ
    cases happ

theorem deltaOk
    (hpage : serializeSavedPacks ((committedPacks d f rest).map (withCopies d f).packAt)
      = some page) : DeltaOk (committed d f rest page) appended := by
  have hrest := h.spec.1.rest
  have hrows : (withCopies d f).rows = d.rows := by rw [hrest]
  have hdeletes : (withCopies d f).deletes = d.deletes := by rw [hrest]
  have hnext : (withCopies d f).nextPage = d.nextPage := by rw [hrest]
  refine ⟨h.nodup_packs, fun p hp => (h.packOk p hp).1, ?_, ?_, ?_, ?_, h.distinctPages⟩
  · intro p hp
    have hf : Frame [] [] (withCopies d f) (committed d f rest page) :=
      (Frame.refl [] [] _).congr rfl rfl rfl rfl rfl rfl
    exact (h.packOk p hp).2.frame hf (.refl _) (fun _ => not_mem_nil) not_mem_nil
  · intro p hp
    exact h.writable hp
  · have hledger := h.ledger hpage
    have hcounters : (committed d f rest page).counters =
        ⟨d.rows, d.deletes, d.unsavedRows - f.flushRows, d.unsavedDeletes - f.flushDeletes⟩ := by
      rw [← hrows, ← hdeletes]
      rfl
    rw [hcounters]
    exact hledger
  · show 0 < (withCopies d f).nextPage
    rw [hnext]
    exact h.delta.pagePos

theorem flushed_le :
    f.flushRows ≤ d.unsavedRows ∧ f.flushDeletes ≤ d.unsavedDeletes := by
  have hvals : unsavedPacks d.packList = (f.tasks.map fun task => d.packAt task.pack) ++ rest.map d.packAt := by
    rw [unsavedPacks_packList, h.unsaved, map_append, map_map]
    rfl
  have hrows : d.unsavedRows = totalRows (unsavedPacks d.packList) := h.delta.ledger.unsavedRows
  have hdeletes : d.unsavedDeletes = totalDeletes (unsavedPacks d.packList) := h.delta.ledger.unsavedDeletes
  rw [hvals, totalRows_append, ← h.live.flushRows] at hrows
  rw [hvals, totalDeletes_append, ← h.live.flushDeletes] at hdeletes
  omega

theorem flushCommit_eq (habandoned : d.abandoned = false) (smallPackRows : Nat) :
    ∃ page, serializeSavedPacks ((committedPacks d f rest).map (withCopies d f).packAt)
        = some page ∧
      d.flushCommit f smallPackRows = some (true, (committed d f rest page).dropLargeCaches smallPackRows) := by
  have hser : ∀ q ∈ (committedPacks d f rest).map (withCopies d f).packAt, q.Serializable := by
    intro q hq
    obtain ⟨p, hp, rfl⟩ := mem_map.1 hq
    exact (h.packOk p hp).2.serializable
  obtain ⟨page, hpage, -⟩ := deserializePacks_serializeSavedPacks hser
  refine ⟨page, hpage, ?_⟩
  obtain ⟨task, tasks, htasks⟩ := exists_cons_of_ne_nil h.nonempty
  have hhead : f.tasks.head?.map FlushPackTask.pack = some task.pack := by rw [htasks]; rfl
  have hstart : d.packs.takeWhile (fun p => decide (some p ≠ f.tasks.head?.map FlushPackTask.pack))
      = d.savedPtrs := by
    have hno : task.pack ∉ d.savedPtrs := by
      intro hin
      have := (h.task task (htasks ▸ mem_cons_self)).2
      simp [(mem_savedPtrs.1 hin).2] at this
    conv_lhs => rw [h.packs]
    rw [hhead, htasks, map_cons, append_assoc, cons_append]
    exact takeWhile_ne_head hno _
  have hdrop : d.packs.drop d.savedPtrs.length = f.tasks.map FlushPackTask.pack ++ rest := by
    conv_lhs => rw [h.packs]
    rw [append_assoc, drop_left]
  have hmatch := matchTasks_eq (fun task ht => (h.task task ht).2) rest
  have hledger := h.ledger hpage
  have hle := h.flushed_le
  have hun : unsavedPacks ((committedPacks d f rest).map (withCopies d f).packAt)
      = ((committedPacks d f rest).filter fun p => !((withCopies d f).packAt p).saved).map
        (withCopies d f).packAt := by
    rw [unsavedPacks, filter_map]
    rfl
  have h1 := hledger.rows
  have h2 := hledger.deletes
  have h3 := hledger.unsavedRows
  have h4 := hledger.unsavedDeletes
  rw [hun] at h3 h4
  rw [← rowsOfPacks_eq] at h1 h3
  rw [← deletesOfPacks_eq] at h2 h4
  unfold flushCommit
  rw [if_neg (by simp [habandoned])]
  simp only [hstart, hdrop, hmatch]
  rw [if_neg]
  · have hpage' : serializeSavedPacks ((d.savedPtrs ++ copies d f ++ rest).map
        (withCopies d f).packAt) = some page := hpage
    rw [hpage']
    rfl
  · simp only [committedPacks, withCopies] at h1 h2 h3 h4
    omega

theorem frame (page : MetaPage c) :
    Frame [] [] d (committed d f rest page) :=
  h.spec.1.frame.congr rfl rfl rfl rfl rfl rfl

theorem savedPtrs_committed (page : MetaPage c) :
    (committed d f rest page).savedPtrs = d.savedPtrs ++ copies d f ∧
      (committed d f rest page).unsavedPtrs = rest := by
  have hpackAt : (committed d f rest page).packAt = (withCopies d f).packAt := rfl
  have hpacks : (committed d f rest page).packs = d.savedPtrs ++ copies d f ++ rest := rfl
  have hsaved : ∀ p ∈ d.savedPtrs ++ copies d f, ((withCopies d f).packAt p).saved = true := by
    intro p hp
    rcases mem_append.1 hp with hp | hp
    · rw [h.old (mem_savedPtrs.1 hp).1]
      exact (mem_savedPtrs.1 hp).2
    · obtain ⟨task, -, hcopy⟩ := h.copy hp
      exact hcopy.saved
  have hrest : ∀ p ∈ rest, ((withCopies d f).packAt p).saved = false := by
    intro p hp
    rw [h.old (h.mem_rest hp)]
    exact (h.rest p hp).2
  constructor
  · rw [savedPtrs, hpacks, hpackAt, filter_append, filter_eq_self.2 hsaved,
      filter_eq_nil_iff.2 fun p hp => by simp [hrest p hp], append_nil]
  · rw [unsavedPtrs, hpacks, hpackAt, filter_append, filter_eq_nil_iff.2 fun p hp => by simp [hsaved p hp],
      filter_eq_self.2 fun p hp => by simp [hrest p hp], nil_append]

theorem evolves (page : MetaPage c) :
    Evolves d (committed d f rest page) := by
  have hmem : ∀ p ∈ (committed d f rest page).packs, p < d.nextPack → p ∈ d.savedPtrs ∨ p ∈ rest := by
    intro p hp hlt
    rcases h.mem hp with hp | hp | ⟨task, -, hcopy⟩
    · exact .inl hp
    · exact .inr hp
    · exact absurd hlt hcopy.fresh.not_gt
  constructor
  · -- a flush that starts with the same pack will not find it any more
    intro l p hl hpre hin
    obtain ⟨task, tasks, htasks⟩ := exists_cons_of_ne_nil h.nonempty
    have hp : p = task.pack := by
      obtain ⟨l', hl'⟩ := hpre
      have hhead : d.unsavedPtrs.head? = some p := by
        rw [← hl', head?_append, hl]
        rfl
      rw [h.unsaved, htasks] at hhead
      exact (Option.some.inj hhead).symm
    obtain ⟨hin', hs⟩ := h.task task (htasks ▸ mem_cons_self)
    subst hp
    exfalso
    rcases hmem _ hin (h.delta.bound _ hin') with hm | hm
    · simp [(mem_savedPtrs.1 hm).2] at hs
    · have hnd := h.delta.nodup
      rw [h.packs, htasks] at hnd
      obtain ⟨-, -, hdisj⟩ := nodup_append.1 hnd
      exact hdisj task.pack (by simp) task.pack hm rfl
  · intro p hlt _ hno hin
    rcases hmem p hin hlt with hm | hm
    · exact hno (mem_savedPtrs.1 hm).1
    · exact hno (h.mem_rest hm)

theorem pagesFrom (page : MetaPage c) :
    PagesFrom ((f.tasks.map FlushPackTask.dataPage).filter (· ≠ 0)) d (committed d f rest page) := by
  have hold : ∀ p ∈ d.packs, ∃ q ∈ d.packs,
      (d.packAt q).dataPage = ((committed d f rest page).packAt p).dataPage :=
    fun p hp => ⟨p, hp, congrArg Pack.dataPage (h.old hp).symm⟩
  intro p hp h0
  rcases h.mem hp with hp | hp | ⟨task, ht, hcopy⟩
  · exact .inl (hold p (mem_savedPtrs.1 hp).1)
  · exact .inl (hold p (h.mem_rest hp))
  · have hpage : ((committed d f rest page).packAt p).dataPage = _ := hcopy.dataPage
    by_cases htask : task.dataPage = 0
    · rw [if_neg (by simpa using htask)] at hpage
      exact .inl ⟨task.pack, (h.task task ht).1, hpage.symm⟩
    · rw [if_pos htask] at hpage
      refine .inr (.inl (mem_filter.2 ⟨?_, by simpa using h0⟩))
      rw [hpage]
      exact mem_map_of_mem ht

end

end Committing

theorem dropLargeCaches_frame (d : DeltaValueSpace c D) (smallPackRows : Nat) :
    Frame [] [] d (d.dropLargeCaches smallPackRows) := by
  refine ⟨le_rfl, le_rfl, le_rfl, ?_, fun _ _ => ⟨rfl, prefix_rfl⟩, fun _ _ _ => rfl⟩
  intro p _ _
  by_cases hp : p ∈ d.packs ∧ (d.packAt p).dataPage ≠ 0 ∧ smallPackRows ≤ (d.packAt p).rows
  · rw [dropLargeCaches]
    simp only [if_pos hp]
    exact ⟨rfl, .inr ⟨hp.2.1, rfl⟩, id⟩
  · rw [dropLargeCaches]
    simp only [if_neg hp]
    exact .refl _

end Commit

/-- `flush`, the second critical section: it commits, or it gives up and removes its pages. -/
theorem SystemOk.flushCommit {s : DeltaSystem c D} (h : SystemOk s) {t : Nat} {f : FlushTasks c D}
    (ht : s.threads t = .flushWritten f) (smallPackRows : Nat) :
    ∃ res, s.delta.flushCommit f smallPackRows = some res ∧ SystemOk (s.update t .idle res.2) := by
  obtain ⟨hflush, hlog⟩ : ThreadOk s.delta (.flushWritten f) := ht ▸ h.thread t
  have hown : (s.threads t).pages = f.writtenLog := by rw [ht]; rfl
  have hgiveUp : SystemOk (s.update t .idle (s.delta.delPages f.writtenLog)) :=
    h.stepQuiet (Frame.delPages f.writtenLog) rfl (fun _ _ => rfl) rfl rfl (fun page hp => hown ▸ hp)
      trivial .nil (by simp [Thread.pages]) .inl (fun hno => hno.elim)
  cases habandoned : s.delta.abandoned with
  | true =>
    refine ⟨(false, s.delta.delPages f.writtenLog), ?_, hgiveUp⟩
    simp [DeltaValueSpace.flushCommit, habandoned]
  | false =>
    obtain ⟨task, tasks, htasks⟩ := exists_cons_of_ne_nil hflush.nonempty
    have hhead : f.tasks.head?.map FlushPackTask.pack = some task.pack := by rw [htasks]; rfl
    by_cases hin : task.pack ∈ s.delta.packs
    · obtain ⟨hlive, hwritten⟩ := hflush.live _ hhead hin
      obtain ⟨rest, hplaced⟩ := hlive.placed h.delta
      have hpages : ∀ task ∈ f.tasks, task.dataPage ≠ 0 →
          task.dataPage < s.delta.nextPage ∧ task.dataPage ∉ s.delta.pageList := by
        intro task htask h0
        have hmem : task.dataPage ∈ (s.threads t).pages := by
          rw [hown, hlog]
          exact mem_filter.2 ⟨mem_map_of_mem htask, by simpa using h0⟩
        obtain ⟨-, hlt, hno⟩ := h.pages t _ hmem
        refine ⟨hlt, fun hlist => ?_⟩
        obtain ⟨p, hp, heq⟩ := mem_map.1 hlist
        exact hno p hp heq
      have hcommit : Committing s.delta s.appended f rest :=
        ⟨hplaced, h.delta, hlive, hflush.nonempty, hwritten, hpages, by
          rw [← hlog, ← hown]
          exact h.pagesNodup t⟩
      obtain ⟨page, hpage, heq⟩ := hcommit.flushCommit_eq habandoned smallPackRows
      refine ⟨_, heq, ?_⟩
      have hdelta := hcommit.deltaOk hpage
      have hdrop := dropLargeCaches_frame (committed s.delta f rest page) smallPackRows
      have hsame := hdrop.same_packs hdelta
      have hptrs := hdrop.ptrs_eq hdelta rfl
      have hevolves := hcommit.evolves page
      have hframe : StepFrame [] [] s.delta ((committed s.delta f rest page).dropLargeCaches smallPackRows) :=
        ⟨(hcommit.frame page).trans hdrop,
          ⟨fun l p hl hpre hp => hptrs.2 ▸ hevolves.unsaved l p hl hpre hp, hevolves.gone⟩,
          by simp, not_mem_nil, fun _ _ _ => not_mem_nil⟩
      refine h.stepThread hframe
        (hdelta.quiet hdrop rfl (KeepsPages.nil _) (fun _ _ => rfl) rfl rfl) ?_ (by simp) trivial .nil
        (by simp [Thread.pages]) (.inl ⟨_, hptrs.1.trans (hcommit.savedPtrs_committed page).1⟩) ?_
        (fun hno => hno.elim)
      · rw [hown, hlog]
        intro p hp
        rw [(hsame p hp).dataPage]
        exact hcommit.pagesFrom page p hp
      · intro hflag
        refine .inl ?_
        have hrest := hcommit.spec.1.rest
        show (withCopies s.delta f).isUpdating = true
        rw [hrest]
        exact hflag
    · refine ⟨(false, s.delta.delPages f.writtenLog), ?_, hgiveUp⟩
      have hstart : s.delta.packs.takeWhile (fun q => decide (some q ≠ some task.pack)) = s.delta.packs :=
        takeWhile_eq_self_iff.2 fun q hq => by simpa using ne_of_mem_of_not_mem hq hin
      have hmatch : s.delta.matchTasks f.tasks [] = none := by
        rw [htasks]
        rfl
      unfold DeltaValueSpace.flushCommit
      rw [if_neg (by simp [habandoned])]
      simp only [hhead, hstart, drop_length, hmatch]

end TiFlash.DM
