import TiFlash.DM.DeltaThreads
import TiFlash.DM.Proofs.DeltaValueSpaceProofs

/-!
# Proofs: a delta value space under concurrent maintenance

`SystemOk` says what holds between two critical sections: of the pack list (`DeltaOk`), of the tasks a
thread carries on (`ThreadOk`), and of who may write or remove which page. `Frame` says what a step may do
to the objects of other threads.
-/

namespace TiFlash.DM

variable {c : Bool} {D : Type*}

open DeltaValueSpace List Bool

/-! ## Packs -/

/-- The pack has these rows, wherever they are. -/
structure Holds (d : DeltaValueSpace c D) (pack : Pack c D) (xs : List (Row (RowKey c) D)) : Prop where
  notRange : pack.isDeleteRange = false
  rows : pack.rows = xs.length
  cached : ∀ cp, pack.cache = some cp → cp < d.nextCache ∧ (d.cacheAt cp).rows.take xs.length = xs
  paged : pack.dataPage ≠ 0 → pack.dataPage < d.nextPage ∧ d.logPages pack.dataPage = some xs
  unpaged : pack.dataPage = 0 → pack.saved = false ∧ ∃ cp, pack.cache = some cp
  schema : ∃ schema, pack.schema = some schema ∧ schema.columns ≠ []
  /-- The rows are those of the packs it was made of, each permuted in itself. -/
  groups : ∃ groups, List.Forall₂ List.Perm pack.origin groups ∧ groups.flatten = xs
  unsaved : pack.saved = false → pack.origin = [xs]

/-- A delete range without rows -/
structure IsRange (pack : Pack c D) : Prop where
  range : pack.isDeleteRange = true
  rows : pack.rows = 0
  schema : pack.schema = none
  dataPage : pack.dataPage = 0
  cache : pack.cache = none

def PackOk (d : DeltaValueSpace c D) (pack : Pack c D) : Prop := IsRange pack ∨ ∃ xs, Holds d pack xs

/-- Rows that are appended to an open pack come right behind its rows. -/
def Writable (d : DeltaValueSpace c D) (pack : Pack c D) : Prop :=
  pack.isAppendable = true → ∀ cp, pack.cache = some cp → (d.cacheAt cp).rows.length = pack.rows ∧
      pack.schema.map SchemaPtr.columns = some (d.cacheAt cp).columns

variable {d : DeltaValueSpace c D} {pack : Pack c D}

theorem Holds.readPack_eq {xs : List (Row (RowKey c) D)} (h : Holds d pack xs) :
    d.readPack pack = some xs := by
  unfold readPack Pack.isCached
  cases hc : pack.cache with
  | some cp =>
    obtain ⟨-, htake⟩ := h.cached cp hc
    simp [h.notRange, readPackFromCache, h.rows, htake]
  | none =>
    have hpage : pack.dataPage ≠ 0 := by
      intro h0
      obtain ⟨-, cp, hcp⟩ := h.unpaged h0
      simp [hc] at hcp
    simp [readPackFromDisk, (h.paged hpage).2, h.rows]

theorem PackOk.serializable (h : PackOk d pack) :
    pack.Serializable := by
  rcases h with h | ⟨xs, h⟩
  · exact ⟨fun _ => h.schema, fun hno => by simp [h.range] at hno⟩
  · exact ⟨fun hyes => by simp [h.notRange] at hyes, fun _ => h.schema⟩

theorem PackOk.page_lt (h : PackOk d pack) (hpos : 0 < d.nextPage) : pack.dataPage < d.nextPage := by
  rcases h with h | ⟨xs, h⟩
  · rw [h.dataPage]
    exact hpos
  · by_cases h0 : pack.dataPage = 0
    · rw [h0]
      exact hpos
    · exact (h.paged h0).1

/-! ## What a step leaves alone -/

/-- A pack that may have been closed, or that may have lost its cache when it has a page. -/
structure SamePack (p p' : Pack c D) : Prop where
  core : p'.core = p.core
  cache : p'.cache = p.cache ∨ (p.dataPage ≠ 0 ∧ p'.cache = none)
  appendable : p'.appendable = true → p.appendable = true

namespace SamePack

variable {p p' : Pack c D}

theorem refl (p : Pack c D) : SamePack p p := ⟨rfl, .inl rfl, id⟩

section

variable (h : SamePack p p')
include h

theorem field {α : Type*} (f : Pack c D → α) (hf : ∀ q, f q.core = f q) :
    f p' = f p := by
  rw [← hf, h.core, hf]

theorem rows : p'.rows = p.rows := h.field Pack.rows fun _ => rfl

theorem dataPage : p'.dataPage = p.dataPage := h.field Pack.dataPage fun _ => rfl

theorem trans {p'' : Pack c D} (h' : SamePack p' p'') : SamePack p p'' := by
  refine ⟨h'.core.trans h.core, ?_, h.appendable ∘ h'.appendable⟩
  rcases h'.cache with heq' | ⟨hne, hnone⟩
  · rw [heq']
    exact h.cache
  · exact .inr ⟨h.dataPage ▸ hne, hnone⟩

theorem saved : p'.saved = p.saved := h.field Pack.saved fun _ => rfl

theorem schema : p'.schema = p.schema := h.field Pack.schema fun _ => rfl

theorem origin : p'.origin = p.origin := h.field Pack.origin fun _ => rfl

theorem items : p'.items = p.items := h.field Pack.items fun _ => rfl

theorem isDeleteRange : p'.isDeleteRange = p.isDeleteRange := h.field Pack.isDeleteRange fun _ => rfl

theorem dataFlushable : p'.dataFlushable = p.dataFlushable := h.field Pack.dataFlushable fun _ => rfl

end

theorem map_field {ι α : Type*} {l : List ι} {a a' : ι → Pack c D} (h : ∀ i ∈ l, SamePack (a i) (a' i))
    (f : Pack c D → α) (hf : ∀ q, f q.core = f q) : (l.map a').map f = (l.map a).map f := by
  rw [map_map, map_map]
  exact map_congr_left fun i hi => (h i hi).field f hf

theorem isAppendable (h : SamePack p p') (hp' : p'.isAppendable = true) :
    p.isAppendable = true ∧ p'.cache = p.cache := by
  simp only [Pack.isAppendable, and_eq_true, not_eq_true', decide_eq_true_eq,
    h.isDeleteRange, h.dataPage] at hp' ⊢
  obtain ⟨⟨⟨hrange, hpage⟩, happ⟩, hcache⟩ := hp'
  have hc : p'.cache = p.cache := h.cache.resolve_right fun hno => hno.1 hpage
  exact ⟨⟨⟨⟨hrange, hpage⟩, h.appendable happ⟩, hc ▸ hcache⟩, hc⟩

end SamePack

/-- What a step keeps of the objects and pages it finds. The packs in `grown` are those that rows were
appended to. -/
structure Frame (removed : List PageId) (grown : List PackPtr) (d d' : DeltaValueSpace c D) : Prop where
  nextPack : d.nextPack ≤ d'.nextPack
  nextCache : d.nextCache ≤ d'.nextCache
  nextPage : d.nextPage ≤ d'.nextPage
  pack : ∀ p < d.nextPack, p ∉ grown → SamePack (d.packAt p) (d'.packAt p)
  cache : ∀ cp < d.nextCache, (d'.cacheAt cp).columns = (d.cacheAt cp).columns ∧
    (d.cacheAt cp).rows <+: (d'.cacheAt cp).rows
  page : ∀ page < d.nextPage, page ∉ removed → d'.logPages page = d.logPages page

section Frame

variable {removed : List PageId} {grown : List PackPtr} {d d' : DeltaValueSpace c D}

namespace Frame

theorem refl (removed : List PageId) (grown : List PackPtr) (d : DeltaValueSpace c D) :
    Frame removed grown d d :=
  ⟨le_rfl, le_rfl, le_rfl, fun _ _ _ => .refl _, fun _ _ => ⟨rfl, prefix_rfl⟩, fun _ _ _ => rfl⟩

variable {d'' : DeltaValueSpace c D}

theorem trans (h : Frame removed grown d d') (h' : Frame removed grown d' d'') : Frame removed grown d d'' := by
  refine ⟨h.nextPack.trans h'.nextPack, h.nextCache.trans h'.nextCache, h.nextPage.trans h'.nextPage,
    ?_, ?_, ?_⟩
  · exact fun p hp hg => (h.pack p hp hg).trans (h'.pack p (hp.trans_le h.nextPack) hg)
  · intro cp hcp
    obtain ⟨hcol, hpre⟩ := h.cache cp hcp
    obtain ⟨hcol', hpre'⟩ := h'.cache cp (hcp.trans_le h.nextCache)
    exact ⟨hcol'.trans hcol, hpre.trans hpre'⟩
  · intro page hp hr
    rw [h'.page page (hp.trans_le h.nextPage) hr, h.page page hp hr]

theorem makePack (pack : Pack c D) : Frame removed grown d (d.makePack pack) := by
  refine ⟨Nat.le_succ _, le_rfl, le_rfl, ?_, fun _ _ => ⟨rfl, prefix_rfl⟩, fun _ _ _ => rfl⟩
  intro q hq _
  simpa [DeltaValueSpace.makePack, hq.ne] using SamePack.refl (d.packAt q)

theorem writePackData (rows : List (Row (RowKey c) D)) :
    Frame removed grown d (d.writePackData rows) := by
  refine ⟨le_rfl, le_rfl, Nat.le_succ _, fun _ _ _ => .refl _, fun _ _ => ⟨rfl, prefix_rfl⟩, ?_⟩
  intro page hp _
  simp [DeltaValueSpace.writePackData, hp.ne]

theorem delPages (removed : List PageId) : Frame removed grown d (d.delPages removed) := by
  refine ⟨le_rfl, le_rfl, le_rfl, fun _ _ _ => .refl _, fun _ _ => ⟨rfl, prefix_rfl⟩, ?_⟩
  intro page _ hr
  simp [DeltaValueSpace.delPages, hr]

theorem congr (h : Frame removed grown d d') (hpack : d''.packAt = d'.packAt) (hcache : d''.cacheAt = d'.cacheAt)
    (hlog : d''.logPages = d'.logPages) (hnp : d''.nextPack = d'.nextPack)
    (hnc : d''.nextCache = d'.nextCache) (hng : d''.nextPage = d'.nextPage) :
    Frame removed grown d d'' := by
  obtain ⟨h1, h2, h3, h4, h5, h6⟩ := h
  exact ⟨hnp ▸ h1, hnc ▸ h2, hng ▸ h3, hpack ▸ h4, hcache ▸ h5, hlog ▸ h6⟩

end Frame

variable {pack pack' : Pack c D}

theorem Holds.frame {xs : List (Row (RowKey c) D)} (h : Holds d pack xs) (hf : Frame removed grown d d')
    (hsame : SamePack pack pack') (hpage : pack.dataPage ∉ removed) :
    Holds d' pack' xs := by
  have hpaged : pack'.dataPage ≠ 0 → pack'.dataPage < d'.nextPage ∧ d'.logPages pack'.dataPage = some xs := by
    rw [hsame.dataPage]
    intro h0
    obtain ⟨hlt, hxs⟩ := h.paged h0
    exact ⟨hlt.trans_le hf.nextPage, (hf.page _ hlt hpage).trans hxs⟩
  refine ⟨hsame.isDeleteRange.trans h.notRange, hsame.rows.trans h.rows, ?_, hpaged, ?_, ?_, ?_, ?_⟩
  · intro cp hcp
    have hc : pack.cache = some cp := by
      rcases hsame.cache with heq | ⟨-, hnone⟩
      · rw [← heq, hcp]
      · simp [hnone] at hcp
    obtain ⟨hlt, htake⟩ := h.cached cp hc
    obtain ⟨new, hnew⟩ := (hf.cache cp hlt).2
    refine ⟨hlt.trans_le hf.nextCache, ?_⟩
    have hlen : xs.length ≤ (d.cacheAt cp).rows.length := by
      have := congrArg List.length htake
      rw [length_take] at this
      omega
    rw [← hnew, take_append_of_le_length hlen, htake]
  · rw [hsame.dataPage, hsame.saved]
    intro h0
    obtain ⟨hs, cp, hcp⟩ := h.unpaged h0
    exact ⟨hs, cp, (hsame.cache.resolve_right fun hno => hno.1 h0).trans hcp⟩
  · rw [hsame.schema]
    exact h.schema
  · rw [hsame.origin]
    exact h.groups
  · rw [hsame.saved, hsame.origin]
    exact h.unsaved

theorem IsRange.same (h : IsRange pack) (hsame : SamePack pack pack') :
    IsRange pack' := by
  refine ⟨hsame.isDeleteRange.trans h.range, hsame.rows.trans h.rows, hsame.schema.trans h.schema,
    hsame.dataPage.trans h.dataPage, ?_⟩
  rcases hsame.cache with heq | ⟨-, hnone⟩
  · rw [heq, h.cache]
  · exact hnone

theorem PackOk.frame (h : PackOk d pack) (hf : Frame removed grown d d') (hsame : SamePack pack pack')
    (hpage : pack.dataPage ≠ 0 → pack.dataPage ∉ removed) (h0 : 0 ∉ removed) : PackOk d' pack' := by
  rcases h with h | ⟨xs, h⟩
  · exact .inl (h.same hsame)
  · refine .inr ⟨xs, h.frame hf hsame ?_⟩
    by_cases hz : pack.dataPage = 0
    · rwa [hz]
    · exact hpage hz

end Frame

/-! ## The invariant -/

namespace DeltaValueSpace

def counters (d : DeltaValueSpace c D) : Counters := ⟨d.rows, d.deletes, d.unsavedRows, d.unsavedDeletes⟩

def packList (d : DeltaValueSpace c D) : List (Pack c D) := d.packs.map d.packAt

def savedPtrs (d : DeltaValueSpace c D) : List PackPtr := d.packs.filter fun p => (d.packAt p).saved

def unsavedPtrs (d : DeltaValueSpace c D) : List PackPtr := d.packs.filter fun p => !(d.packAt p).saved

end DeltaValueSpace

def DistinctPages (pages : List PageId) : Prop := pages.Pairwise fun a b => a ≠ 0 → a ≠ b

def DeltaValueSpace.pageList (d : DeltaValueSpace c D) : List PageId :=
  d.packs.map fun p => (d.packAt p).dataPage

/-- The invariant of a delta -/
structure DeltaOk (d : DeltaValueSpace c D) (appended : List (DeltaItem c D)) : Prop where
  nodup : d.packs.Nodup
  bound : ∀ p ∈ d.packs, p < d.nextPack
  ok : ∀ p ∈ d.packs, PackOk d (d.packAt p)
  writable : ∀ p, d.packs.getLast? = some p → Writable d (d.packAt p)
  ledger : Ledger d.packList d.counters appended d.metaPage
  pagePos : 0 < d.nextPage
  pages : DistinctPages d.pageList

def TaskPrepared (d : DeltaValueSpace c D) (task : FlushPackTask c D) : Prop :=
  if (d.packAt task.pack).dataFlushable then
    ∃ block, task.blockData = some block ∧ d.readPack (d.packAt task.pack) = some block.rows
  else task.blockData = none

/-- The rows of a task are those of its pack in a new order, and they are in a page. -/
def TaskWritten (d : DeltaValueSpace c D) (task : FlushPackTask c D) : Prop :=
  if (d.packAt task.pack).dataFlushable then
    ∃ block xs, task.blockData = some block ∧ d.readPack (d.packAt task.pack) = some xs ∧
      block.rows.Perm xs ∧ (task.sorted = false → block.rows = xs) ∧
      task.dataPage ≠ 0 ∧ d.logPages task.dataPage = some block.rows
  else task.blockData = none ∧ task.dataPage = 0

/-- Tasks whose packs are still in the list. -/
structure LiveTasks (d : DeltaValueSpace c D) (f : FlushTasks c D) : Prop where
  place : f.tasks.map FlushPackTask.pack <+: d.unsavedPtrs
  closed : ∀ task ∈ f.tasks, (d.packAt task.pack).appendable = false
  flushRows : f.flushRows = totalRows (f.tasks.map fun task => d.packAt task.pack)
  flushDeletes : f.flushDeletes = totalDeletes (f.tasks.map fun task => d.packAt task.pack)

/-- As long as the first pack is in the list, so are the others, behind it; once another flush has replaced
it, this one gives up. -/
structure FlushOk (taskOk : DeltaValueSpace c D → FlushPackTask c D → Prop) (d : DeltaValueSpace c D)
    (f : FlushTasks c D) : Prop where
  nonempty : f.tasks ≠ []
  head : ∀ p, f.tasks.head?.map FlushPackTask.pack = some p → p < d.nextPack ∧ (d.packAt p).saved = false
  live : ∀ p, f.tasks.head?.map FlushPackTask.pack = some p → p ∈ d.packs →
    LiveTasks d f ∧ ∀ task ∈ f.tasks, taskOk d task

def Located : List (List PackPtr) → List PackPtr → Prop
  | [], _ => True
  | group :: groups, ps => group ≠ [] ∧ ∃ pre post, ps = pre ++ group ++ post ∧ Located groups post

/-- The result of a task of `compact` stands for the packs it was made of. -/
structure CompactResult (d : DeltaValueSpace c D) (task : CompactTask) : Prop where
  bound : task.result < d.nextPack
  saved : (d.packAt task.result).saved = true
  closed : (d.packAt task.result).appendable = false
  holds : ∃ xs, Holds d (d.packAt task.result) xs
  rows : (d.packAt task.result).rows = totalRows (task.toCompact.map d.packAt)
  items : (d.packAt task.result).items = (task.toCompact.map d.packAt).flatMap Pack.items

/-- The tasks of a compaction fit the delta. -/
structure CompactOk (d : DeltaValueSpace c D) (pending : List (List PackPtr)) (tasks : List CompactTask)
    (writtenLog removedLog : List PageId) : Prop where
  located : Located (tasks.map CompactTask.toCompact ++ pending) d.savedPtrs
  rows : ∀ group ∈ tasks.map CompactTask.toCompact ++ pending, ∀ p ∈ group, (d.packAt p).isDeleteRange = false
  result : ∀ task ∈ tasks, CompactResult d task
  written : writtenLog = tasks.map fun task => (d.packAt task.result).dataPage
  removed : removedLog = tasks.flatMap fun task => task.toCompact.map fun p => (d.packAt p).dataPage

def ThreadOk (d : DeltaValueSpace c D) : Thread c D → Prop
  | .flushPrepared f => FlushOk TaskPrepared d f ∧ ∀ task ∈ f.tasks, task.dataPage = 0
  | .flushWritten f => FlushOk TaskWritten d f ∧
      f.writtenLog = (f.tasks.map FlushPackTask.dataPage).filter (· ≠ 0)
  | .compactWriting pending tasks writtenLog removedLog =>
    CompactOk d pending tasks writtenLog removedLog
  | _ => True

/-- The pages that only this thread may put into the list or remove. -/
def Thread.pages : Thread c D → List PageId
  | .flushWritten f => f.writtenLog
  | .compactWriting _ _ writtenLog _ => writtenLog
  | .compactFinished removedLog => removedLog
  | _ => []

def Thread.Updates : Thread c D → Prop
  | .compactStarted | .compactWriting .. | .compactFinished _ | .updateSnapshot => True
  | _ => False

/-- The invariant of the system -/
structure SystemOk (s : DeltaSystem c D) : Prop where
  delta : DeltaOk s.delta s.appended
  thread : ∀ t, ThreadOk s.delta (s.threads t)
  pagesNodup : ∀ t, (s.threads t).pages.Nodup
  pages : ∀ t, ∀ page ∈ (s.threads t).pages, page ≠ 0 ∧ page < s.delta.nextPage ∧
    ∀ p ∈ s.delta.packs, (s.delta.packAt p).dataPage ≠ page
  disjoint : ∀ t u, t ≠ u → ∀ page ∈ (s.threads t).pages, page ∉ (s.threads u).pages
  updating : ∀ t, (s.threads t).Updates → s.delta.isUpdating = true
  single : ∀ t u, (s.threads t).Updates → (s.threads u).Updates → t = u

/-! ## Threads that do not take part in a step -/

/-- What a step may do to the pack list in the eyes of a flush. -/
structure Evolves (d d' : DeltaValueSpace c D) : Prop where
  unsaved : ∀ l p, l.head? = some p → l <+: d.unsavedPtrs → p ∈ d'.packs → l <+: d'.unsavedPtrs
  gone : ∀ p < d.nextPack, (d.packAt p).saved = false → p ∉ d.packs → p ∉ d'.packs

variable {p : PackPtr}

theorem mem_savedPtrs {d : DeltaValueSpace c D} :
    p ∈ d.savedPtrs ↔ p ∈ d.packs ∧ (d.packAt p).saved = true := by
  simp [savedPtrs]

theorem mem_unsavedPtrs {d : DeltaValueSpace c D} :
    p ∈ d.unsavedPtrs ↔ p ∈ d.packs ∧ (d.packAt p).saved = false := by
  simp [unsavedPtrs]

variable {groups : List (List PackPtr)} {ps : List PackPtr}

theorem Located.mem (h : Located groups ps) :
    ∀ group ∈ groups, ∀ p ∈ group, p ∈ ps := by
  induction groups generalizing ps with
  | nil => simp
  | cons g groups ih =>
    obtain ⟨-, pre, post, rfl, hrest⟩ := h
    intro group hgroup p hp
    rcases mem_cons.1 hgroup with rfl | hgroup
    · simp [hp]
    · simp [ih hrest group hgroup p hp]

theorem Located.append (h : Located groups ps) (qs : List PackPtr) : Located groups (ps ++ qs) := by
  induction groups generalizing ps with
  | nil => trivial
  | cons g groups ih =>
    obtain ⟨hne, pre, post, rfl, hrest⟩ := h
    exact ⟨hne, pre, post ++ qs, by simp, ih hrest⟩

section ThreadFrame

variable {removed : List PageId} {grown : List PackPtr} {d d' : DeltaValueSpace c D}
  {appended : List (DeltaItem c D)}

/-- What the step of another thread is known to do. -/
structure StepFrame (removed : List PageId) (grown : List PackPtr) (d d' : DeltaValueSpace c D) : Prop
    extends Frame removed grown d d', Evolves d d' where
  grown : ∀ p ∈ grown, p ∈ d.packs ∧ (d.packAt p).isAppendable = true
  removedPos : 0 ∉ removed
  removed : ∀ p ∈ d.packs, (d.packAt p).dataPage ≠ 0 → (d.packAt p).dataPage ∉ removed

variable {pack : Pack c D}

theorem isAppendable_eq_false (h : pack.appendable = false) :
    pack.isAppendable = false := by
  simp [Pack.isAppendable, h]

variable {p : PackPtr}

theorem StepFrame.same_of_closed (hf : StepFrame removed grown d d')
    (hp : p < d.nextPack) (hclosed : (d.packAt p).isAppendable = false) :
    SamePack (d.packAt p) (d'.packAt p) := by
  refine hf.pack p hp fun hg => ?_
  have := (hf.grown p hg).2
  simp [hclosed] at this

theorem StepFrame.readPack (h : DeltaOk d appended) (hf : StepFrame removed grown d d')
    (hp : p ∈ d.packs) (hsame : SamePack (d.packAt p) (d'.packAt p))
    (hrange : (d.packAt p).isDeleteRange = false) :
    d'.readPack (d'.packAt p) = d.readPack (d.packAt p) := by
  rcases h.ok p hp with hr | ⟨xs, hxs⟩
  · simp [hr.range] at hrange
  · have hpage : (d.packAt p).dataPage ∉ removed := by
      by_cases h0 : (d.packAt p).dataPage = 0
      · rw [h0]
        exact hf.removedPos
      · exact hf.removed p hp h0
    rw [hxs.readPack_eq, (hxs.frame hf.toFrame hsame hpage).readPack_eq]

theorem dataFlushable_isDeleteRange (h : pack.dataFlushable = true) :
    pack.isDeleteRange = false := by
  simp only [Pack.dataFlushable, and_eq_true, not_eq_true'] at h
  exact h.1

variable {task : FlushPackTask c D}

section

variable (h : DeltaOk d appended) (hf : StepFrame removed grown d d') (hp : task.pack ∈ d.packs)
  (hsame : SamePack (d.packAt task.pack) (d'.packAt task.pack))
include h hf hp hsame

theorem TaskPrepared.frame (ht : TaskPrepared d task) : TaskPrepared d' task := by
  unfold TaskPrepared at ht ⊢
  rw [hsame.dataFlushable]
  split_ifs at ht ⊢ with hflush
  · obtain ⟨block, hb, hread⟩ := ht
    exact ⟨block, hb, (hf.readPack h hp hsame (dataFlushable_isDeleteRange hflush)).trans hread⟩
  · exact ht

theorem TaskWritten.frame (ht : TaskWritten d task)
    (hpage : task.dataPage ≠ 0 → task.dataPage < d.nextPage ∧ task.dataPage ∉ removed) :
    TaskWritten d' task := by
  unfold TaskWritten at ht ⊢
  rw [hsame.dataFlushable]
  split_ifs at ht ⊢ with hflush
  · obtain ⟨block, xs, hb, hread, hperm, hsorted, h0, hlog⟩ := ht
    refine ⟨block, xs, hb, ?_, hperm, hsorted, h0, ?_⟩
    · exact (hf.readPack h hp hsame (dataFlushable_isDeleteRange hflush)).trans hread
    · rw [hf.page _ (hpage h0).1 (hpage h0).2, hlog]
  · exact ht

end

theorem FlushOk.frame {taskOk : DeltaValueSpace c D → FlushPackTask c D → Prop} {f : FlushTasks c D}
    (hflush : FlushOk taskOk d f) (h : DeltaOk d appended) (hf : StepFrame removed grown d d')
    (htask : ∀ task ∈ f.tasks, task.pack ∈ d.packs →
      SamePack (d.packAt task.pack) (d'.packAt task.pack) → taskOk d task → taskOk d' task) :
    FlushOk taskOk d' f := by
  have hsame : LiveTasks d f → ∀ task ∈ f.tasks, task.pack ∈ d.packs ∧
      SamePack (d.packAt task.pack) (d'.packAt task.pack) := by
    intro hlive task ht
    have hmem := hlive.place.subset (mem_map_of_mem ht)
    have hp := (mem_unsavedPtrs.1 hmem).1
    exact ⟨hp, hf.same_of_closed (h.bound _ hp) (isAppendable_eq_false (hlive.closed task ht))⟩
  refine ⟨hflush.nonempty, ?_, ?_⟩
  · intro p hp
    obtain ⟨hlt, hs⟩ := hflush.head p hp
    refine ⟨hlt.trans_le hf.nextPack, ?_⟩
    by_cases hin : p ∈ d.packs
    · obtain ⟨task, hhead, rfl⟩ := Option.map_eq_some_iff.1 hp
      rw [(hsame (hflush.live _ hp hin).1 task (mem_of_mem_head? hhead)).2.saved]
      exact hs
    · rw [(hf.pack p hlt fun hg => hin (hf.grown p hg).1).saved]
      exact hs
  · intro p hp hin'
    obtain ⟨hlt, hs⟩ := hflush.head p hp
    have hin : p ∈ d.packs := by
      by_contra hno
      exact hf.gone p hlt hs hno hin'
    obtain ⟨hlive, hok⟩ := hflush.live p hp hin
    have hsame' := fun task ht => (hsame hlive task ht).2
    refine ⟨⟨?_, ?_, ?_, ?_⟩, ?_⟩
    · exact hf.unsaved _ p (by rw [List.head?_map]; exact hp) hlive.place hin'
    · intro task ht
      have happ := (hsame hlive task ht).2.appendable
      rw [hlive.closed task ht] at happ
      exact eq_false_iff.2 fun htrue => by simpa using happ htrue
    · rw [hlive.flushRows, totalRows, totalRows, SamePack.map_field hsame' Pack.rows fun _ => rfl]
    · rw [hlive.flushDeletes, totalDeletes, totalDeletes,
        SamePack.map_field hsame' (fun q => q.isDeleteRange.toNat) fun _ => rfl]
    · intro task ht
      obtain ⟨hp, hsp⟩ := hsame hlive task ht
      exact htask task ht hp hsp (hok task ht)

theorem PackOk.closed_of_saved (h : PackOk d pack) (hs : pack.saved = true) :
    pack.isAppendable = false := by
  rcases h with h | ⟨xs, h⟩
  · simp [Pack.isAppendable, h.range]
  · have h0 : pack.dataPage ≠ 0 := fun h0 => by simp [(h.unpaged h0).1] at hs
    simp [Pack.isAppendable, h0]

theorem CompactOk.frame {pending : List (List PackPtr)} {tasks : List CompactTask}
    {writtenLog removedLog : List PageId} (hc : CompactOk d pending tasks writtenLog removedLog)
    (h : DeltaOk d appended) (hf : StepFrame removed grown d d')
    (hpages : ∀ page ∈ writtenLog, page ∉ removed) {new : List PackPtr}
    (hsaved : d'.savedPtrs = d.savedPtrs ++ new) : CompactOk d' pending tasks writtenLog removedLog := by
  have hmem : ∀ group ∈ tasks.map CompactTask.toCompact ++ pending, ∀ p ∈ group,
      SamePack (d.packAt p) (d'.packAt p) := by
    intro group hg p hp
    obtain ⟨hin, hs⟩ := mem_savedPtrs.1 (hc.located.mem group hg p hp)
    exact hf.same_of_closed (h.bound p hin) ((h.ok p hin).closed_of_saved hs)
  have hresult : ∀ task ∈ tasks, SamePack (d.packAt task.result) (d'.packAt task.result) := by
    intro task ht
    have hr := hc.result task ht
    exact hf.same_of_closed hr.bound (isAppendable_eq_false hr.closed)
  have hgroup : ∀ task ∈ tasks, ∀ p ∈ task.toCompact, SamePack (d.packAt p) (d'.packAt p) := by
    intro task ht p hp
    exact hmem task.toCompact (mem_append_left _ (mem_map_of_mem ht)) p hp
  refine ⟨hsaved ▸ hc.located.append new, ?_, ?_, ?_, ?_⟩
  · intro group hg p hp
    rw [(hmem group hg p hp).isDeleteRange]
    exact hc.rows group hg p hp
  · intro task ht
    have hr := hc.result task ht
    have hs := hresult task ht
    obtain ⟨xs, hxs⟩ := hr.holds
    refine ⟨hr.bound.trans_le hf.nextPack, hs.saved.trans hr.saved, ?_, ⟨xs, hxs.frame hf.toFrame hs ?_⟩,
      ?_, ?_⟩
    · have happ := hs.appendable
      rw [hr.closed] at happ
      exact eq_false_iff.2 fun htrue => by simpa using happ htrue
    · apply hpages
      rw [hc.written]
      exact mem_map_of_mem ht
    · rw [hs.rows, hr.rows, totalRows, totalRows, SamePack.map_field (hgroup task ht) Pack.rows fun _ => rfl]
    · rw [hs.items, hr.items, flatMap_def, flatMap_def,
        SamePack.map_field (hgroup task ht) Pack.items fun _ => rfl]
  · rw [hc.written]
    exact map_congr_left fun task ht => (hresult task ht).dataPage.symm
  · rw [hc.removed, flatMap_def, flatMap_def]
    congr 1
    refine map_congr_left fun task ht => ?_
    exact map_congr_left fun p hp => (hgroup task ht p hp).dataPage.symm

theorem ThreadOk.frame {thread : Thread c D} (ht : ThreadOk d thread) (h : DeltaOk d appended)
    (hf : StepFrame removed grown d d')
    (hpages : ∀ page ∈ thread.pages, page < d.nextPage ∧ page ∉ removed)
    (hsaved : thread.Updates → ∃ new, d'.savedPtrs = d.savedPtrs ++ new) : ThreadOk d' thread := by
  cases thread with
  | idle | compactStarted | compactFinished removedLog | updateSnapshot => trivial
  | flushPrepared f =>
    exact ⟨ht.1.frame h hf fun task _ hp hsame => TaskPrepared.frame h hf hp hsame, ht.2⟩
  | flushWritten f =>
    obtain ⟨hflush, hlog⟩ := ht
    refine ⟨hflush.frame h hf fun task htask hp hsame hw => hw.frame h hf hp hsame fun h0 => ?_, hlog⟩
    apply hpages
    show task.dataPage ∈ f.writtenLog
    rw [hlog]
    exact mem_filter.2 ⟨mem_map_of_mem htask, by simpa using h0⟩
  | compactWriting pending tasks writtenLog removedLog =>
    obtain ⟨new, hnew⟩ := hsaved trivial
    exact CompactOk.frame ht h hf (fun page hp => (hpages page hp).2) hnew

end ThreadFrame

end TiFlash.DM
