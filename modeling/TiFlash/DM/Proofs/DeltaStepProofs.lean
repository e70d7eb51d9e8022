import TiFlash.DM.Proofs.DeltaThreadsProofs

/-!
# Proofs: the steps of the threads of a delta value space

Every critical section keeps `SystemOk`: the appends, the two halves of `flush` and of `compact` with
their ways to give up, and what they do in between.
-/

namespace TiFlash.DM

variable {c : Bool} {D : Type*}

open DeltaValueSpace List Function Option

/-! ## Steps that leave the pack list -/

section Quiet

variable {removed : List PageId} {grown : List PackPtr} {d d' : DeltaValueSpace c D}
  {appended : List (DeltaItem c D)}

def KeepsPages (removed : List PageId) (d : DeltaValueSpace c D) : Prop :=
  0 ∉ removed ∧ ∀ p ∈ d.packs, (d.packAt p).dataPage ≠ 0 → (d.packAt p).dataPage ∉ removed

theorem KeepsPages.nil (d : DeltaValueSpace c D) : KeepsPages [] d := ⟨not_mem_nil, fun _ _ _ => not_mem_nil⟩

section

variable (hf : Frame removed [] d d')
include hf

theorem Frame.same_packs (h : DeltaOk d appended) :
    ∀ p ∈ d.packs, SamePack (d.packAt p) (d'.packAt p) :=
  fun p hp => hf.pack p (h.bound p hp) not_mem_nil

theorem Frame.ptrs_eq (h : DeltaOk d appended) (hpacks : d'.packs = d.packs) :
    d'.savedPtrs = d.savedPtrs ∧ d'.unsavedPtrs = d.unsavedPtrs := by
  have hsame := hf.same_packs h
  constructor
  · rw [savedPtrs, hpacks]
    exact filter_congr fun p hp => (hsame p hp).saved
  · rw [unsavedPtrs, hpacks]
    exact filter_congr fun p hp => by rw [(hsame p hp).saved]

theorem Frame.toStep (h : DeltaOk d appended) (hpacks : d'.packs = d.packs) (hkeep : KeepsPages removed d) :
    StepFrame removed [] d d' := by
  refine ⟨hf, ⟨?_, ?_⟩, by simp, hkeep.1, hkeep.2⟩
  · intro l p _ hl _
    rw [(hf.ptrs_eq h hpacks).2]
    exact hl
  · intro p _ _ hno
    rwa [hpacks]

end

theorem PackOk.cache_lt {pack : Pack c D} (h : PackOk d pack) {cp : CachePtr}
    (hcp : pack.cache = some cp) : cp < d.nextCache := by
  rcases h with h | ⟨xs, h⟩
  · simp [h.cache] at hcp
  · exact (h.cached cp hcp).1

theorem Writable.same {pack pack' : Pack c D} (hw : Writable d pack) (hok : PackOk d pack)
    (hsame : SamePack pack pack') (hcache : ∀ cp < d.nextCache, d'.cacheAt cp = d.cacheAt cp) :
    Writable d' pack' := by
  intro happ cp hcp
  obtain ⟨happ', hc⟩ := hsame.isAppendable happ
  rw [hc] at hcp
  rw [hcache cp (hok.cache_lt hcp), hsame.rows, hsame.schema]
  exact hw happ' cp hcp

/-- A step that changes neither the list nor the counters. -/
theorem DeltaOk.quiet (h : DeltaOk d appended) (hf : Frame removed [] d d') (hpacks : d'.packs = d.packs)
    (hkeep : KeepsPages removed d) (hcache : ∀ cp < d.nextCache, d'.cacheAt cp = d.cacheAt cp)
    (hcounters : d'.counters = d.counters) (hmeta : d'.metaPage = d.metaPage) :
    DeltaOk d' appended := by
  have hsame := hf.same_packs h
  have hcore : d'.packList.map Pack.core = d.packList.map Pack.core := by
    rw [packList, hpacks]
    exact SamePack.map_field hsame Pack.core fun _ => rfl
  refine ⟨hpacks ▸ h.nodup, ?_, ?_, ?_, ?_, h.pagePos.trans_le hf.nextPage, ?_⟩
  · rw [hpacks]
    exact fun p hp => (h.bound p hp).trans_le hf.nextPack
  · rw [hpacks]
    exact fun p hp => (h.ok p hp).frame hf (hsame p hp) (hkeep.2 p hp) hkeep.1
  · rw [hpacks]
    intro p hp
    have hmem : p ∈ d.packs := mem_of_getLast? hp
    exact (h.writable p hp).same (h.ok p hmem) (hsame p hmem) hcache
  · rw [hcounters, hmeta]
    exact h.ledger.congr_core hcore
  · have hlist : d'.pageList = d.pageList := by
      rw [pageList, hpacks]
      exact map_congr_left fun p hp => (hsame p hp).dataPage
    rw [hlist]
    exact h.pages

end Quiet

/-! ## The other threads -/

section System

variable {removed : List PageId} {grown : List PackPtr} {s : DeltaSystem c D}
  {d' : DeltaValueSpace c D} {appended' : List (DeltaItem c D)}

/-- Where the pages of the list come from: from the list, or from the pages in `own`, or they are new. -/
def PagesFrom (own : List PageId) (d d' : DeltaValueSpace c D) : Prop :=
  ∀ p ∈ d'.packs, (d'.packAt p).dataPage ≠ 0 →
    (∃ q ∈ d.packs, (d.packAt q).dataPage = (d'.packAt p).dataPage) ∨
      (d'.packAt p).dataPage ∈ own ∨ d.nextPage ≤ (d'.packAt p).dataPage

theorem SystemOk.other (h : SystemOk s) (hf : StepFrame removed grown s.delta d') {own : List PageId}
    (hfrom : PagesFrom own s.delta d') {u : Nat}
    (hremoved : ∀ page ∈ (s.threads u).pages, page ∉ removed)
    (hown : ∀ page ∈ (s.threads u).pages, page ∉ own)
    (hsaved : (s.threads u).Updates → ∃ new, d'.savedPtrs = s.delta.savedPtrs ++ new) :
    ThreadOk d' (s.threads u) ∧ ∀ page ∈ (s.threads u).pages, page ≠ 0 ∧ page < d'.nextPage ∧
      ∀ p ∈ d'.packs, (d'.packAt p).dataPage ≠ page := by
  refine ⟨(h.thread u).frame h.delta hf
    (fun page hp => ⟨(h.pages u page hp).2.1, hremoved page hp⟩) hsaved, ?_⟩
  intro page hp
  obtain ⟨h0, hlt, hlist⟩ := h.pages u page hp
  refine ⟨h0, hlt.trans_le hf.nextPage, ?_⟩
  intro p hin heq
  rcases hfrom p hin (heq ▸ h0) with ⟨q, hq, hqp⟩ | hmine | hnew
  · exact hlist q hq (hqp.trans heq)
  · exact hown page hp (heq ▸ hmine)
  · exact hlt.not_ge (heq ▸ hnew)

/-- A step of no thread in particular: it removes nothing, and threads stay where they are. -/
theorem SystemOk.stepAppend (h : SystemOk s) (hf : StepFrame [] grown s.delta d')
    (hdelta : DeltaOk d' appended') (hfrom : PagesFrom [] s.delta d')
    (hsaved : ∃ new, d'.savedPtrs = s.delta.savedPtrs ++ new)
    (hflag : d'.isUpdating = s.delta.isUpdating) :
    SystemOk { s with delta := d', appended := appended' } := by
  have hother := fun u => h.other hf hfrom (u := u) (fun _ _ => not_mem_nil)
    (fun _ _ => not_mem_nil) fun _ => hsaved
  refine ⟨hdelta, fun u => (hother u).1, h.pagesNodup, fun u => (hother u).2, h.disjoint, ?_, h.single⟩
  intro u hu
  exact hflag.trans (h.updating u hu)

variable {t : Nat} {thread : Thread c D}

/-- A step of thread `t` removes only pages of its own; the pages it holds afterwards were its own, new, or in
the list. -/
theorem SystemOk.stepThread (h : SystemOk s)
    (hf : StepFrame removed grown s.delta d') (hdelta : DeltaOk d' s.appended)
    (hfrom : PagesFrom (s.threads t).pages s.delta d')
    (hremoved : ∀ page ∈ removed, page ∈ (s.threads t).pages) (hthread : ThreadOk d' thread)
    (hnodup : thread.pages.Nodup)
    (hpages : ∀ page ∈ thread.pages, page ≠ 0 ∧ page < d'.nextPage ∧
      (∀ p ∈ d'.packs, (d'.packAt p).dataPage ≠ page) ∧
      (page ∈ (s.threads t).pages ∨ s.delta.nextPage ≤ page ∨
        ∃ p ∈ s.delta.packs, (s.delta.packAt p).dataPage = page))
    (hsaved : (∃ new, d'.savedPtrs = s.delta.savedPtrs ++ new) ∨ (s.threads t).Updates)
    (hflag : s.delta.isUpdating = true → d'.isUpdating = true ∨ (s.threads t).Updates)
    (hupdates : thread.Updates →
      d'.isUpdating = true ∧ ((s.threads t).Updates ∨ s.delta.isUpdating = false)) :
    SystemOk (s.update t thread d') := by
  have hother : ∀ u ≠ t, ThreadOk d' (s.threads u) ∧ ∀ page ∈ (s.threads u).pages,
      page ≠ 0 ∧ page < d'.nextPage ∧ ∀ p ∈ d'.packs, (d'.packAt p).dataPage ≠ page := by
    intro u hu
    refine h.other hf hfrom ?_ (fun page hp => h.disjoint u t hu page hp) ?_
    · exact fun page hp hr => h.disjoint u t hu page hp (hremoved page hr)
    · intro hupd
      exact hsaved.resolve_right fun ht => hu (h.single u t hupd ht)
  have hsingle : thread.Updates → ∀ u ≠ t, ¬ (s.threads u).Updates := by
    intro hupd u hu hu'
    rcases (hupdates hupd).2 with ht | hfalse
    · exact hu (h.single u t hu' ht)
    · have := h.updating u hu'
      simp [hfalse] at this
  have hdisj : ∀ u ≠ t, ∀ page ∈ thread.pages, page ∉ (s.threads u).pages := by
    intro u hu page hp hpu
    obtain ⟨-, hlt, hlist⟩ := h.pages u page hpu
    rcases (hpages page hp).2.2.2 with hmine | hnew | ⟨p, hin, heq⟩
    · exact h.disjoint u t hu page hpu hmine
    · exact hlt.not_ge hnew
    · exact hlist p hin heq
  refine ⟨hdelta, ?_, ?_, ?_, ?_, ?_, ?_⟩
  · intro u
    by_cases hu : u = t
    · subst hu
      simpa [DeltaSystem.update] using hthread
    · simpa [DeltaSystem.update, hu] using (hother u hu).1
  · intro u
    by_cases hu : u = t
    · subst hu
      simpa [DeltaSystem.update] using hnodup
    · simpa [DeltaSystem.update, hu] using h.pagesNodup u
  · intro u
    by_cases hu : u = t
    · subst hu
      intro page hp
      have hp' : page ∈ thread.pages := by simpa [DeltaSystem.update] using hp
      obtain ⟨h0, hlt, hlist, -⟩ := hpages page hp'
      exact ⟨h0, hlt, hlist⟩
    · simpa [DeltaSystem.update, hu] using (hother u hu).2
  · intro u v huv
    by_cases hu : u = t
    · subst hu
      simpa [DeltaSystem.update, Ne.symm huv] using hdisj v (Ne.symm huv)
    · by_cases hv : v = t
      · subst hv
        simp only [DeltaSystem.update, update_of_ne hu, update_self]
        exact fun page hp hpt => hdisj u hu page hpt hp
      · simpa [DeltaSystem.update, hu, hv] using h.disjoint u v huv
  · intro u
    by_cases hu : u = t
    · subst hu
      simpa [DeltaSystem.update] using fun hupd => (hupdates hupd).1
    · simp only [DeltaSystem.update, update_of_ne hu]
      intro hupd
      rcases hflag (h.updating u hupd) with hyes | ht
      · exact hyes
      · exact absurd (h.single u t hupd ht) hu
  · intro u v
    by_cases hu : u = t
    · subst hu
      by_cases hv : v = u
      · exact fun _ _ => hv.symm
      · simp only [DeltaSystem.update, update_self, update_of_ne hv]
        exact fun hupd hv' => absurd hv' (hsingle hupd v hv)
    · by_cases hv : v = t
      · subst hv
        simp only [DeltaSystem.update, update_self, update_of_ne hu]
        exact fun hu' hupd => absurd hu' (hsingle hupd u hu)
      · simpa [DeltaSystem.update, hu, hv] using h.single u v

theorem SystemOk.stepQuiet (h : SystemOk s) (hf : Frame removed [] s.delta d') (hpacks : d'.packs = s.delta.packs)
    (hcache : ∀ cp < s.delta.nextCache, d'.cacheAt cp = s.delta.cacheAt cp)
    (hcounters : d'.counters = s.delta.counters) (hmeta : d'.metaPage = s.delta.metaPage)
    (hremoved : ∀ page ∈ removed, page ∈ (s.threads t).pages) (hthread : ThreadOk d' thread)
    (hnodup : thread.pages.Nodup)
    (hpages : ∀ page ∈ thread.pages, page ≠ 0 ∧ page < d'.nextPage ∧
      (page ∈ (s.threads t).pages ∨ s.delta.nextPage ≤ page))
    (hflag : s.delta.isUpdating = true → d'.isUpdating = true ∨ (s.threads t).Updates)
    (hupdates : thread.Updates →
      d'.isUpdating = true ∧ ((s.threads t).Updates ∨ s.delta.isUpdating = false)) :
    SystemOk (s.update t thread d') := by
  have hkeep : KeepsPages removed s.delta := by
    constructor
    · exact fun h0 => (h.pages t 0 (hremoved 0 h0)).1 rfl
    · exact fun p hp _ hr => (h.pages t _ (hremoved _ hr)).2.2 p hp rfl
  have hsame := hf.same_packs h.delta
  have hlist : ∀ p ∈ d'.packs, (d'.packAt p).dataPage = (s.delta.packAt p).dataPage := by
    rw [hpacks]
    exact fun p hp => (hsame p hp).dataPage
  refine h.stepThread (hf.toStep h.delta hpacks hkeep)
    (h.delta.quiet hf hpacks hkeep hcache hcounters hmeta) ?_ hremoved hthread hnodup ?_ ?_ hflag hupdates
  · exact fun p hp _ => .inl ⟨p, hpacks ▸ hp, (hlist p hp).symm⟩
  · intro page hp
    obtain ⟨h0, hlt, hfrom⟩ := hpages page hp
    refine ⟨h0, hlt, ?_, hfrom.imp_right .inl⟩
    intro p hin
    rw [hlist p hin]
    rw [hpacks] at hin
    rcases hfrom with hmine | hnew
    · exact (h.pages t page hmine).2.2 p hin
    · exact (((h.delta.ok p hin).page_lt h.delta.pagePos).trans_le hnew).ne
  · exact .inl ⟨[], by rw [(hf.ptrs_eq h.delta hpacks).1, append_nil]⟩

end System

/-! ## Appends -/

section Append

variable {d d' : DeltaValueSpace c D} {appended : List (DeltaItem c D)}

/-- A new pack at the end of the list. -/
structure Pushes (d d' : DeltaValueSpace c D) (pack : Pack c D) : Prop where
  frame : Frame [] [] d d'
  packs : d'.packs = d.packs ++ [d.nextPack]
  next : d.nextPack < d'.nextPack
  packAt : d'.packAt d.nextPack = pack
  ok : PackOk d' pack
  writable : Writable d' pack
  unsaved : pack.saved = false
  page : pack.dataPage ≠ 0 → d.nextPage ≤ pack.dataPage
  counters : d'.counters = ⟨d.rows + pack.rows, d.deletes + pack.isDeleteRange.toNat,
    d.unsavedRows + pack.rows, d.unsavedDeletes + pack.isDeleteRange.toNat⟩
  metaPage : d'.metaPage = d.metaPage
  flag : d'.isUpdating = d.isUpdating

namespace Pushes

variable {pack : Pack c D}

section

variable (hp : Pushes d d' pack)
include hp

section

variable (h : DeltaOk d appended)
include h

theorem deltaOk : DeltaOk d' (appended ++ pack.items) := by
  have hsame := hp.frame.same_packs h
  have hnew : d.nextPack ∉ d.packs := fun hin => lt_irrefl _ (h.bound _ hin)
  refine ⟨?_, ?_, ?_, ?_, ?_, h.pagePos.trans_le hp.frame.nextPage, ?_⟩
  · rw [hp.packs, nodup_append]
    refine ⟨h.nodup, nodup_singleton _, ?_⟩
    intro p hin q hq heq
    rw [mem_singleton.1 hq] at heq
    exact hnew (heq ▸ hin)
  · rw [hp.packs]
    exact forall_mem_append.2 ⟨fun p hin => (h.bound p hin).trans_le hp.frame.nextPack,
      forall_mem_singleton.2 hp.next⟩
  · rw [hp.packs]
    exact forall_mem_append.2 ⟨fun p hin =>
      (h.ok p hin).frame hp.frame (hsame p hin) (fun _ => not_mem_nil) not_mem_nil,
      forall_mem_singleton.2 (hp.packAt ▸ hp.ok)⟩
  · rw [hp.packs]
    intro p hlast
    rw [List.getLast?_concat, some.injEq] at hlast
    rw [← hlast, hp.packAt]
    exact hp.writable
  · have hlist : d'.packList = d.packs.map d'.packAt ++ [pack] := by
      rw [packList, hp.packs, map_append, map_singleton, hp.packAt]
    have hcore : (d.packs.map d'.packAt).map Pack.core = d.packList.map Pack.core :=
      SamePack.map_field hsame Pack.core fun _ => rfl
    rw [hlist, hp.counters, hp.metaPage]
    exact (h.ledger.congr_core hcore).append hp.unsaved
  · have hlist : d'.pageList = d.pageList ++ [pack.dataPage] := by
      rw [pageList, hp.packs, map_append, map_singleton, hp.packAt]
      congr 1
      exact map_congr_left fun p hp => (hsame p hp).dataPage
    rw [hlist]
    refine pairwise_append.2 ⟨h.pages, pairwise_singleton _ _, ?_⟩
    intro page hin page' hin' h0 heq
    obtain ⟨p, hpin, rfl⟩ := mem_map.1 hin
    rw [mem_singleton.1 hin'] at heq
    have hlt := (h.ok p hpin).page_lt h.pagePos
    have hge := hp.page (heq ▸ h0)
    exact hlt.not_ge (heq ▸ hge)

theorem savedPtrs_eq : d'.savedPtrs = d.savedPtrs := by
  have hsame := hp.frame.same_packs h
  rw [savedPtrs, hp.packs, filter_append, filter_singleton, hp.packAt, hp.unsaved]
  simpa [savedPtrs] using filter_congr fun p hin => by rw [(hsame p hin).saved]

theorem stepFrame : StepFrame [] [] d d' := by
  have hsame := hp.frame.same_packs h
  have hun : d'.unsavedPtrs = d.unsavedPtrs ++ [d.nextPack] := by
    rw [unsavedPtrs, hp.packs, filter_append, filter_singleton, hp.packAt, hp.unsaved]
    simpa [unsavedPtrs] using filter_congr fun p hin => by rw [(hsame p hin).saved]
  refine ⟨hp.frame, ⟨?_, ?_⟩, by simp, not_mem_nil, fun _ _ _ => not_mem_nil⟩
  · intro l p _ hl _
    rw [hun]
    exact hl.trans (prefix_append _ _)
  · intro p hlt _ hno hin
    rw [hp.packs] at hin
    rcases mem_append.1 hin with hin | hin
    · exact hno hin
    · exact hlt.ne (mem_singleton.1 hin)

theorem pagesFrom : PagesFrom [] d d' := by
  have hsame := hp.frame.same_packs h
  intro p hin h0
  rw [hp.packs] at hin
  rcases mem_append.1 hin with hin | hin
  · exact .inl ⟨p, hin, (hsame p hin).dataPage.symm⟩
  · rw [mem_singleton.1 hin, hp.packAt] at h0 ⊢
    exact .inr (.inr (hp.page h0))

end

end

theorem systemOk {s : DeltaSystem c D} (hp : Pushes s.delta d' pack) (h : SystemOk s) :
    SystemOk { s with delta := d', appended := s.appended ++ pack.items } :=
  h.stepAppend (hp.stepFrame h.delta) (hp.deltaOk h.delta) (hp.pagesFrom h.delta)
    ⟨[], by rw [hp.savedPtrs_eq h.delta, append_nil]⟩ hp.flag

end Pushes

theorem items_of_rows {pack : Pack c D} (h : pack.isDeleteRange = false) :
    pack.items = pack.origin.flatten.map .row := by
  unfold Pack.items
  unfold Pack.isDeleteRange at h
  cases hr : pack.deleteRange with
  | none => rfl
  | some range =>
    rw [hr] at h
    simp only [Bool.not_eq_false'] at h
    simp [h]

variable {range : RowKeyRange c}

theorem pushes_appendDeleteRange (d : DeltaValueSpace c D)
    (hrange : range.none = false) (habandoned : d.abandoned = false) :
    Pushes d (d.appendDeleteRange range).2 { deleteRange := some range, appendable := false } := by
  have hd : (d.appendDeleteRange range).2 = { d.makePack { deleteRange := some range, appendable := false } with
      packs := d.packs ++ [d.nextPack]
      deletes := d.deletes + 1
      unsavedDeletes := d.unsavedDeletes + 1 } := by
    simp [appendDeleteRange, habandoned]
  have hr : ({ deleteRange := some range, appendable := false } : Pack c D).isDeleteRange = true := by
    simp [Pack.isDeleteRange, hrange]
  rw [hd]
  refine ⟨(Frame.makePack _).congr rfl rfl rfl rfl rfl rfl, rfl, Nat.lt_succ_self _, ?_, ?_, ?_, rfl, ?_,
    ?_, rfl, rfl⟩
  · simp [makePack]
  · exact .inl ⟨hr, rfl, rfl, rfl, rfl⟩
  · intro happ
    simp [Pack.isAppendable] at happ
  · simp
  · rw [hr]
    rfl

variable {s : DeltaSystem c D}

theorem SystemOk.appendDeleteRange (h : SystemOk s) (hrange : range.none = false) :
    SystemOk (s.append [.delete range] (s.delta.appendDeleteRange range)) := by
  cases habandoned : s.delta.abandoned with
  | true =>
    have hres : s.delta.appendDeleteRange range = (false, s.delta) := by
      simp [DeltaValueSpace.appendDeleteRange, habandoned]
    rw [hres]
    exact h
  | false =>
    have hp := pushes_appendDeleteRange s.delta hrange habandoned
    have hitems : ({ deleteRange := some range, appendable := false } : Pack c D).items
        = [.delete range] := by
      simp [Pack.items, hrange]
    have htrue : (s.delta.appendDeleteRange range).1 = true := by
      simp [DeltaValueSpace.appendDeleteRange, habandoned]
    have hok := hp.systemOk h
    rw [hitems] at hok
    simpa [DeltaSystem.append, htrue] using hok

theorem samePack_close (p : Pack c D) : SamePack p { p with appendable := false } :=
  ⟨rfl, .inl rfl, fun h => by simp at h⟩

theorem closeLastPack_eq (d : DeltaValueSpace c D) :
    d.closeLastPack = { d with packAt := d.closeLastPack.packAt } := by
  unfold closeLastPack
  cases d.packs.getLast? <;> rfl

theorem closeLastPack_same (d : DeltaValueSpace c D) (p : PackPtr) :
    SamePack (d.packAt p) (d.closeLastPack.packAt p) := by
  unfold closeLastPack
  cases d.packs.getLast? with
  | none => exact .refl _
  | some last =>
    by_cases hp : p = last
    · subst hp
      simpa [modifyPack] using samePack_close (d.packAt p)
    · simpa [modifyPack, hp] using SamePack.refl (d.packAt p)

theorem closeLastPack_packAt {d : DeltaValueSpace c D} {p : PackPtr} (hp : p ∉ d.packs) :
    d.closeLastPack.packAt p = d.packAt p := by
  unfold closeLastPack
  cases hl : d.packs.getLast? with
  | none => rfl
  | some last =>
    have hne : p ≠ last := fun heq => hp (heq ▸ mem_of_getLast? hl)
    simp [modifyPack, hne]

theorem columns_shareSchema (d : DeltaValueSpace c D) (schema : SchemaPtr) :
    (d.shareSchema schema).columns = schema.columns := by
  unfold shareSchema
  cases d.lastSchema with
  | none => rfl
  | some last =>
    by_cases heq : schema.columns = last.columns
    · simp [heq]
    · simp [heq]

theorem writePack_frame (d : DeltaValueSpace c D) (block : DataBlock c D) (bytes : Nat) :
    Frame [] [] d (d.writePack block bytes) :=
  ((Frame.writePackData block.rows).trans (Frame.makePack _)).congr rfl rfl rfl rfl rfl rfl

variable {block : DataBlock c D}

theorem pushes_appendToDisk (h : DeltaOk d appended) (habandoned : d.abandoned = false) (hcolumns : block.columns ≠ []) (bytes : Nat) :
    ∃ pack, Pushes d ((d.writePack block bytes).appendToDisk d.nextPack).2 pack ∧
      pack.items = block.rows.map .row := by
  set schema := (d.writePack block bytes).shareSchema ⟨d.nextSchema, block.columns⟩ with hschema
  have hne : schema.columns ≠ [] := by
    rw [hschema, columns_shareSchema]
    exact hcolumns
  have hwritten : (d.writePack block bytes).packAt d.nextPack =
      { rows := block.rows.length, bytes := bytes, schema := some ⟨d.nextSchema, block.columns⟩,
        dataPage := d.nextPage, appendable := false, origin := [block.rows] } := by
    simp [DeltaValueSpace.writePack, makePack, writePackData]
  set d₁ := (d.writePack block bytes).modifyPack d.nextPack
    fun pack => { pack with schema := pack.schema.map (d.writePack block bytes).shareSchema } with hd₁
  have hres : ((d.writePack block bytes).appendToDisk d.nextPack).2 = { d₁ with
        packAt := d₁.closeLastPack.packAt
        packs := d.packs ++ [d.nextPack]
        rows := d.rows + block.rows.length
        unsavedRows := d.unsavedRows + block.rows.length } := by
    have hab : (d.writePack block bytes).abandoned = false := habandoned
    unfold appendToDisk
    rw [if_neg (by simp [hab])]
    simp only [← hd₁, hwritten]
    rw [closeLastPack_eq]
    rfl
  have hnew : d.nextPack ∉ d₁.packs := fun hin => lt_irrefl _ (h.bound d.nextPack hin)
  have hpack : d₁.closeLastPack.packAt d.nextPack =
      { rows := block.rows.length, bytes := bytes, schema := some schema, dataPage := d.nextPage,
        appendable := false, origin := [block.rows] } := by
    rw [closeLastPack_packAt hnew]
    simp [hd₁, modifyPack, hwritten, hschema]
  have hold : ∀ p < d.nextPack, d₁.packAt p = d.packAt p := by
    intro p hp
    simp [hd₁, DeltaValueSpace.writePack, makePack, modifyPack, writePackData, hp.ne]
  rw [hres]
  refine ⟨_, ⟨?_, rfl, Nat.lt_succ_self _, hpack, ?_, ?_, rfl, fun _ => le_rfl, rfl, rfl, rfl⟩, ?_⟩
  · refine ⟨Nat.le_succ _, le_rfl, Nat.le_succ _, ?_, fun _ _ => ⟨rfl, prefix_rfl⟩, ?_⟩
    · intro p hp _
      exact hold p hp ▸ closeLastPack_same d₁ p
    · exact fun page hp _ => (writePack_frame d block bytes).page page hp not_mem_nil
  · refine .inr ⟨block.rows, rfl, rfl, by simp, ?_, ?_, ⟨schema, rfl, hne⟩, ?_, fun _ => rfl⟩
    · intro _
      refine ⟨Nat.lt_succ_self _, ?_⟩
      simp [hd₁, modifyPack, DeltaValueSpace.writePack, makePack, writePackData]
    · intro h0
      exact absurd h0 h.pagePos.ne'
    · exact ⟨[block.rows], .cons (.refl _) .nil, by simp⟩
  · intro happ
    simp [Pack.isAppendable] at happ
  · rw [items_of_rows rfl]
    simp

theorem SystemOk.appendToDisk (h : SystemOk s) (hcolumns : block.columns ≠ []) (bytes : Nat) :
    SystemOk (s.append (block.rows.map .row)
      ((s.delta.writePack block bytes).appendToDisk s.delta.nextPack)) := by
  cases habandoned : s.delta.abandoned with
  | true =>
    have hres : (s.delta.writePack block bytes).appendToDisk s.delta.nextPack
        = (false, s.delta.writePack block bytes) := by
      have hab : (s.delta.writePack block bytes).abandoned = true := habandoned
      simp [DeltaValueSpace.appendToDisk, hab]
    have hf := writePack_frame s.delta block bytes
    have hkeep := KeepsPages.nil s.delta
    have hsame := hf.same_packs h.delta
    rw [hres]
    refine h.stepAppend (hf.toStep h.delta rfl hkeep)
      (h.delta.quiet hf rfl hkeep (fun _ _ => rfl) rfl rfl) ?_ ?_ rfl
    · exact fun p hp _ => .inl ⟨p, hp, (hsame p hp).dataPage.symm⟩
    · exact ⟨[], by rw [(hf.ptrs_eq h.delta rfl).1, append_nil]⟩
  | false =>
    obtain ⟨pack, hp, hitems⟩ := pushes_appendToDisk h.delta habandoned hcolumns bytes
    have htrue : ((s.delta.writePack block bytes).appendToDisk s.delta.nextPack).1 = true := by
      have hab : (s.delta.writePack block bytes).abandoned = false := habandoned
      simp [DeltaValueSpace.appendToDisk, hab]
    have hok := hp.systemOk h
    rw [hitems] at hok
    simpa [DeltaSystem.append, htrue] using hok

/-- `appendToCache` finds an open last pack for these columns, or makes sure there is none. The check of the
schema never throws. -/
theorem mutablePack_spec (h : DeltaOk d appended) (limitRows : Nat) (columns : List ColumnHeader) :
    (∃ p cp, d.mutablePack limitRows columns = some (some (p, cp), d) ∧ d.packs.getLast? = some p ∧
      (d.packAt p).isAppendable = true ∧ (d.packAt p).cache = some cp) ∨
    ∃ d₁, d.mutablePack limitRows columns = some (none, d₁) ∧ (d₁ = d ∨ d₁ = d.closeLastPack) := by
  unfold mutablePack
  cases hl : d.packs.getLast? with
  | none => exact .inr ⟨d, rfl, .inl rfl⟩
  | some last =>
    cases hc : (d.packAt last).cache with
    | none => exact .inr ⟨d, by simp [hc], .inl rfl⟩
    | some cp =>
      by_cases happ : (d.packAt last).isAppendable = true
      · obtain ⟨-, hschema⟩ := h.writable last hl happ cp hc
        by_cases hroom : (d.cacheAt cp).rows.length < limitRows ∧ columns = (d.cacheAt cp).columns
        · exact .inl ⟨last, cp, by simp [hc, happ, hschema, hroom], rfl, happ, hc⟩
        · refine .inr ⟨d.closeLastPack, ?_, .inr rfl⟩
          simp [hc, happ, hschema, hroom, closeLastPack, hl]
      · exact .inr ⟨d, by simp [hc, happ], .inl rfl⟩

theorem pushes_appendNewPack (h : DeltaOk d appended) {d₁ : DeltaValueSpace c D}
    (hd₁ : d₁ = d ∨ d₁ = d.closeLastPack) (block : DataBlock c D) (hcolumns : block.columns ≠ [])
    (bytes : Nat) :
    ∃ pack, Pushes d { d₁.appendNewPack block bytes with
        rows := d.rows + block.rows.length
        unsavedRows := d.unsavedRows + block.rows.length } pack ∧
      pack.items = block.rows.map .row := by
  have heq : d₁ = { d with packAt := d₁.packAt } := by
    rcases hd₁ with rfl | rfl
    · rfl
    · exact closeLastPack_eq d
  have hsame : ∀ p, SamePack (d.packAt p) (d₁.packAt p) := by
    rcases hd₁ with rfl | rfl
    · exact fun p => .refl _
    · exact closeLastPack_same d
  generalize d₁.packAt = packAt at heq hsame
  subst heq
  refine ⟨_, ⟨?_, rfl, Nat.lt_succ_self _, update_self .., ?_, ?_, rfl, ?_, rfl, rfl, rfl⟩, ?_⟩
  · refine ⟨Nat.le_succ _, Nat.le_succ _, le_rfl, ?_, ?_, fun _ _ _ => rfl⟩
    · intro p hp _
      have hne : p ≠ d.nextPack := hp.ne
      simpa [appendNewPack, makePack, makeCache, hne] using hsame p
    · intro cp hcp
      have hne : cp ≠ d.nextCache := hcp.ne
      simp [appendNewPack, makePack, makeCache, hne]
  · refine .inr ⟨block.rows, rfl, rfl, ?_, fun h0 => absurd rfl h0, fun _ => ⟨rfl, d.nextCache, rfl⟩,
      ⟨_, rfl, ?_⟩, ⟨[block.rows], .cons (.refl _) .nil, by simp⟩, fun _ => rfl⟩
    · intro cp hcp
      obtain rfl : d.nextCache = cp := some.inj hcp
      refine ⟨Nat.lt_succ_self _, ?_⟩
      simp [appendNewPack, makePack, makeCache]
    · rw [columns_shareSchema]
      exact hcolumns
  · intro _ cp hcp
    obtain rfl : d.nextCache = cp := some.inj hcp
    simp [appendNewPack, makePack, makeCache, columns_shareSchema]
  · exact fun h0 => absurd rfl h0
  · rw [items_of_rows rfl]
    simp

section Grow

variable {p : PackPtr} {cp : CachePtr} (new : List (Row (RowKey c) D)) (bytes : Nat)

/-- The state after rows were appended to the last pack. -/
def grown (d : DeltaValueSpace c D) (p : PackPtr) (cp : CachePtr) (new : List (Row (RowKey c) D))
    (bytes : Nat) : DeltaValueSpace c D :=
  { d.appendToPack p cp new bytes with
    rows := d.rows + new.length
    unsavedRows := d.unsavedRows + new.length }

theorem grown_packAt_self : (grown d p cp new bytes).packAt p = { d.packAt p with
      rows := (d.packAt p).rows + new.length
      bytes := (d.packAt p).bytes + bytes
      origin := [(d.packAt p).origin.flatten ++ new] } := by
  simp [grown, appendToPack, modifyPack]

theorem grown_packAt_of_ne {q : PackPtr} (hq : q ≠ p) :
    (grown d p cp new bytes).packAt q = d.packAt q := by
  simp [grown, appendToPack, modifyPack, hq]

theorem grown_frame : Frame [] [p] d (grown d p cp new bytes) := by
  refine ⟨le_rfl, le_rfl, le_rfl, ?_, ?_, fun _ _ _ => rfl⟩
  · intro q _ hq
    rw [grown_packAt_of_ne new bytes (by simpa using hq)]
    exact .refl _
  · intro cp' _
    by_cases hcp : cp' = cp
    · subst hcp
      simp [grown, appendToPack, modifyPack]
    · simp [grown, appendToPack, modifyPack, hcp]

theorem open_pack (h : DeltaOk d appended) (hlast : d.packs.getLast? = some p)
    (happ : (d.packAt p).isAppendable = true) (hcp : (d.packAt p).cache = some cp) :
    ∃ xs, Holds d (d.packAt p) xs ∧ (d.packAt p).dataPage = 0 ∧ (d.packAt p).saved = false ∧
      (d.packAt p).origin = [xs] ∧ (d.cacheAt cp).rows = xs := by
  have hopen : (d.packAt p).isDeleteRange = false ∧ (d.packAt p).dataPage = 0 := by
    simp only [Pack.isAppendable, Bool.and_eq_true, Bool.not_eq_true', decide_eq_true_eq] at happ
    exact happ.1.1
  rcases h.ok p (mem_of_getLast? hlast) with hr | ⟨xs, hxs⟩
  · simp [hr.range] at hopen
  · have hs := (hxs.unpaged hopen.2).1
    obtain ⟨hlen, -⟩ := h.writable p hlast happ cp hcp
    obtain ⟨-, htake⟩ := hxs.cached cp hcp
    rw [hxs.rows] at hlen
    rw [← hlen, take_length] at htake
    exact ⟨xs, hxs, hopen.2, hs, hxs.unsaved hs, htake⟩

theorem grown_holds (hcp : (d.packAt p).cache = some cp) {xs : List (Row (RowKey c) D)}
    (hxs : Holds d (d.packAt p) xs) (h0 : (d.packAt p).dataPage = 0)
    (horigin : (d.packAt p).origin = [xs]) (hcache : (d.cacheAt cp).rows = xs) :
    Holds (grown d p cp new bytes) ((grown d p cp new bytes).packAt p) (xs ++ new) := by
  rw [grown_packAt_self, horigin]
  refine ⟨hxs.notRange, by simp [hxs.rows], ?_, ?_, ?_, hxs.schema, ?_, by simp⟩
  · intro cp' hcp'
    obtain rfl : cp = cp' := some.inj (hcp.symm.trans hcp')
    refine ⟨(hxs.cached cp hcp).1, ?_⟩
    simp [grown, appendToPack, modifyPack, hcache]
  · exact fun hne => absurd h0 hne
  · exact fun _ => ⟨(hxs.unpaged h0).1, cp, hcp⟩
  · exact ⟨[xs ++ new], .cons (by simp) .nil, by simp⟩

theorem grown_deltaOk (h : DeltaOk d appended) (hlast : d.packs.getLast? = some p)
    (happ : (d.packAt p).isAppendable = true) (hcp : (d.packAt p).cache = some cp) :
    DeltaOk (grown d p cp new bytes) (appended ++ new.map .row) := by
  obtain ⟨xs, hxs, h0, hs, horigin, hcache⟩ := open_pack h hlast happ hcp
  have hself := @grown_packAt_self c D d p cp new bytes
  have hpages : ∀ q, ((grown d p cp new bytes).packAt q).dataPage = (d.packAt q).dataPage := by
    intro q
    by_cases hq : q = p
    · rw [hq, hself]
    · rw [grown_packAt_of_ne new bytes hq]
  refine ⟨h.nodup, h.bound, ?_, ?_, ?_, h.pagePos, ?_⟩
  · intro q hq
    by_cases hqp : q = p
    · subst hqp
      exact .inr ⟨_, grown_holds new bytes hcp hxs h0 horigin hcache⟩
    · refine (h.ok q hq).frame (grown_frame new bytes) ?_ (fun _ => not_mem_nil) not_mem_nil
      rw [grown_packAt_of_ne new bytes hqp]
      exact .refl _
  · intro q hq
    obtain rfl : p = q := some.inj (hlast.symm.trans hq)
    intro _ cp' hcp'
    rw [hself] at hcp' ⊢
    obtain rfl : cp = cp' := some.inj (hcp.symm.trans hcp')
    obtain ⟨hlen, hschema⟩ := h.writable p hlast happ cp hcp
    constructor
    · simp [grown, appendToPack, modifyPack, hlen]
    · simpa [grown, appendToPack, modifyPack] using hschema
  · obtain ⟨front, hfront⟩ : ∃ front, d.packs = front ++ [p] :=
      ⟨d.packs.dropLast, (dropLast_append_getLast? p hlast).symm⟩
    have hnotin : ∀ q ∈ front, q ≠ p := by
      have hnd := h.nodup
      rw [hfront, nodup_append] at hnd
      exact fun q hq => hnd.2.2 q hq p mem_cons_self
    have hold : d.packList = front.map d.packAt ++ [d.packAt p] := by
      rw [packList, hfront, map_append, map_singleton]
    have hnew : (grown d p cp new bytes).packList
        = front.map d.packAt ++ [(grown d p cp new bytes).packAt p] := by
      show d.packs.map _ = _
      rw [hfront, map_append, map_singleton]
      congr 1
      exact map_congr_left fun q hq => grown_packAt_of_ne new bytes (hnotin q hq)
    have hledger := h.ledger
    rw [hold] at hledger
    rw [hnew]
    refine hledger.extend hs ?_ ?_ ?_ ?_
    · rw [hself]
      exact hs
    · rw [hself]
      rfl
    · rw [hself]
    · rw [items_of_rows (grown_holds new bytes hcp hxs h0 horigin hcache).notRange,
        items_of_rows hxs.notRange, hself, horigin]
      simp
  · have hlist : (grown d p cp new bytes).pageList = d.pageList := map_congr_left fun q _ => hpages q
    rw [hlist]
    exact h.pages

theorem grown_ptrs : (grown d p cp new bytes).savedPtrs = d.savedPtrs ∧
    (grown d p cp new bytes).unsavedPtrs = d.unsavedPtrs := by
  have hsaved : ∀ q, ((grown d p cp new bytes).packAt q).saved = (d.packAt q).saved := by
    intro q
    by_cases hq : q = p
    · rw [hq, grown_packAt_self]
    · rw [grown_packAt_of_ne new bytes hq]
  constructor
  · exact filter_congr fun q _ => hsaved q
  · exact filter_congr fun q _ => by rw [hsaved q]

theorem grown_stepFrame (hlast : d.packs.getLast? = some p) (happ : (d.packAt p).isAppendable = true) :
    StepFrame [] [p] d (grown d p cp new bytes) := by
  refine ⟨grown_frame new bytes, ⟨?_, ?_⟩, ?_, not_mem_nil, fun _ _ _ => not_mem_nil⟩
  · intro l q _ hl _
    rw [(grown_ptrs new bytes).2]
    exact hl
  · exact fun q _ _ hno => hno
  · intro q hq
    rw [mem_singleton.1 hq]
    exact ⟨mem_of_getLast? hlast, happ⟩

end Grow

theorem SystemOk.appendToCache (h : SystemOk s) (limitRows : Nat) (hcolumns : block.columns ≠ []) {offset limit : Nat}
    (hlimit : offset + limit ≤ block.rows.length) (bytes : Nat) :
    ∃ res, s.delta.appendToCache limitRows block offset limit bytes = some res ∧
      SystemOk (s.append (((block.rows.drop offset).take limit).map .row) res) := by
  unfold DeltaValueSpace.appendToCache
  cases habandoned : s.delta.abandoned with
  | true => exact ⟨(false, s.delta), rfl, h⟩
  | false =>
    have hlen : ((block.rows.drop offset).take limit).length = limit := by
      rw [length_take, length_drop]
      omega
    rcases mutablePack_spec h.delta limitRows block.columns with
      ⟨p, cp, hmut, hlast, happ, hcp⟩ | ⟨d₁, hmut, hd₁⟩
    · rw [hmut]
      refine ⟨_, rfl, ?_⟩
      have hd := grown_deltaOk ((block.rows.drop offset).take limit) bytes h.delta hlast happ hcp
      have hf : StepFrame [] [p] s.delta
          (grown s.delta p cp ((block.rows.drop offset).take limit) bytes) :=
        grown_stepFrame _ bytes hlast happ
      have hptrs := @grown_ptrs c D s.delta p cp ((block.rows.drop offset).take limit) bytes
      have hfrom : PagesFrom [] s.delta
          (grown s.delta p cp ((block.rows.drop offset).take limit) bytes) := by
        intro q hq _
        refine .inl ⟨q, hq, ?_⟩
        by_cases hqp : q = p
        · rw [hqp, grown_packAt_self]
        · rw [grown_packAt_of_ne _ _ hqp]
      have hok := h.stepAppend hf hd hfrom ⟨[], by rw [hptrs.1, append_nil]⟩ rfl
      simpa [DeltaSystem.append, grown, hlen] using hok
    · rw [hmut]
      refine ⟨_, rfl, ?_⟩
      obtain ⟨pack, hp, hitems⟩ := pushes_appendNewPack h.delta hd₁
        ⟨block.columns, (block.rows.drop offset).take limit⟩ hcolumns bytes
      have hok := hp.systemOk h
      rw [hitems] at hok
      simpa [DeltaSystem.append, hlen] using hok

end Append

end TiFlash.DM
