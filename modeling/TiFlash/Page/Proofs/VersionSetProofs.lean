import TiFlash.Page.Proofs.VersionListProofs

/-!
# Runs of a version set

Edits carry out their records on the directory that `current` shows and leave the snapshots alone. A
compaction keeps all views when its deltas do not interfere: no id that one of them deletes is bound again
by a later one, and a delta that deletes an id knows the page of this number.
-/

namespace TiFlash.Page

open TiFlash.Lib TiFlash.Lib.BackList PageEntriesView List DeltaVersionEditAcceptor PageEntries

def Tracked (view : PageEntriesView) : Prop := ∃ D, Tracks true (findRef view) (findNormalPageEntry view) D

namespace VersionSet

variable {s s' : VersionSet} {a : Nat} {l : List Nat} {edit : List EditRecord}

/-! ### How an edit is applied -/

theorem free_of_useCount (h : s.useCount = 1) : Free s := by
  intro b hb l hl hmem
  have hcount : s.snapshots.count s.current = 0 ∧ (s.releases.flatMap Release.held).count s.current = 0 ∧
      s.heap.countP (fun node => node.prev == some s.current) = 0 := by
    unfold useCount at h
    omega
  obtain ⟨hsnap, hrel, hheap⟩ := hcount
  by_cases hbc : s.current = b
  · rw [held, mem_append, ← hbc] at hb
    rcases hb with hb | hb
    · exact absurd hb (count_eq_zero.1 hsnap)
    · exact absurd hb (count_eq_zero.1 hrel)
  · obtain ⟨q, -, node, hnode, hlink⟩ := hl.exists_link hmem hbc
    have hno := countP_eq_zero.1 hheap node (mem_of_getElem? hnode)
    exact hno (by simp [hlink])

/-- The state in which an edit meets the delta `current`, maybe a new one, on `prev`. -/
structure Ready (s s₀ : VersionSet) (current : PageEntries) (prev : PageEntriesView) : Prop where
  frame : s₀.config = s.config ∧ s₀.snapshots = s.snapshots ∧ s₀.releases = s.releases
  lists : ListsOk s₀
  free : Free s₀
  view : s₀.view s₀.current = current :: prev
  delta : IsDelta current
  wellFormed : WellFormed prev
  keeps : ∀ a ∈ s.held, Keeps s s₀ a
  refs : findRef (current :: prev) = findRef (s.view s.current)
  pages : findNormalPageEntry (current :: prev) = findNormalPageEntry (s.view s.current)

variable {s₀ : VersionSet} {current : PageEntries} {prev : PageEntriesView}

theorem Ready.tracks (h : Ready s s₀ current prev) {D : Directory}
    (ht : Tracks true (findRef (s.view s.current)) (findNormalPageEntry (s.view s.current)) D) :
    Accepted prev current D := by
  refine ⟨h.delta, ?_⟩
  rw [h.refs, h.pages]
  exact ht

theorem view_current_base {node : VersionNode} (h : ListsOk s) (hnode : s.heap[s.current]? = some node)
    (hbase : node.entries.isBase = true) : s.view s.current = [node.entries] ∧ IsBase node.entries ∧
      node.prev = none := by
  rcases h.nodes _ _ hnode with ⟨hprev, hb⟩ | ⟨-, hd⟩
  · have hpath : VersionPath s.heap s.current [s.current] := .last hnode hprev
    refine ⟨?_, hb, hprev⟩
    rw [view_eq hpath, entriesAt_cons hnode]
    rfl
  · exact absurd (hbase.symm.trans hd.delta) Bool.true_eq_false.mp

theorem view_current_delta {node : VersionNode} (h : ListsOk s) (hnode : s.heap[s.current]? = some node)
    (hbase : node.entries.isBase = false) :
    ∃ prev, s.view s.current = node.entries :: prev ∧ IsDelta node.entries ∧ WellFormed prev ∧
      ∃ p, node.prev = some p := by
  rcases h.nodes _ _ hnode with ⟨-, hb⟩ | ⟨⟨p, hp⟩, hd⟩
  · exact absurd (hb.base.symm.trans hbase) Bool.true_eq_false.mp
  · obtain ⟨l, hl⟩ := h.current
    obtain ⟨l', rfl⟩ := hl.head
    refine ⟨entriesAt s.heap l', ?_, hd, wellFormed_of_path h.nodes (hl.tail hnode hp), p, hp⟩
    rw [view_eq hl, entriesAt_cons hnode]

/-- A base that nobody else holds is changed in place, anything else through a delta, a new one if `current`
is held. -/
theorem change_mode (h : ListsOk s) :
    (∃ node, s.heap[s.current]? = some node ∧ node.entries.isBase = true ∧ s.useCount = 1 ∧
      IsBase node.entries ∧ s.view s.current = [node.entries] ∧
      ∀ v, IsBase v → ListsOk (s.setEntries s.current v)) ∨
    ∃ s₀ current prev node, Ready s s₀ current prev ∧ s.heap[s.current]? = some node ∧
      (∀ v, IsDelta v → ListsOk (s₀.setEntries s₀.current v)) ∧
      (s.useCount = 1 ∧ node.entries.isBase = false ∧ s₀ = s ∨
        s.useCount ≠ 1 ∧ s₀ = s.appendVersion createDelta) := by
  obtain ⟨l, hl⟩ := h.current
  obtain ⟨l', rfl⟩ := hl.head
  obtain ⟨node, hnode⟩ := hl.get mem_cons_self
  by_cases hcount : s.useCount = 1
  · cases hbase : node.entries.isBase with
    | true =>
      obtain ⟨hview, hb, hprev⟩ := view_current_base h hnode hbase
      refine .inl ⟨node, hnode, hbase, hcount, hb, hview, fun v hv => ?_⟩
      refine setEntries_listsOk h fun node' hnode' => ?_
      cases hnode.symm.trans hnode'
      exact .inl ⟨hprev, hv⟩
    | false =>
      obtain ⟨prev, hview, hd, hwf, p, hp⟩ := view_current_delta h hnode hbase
      refine .inr ⟨s, node.entries, prev, node, ⟨⟨rfl, rfl, rfl⟩, h, free_of_useCount hcount, hview, hd,
        hwf, fun a ha => ?_, by rw [hview], by rw [hview]⟩, hnode, fun v hv => ?_,
        .inl ⟨hcount, hbase, rfl⟩⟩
      · exact Keeps.of_view_eq (h.held a ha) rfl fun node hnode => ⟨node, hnode, rfl⟩
      · refine setEntries_listsOk h fun node' hnode' => ?_
        cases hnode.symm.trans hnode'
        exact .inr ⟨⟨p, hp⟩, hv⟩
  · obtain ⟨hlists, hfree, hview, hkeeps⟩ := appendVersion_spec h (v := createDelta) ⟨rfl, fun _ _ => rfl⟩
    refine .inr ⟨s.appendVersion createDelta, createDelta, s.view s.current, node,
      ⟨⟨rfl, rfl, rfl⟩, hlists, hfree, hview, ⟨rfl, fun _ _ => rfl⟩, view_wellFormed h hl, hkeeps,
        findRef_createDelta _, findNormalPageEntry_createDelta _⟩, hnode, fun v hv => ?_,
        .inr ⟨hcount, rfl⟩⟩
    refine setEntries_listsOk hlists fun node' hnode' => ?_
    have hnew : (s.appendVersion createDelta).heap[s.heap.length]? =
        some { entries := createDelta, prev := some s.current } := by simp [appendVersion]
    cases hnew.symm.trans hnode'
    exact .inr ⟨⟨_, rfl⟩, hv⟩

theorem apply_mode (h : ListsOk s) :
    (∃ b, IsBase b ∧ s.view s.current = [b] ∧ s.useCount = 1 ∧
      (∀ v, IsBase v → ListsOk (s.setEntries s.current v)) ∧
      ∀ edit, s.apply edit = (s.setEntries s.current (b.applyInplace edit), none)) ∨
    ∃ s₀ current prev, Ready s s₀ current prev ∧ (∀ v, IsDelta v → ListsOk (s₀.setEntries s₀.current v)) ∧
      ∀ edit, s.apply edit =
        (s₀.setEntries s₀.current (DeltaVersionEditAcceptor.apply true prev current edit).1,
          (DeltaVersionEditAcceptor.apply true prev current edit).2) := by
  rcases change_mode h with ⟨node, hnode, hbase, hcount, hb, hview, hlists⟩ |
    ⟨s₀, current, prev, node, hready, hnode, hlists, ⟨hcount, hbase, rfl⟩ | ⟨hcount, rfl⟩⟩
  · refine .inl ⟨node.entries, hb, hview, hcount, hlists, fun edit => ?_⟩
    simp [apply, hnode, hcount, hbase]
  · refine .inr ⟨s₀, current, prev, hready, hlists, fun edit => ?_⟩
    simp [apply, hnode, hcount, hbase, applyDelta, hready.view]
  · refine .inr ⟨_, current, prev, hready, hlists, fun edit => ?_⟩
    simp [apply, hnode, hcount, applyDelta, hready.view]

/-- No record of the edit brings a reference count to 2^32; each is judged by what `current` shows after
the records before it. -/
def EditFits (s : VersionSet) (edit : List EditRecord) : Prop := ∀ done rec todo, edit = done ++ rec :: todo →
    rec.Fits ((s.apply done).1.view (s.apply done).1.current)

theorem EditFits.init {rec : EditRecord} (h : s.EditFits (edit ++ [rec])) :
    s.EditFits edit ∧ rec.Fits ((s.apply edit).1.view (s.apply edit).1.current) := by
  refine ⟨fun done r todo hsplit => h done r (todo ++ [rec]) ?_, h edit rec [] rfl⟩
  rw [hsplit, append_assoc, cons_append]

theorem accept_snoc (prev : PageEntriesView) (v : PageEntries) (edit : List EditRecord) (rec : EditRecord)
    (hok : (DeltaVersionEditAcceptor.apply true prev v edit).2 = none) :
    DeltaVersionEditAcceptor.apply true prev v (edit ++ [rec]) =
      DeltaVersionEditAcceptor.apply true prev (DeltaVersionEditAcceptor.apply true prev v edit).1 [rec] := by
  induction edit generalizing v with
  | nil => rfl
  | cons r edit ih =>
    rw [cons_append]
    simp only [DeltaVersionEditAcceptor.apply] at hok ⊢
    cases hr : applyRecord true prev v r with
    | ok w =>
      rw [hr] at hok
      exact ih w hok
    | error e =>
      rw [hr] at hok
      exact absurd hok (Option.some_ne_none e)

theorem Ready.view_apply (h : Ready s s₀ current prev) (v : PageEntries) :
    (s₀.setEntries s₀.current v).view (s₀.setEntries s₀.current v).current = v :: prev := by
  obtain ⟨l, hl⟩ := h.lists.current
  exact setEntries_view_self hl h.view v

theorem Ready.accepts (h : Ready s s₀ current prev) (happly : ∀ edit, (s.apply edit).1 =
      s₀.setEntries s₀.current (DeltaVersionEditAcceptor.apply true prev current edit).1)
    (ht : Tracked (s.view s.current)) (hw : ∀ rec ∈ edit, rec.IsWrite) (hfit : s.EditFits edit) :
    (DeltaVersionEditAcceptor.apply true prev current edit).2 = none ∧
      ∃ D, Accepted prev (DeltaVersionEditAcceptor.apply true prev current edit).1 D := by
  induction edit using List.reverseRecOn with
  | nil =>
    obtain ⟨D, hD⟩ := ht
    exact ⟨rfl, D, h.tracks hD⟩
  | append_singleton edit rec ih =>
    obtain ⟨hinit, hrec⟩ := hfit.init
    obtain ⟨hnone, D, hD⟩ := ih (fun r hr => hw r (mem_append_left _ hr)) hinit
    rw [happly, h.view_apply, hD.tracks.fits_iff (.delta hD.delta h.wellFormed)] at hrec
    obtain ⟨w, hok, hw'⟩ := hD.applyRecord h.wellFormed (hw rec (by simp)) hrec
    rw [accept_snoc _ _ _ _ hnone]
    simp only [DeltaVersionEditAcceptor.apply, hok, true_and]
    exact ⟨_, hw'⟩

theorem inplace_tracks {b : PageEntries} (hb : IsBase b) (hview : s.view s.current = [b])
    (h : ListsOk s) (happly : ∀ edit, (s.apply edit).1 = s.setEntries s.current (b.applyInplace edit))
    (ht : Tracked (s.view s.current)) (hw : ∀ rec ∈ edit, rec.IsWrite) (hfit : s.EditFits edit) :
    IsBase (b.applyInplace edit) ∧
      ∃ D, Tracks false (b.applyInplace edit).refs (b.applyInplace edit).pages D := by
  obtain ⟨l, hl⟩ := h.current
  induction edit using List.reverseRecOn with
  | nil =>
    obtain ⟨D, hD⟩ := ht
    rw [hview] at hD
    exact ⟨hb, D, (tracks_base_iff hb).1 hD⟩
  | append_singleton edit rec ih =>
    obtain ⟨hinit, hrec⟩ := hfit.init
    obtain ⟨hbase, D, hD⟩ := ih (fun r hr => hw r (mem_append_left _ hr)) hinit
    have hafter : (s.setEntries s.current (b.applyInplace edit)).view s.current = [b.applyInplace edit] :=
      setEntries_view_self hl hview _
    rw [happly, show (s.setEntries s.current (b.applyInplace edit)).current = s.current from rfl, hafter,
      ((tracks_base_iff hbase).2 hD).fits_iff (.base hbase)] at hrec
    have hnext := hD.applyInplaceRecord (hw rec (by simp)) hrec
    have hsnoc : b.applyInplace (edit ++ [rec]) = (b.applyInplace edit).applyInplaceRecord rec := by
      simp [applyInplace]
    rw [hsnoc]
    exact ⟨hbase.applyInplaceRecord hnext, _, hnext⟩

/-- What `apply` keeps -/
structure ApplySpec (s s' : VersionSet) : Prop where
  frame : s'.config = s.config ∧ s'.snapshots = s.snapshots ∧ s'.releases = s.releases
  lists : ListsOk s'
  keeps : ∀ a ∈ s.held, Keeps s s' a
  tracked : Tracked (s'.view s'.current)

theorem apply_spec (h : ListsOk s) (ht : Tracked (s.view s.current)) (hw : ∀ rec ∈ edit, rec.IsWrite)
    (hfit : s.EditFits edit) : ApplySpec s (s.apply edit).1 := by
  rcases apply_mode h with ⟨b, hb, hview, hcount, hlists, happly⟩ | ⟨s₀, current, prev, hready, hlists, happly⟩
  · have happly : ∀ edit, (s.apply edit).1 = s.setEntries s.current (b.applyInplace edit) :=
      fun edit => congrArg Prod.fst (happly edit)
    obtain ⟨hbase, D, hD⟩ := inplace_tracks hb hview h happly ht hw hfit
    obtain ⟨l, hl⟩ := h.current
    rw [happly]
    refine ⟨⟨rfl, rfl, rfl⟩, hlists _ hbase, fun a ha => setEntries_keeps h (free_of_useCount hcount) _ ha, D,
      ?_⟩
    rw [show (s.setEntries s.current (b.applyInplace edit)).current = s.current from rfl,
      setEntries_view_self hl hview]
    exact (tracks_base_iff hbase).2 hD
  · have happly : ∀ edit, (s.apply edit).1 =
        s₀.setEntries s₀.current (DeltaVersionEditAcceptor.apply true prev current edit).1 :=
      fun edit => congrArg Prod.fst (happly edit)
    obtain ⟨-, D, hD⟩ := hready.accepts happly ht hw hfit
    have hheld : s₀.held = s.held := by rw [held, held, hready.frame.2.1, hready.frame.2.2]
    rw [happly]
    refine ⟨hready.frame, hlists _ hD.delta, fun a ha => ?_, D, ?_⟩
    · exact (hready.keeps a ha).trans (setEntries_keeps hready.lists hready.free _ (hheld ▸ ha))
    · rw [hready.view_apply]
      exact hD.tracks

end VersionSet

end TiFlash.Page
