import TiFlash.Page.Proofs.VersionSetProofs

/-!
# Compaction over whole runs

The invariant of a version set with its releases: what a release has merged shows the same as the list
it was merged from, whatever other threads have done to that list since.
-/

namespace TiFlash.Page

open TiFlash.Lib TiFlash.Lib.BackList PageEntriesView VersionSet List Option PageEntries

variable {s s' : VersionSet} {a : Nat} {l : List Nat}

def DeltaAt (s : VersionSet) (a : Nat) : Prop := ∃ node, s.heap[a]? = some node ∧ IsDelta node.entries

def ReleaseOk (s : VersionSet) : Release → Prop
  | .compactDeltas tail => DeltaAt s tail
  | .rebaseDelta tail tmp base =>
    DeltaAt s tail ∧ IsDelta tmp ∧ Rebased s { entries := tmp, prev := base } (s.view tail)
  | .compactToBase tail => DeltaAt s tail ∧ ∃ d b, s.view tail = [d, b]
  | .rebaseBase tail newBase =>
    DeltaAt s tail ∧ Rebased s { entries := newBase, prev := none } (s.view tail)

/-- The invariant of a version set -/
structure VersionSetInv (s : VersionSet) : Prop where
  lists : ListsOk s
  releases : ∀ r ∈ s.releases, ReleaseOk s r
  tracked : ∀ a, a = s.current ∨ a ∈ s.snapshots → Tracked (s.view a)

/-! ### What other threads leave of a release -/

theorem VersionSet.Rebased.mono {x : VersionNode} {view view' : PageEntriesView} (h : Rebased s x view)
    (hlists : ListsOk s) (hlists' : ListsOk s') (hkeeps : ∀ b, x.prev = some b → Keeps s s' b)
    (hview : SameTables view view') : Rebased s' x view' := by
  rcases h with ⟨hprev, hbase, htables⟩ | ⟨b, base, hprev, hb, hnone, hdelta, htables⟩
  · exact .inl ⟨hprev, hbase, hview.symm.trans htables⟩
  · obtain ⟨base', hb', hentries⟩ := (hkeeps b hprev).node base hb
    have hbase : IsBase base.entries := by
      rcases hlists.nodes b base hb with ⟨-, hbase⟩ | ⟨⟨p, hp⟩, -⟩
      · exact hbase
      · exact absurd (hnone.symm.trans hp) (some_ne_none p).symm
    have hnone' : base'.prev = none := by
      rcases hlists'.nodes b base' hb' with ⟨hp, -⟩ | ⟨-, hd⟩
      · exact hp
      · rw [hentries] at hd
        exact absurd (hbase.base.symm.trans hd.delta) Bool.true_eq_false.mp
    refine .inr ⟨b, base', hprev, hb', hnone', hdelta, ?_⟩
    rw [hentries]
    exact hview.symm.trans htables

theorem DeltaAt.mono (h : DeltaAt s a) (hkeeps : Keeps s s' a) : DeltaAt s' a := by
  obtain ⟨node, hnode, hdelta⟩ := h
  obtain ⟨node', hnode', hentries⟩ := hkeeps.node node hnode
  exact ⟨node', hnode', hentries ▸ hdelta⟩

theorem ReleaseOk.mono {r : Release} (h : ReleaseOk s r) (hlists : ListsOk s) (hlists' : ListsOk s')
    (hkeeps : ∀ a ∈ r.held, Keeps s s' a) : ReleaseOk s' r := by
  cases r with
  | compactDeltas tail => exact DeltaAt.mono h (hkeeps tail (by simp [Release.held, Release.tail]))
  | rebaseDelta tail tmp base =>
    have htail : Keeps s s' tail := hkeeps tail (by simp [Release.held])
    obtain ⟨hdelta, hd, htmp⟩ := h
    refine ⟨hdelta.mono htail, hd, htmp.mono hlists hlists' (fun b hb => hkeeps b ?_) htail.tables⟩
    rw [show base = some b from hb]
    simp [Release.held]
  | compactToBase tail =>
    have htail : Keeps s s' tail := hkeeps tail (by simp [Release.held, Release.tail])
    obtain ⟨hdelta, d, b, hview⟩ := h
    exact ⟨hdelta.mono htail, d, b, htail.pair d b hview⟩
  | rebaseBase tail newBase =>
    have htail : Keeps s s' tail := hkeeps tail (by simp [Release.held, Release.tail])
    obtain ⟨hdelta, hbase⟩ := h
    refine ⟨hdelta.mono htail, hbase.mono hlists hlists' (fun b hb => ?_) htail.tables⟩
    exact absurd hb (some_ne_none b).symm

variable {view view' : PageEntriesView}

theorem Tracks.livePage_eq {D : Directory} {tombs : Bool}
    (h : Tracks tombs (findRef view) (findNormalPageEntry view) D) (n : PageId) :
    view.livePage n = (D.data n).map fun d => { d with ref := UInt32.ofNat (D.count n) } := by
  have hp := h.holds n
  rw [livePage]
  cases hd : D.data n with
  | some d =>
    rw [hd] at hp
    have hpos : 0 < D.count n := (D.count_pos_iff n).2 (by simp [hd])
    obtain ⟨e, he, hne⟩ := hp.not_tombstone hpos (h.fits n)
    have htomb : e.isTombstone = false := by simpa [PageEntry.isTombstone] using hne
    rw [he, filter_some_pos (by simp [htomb]), ← he]
    exact hp
  | none =>
    rw [hd] at hp
    rcases hp with hnone | ⟨-, e, he, hzero⟩
    · rw [hnone]
      rfl
    · rw [he, filter_some_neg (by simp [PageEntry.isTombstone, hzero])]
      rfl

theorem Tracks.sameTables {D : Directory}
    (hD : Tracks true (findRef view) (findNormalPageEntry view) D) (hs : SameTables view view') :
    Tracks true (findRef view') (findNormalPageEntry view') D := by
  refine ⟨?_, hD.fits, fun n => ?_⟩
  · rw [← hD.refs_eq]
    exact funext fun i => (hs.refs i).symm
  · have hlive := (hs.pages n).symm.trans (hD.livePage_eq n)
    rw [livePage] at hlive
    cases hd : D.data n with
    | some d =>
      rw [hd] at hlive
      exact (filter_eq_some_iff.1 hlive).1
    | none =>
      rw [hd] at hlive
      cases hfound : findNormalPageEntry view' n with
      | none => exact .inl rfl
      | some e =>
        refine .inr ⟨rfl, e, rfl, ?_⟩
        by_contra hne
        have htomb : e.isTombstone = false := by simpa [PageEntry.isTombstone] using hne
        rw [hfound, filter_some_pos (by simp [htomb])] at hlive
        cases hlive

theorem Tracked.sameTables (h : Tracked view) (hs : SameTables view view') :
    Tracked view' := by
  obtain ⟨D, hD⟩ := h
  exact ⟨D, hD.sameTables hs⟩

variable {view : PageEntriesView}

theorem Tracked.refsLive (h : Tracked view) : RefsLive view := by
  obtain ⟨D, hD⟩ := h
  intro i n hi
  obtain ⟨e, he, hne⟩ := hD.page_of_refs hi
  have htomb : e.isTombstone = false := by simpa [PageEntry.isTombstone] using hne
  rw [livePage, he, filter_some_pos (by simp [htomb])]
  exact some_ne_none e

/-! ### The steps of a release -/

def deltasOf (view : PageEntriesView) : PageEntriesView := view.filter fun node => !node.isBase

/-- The deltas do not bind again what one of them deletes, and they delete only pages they know. -/
def Release.Safe (s : VersionSet) : Release → Prop
  | .compactDeltas tail => NoneRebound (deltasOf (s.view tail)) ∧ DeletesOwnPages (deltasOf (s.view tail))
  | .compactToBase tail => ∀ delta oldBase rest, s.view tail = delta :: oldBase :: rest →
      delta.shouldCompactToBase s.config = true → DeletesOwnPages [delta, oldBase]
  | _ => True

theorem path_base (hlists : ListsOk s) (h : VersionPath s.heap a l) :
    ∃ b base, s.heap[b]? = some base ∧ base.prev = none ∧ IsBase base.entries ∧
      (l.find? fun c => (s.heap[c]?).any fun node => node.entries.isBase) = some b ∧
      entriesAt s.heap l = deltasOf (entriesAt s.heap l) ++ [base.entries] := by
  induction h with
  | @last a node hx hnone =>
    rcases hlists.nodes a node hx with ⟨-, hbase⟩ | ⟨⟨p, hp⟩, -⟩
    · refine ⟨a, node, hx, hnone, hbase, ?_, ?_⟩
      · simp [hx, hbase.base]
      · rw [entriesAt_cons hx]
        simp [deltasOf, hbase.base, entriesAt]
    · exact absurd (hnone.symm.trans hp) (some_ne_none p).symm
  | @link a c node l hx hsome _ ih =>
    obtain ⟨b, base, hb, hnone, hbase, hfind, hentries⟩ := ih
    rcases hlists.nodes a node hx with ⟨hp, -⟩ | ⟨-, hdelta⟩
    · exact absurd (hp.symm.trans hsome) (some_ne_none c).symm
    · refine ⟨b, base, hb, hnone, hbase, ?_, ?_⟩
      · rw [List.find?_cons_of_neg (by simp [hx, hdelta.delta]), hfind]
      · rw [entriesAt_cons hx, deltasOf, filter_cons_of_pos (by simp [hdelta.delta]), cons_append]
        congr 1

theorem isDelta_of_mem_deltasOf (h : WellFormed view) {d : PageEntries}
    (hd : d ∈ deltasOf view) : IsDelta d := by
  induction h with
  | base hb => simp [deltasOf, hb.base] at hd
  | @delta d' prev hd' _ ih =>
    rw [deltasOf, filter_cons_of_pos (by simp [hd'.delta]), mem_cons] at hd
    rcases hd with rfl | hd
    · exact hd'
    · exact ih hd

theorem compactDeltas_cases {deltas : PageEntriesView} {base : PageEntries}
    (hd : ∀ d ∈ deltas, IsDelta d) (hb : IsBase base) (hne : deltas ≠ []) :
    (∃ d, deltas = [d]) ∧ compactDeltas (deltas ++ [base]) = none ∨
    compactDeltas (deltas ++ [base]) = some (mergeDeltas deltas) := by
  match deltas, hne with
  | [d], _ =>
    refine .inl ⟨⟨d, rfl⟩, ?_⟩
    simp [compactDeltas, hb.base]
  | d :: d' :: ds, _ =>
    right
    have hfilter : (d :: d' :: ds ++ [base]).filter (fun node => !node.isBase) = d :: d' :: ds := by
      rw [filter_append, filter_eq_self.2 fun x hx => by simp [(hd x hx).delta]]
      simp [hb.base]
    have hd' : d'.isBase = false := (hd d' (by simp)).delta
    show (if d'.isBase then none else
      some (((d :: d' :: ds ++ [base]).filter fun node => !node.isBase).foldr (fun node tmp => tmp.merge node)
        createDelta)) = _
    rw [hd', hfilter]
    rfl

theorem keeps_refl (h : ∃ l, VersionPath s.heap a l) : Keeps s s a :=
  Keeps.of_view_eq h rfl fun node hnode => ⟨node, hnode, rfl⟩

/-- What a step of a release does to the version set, and what the release goes on with. -/
structure ReleaseStepSpec (s s' : VersionSet) (next : Option Release) : Prop where
  frame : s'.config = s.config ∧ s'.snapshots = s.snapshots ∧ s'.releases = s.releases
  lists : ListsOk s'
  keeps : ∀ a ∈ s.held, Keeps s s' a
  current : SameTables (s.view s.current) (s'.view s'.current)
  next_ok : ∀ r, next = some r → ReleaseOk s' r
  next_held : ∀ r, next = some r → ∀ a ∈ r.held, ∃ l, VersionPath s'.heap a l

theorem ReleaseStepSpec.same (hlists : ListsOk s) {next : Option Release}
    (hok : ∀ r, next = some r → ReleaseOk s r)
    (hheld : ∀ r, next = some r → ∀ a ∈ r.held, ∃ l, VersionPath s.heap a l) :
    ReleaseStepSpec s s next :=
  ⟨⟨rfl, rfl, rfl⟩, hlists, fun a ha => keeps_refl (hlists.held a ha), SameTables.refl _, hok, hheld⟩

theorem ReleaseStepSpec.ends (hlists : ListsOk s) : ReleaseStepSpec s s none := .same hlists nofun nofun

theorem view_head (h : DeltaAt s a) (hl : VersionPath s.heap a l) :
    ∃ d prev, s.view a = d :: prev ∧ IsDelta d := by
  obtain ⟨node, hnode, hdelta⟩ := h
  obtain ⟨l', rfl⟩ := hl.head
  exact ⟨node.entries, entriesAt s.heap l', by rw [view_eq hl, entriesAt_cons hnode], hdelta⟩

section

variable (hlists : ListsOk s)
include hlists

variable {tail : Nat}

theorem compactDeltas_step (htail : tail ∈ s.held) (hdelta : DeltaAt s tail)
    (hsafe : (Release.compactDeltas tail).Safe s) :
    ReleaseStepSpec s (s.releaseStep (.compactDeltas tail)).1 (s.releaseStep (.compactDeltas tail)).2 := by
  obtain ⟨l, hl⟩ := hlists.held tail htail
  obtain ⟨b, base, hb, hnone, hbase, hfind, hentries⟩ := path_base hlists hl
  rw [← view_eq hl] at hentries
  have hwf := view_wellFormed hlists hl
  have hdeltas := fun d hd => isDelta_of_mem_deltasOf hwf (d := d) hd
  have hne : deltasOf (s.view tail) ≠ [] := by
    obtain ⟨d, prev, hview, hd⟩ := view_head hdelta hl
    rw [hview, deltasOf, filter_cons_of_pos (by simp [hd.delta])]
    exact cons_ne_nil _ _
  have hcases := compactDeltas_cases hdeltas hbase hne
  rw [← hentries] at hcases
  unfold releaseStep
  rcases hcases with ⟨⟨d, hd⟩, hcompact⟩ | hcompact
  · simp only [hcompact]
    refine .same hlists ?_ ?_
    · rintro r ⟨⟩
      refine ⟨hdelta, d, base.entries, ?_⟩
      rw [hentries, hd]
      rfl
    · rintro r ⟨⟩ a ha
      rw [mem_singleton.1 ha]
      exact ⟨l, hl⟩
  · have hbaseOf : s.baseOf tail = some b := by
      rw [baseOf, versions_eq hl]
      exact hfind
    simp only [hcompact, hbaseOf]
    refine .same hlists ?_ ?_
    · rintro r ⟨⟩
      have hmerged := mergeDeltas_isDelta hdeltas hsafe.1
      refine ⟨hdelta, hmerged, .inr ⟨b, base, rfl, hb, hnone, hmerged, ?_⟩⟩
      have hsame := mergeDeltas_sameTables hdeltas hsafe.2 hsafe.1 [base.entries]
      rwa [← hentries] at hsame
    · rintro r ⟨⟩ a ha
      simp only [Release.held, toList_some, mem_cons, not_mem_nil, or_false] at ha
      rcases ha with rfl | rfl
      · exact ⟨l, hl⟩
      · exact ⟨_, .last hb hnone⟩

theorem compactToBase_step (htail : tail ∈ s.held) (hok : ReleaseOk s (.compactToBase tail))
    (hsafe : (Release.compactToBase tail).Safe s) :
    ReleaseStepSpec s (s.releaseStep (.compactToBase tail)).1 (s.releaseStep (.compactToBase tail)).2 := by
  obtain ⟨l, hl⟩ := hlists.held tail htail
  obtain ⟨hdelta, d, b, hview⟩ := hok
  have hwf := view_wellFormed hlists hl
  rw [hview] at hwf
  unfold releaseStep
  simp only [hview]
  split_ifs with hcompact
  · cases hwf with
    | delta hd hb =>
      cases hb with
      | base hb =>
        have hown := hsafe d b [] hview hcompact
        refine .same hlists ?_ ?_
        · rintro r ⟨⟩
          refine ⟨hdelta, .inl ⟨rfl, compactDeltaAndBase_isBase hb hown, ?_⟩⟩
          rw [hview]
          exact compactDeltaAndBase_sameTables hd hb hown
        · rintro r ⟨⟩ a ha
          rw [mem_singleton.1 ha]
          exact ⟨l, hl⟩
      | delta _ hnil => cases hnil
  · exact .ends hlists

theorem rebaseDelta_step {tmp : PageEntries} {base : Option Nat}
    (hok : ReleaseOk s (.rebaseDelta tail tmp base)) :
    ReleaseStepSpec s (s.releaseStep (.rebaseDelta tail tmp base)).1
      (s.releaseStep (.rebaseDelta tail tmp base)).2 := by
  obtain ⟨⟨node, hnode, hdelta⟩, htmp, hrebased⟩ := hok
  unfold releaseStep
  dsimp only
  cases hs : s.rebase tail { entries := tmp, prev := base } with
  | none => exact .ends hlists
  | some s' =>
    have spec := rebase_spec hlists hrebased hnode hdelta hs
    rcases hrebased with ⟨-, hbase, -⟩ | ⟨b, bNode, hprev, hb, hnone, -, -⟩
    · exact absurd (hbase.base.symm.trans htmp.delta) Bool.true_eq_false.mp
    · have hb' := spec.unlinked b bNode hb hnone
      have hpath : VersionPath s'.heap s.heap.length [s.heap.length, b] :=
        .link spec.new hprev (.last hb' hnone)
      refine ⟨spec.frame, spec.lists, spec.keeps, spec.current, ?_, ?_⟩
      · rintro r ⟨⟩
        refine ⟨⟨_, spec.new, htmp⟩, tmp, bNode.entries, ?_⟩
        rw [view_eq hpath, entriesAt_cons spec.new, entriesAt_cons hb']
        rfl
      · rintro r ⟨⟩ a ha
        rw [mem_singleton.1 ha]
        exact ⟨_, hpath⟩

theorem rebaseBase_step {newBase : PageEntries} (hok : ReleaseOk s (.rebaseBase tail newBase)) :
    ReleaseStepSpec s (s.releaseStep (.rebaseBase tail newBase)).1
      (s.releaseStep (.rebaseBase tail newBase)).2 := by
  obtain ⟨⟨node, hnode, hdelta⟩, hrebased⟩ := hok
  unfold releaseStep
  dsimp only
  cases hs : s.rebase tail { entries := newBase, prev := none } with
  | none => exact .ends hlists
  | some s' =>
    have spec := rebase_spec hlists hrebased hnode hdelta hs
    exact ⟨spec.frame, spec.lists, spec.keeps, spec.current, nofun, nofun⟩

end

theorem releaseStep_spec (h : VersionSetInv s) {r : Release} (hr : r ∈ s.releases) (hsafe : r.Safe s) :
    ReleaseStepSpec s (s.releaseStep r).1 (s.releaseStep r).2 := by
  have hok := h.releases r hr
  have hheld : ∀ a ∈ r.held, a ∈ s.held := fun a ha => mem_append_right _ (mem_flatMap.2 ⟨r, hr, ha⟩)
  cases r with
  | compactDeltas tail => exact compactDeltas_step h.lists (hheld tail mem_cons_self) hok hsafe
  | rebaseDelta tail tmp base => exact rebaseDelta_step h.lists hok
  | compactToBase tail => exact compactToBase_step h.lists (hheld tail mem_cons_self) hok hsafe
  | rebaseBase tail newBase => exact rebaseBase_step h.lists hok

/-! ### Steps of the version set -/

/-- What a step of a release keeps -/
structure AdvanceSpec (s s' : VersionSet) : Prop where
  snapshots : s'.snapshots = s.snapshots
  keeps : ∀ a ∈ s.snapshots, Keeps s s' a
  current : SameTables (s.view s.current) (s'.view s'.current)

/-- The versions that are held afterwards were held before or start a list, and their releases go on well. -/
theorem VersionSetInv.step_of (h : VersionSetInv s) {s₁ : VersionSet} (hlists : ListsOk s₁)
    (hkeeps : ∀ a ∈ s.held, Keeps s s₁ a) (hheap : s'.heap = s₁.heap) (hcurrent : s'.current = s₁.current)
    (hnew : ∀ r ∈ s'.releases, r ∈ s.releases ∨ ReleaseOk s₁ r ∧ ∀ a ∈ r.held, ∃ l, VersionPath s₁.heap a l)
    (hsnap : ∀ a ∈ s'.snapshots, a ∈ s.snapshots ∨ a = s₁.current)
    (htracked : Tracked (s₁.view s₁.current)) : VersionSetInv s' := by
  have hview : ∀ a, s'.view a = s₁.view a := fun a => by simp only [view, versions, hheap]
  have hsnapHeld : ∀ a ∈ s.snapshots, a ∈ s.held := fun a ha => mem_append_left _ ha
  have hrelHeld : ∀ r ∈ s.releases, ∀ a ∈ r.held, a ∈ s.held := fun r hr a ha =>
    mem_append_right _ (mem_flatMap.2 ⟨r, hr, ha⟩)
  have hpaths : ∀ a ∈ s'.held, ∃ l, VersionPath s₁.heap a l := by
    intro a ha
    rcases mem_append.1 ha with ha | ha
    · rcases hsnap a ha with ha | rfl
      · exact (hkeeps a (hsnapHeld a ha)).path
      · exact hlists.current
    · obtain ⟨r, hr, ha⟩ := mem_flatMap.1 ha
      rcases hnew r hr with hr | ⟨-, hpath⟩
      · exact (hkeeps a (hrelHeld r hr a ha)).path
      · exact hpath a ha
  have hlists' : ListsOk s' := by
    refine ⟨?_, ?_, ?_⟩
    · rw [hheap]
      exact hlists.nodes
    · rw [hheap, hcurrent]
      exact hlists.current
    · rw [hheap]
      exact hpaths
  have hsame : ∀ a ∈ s'.held, Keeps s₁ s' a := fun a ha =>
    Keeps.of_view_eq (hlists'.held a ha) (hview a) fun node hnode => ⟨node, hheap ▸ hnode, rfl⟩
  refine ⟨hlists', fun r hr => ?_, fun a ha => ?_⟩
  · have hr₁ : ReleaseOk s₁ r := by
      rcases hnew r hr with hold | ⟨hok, -⟩
      · exact (h.releases r hold).mono h.lists hlists fun a ha => hkeeps a (hrelHeld r hold a ha)
      · exact hok
    exact hr₁.mono hlists hlists' fun a ha => hsame a (mem_append_right _ (mem_flatMap.2 ⟨r, hr, ha⟩))
  · rw [hview]
    have hcases : a = s₁.current ∨ a ∈ s.snapshots := by
      rcases ha with rfl | ha
      · exact .inl hcurrent
      · exact (hsnap a ha).symm
    rcases hcases with rfl | ha
    · exact htracked
    · exact (h.tracked a (.inr ha)).sameTables (hkeeps a (hsnapHeld a ha)).tables

theorem advance_spec (h : VersionSetInv s) {j : Nat} (hsafe : ∀ r, s.releases[j]? = some r → r.Safe s) :
    VersionSetInv (s.advance j) ∧ AdvanceSpec s (s.advance j) := by
  unfold advance
  cases hr : s.releases[j]? with
  | none =>
    refine ⟨h, rfl, fun a ha => ?_, SameTables.refl _⟩
    exact keeps_refl (h.lists.held a (mem_append_left _ ha))
  | some r =>
    have spec := releaseStep_spec h (mem_of_getElem? hr) (hsafe r hr)
    dsimp only
    refine ⟨h.step_of spec.lists spec.keeps rfl rfl ?_ ?_ ?_, ?_⟩
    · intro r' hr'
      cases hnext : (s.releaseStep r).2 with
      | none =>
        rw [hnext] at hr'
        exact .inl (mem_of_mem_eraseIdx hr')
      | some r₂ =>
        rw [hnext] at hr'
        rcases mem_or_eq_of_mem_set hr' with hold | rfl
        · exact .inl hold
        · exact .inr ⟨spec.next_ok _ hnext, spec.next_held _ hnext⟩
    · intro a ha
      rw [spec.frame.2.1] at ha
      exact .inl ha
    · exact (h.tracked _ (.inl rfl)).sameTables spec.current
    · refine ⟨spec.frame.2.1, fun a ha => ?_, spec.current⟩
      have hkeep := spec.keeps a (mem_append_left _ ha)
      exact ⟨hkeep.path, hkeep.tables, hkeep.node, hkeep.pair⟩

theorem release_inv (h : VersionSetInv s) (i : Nat) : VersionSetInv (s.release i) := by
  have hsame : ∀ a ∈ s.held, Keeps s s a := fun a ha => keeps_refl (h.lists.held a ha)
  have hcurrent := h.tracked s.current (.inl rfl)
  have hsnap : ∀ a ∈ s.snapshots.eraseIdx i, a ∈ s.snapshots ∨ a = s.current := fun a ha =>
    .inl (mem_of_mem_eraseIdx ha)
  unfold release
  cases hi : s.snapshots[i]? with
  | none => exact h
  | some tail =>
    have htail : tail ∈ s.held := mem_append_left _ (mem_of_getElem? hi)
    dsimp only
    cases hnode : s.heap[tail]? with
    | none => exact h.step_of h.lists hsame rfl rfl (fun r hr => .inl hr) hsnap hcurrent
    | some node =>
      dsimp only
      split_ifs with hbase hvalid
      · exact h.step_of h.lists hsame rfl rfl (fun r hr => .inl hr) hsnap hcurrent
      · refine h.step_of h.lists hsame rfl rfl (fun r hr => ?_) hsnap hcurrent
        rcases mem_append.1 hr with hr | hr
        · exact .inl hr
        · rw [mem_singleton.1 hr]
          refine .inr ⟨⟨node, hnode, ?_⟩, fun a ha => ?_⟩
          · rcases h.lists.nodes tail node hnode with ⟨-, hb⟩ | ⟨-, hd⟩
            · exact absurd hb.base hbase
            · exact hd
          · rw [mem_singleton.1 ha]
            exact h.lists.held tail htail
      · exact h.step_of h.lists hsame rfl rfl (fun r hr => .inl hr) hsnap hcurrent

/-- The edit is one that writes make. -/
def Action.IsWrite : Action → Prop
  | .apply edit => ∀ rec ∈ edit, rec.IsWrite
  | _ => True

/-- No reference count gets to 2^32, and merges are safe. -/
def Action.Safe (s : VersionSet) : Action → Prop
  | .apply edit => s.EditFits edit
  | .advance j => ∀ r, s.releases[j]? = some r → r.Safe s
  | _ => True

/-- Every action of the run is safe. -/
def RunSafe : VersionSet → List Action → Prop
  | _, [] => True
  | s, action :: actions => Action.Safe s action ∧ RunSafe (s.step action) actions

theorem VersionSetInv.step (h : VersionSetInv s) {action : Action} (hw : Action.IsWrite action)
    (hsafe : Action.Safe s action) : VersionSetInv (s.step action) := by
  cases action with
  | apply edit =>
    have spec := apply_spec h.lists (h.tracked _ (.inl rfl)) hw hsafe
    refine h.step_of spec.lists spec.keeps rfl rfl ?_ ?_ spec.tracked
    · intro r hr
      exact .inl (spec.frame.2.2 ▸ hr)
    · intro a ha
      exact .inl (spec.frame.2.1 ▸ ha)
  | getSnapshot =>
    refine h.step_of h.lists (fun a ha => keeps_refl (h.lists.held a ha)) rfl rfl (fun r hr => .inl hr)
      ?_ (h.tracked _ (.inl rfl))
    intro a ha
    rcases mem_append.1 ha with ha | ha
    · exact .inl ha
    · exact .inr (mem_singleton.1 ha)
  | release i => exact release_inv h i
  | advance j => exact (advance_spec h hsafe).1

theorem versionSetInv_new (config : VersionSetConfig) : VersionSetInv (new config) := by
  have hget : ∀ (a : Nat) (node : VersionNode), (new config).heap[a]? = some node →
      a = 0 ∧ node = { entries := createBase, prev := none } := by
    intro a node hnode
    cases a with
    | zero => exact ⟨rfl, (Option.some.inj hnode).symm⟩
    | succ a => exact absurd hnode (some_ne_none node).symm
  refine ⟨⟨fun a node hnode => ?_, ⟨[0], .last rfl rfl⟩, fun a ha => ?_⟩, fun r hr => ?_, fun a ha => ?_⟩
  · rw [(hget a node hnode).2]
    exact .inl ⟨rfl, isBase_createBase⟩
  · exact absurd ha (not_mem_nil)
  · exact absurd hr (not_mem_nil)
  · rcases ha with rfl | ha
    · exact ⟨Directory.empty, (tracks_base_iff isBase_createBase).2 tracks_createBase⟩
    · exact absurd ha (not_mem_nil)

theorem versionSetInv_run (h : VersionSetInv s) {actions : List Action}
    (hw : ∀ action ∈ actions, Action.IsWrite action) (hsafe : RunSafe s actions) :
    VersionSetInv (s.run actions) := by
  induction actions generalizing s with
  | nil => exact h
  | cons action actions ih =>
    exact ih (h.step (hw action mem_cons_self) hsafe.1)
      (fun action' hmem => hw action' (mem_cons_of_mem _ hmem)) hsafe.2

theorem runSafe_append {actions actions' : List Action} :
    RunSafe s (actions ++ actions') ↔ RunSafe s actions ∧ RunSafe (s.run actions) actions' := by
  induction actions generalizing s with
  | nil => simp [RunSafe, run]
  | cons action actions ih => simp only [cons_append, RunSafe, ih, and_assoc, run, foldl_cons]

theorem editFits_singleton {rec : EditRecord}
    (h : rec.Fits ((s.apply []).1.view (s.apply []).1.current)) : s.EditFits [rec] := by
  intro done r todo hsplit
  cases done with
  | nil =>
    cases hsplit
    exact h
  | cons x done => simp at hsplit

theorem safe_of_no_deletions {deltas : PageEntriesView} (h : ∀ d ∈ deltas, d.refDeletions.keys = []) :
    NoneRebound deltas ∧ DeletesOwnPages deltas := by
  have hnot : ∀ d ∈ deltas, ∀ k, k ∉ d.refDeletions := by
    intro d hd k hk
    rw [AList.mem_keys, h d hd] at hk
    exact absurd hk not_mem_nil
  refine ⟨fun k n _ d hd => hnot d hd k, ?_⟩
  clear h
  induction deltas with
  | nil => trivial
  | cons d deltas ih =>
    refine ⟨fun k hk => absurd hk (hnot d mem_cons_self k), ih fun d' hd' => ?_⟩
    exact hnot d' (mem_cons_of_mem _ hd')

/-- The next step of the release merges only deltas that delete nothing, or merges nothing. -/
def deletesNothing (s : VersionSet) (j : Nat) : Bool :=
  match s.releases[j]? with
  | some (.compactDeltas tail) => (deltasOf (s.view tail)).all fun d => d.refDeletions.keys.isEmpty
  | some (.compactToBase _) => false
  | _ => true

theorem safe_of_deletesNothing {j : Nat} (h : deletesNothing s j = true) :
    Action.Safe s (.advance j) := by
  intro r hr
  rw [deletesNothing, hr] at h
  cases r with
  | compactDeltas tail =>
    refine safe_of_no_deletions fun d hd => ?_
    exact isEmpty_iff.1 (all_eq_true.1 h d hd)
  | compactToBase tail => exact absurd h Bool.false_ne_true
  | rebaseDelta tail tmp base | rebaseBase tail newBase => trivial

/-- **Compaction changes no view.** After any run of safe steps, the next step of any release leaves what the
current version and every live snapshot show. -/
theorem compaction_keeps_views (config : VersionSetConfig) (actions : List Action) (j : Nat)
    (hw : ∀ action ∈ actions, Action.IsWrite action)
    (hsafe : RunSafe (new config) (actions ++ [.advance j])) :
    let s := (new config).run actions
    let s' := s.step (.advance j)
    SameView (s.view s.current) (s'.view s'.current) ∧
      s'.snapshots = s.snapshots ∧ ∀ tail ∈ s.snapshots, SameView (s.view tail) (s'.view tail) := by
  intro s s'
  obtain ⟨hrun, hstep⟩ := runSafe_append.1 hsafe
  have h : VersionSetInv s := versionSetInv_run (versionSetInv_new config) hw hrun
  obtain ⟨h', spec⟩ := advance_spec h hstep.1
  obtain ⟨l, hl⟩ := h.lists.current
  obtain ⟨l', hl'⟩ := h'.lists.current
  refine ⟨?_, spec.snapshots, fun tail htail => ?_⟩
  · exact spec.current.sameView (view_wellFormed h.lists hl) (view_wellFormed h'.lists hl')
      (h.tracked _ (.inl rfl)).refsLive
  · obtain ⟨m, hm⟩ := h.lists.held tail (mem_append_left _ htail)
    obtain ⟨m', hm'⟩ := (spec.keeps tail htail).path
    exact (spec.keeps tail htail).tables.sameView (view_wellFormed h.lists hm)
      (view_wellFormed h'.lists hm') (h.tracked _ (.inr htail)).refsLive

/-- Two deltas, one with a new page and one with a reference to an old page, are merged. -/
theorem compaction_keeps_views_put_ref :
    let entry : PageEntry := { fileId := 1 }
    let actions : List Action := [.apply [.put 1 entry], .getSnapshot, .apply [.put 2 entry], .getSnapshot,
      .apply [.ref 3 1], .getSnapshot, .release 2, .advance 0]
    let s := (new {}).run actions
    let s' := s.step (.advance 0)
    (s.view s.current).length = 3 ∧ (s'.view s'.current).length = 2 ∧
      SameView (s.view s.current) (s'.view s'.current) := by
  refine ⟨by decide +kernel, by decide +kernel, (compaction_keeps_views {} _ 0 ?_ ?_).1⟩
  · simp [Action.IsWrite, EditRecord.IsWrite]
  · refine ⟨editFits_singleton fun _ => ?_, trivial, editFits_singleton fun _ => ?_, trivial,
      editFits_singleton fun _ => ?_, trivial, trivial, safe_of_deletesNothing ?_,
      safe_of_deletesNothing ?_, trivial⟩
    · decide +kernel
    · decide +kernel
    · decide +kernel
    · decide +kernel
    · decide +kernel

/-- A page that is deleted in one delta and put again in the next one is lost when they are merged. -/
theorem compaction_loses_page_put_again :
    let entry : PageEntry := { fileId := 1 }
    let s := (new {}).run [.apply [.put 1 entry], .getSnapshot, .apply [.del 1], .getSnapshot,
      .apply [.put 1 entry], .getSnapshot, .release 2, .advance 0]
    let s' := s.step (.advance 0)
    (s.view s.current).find 1 = .ok (some entry) ∧ (s'.view s'.current).find 1 = .ok none := by
  decide +kernel

end TiFlash.Page
