import TiFlash.Page.Proofs.CompactionRunProofs

/-!
# Writes with and without a snapshot

The same records, applied in place without snapshots, and with a snapshot held from the start, through views
to deltas. Both hold the same directory as long as no record refers to a page that has lost its last
reference.
-/

namespace TiFlash.Page

open TiFlash.Lib TiFlash.Lib.BackList PageEntriesView VersionSet Function

def PageEntriesView.refIds (view : PageEntriesView) (n : PageId) : Finset PageId :=
  view.validPageIds.filter fun i => view.isRefId i = some n

/-- Reference counts are right, and no reference dangles. -/
structure RefCounted (view : PageEntriesView) : Prop where
  count : ∀ n entry, view.livePage n = some entry → entry.ref.toNat = (view.refIds n).card
  live : ∀ i n, view.isRefId i = some n → view.livePage n ≠ none

/-- Two versions agree on what they find, on the ref pairs and on the live pages with their reference
counts. -/
structure SameOutcome (view view' : PageEntriesView) : Prop where
  find : ∀ i, view.find i = view'.find i
  isRefId : ∀ i, view.isRefId i = view'.isRefId i
  livePage : ∀ n, view.livePage n = view'.livePage n

/-- What happens in the run with a snapshot: records are written and more snapshots are taken. -/
inductive Write
  | record (rec : EditRecord)
  | getSnapshot

def snapshotActions (writes : List Write) : List Action := .getSnapshot :: writes.map fun
    | .record rec => .apply [rec]
    | .getSnapshot => .getSnapshot

def inplaceActions (writes : List Write) : List Action := writes.filterMap fun
    | .record rec => some (.apply [rec])
    | .getSnapshot => none

def VersionSet.currentView (s : VersionSet) : PageEntriesView := s.view s.current

/-- The view behind the first run -/
def snapshotView (config : VersionSetConfig) (writes : List Write) : PageEntriesView :=
  ((new config).run (snapshotActions writes)).currentView

def inplaceView (config : VersionSetConfig) (writes : List Write) : PageEntriesView :=
  ((new config).run (inplaceActions writes)).currentView

/-- The record does not refer to a page that is only there as a tombstone. -/
def EditRecord.TargetLives (view : PageEntriesView) : EditRecord → Prop
  | .ref _ p => ∀ entry, view.findNormalPageEntry (view.resolveRefId p) = some entry →
      entry.isTombstone = false
  | _ => True

variable {view view' : PageEntriesView} {D : Directory} {tombs : Bool} {s : VersionSet} {n : PageId}

/-! ### Views that hold a directory -/

theorem Tracks.sameOutcome (hw : WellFormed view) (hw' : WellFormed view')
    (h : Tracks true (findRef view) (findNormalPageEntry view) D)
    (h' : Tracks true (findRef view') (findNormalPageEntry view') D) : SameOutcome view view' := by
  have hpages : ∀ n, view.livePage n = view'.livePage n := fun n => by rw [h.livePage_eq, h'.livePage_eq]
  refine ⟨fun i => ?_, fun i => ?_, hpages⟩
  · rw [find_eq_of_refsLive (Tracked.refsLive ⟨D, h⟩), find_eq_of_refsLive (Tracked.refsLive ⟨D, h'⟩),
      h.refs_eq, h'.refs_eq, funext hpages]
  · rw [isRefId_eq_findRef hw, isRefId_eq_findRef hw', h.refs_eq, h'.refs_eq]

theorem Tracks.refCounted (hw : WellFormed view)
    (h : Tracks true (findRef view) (findNormalPageEntry view) D) : RefCounted view := by
  have hid : ∀ i, view.isRefId i = D.refs i := fun i => by rw [isRefId_eq_findRef hw, h.refs_eq]
  refine ⟨fun n entry hn => ?_, fun i n hi => ?_⟩
  · have href := h.ref_eq (findNormalPageEntry_of_livePage hn)
    rw [href, UInt32.toNat_ofNat_of_lt' (h.fits n), Directory.count, fiberCard, ← Set.ncard_coe_finset]
    congr 1
    ext i
    simp only [refIds, Finset.coe_filter, Set.mem_ofPred_eq, mem_validPageIds hw, hid, h.refs_eq]
    constructor
    · intro hi
      exact ⟨by simp [hi], hi⟩
    · exact fun hi => hi.2
  · exact Tracked.refsLive ⟨D, h⟩ i n ((isRefId_eq_findRef hw i).symm.trans hi)

/-! ### Without a snapshot -/

/-- A version set whose only version is the base `b`. -/
def single (config : VersionSetConfig) (b : PageEntries) : VersionSet where
  config := config
  heap := [{ entries := b, prev := none }]
  current := 0
  snapshots := []
  releases := []

variable {b : PageEntries}

theorem single_apply (config : VersionSetConfig) (hb : b.isBase = true) (edit : List EditRecord) :
    (single config b).apply edit = (single config (b.applyInplace edit), none) := by
  have hcount : (single config b).useCount = 1 := rfl
  have hnode : (single config b).heap[(single config b).current]? = some { entries := b, prev := none } := rfl
  simp only [apply, hnode, hcount, hb, and_self, if_true]
  rfl

/-! ### With a snapshot -/

/-- The base is never changed: as long as it is `current`, a snapshot holds it. -/
structure SnapshotHeld (s : VersionSet) : Prop where
  lists : ListsOk s
  held : ∀ b, s.currentView = [b] → s.current ∈ s.snapshots

theorem SnapshotHeld.getSnapshot (h : SnapshotHeld s) :
    SnapshotHeld s.getSnapshot ∧ s.getSnapshot.currentView = s.currentView := by
  refine ⟨⟨⟨h.lists.nodes, h.lists.current, fun a ha => ?_⟩, fun b hb => ?_⟩, rfl⟩
  · rcases List.mem_append.1 ha with ha | ha
    · rcases List.mem_append.1 ha with ha | ha
      · exact h.lists.held a (List.mem_append_left _ ha)
      · rw [List.mem_singleton.1 ha]
        exact h.lists.current
    · exact h.lists.held a (List.mem_append_right _ ha)
  · exact List.mem_append_left _ (h.held b hb)

variable {rec : EditRecord}

theorem SnapshotHeld.apply (h : SnapshotHeld s)
    (ht : Tracks true (findRef s.currentView) (findNormalPageEntry s.currentView) D) (hrec : rec.IsWrite)
    (hfit : rec.Fits s.currentView) :
    SnapshotHeld (s.apply [rec]).1 ∧
    Tracks true (findRef (s.apply [rec]).1.currentView) (findNormalPageEntry (s.apply [rec]).1.currentView)
      (D.applyDelta (findNormalPageEntry s.currentView) rec) := by
  rcases apply_mode h.lists with ⟨b, -, hview, hcount, -, -⟩ | ⟨s₀, current, prev, hready, hlists, happly⟩
  · -- somebody holds the base
    exfalso
    have hmem := List.count_pos_iff.2 (h.held b hview)
    unfold useCount at hcount
    omega
  · have haccepted := hready.tracks ht
    have hpages : findNormalPageEntry (current :: prev) = findNormalPageEntry s.currentView := hready.pages
    obtain ⟨l, hl⟩ := h.lists.current
    have hwf : WellFormed s.currentView := view_wellFormed h.lists hl
    rw [ht.fits_iff hwf] at hfit
    obtain ⟨w, hok, hw⟩ := haccepted.applyRecord hready.wellFormed hrec hfit
    have hstate : (s.apply [rec]).1 = s₀.setEntries s₀.current w := by
      rw [happly]
      simp only [DeltaVersionEditAcceptor.apply, hok]
    have hview : (s.apply [rec]).1.currentView = w :: prev := by
      rw [hstate]
      exact hready.view_apply w
    refine ⟨⟨hstate ▸ hlists w hw.delta, fun b hb => ?_⟩, ?_⟩
    · -- a delta is not the last version of its list
      rw [hview] at hb
      have hnil : prev = [] := (List.cons.inj hb).2
      have hprev := hready.wellFormed
      rw [hnil] at hprev
      cases hprev
    · rw [hview, ← hpages]
      exact hw.tracks

/-! ### The two runs side by side -/

/-- Both runs stand for the same directory. -/
structure SideBySide (config : VersionSetConfig) (writes : List Write) (D : Directory) : Prop where
  snapshot : SnapshotHeld ((new config).run (snapshotActions writes))
  snapshotTracks : Tracks true (findRef (snapshotView config writes))
    (findNormalPageEntry (snapshotView config writes)) D
  inplace : ∃ b, (new config).run (inplaceActions writes) = single config b ∧ IsBase b ∧
    Tracks false b.refs b.pages D

variable {config : VersionSetConfig} {writes : List Write}

theorem inplaceView_of_single (h : (new config).run (inplaceActions writes) = single config b) :
    inplaceView config writes = [b] := by
  rw [inplaceView, h]
  rfl

theorem run_snoc (s : VersionSet) (actions : List Action) (action : Action) :
    s.run (actions ++ [action]) = (s.run actions).step action := by
  rw [run, List.foldl_append]
  rfl

theorem run_snapshot_record (config : VersionSetConfig) (writes : List Write) (rec : EditRecord) :
    (new config).run (snapshotActions (writes ++ [.record rec])) =
      (((new config).run (snapshotActions writes)).apply [rec]).1 := by
  rw [snapshotActions, List.map_append]
  exact run_snoc _ (snapshotActions writes) (.apply [rec])

theorem run_snapshot_getSnapshot (config : VersionSetConfig) (writes : List Write) :
    (new config).run (snapshotActions (writes ++ [.getSnapshot])) =
      ((new config).run (snapshotActions writes)).getSnapshot := by
  rw [snapshotActions, List.map_append]
  exact run_snoc _ (snapshotActions writes) .getSnapshot

theorem run_inplace_record (config : VersionSetConfig) (writes : List Write) (rec : EditRecord) :
    (new config).run (inplaceActions (writes ++ [.record rec])) =
      (((new config).run (inplaceActions writes)).apply [rec]).1 := by
  rw [inplaceActions, List.filterMap_append]
  exact run_snoc _ (inplaceActions writes) (.apply [rec])

theorem run_inplace_getSnapshot (config : VersionSetConfig) (writes : List Write) :
    (new config).run (inplaceActions (writes ++ [.getSnapshot])) =
      (new config).run (inplaceActions writes) := by
  rw [inplaceActions, List.filterMap_append]
  exact congrArg _ (List.append_nil _)

theorem sideBySide_nil (config : VersionSetConfig) : SideBySide config [] Directory.empty := by
  have hlists := (versionSetInv_new config).lists
  refine ⟨⟨⟨hlists.nodes, hlists.current, fun a ha => ?_⟩, fun b _ => List.mem_singleton.2 rfl⟩, ?_,
    PageEntries.createBase, rfl, isBase_createBase, tracks_createBase⟩
  · obtain rfl : a = 0 := List.mem_singleton.1 ha
    exact hlists.current
  · exact (tracks_base_iff isBase_createBase).2 tracks_createBase

theorem SideBySide.getSnapshot (h : SideBySide config writes D) :
    SideBySide config (writes ++ [.getSnapshot]) D := by
  obtain ⟨hheld, hview⟩ := h.snapshot.getSnapshot
  refine ⟨?_, ?_, ?_⟩
  · rw [run_snapshot_getSnapshot]
    exact hheld
  · rw [snapshotView, run_snapshot_getSnapshot, hview]
    exact h.snapshotTracks
  · rw [run_inplace_getSnapshot]
    exact h.inplace

theorem SideBySide.wellFormed (h : SideBySide config writes D) : WellFormed (snapshotView config writes) := by
  obtain ⟨l, hl⟩ := h.snapshot.lists.current
  exact view_wellFormed h.snapshot.lists hl

theorem applyDelta_eq_apply (hw : WellFormed view)
    (h : Tracks true (findRef view) (findNormalPageEntry view) D) (hlives : rec.TargetLives view) :
    D.applyDelta (findNormalPageEntry view) rec = D.apply rec := by
  cases rec with
  | ref i p =>
    have htarget : view.resolveRefId p = D.target p := by
      rw [resolveRefId, isRefId_eq_findRef hw, h.refs_eq, Directory.target]
    rw [EditRecord.TargetLives, htarget] at hlives
    rw [Directory.applyDelta, Directory.apply]
    cases hd : D.data (D.target p) with
    | some d => rfl
    | none =>
      cases hp : findNormalPageEntry view (D.target p) with
      | none => rfl
      | some entry =>
        have hzero := h.ref_eq hp
        rw [D.count_eq_zero hd] at hzero
        have htomb := hlives entry hp
        rw [PageEntry.isTombstone, hzero] at htomb
        exact absurd htomb (by decide)
  | put i entry => rfl
  | del i => rfl
  | upsert i entry => rfl

theorem SideBySide.record (h : SideBySide config writes D) (hrec : rec.IsWrite)
    (hlives : rec.TargetLives (snapshotView config writes)) (hfit : rec.Fits (snapshotView config writes)) :
    SideBySide config (writes ++ [.record rec]) (D.apply rec) := by
  obtain ⟨hheld, htracks⟩ := h.snapshot.apply h.snapshotTracks hrec hfit
  refine ⟨?_, ?_, ?_⟩
  · rw [run_snapshot_record]
    exact hheld
  · rw [snapshotView, run_snapshot_record, ← applyDelta_eq_apply h.wellFormed h.snapshotTracks hlives]
    exact htracks
  · obtain ⟨b, hrun, hb, hD⟩ := h.inplace
    rw [h.snapshotTracks.fits_iff h.wellFormed] at hfit
    have hnext := hD.applyInplaceRecord hrec hfit
    refine ⟨b.applyInplaceRecord rec, ?_, hb.applyInplaceRecord hnext, hnext⟩
    rw [run_inplace_record, hrun, single_apply config hb.base]
    rfl

/-- Both runs show the same pages and counts. -/
structure WritesAgree (config : VersionSetConfig) (writes : List Write) : Prop where
  same : SameOutcome (inplaceView config writes) (snapshotView config writes)
  inplace : RefCounted (inplaceView config writes)
  snapshot : RefCounted (snapshotView config writes)

theorem SideBySide.agree (h : SideBySide config writes D) : WritesAgree config writes := by
  obtain ⟨b, hrun, hb, hD⟩ := h.inplace
  have htracks := (tracks_base_iff hb).2 hD
  have hview := inplaceView_of_single hrun
  refine ⟨?_, ?_, h.snapshotTracks.refCounted h.wellFormed⟩
  · rw [hview]
    exact htracks.sameOutcome (.base hb) h.wellFormed h.snapshotTracks
  · rw [hview]
    exact htracks.refCounted (.base hb)

/-! ### Where the runs part -/

theorem ofNat_add_one_eq_zero {c : ℕ} (hfit : c < 2 ^ 32) (hmax : ¬ c + 1 < 2 ^ 32) :
    UInt32.ofNat c + 1 = 0 := by
  obtain rfl : c = 2 ^ 32 - 1 := by omega
  rfl

theorem not_refCounted_of_wrapped {i : PageId} (entry : PageEntry) (hb : b.isBase = true)
    (hi : b.refs i = some n) (hn : b.pages n = some entry) (hzero : entry.ref = 0) :
    ¬ RefCounted [b] := by
  intro h
  have hid : isRefId [b] i = some n := by
    rw [isRefId, if_pos hb]
    exact hi
  refine h.live i n hid ?_
  rw [livePage, findNormalPageEntry_base, show b.normalPages.lookup n = some entry from hn,
    Option.filter_some_neg (by simp [PageEntry.isTombstone, hzero])]

theorem fits_of_refCounted (hb : IsBase b) (hD : Tracks false b.refs b.pages D)
    (h : RefCounted [b.applyInplaceRecord rec]) : D.Fits rec := by
  have hbase : (b.applyInplaceRecord rec).isBase = true := (applyInplaceRecord_sameKind b rec).1.trans hb.base
  have hpage : ∀ n, ¬ D.count n + 1 < 2 ^ 32 → ∃ old, b.pages n = some old ∧ old.ref + 1 = 0 := by
    intro n hmax
    cases hn : b.pages n with
    | none =>
      rw [hD.count_eq_zero hn] at hmax
      exact absurd (by norm_num) hmax
    | some old =>
      refine ⟨old, rfl, ?_⟩
      rw [hD.ref_eq hn]
      exact ofNat_add_one_eq_zero (hD.fits n) hmax
  cases rec with
  | put i entry =>
    intro hi
    by_contra hmax
    obtain ⟨old, hold, hzero⟩ := hpage i hmax
    have hnone : b.refs i = none := by rw [hD.refs_eq, hi]
    have hrefs := b.put_refs i entry
    have hpages := b.put_pages i entry
    rw [hnone, Option.getD_none] at hrefs hpages
    rw [hold] at hpages
    refine not_refCounted_of_wrapped (i := i) (n := i) { entry with ref := old.ref + 1 } hbase ?_ ?_ hzero h
    · exact (congrFun hrefs i).trans (update_self ..)
    · exact (congrFun hpages i).trans (update_self ..)
  | ref i p =>
    intro hi
    by_contra hmax
    obtain ⟨old, hold, hzero⟩ := hpage _ hmax
    have htarget : b.resolveRefId p = D.target p := by
      show (b.refs p).getD p = _
      rw [hD.refs_eq, Directory.target]
    have hlive : ∀ m, b.refs i = some m → b.pages m ≠ none := by
      intro m hm
      obtain ⟨e, he, -⟩ := hD.page_of_refs hm
      simp [he]
    rcases PageEntries.ref_tables htarget hold hlive with ⟨hsame, -⟩ |
      ⟨-, w, pages₁, hok, -, -, hrefs, hpages⟩
    · exact hi (hD.refs_eq ▸ hsame)
    · have hstate : b.applyInplaceRecord (.ref i p) = w := by rw [PageEntries.applyInplaceRecord, hok]
      rw [hstate] at h hbase
      refine not_refCounted_of_wrapped (i := i) (n := D.target p) { old with ref := old.ref + 1 } hbase ?_ ?_
        hzero h
      · rw [hrefs, update_self]
      · rw [hpages, update_self]
  | del i => trivial
  | upsert i entry => trivial

/-- A reference to a tombstone is kept by the run with a snapshot and ignored by the other. -/
theorem SideBySide.targetLives (h : SideBySide config writes D) (hrec : rec.IsWrite)
    (hfit : rec.Fits (snapshotView config writes))
    (hagree : SameOutcome (inplaceView config (writes ++ [.record rec]))
      (snapshotView config (writes ++ [.record rec]))) :
    rec.TargetLives (snapshotView config writes) := by
  cases rec with
  | put i entry => trivial
  | del i => trivial
  | upsert i entry => trivial
  | ref i p =>
    intro entry hentry
    by_contra htomb
    have hzero : entry.ref = 0 := by simpa [PageEntry.isTombstone] using htomb
    have htarget : (snapshotView config writes).resolveRefId p = D.target p := by
      rw [resolveRefId, isRefId_eq_findRef h.wellFormed, h.snapshotTracks.refs_eq, Directory.target]
    rw [htarget] at hentry
    have hcount : D.count (D.target p) = 0 := by
      have href := h.snapshotTracks.ref_eq hentry
      rw [hzero] at href
      exact (ofNat_eq_zero_iff (h.snapshotTracks.fits _)).1 href.symm
    have hdead : D.data (D.target p) = none := by
      by_contra hsome
      exact absurd ((D.count_pos_iff _).2 hsome) (by omega)
    -- the run with a snapshot binds `i` to the page
    obtain ⟨hheld, htracks⟩ := h.snapshot.apply h.snapshotTracks hrec hfit
    rw [← run_snapshot_record] at hheld htracks
    have hbound : (snapshotView config (writes ++ [.record (.ref i p)])).isRefId i = some (D.target p) := by
      obtain ⟨l, hl⟩ := hheld.lists.current
      have hview : findNormalPageEntry ((new config).run (snapshotActions writes)).currentView
        (D.target p) = some entry := hentry
      refine (isRefId_eq_findRef (view_wellFormed hheld.lists hl) i).trans ?_
      refine (congrFun htracks.refs_eq i).trans ?_
      rw [Directory.applyDelta, hdead, hview]
      exact update_self ..
    -- the other run ignores the record
    obtain ⟨b, hrun, hb, hD⟩ := h.inplace
    have hnext := hD.applyInplaceRecord hrec ((h.snapshotTracks.fits_iff h.wellFormed _).1 hfit)
    rw [Directory.apply, hdead] at hnext
    have hrun' : (new config).run (inplaceActions (writes ++ [.record (.ref i p)])) =
        single config (b.applyInplaceRecord (.ref i p)) := by
      rw [run_inplace_record, hrun, single_apply config hb.base]
      rfl
    have hignored : (inplaceView config (writes ++ [.record (.ref i p)])).isRefId i = D.refs i := by
      rw [inplaceView_of_single hrun', isRefId_eq_findRef (.base (hb.applyInplaceRecord hnext)),
        findRef_base (hb.applyInplaceRecord hnext)]
      exact congrFun hnext.refs_eq i
    have hrefs : D.refs i = some (D.target p) := by rw [← hignored, hagree.isRefId, hbound]
    obtain ⟨d, hd⟩ := D.live_of_refs hrefs
    exact absurd (hdead.symm.trans hd) (Option.some_ne_none d).symm

theorem SideBySide.ok_of_agree (h : SideBySide config writes D) (hrec : rec.IsWrite)
    (hagree : WritesAgree config (writes ++ [.record rec])) :
    rec.TargetLives (snapshotView config writes) ∧ rec.Fits (snapshotView config writes) := by
  obtain ⟨b, hrun, hb, hD⟩ := h.inplace
  have hfit : rec.Fits (snapshotView config writes) := by
    have hrun' : (new config).run (inplaceActions (writes ++ [.record rec])) =
        single config (b.applyInplaceRecord rec) := by
      rw [run_inplace_record, hrun, single_apply config hb.base]
      rfl
    have hcounted := hagree.inplace
    rw [inplaceView_of_single hrun'] at hcounted
    rw [h.snapshotTracks.fits_iff h.wellFormed]
    exact fits_of_refCounted hb hD hcounted
  exact ⟨h.targetLives hrec hfit hagree.same, hfit⟩

/-- As long as the condition holds at every record, the runs stay side by side. -/
theorem sideBySide_of_ok (config : VersionSetConfig) (hw : ∀ rec, .record rec ∈ writes → rec.IsWrite)
    (hok : ∀ done rec todo, writes = done ++ .record rec :: todo → (∃ D, SideBySide config done D) →
      rec.TargetLives (snapshotView config done) ∧ rec.Fits (snapshotView config done)) :
    ∃ D, SideBySide config writes D := by
  induction writes using List.reverseRecOn with
  | nil => exact ⟨_, sideBySide_nil config⟩
  | append_singleton writes w ih =>
    obtain ⟨D, hD⟩ := ih (fun rec hrec => hw rec (List.mem_append_left _ hrec)) fun done rec todo hsplit =>
      hok done rec (todo ++ [w]) (by rw [hsplit, List.append_assoc, List.cons_append])
    cases w with
    | getSnapshot => exact ⟨D, hD.getSnapshot⟩
    | record rec =>
      obtain ⟨hlives, hfit⟩ := hok writes rec [] rfl ⟨D, hD⟩
      exact ⟨_, hD.record (hw rec (by simp)) hlives hfit⟩

/-- **Holding a snapshot changes the outcome of writes exactly when a record refers to a dead page.** The runs
agree after every prefix of the writes iff no record refers to a mere tombstone and none brings a reference
count to 2^32. -/
theorem writes_agree_iff (config : VersionSetConfig) (writes : List Write)
    (hw : ∀ rec, .record rec ∈ writes → rec.IsWrite) :
    (∀ done, done <+: writes → WritesAgree config done) ↔
      ∀ done rec todo, writes = done ++ .record rec :: todo →
        rec.TargetLives (snapshotView config done) ∧ rec.Fits (snapshotView config done) := by
  have hpart : ∀ done, done <+: writes → ∀ rec, .record rec ∈ done → rec.IsWrite :=
    fun done hdone rec hrec => hw rec (hdone.subset hrec)
  constructor
  · intro hagree done rec todo hsplit
    have hdone : done <+: writes := ⟨.record rec :: todo, hsplit.symm⟩
    have hnext : ∀ done' rec' todo', writes = done' ++ .record rec' :: todo' →
        (∃ D, SideBySide config done' D) → rec'.TargetLives (snapshotView config done') ∧
          rec'.Fits (snapshotView config done') := by
      rintro done' rec' todo' hsplit' ⟨D, hD⟩
      refine hD.ok_of_agree (hw rec' (by rw [hsplit']; simp)) (hagree _ ⟨todo', ?_⟩)
      rw [hsplit', List.append_assoc, List.singleton_append]
    obtain ⟨D, hD⟩ := sideBySide_of_ok config (hpart done hdone) fun done' rec' todo' hsplit' =>
      hnext done' rec' (todo' ++ .record rec :: todo)
        (by rw [hsplit, hsplit', List.append_assoc, List.cons_append])
    exact hnext done rec todo hsplit ⟨D, hD⟩
  · rintro hok done ⟨rest, hsplit⟩
    obtain ⟨D, hD⟩ := sideBySide_of_ok config (hpart done ⟨rest, hsplit⟩) fun done' rec todo hsplit' _ =>
      hok done' rec (todo ++ rest) (by rw [← hsplit, hsplit', List.append_assoc, List.cons_append])
    exact hD.agree

/-- A page that is put, gets a second reference and loses its first one. -/
theorem writes_agree_put_ref_del :
    WritesAgree {} [.record (.put 1 { fileId := 1 }), .record (.ref 2 1), .record (.del 1)] := by
  refine (writes_agree_iff {} _ ?_).2 ?_ _ (List.prefix_refl _)
  · simp [EditRecord.IsWrite]
  · intro done rec todo hsplit
    rcases done with _ | ⟨_, _ | ⟨_, _ | _⟩⟩
    · cases hsplit
      exact ⟨trivial, fun _ => by decide +kernel⟩
    · cases hsplit
      refine ⟨fun entry hentry => ?_, fun _ => by decide +kernel⟩
      have hfound : (snapshotView {} [.record (.put 1 { fileId := 1 })]).findNormalPageEntry
          ((snapshotView {} [.record (.put 1 { fileId := 1 })]).resolveRefId 1) =
          some { fileId := 1 } := by decide +kernel
      cases hfound.symm.trans hentry
      rfl
    · cases hsplit
      exact ⟨trivial, trivial⟩
    · simp at hsplit

/-- A page that is put and deleted: a reference to it afterwards is ignored, but with a snapshot held it
brings the page back. -/
theorem writes_disagree_on_dead_page :
    let writes : List Write := [.record (.put 1 { fileId := 1 }), .record (.del 1), .record (.ref 2 1)]
    (inplaceView {} writes).find 2 = .ok none ∧
      (snapshotView {} writes).find 2 = .ok (some { fileId := 1, ref := 1 }) := by
  decide +kernel

end TiFlash.Page
