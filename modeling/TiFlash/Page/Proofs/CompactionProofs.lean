import TiFlash.Page.Proofs.PageViewProofs

/-!
# Merging versions

What `merge` does to the ref pair, the deletion mark and the page under one id, and when the merged
version shows what the merged versions showed.
-/

namespace TiFlash.Page

open TiFlash.Lib TiFlash.Lib.HashMap PageEntriesView List Option PageEntries

/-- What a version holds under one id. -/
structure Cell where
  isBase : Bool
  ref : Option PageId
  deleted : Prop
  page : Option PageEntry

def PageEntries.cell (v : PageEntries) (k : PageId) : Cell where
  isBase := v.isBase
  ref := v.pageRef.lookup k
  deleted := k ∈ v.refDeletions
  page := v.normalPages.lookup k

/-- `decreasePageRef` of the page under the id. -/
def decreased (page : Option PageEntry) : Option PageEntry :=
  page.bind fun entry => if entry.ref - 1 = 0 then none else some { entry with ref := entry.ref - 1 }

variable {v rhs d b : PageEntries} {k n : PageId} {deltas rest : PageEntriesView}

/-! ### The cells of a merged version -/

theorem decreasePageRef_cell (v : PageEntries) (n k : PageId) : (v.decreasePageRef n).cell k =
    { v.cell k with page := if k = n then decreased (v.cell k).page else (v.cell k).page } := by
  unfold decreasePageRef
  cases hn : v.normalPages.lookup n with
  | none =>
    by_cases hk : k = n
    · subst hk
      simp [cell, hn, decreased]
    · simp [cell, hk]
  | some entry =>
    by_cases hk : k = n
    · subst hk
      by_cases hzero : entry.ref - 1 = 0 <;> simp [cell, hn, decreased, hzero]
    · by_cases hzero : entry.ref - 1 = 0 <;> simp [cell, hk, hzero]

theorem foldl_mergeDeletion_cell (v : PageEntries) (dels : HashSet PageId) (k : PageId) :
    (dels.foldl (fun v k _ => v.mergeDeletion k) v).cell k = match dels.lookup k with
      | some _ => { isBase := v.isBase, ref := none, deleted := v.isBase = false ∨ k ∈ v.refDeletions,
                    page := decreased (v.normalPages.lookup k) }
      | none => v.cell k := by
  refine (get_foldl cell (g := fun _ _ c =>
    ⟨c.isBase, none, c.isBase = false ∨ c.deleted, decreased c.page⟩) ?_ ?_ dels v k).trans ?_
  · intro v k _
    rw [mergeDeletion, decreasePageRef_cell, if_pos rfl]
    cases hbase : v.isBase <;> simp [cell, hbase]
  · intro v k _ k' hk
    rw [mergeDeletion, decreasePageRef_cell, if_neg hk]
    cases hbase : v.isBase <;> simp [cell, hbase, hk]
  · cases dels.lookup k <;> rfl

theorem foldl_mergeRef_cell (v : PageEntries) (refs : HashMap PageId PageId) (k : PageId) :
    (refs.foldl mergeRef v).cell k =
      { v.cell k with ref := (refs.lookup k).or (v.pageRef.lookup k) } := by
  have h := get_foldl cell (f := mergeRef)
    (g := fun _ n c => { c with ref := some n })
    (fun v k n => by simp [mergeRef, cell])
    (fun v k n k' hk => by simp [mergeRef, cell, hk]) refs v k
  rw [h]
  cases refs.lookup k <;> rfl

theorem foldl_mergePage_cell (v : PageEntries) (pages : HashMap PageId PageEntry) (k : PageId) :
    (pages.foldl mergePage v).cell k = match pages.lookup k with
      | some entry => { v.cell k with page := if entry.isTombstone && v.isBase then none else some entry }
      | none => v.cell k := by
  refine (get_foldl cell (f := mergePage) (g := fun _ entry c =>
    { c with page := if entry.isTombstone && c.isBase then none else some entry }) ?_ ?_ pages v k).trans ?_
  · intro v k entry
    cases htomb : entry.isTombstone <;> cases hbase : v.isBase <;>
      simp [mergePage, cell, htomb, hbase]
  · intro v k entry k' hk
    unfold mergePage
    split_ifs <;> simp [cell, hk]
  · cases pages.lookup k <;> rfl

open Classical in
theorem merge_cell (v rhs : PageEntries) (k : PageId) : (v.merge rhs).cell k =
    { isBase := v.isBase
      ref := (rhs.pageRef.lookup k).or (if k ∈ rhs.refDeletions then none else v.pageRef.lookup k)
      deleted := k ∈ rhs.refDeletions ∧ v.isBase = false ∨ k ∈ v.refDeletions
      page := match rhs.normalPages.lookup k with
        | some entry => if entry.isTombstone && v.isBase then none else some entry
        | none => if k ∈ rhs.refDeletions then decreased (v.normalPages.lookup k)
                  else v.normalPages.lookup k } := by
  have h1 := foldl_mergeDeletion_cell v rhs.refDeletions k
  set v₁ := rhs.refDeletions.foldl (fun v k _ => v.mergeDeletion k) v with hv₁
  have h2 := foldl_mergeRef_cell v₁ rhs.pageRef k
  set v₂ := rhs.pageRef.foldl mergeRef v₁ with hv₂
  have h3 := foldl_mergePage_cell v₂ rhs.normalPages k
  have hmerge : (v.merge rhs).cell k = (rhs.normalPages.foldl mergePage v₂).cell k := rfl
  have hbase : v₂.isBase = (v₂.cell k).isBase := rfl
  have href : v₁.pageRef.lookup k = (v₁.cell k).ref := rfl
  rw [hmerge, h3, hbase, h2, href, h1]
  by_cases hdel : k ∈ rhs.refDeletions
  · obtain ⟨u, hu⟩ := mem_iff_lookup.1 hdel
    rw [hu]
    cases rhs.normalPages.lookup k <;> simp [hdel]
  · rw [AList.lookup_eq_none.2 hdel]
    cases rhs.normalPages.lookup k <;> simp [hdel, cell]

/-! ### Merged deltas -/

/-- An id that the deltas bind in the end was deleted by none of them. -/
def NoneRebound (deltas : PageEntriesView) : Prop :=
  ∀ k n, findRef deltas k = some n → ∀ d ∈ deltas, k ∉ d.refDeletions

/-- A version that deletes an id has an entry for the page of this number, unless the versions before it
have none. -/
def DeletesOwnPages : PageEntriesView → Prop
  | [] => True
  | d :: older =>
    (∀ k, k ∈ d.refDeletions → k ∉ d.normalPages → findNormalPageEntry older k = none) ∧
      DeletesOwnPages older

/-- The deltas merged as `compactDeltas` does it. -/
def mergeDeltas (deltas : PageEntriesView) : PageEntries :=
  deltas.foldr (fun node tmp => tmp.merge node) createDelta

open Classical in
/-- Where the newest version says nothing about an id, the older ones count. -/
theorem findRef_append : findRef (deltas ++ rest) k =
    match findRef deltas k with
    | some n => some n
    | none => if ∃ d ∈ deltas, k ∈ d.refDeletions then none else findRef rest k := by
  induction deltas with
  | nil => simp [findRef]
  | cons d deltas ih =>
    rw [cons_append, findRef_cons, findRef_cons]
    by_cases hdel : k ∈ d.refDeletions
    · simp [hdel]
    · cases d.pageRef.lookup k with
      | some n => simp [hdel]
      | none => simp [hdel, ih]

theorem findNormalPageEntry_append : findNormalPageEntry (deltas ++ rest) n =
    (findNormalPageEntry deltas n).or (findNormalPageEntry rest n) := by
  induction deltas with
  | nil => rfl
  | cons d deltas ih =>
    rw [cons_append, findNormalPageEntry_cons, findNormalPageEntry_cons, ih, Option.or_assoc]

open Classical in
theorem merge_page (hown : k ∈ rhs.refDeletions → k ∉ rhs.normalPages → v.normalPages.lookup k = none)
    (hdelta : v.isBase = false) :
    (v.merge rhs).normalPages.lookup k = (rhs.normalPages.lookup k).or (v.normalPages.lookup k) := by
  have h := congrArg Cell.page (merge_cell v rhs k)
  refine h.trans ?_
  cases hpage : rhs.normalPages.lookup k with
  | some entry => simp [hdelta]
  | none =>
    by_cases hdel : k ∈ rhs.refDeletions
    · simp [hdel, hown hdel (AList.lookup_eq_none.1 hpage), decreased]
    · simp [hdel]

section

variable (hd : ∀ d ∈ deltas, IsDelta d)
include hd

/-- The merged delta has every deletion and the last binding of every id. -/
theorem mergeDeltas_refs :
    (mergeDeltas deltas).isBase = false ∧
    (∀ k, k ∈ (mergeDeltas deltas).refDeletions ↔ ∃ d ∈ deltas, k ∈ d.refDeletions) ∧
    ∀ k, (mergeDeltas deltas).pageRef.lookup k = findRef deltas k := by
  induction deltas with
  | nil => exact ⟨rfl, fun k => by simp [mergeDeltas, createDelta], fun _ => rfl⟩
  | cons d deltas ih =>
    obtain ⟨hbase, hdels, hrefs⟩ := ih fun d hmem => hd d (mem_cons_of_mem _ hmem)
    have hcell := fun k => merge_cell (mergeDeltas deltas) d k
    have hdd := hd d mem_cons_self
    refine ⟨?_, fun k => ?_, fun k => ?_⟩
    · exact (congrArg Cell.isBase (hcell 0)).trans hbase
    · refine (iff_of_eq (congrArg Cell.deleted (hcell k))).trans ?_
      simp only [hbase, and_true, hdels k, mem_cons, exists_eq_or_imp]
    · refine (congrArg Cell.ref (hcell k)).trans ?_
      rw [hrefs, findRef_cons]
      by_cases hdel : k ∈ d.refDeletions
      · simp [hdel, hdd.disjoint k hdel]
      · simp [hdel]

theorem mergeDeltas_pages (hown : DeletesOwnPages deltas) (k : PageId) :
    (mergeDeltas deltas).normalPages.lookup k = findNormalPageEntry deltas k := by
  induction deltas with
  | nil => rfl
  | cons d deltas ih =>
    have hd' : ∀ d ∈ deltas, IsDelta d := fun d hmem => hd d (mem_cons_of_mem _ hmem)
    have hpages := ih hd' hown.2
    rw [findNormalPageEntry_cons, ← hpages]
    refine merge_page (fun hdel hnot => ?_) (mergeDeltas_refs hd').1
    exact hpages.trans (hown.1 k hdel hnot)

theorem mergeDeltas_refs_iff (rest : PageEntriesView) :
    (∀ k, findRef (deltas ++ rest) k = findRef (mergeDeltas deltas :: rest) k) ↔ NoneRebound deltas := by
  obtain ⟨-, hdels, hrefs⟩ := mergeDeltas_refs hd
  have hcase : ∀ k n, findRef deltas k = some n →
      (findRef (deltas ++ rest) k = findRef (mergeDeltas deltas :: rest) k ↔
        ∀ d ∈ deltas, k ∉ d.refDeletions) := by
    intro k n hk
    rw [findRef_append, findRef_cons, hrefs, hk]
    by_cases hdel : k ∈ (mergeDeltas deltas).refDeletions
    · obtain ⟨d, hmem, hkd⟩ := (hdels k).1 hdel
      rw [if_pos hdel]
      exact iff_of_false (some_ne_none n) fun h => h d hmem hkd
    · rw [if_neg hdel]
      refine iff_of_true rfl fun d hmem hkd => hdel ((hdels k).2 ⟨d, hmem, hkd⟩)
  constructor
  · intro h k n hk
    exact (hcase k n hk).1 (h k)
  · intro h k
    cases hk : findRef deltas k with
    | some n => exact (hcase k n hk).2 (h k n hk)
    | none =>
      rw [findRef_append, findRef_cons, hrefs, hk]
      simp only [hdels, none_or]

theorem mergeDeltas_isDelta (hre : NoneRebound deltas) :
    IsDelta (mergeDeltas deltas) := by
  obtain ⟨hbase, hdels, hrefs⟩ := mergeDeltas_refs hd
  refine ⟨hbase, fun k hk => ?_⟩
  obtain ⟨d, hmem, hdel⟩ := (hdels k).1 hk
  rw [hrefs]
  by_contra hsome
  obtain ⟨n, hn⟩ := ne_none_iff_exists'.1 hsome
  exact hre k n hn d hmem hdel

theorem mergeDeltas_sameTables (hown : DeletesOwnPages deltas) (hre : NoneRebound deltas)
    (rest : PageEntriesView) :
    SameTables (deltas ++ rest) (mergeDeltas deltas :: rest) := by
  refine ⟨(mergeDeltas_refs_iff hd rest).2 hre, fun n => ?_⟩
  rw [livePage, livePage, findNormalPageEntry_append, findNormalPageEntry_cons, mergeDeltas_pages hd hown]

end

/-! ### A delta merged into its base -/

theorem compactDeltaAndBase_page (hown : DeletesOwnPages [d, b]) (n : PageId) :
    (compactDeltaAndBase b d).normalPages.lookup n = match d.normalPages.lookup n with
      | some entry => if entry.isTombstone then none else some entry
      | none => b.normalPages.lookup n := by
  refine (congrArg Cell.page (merge_cell (createBase.copyEntries b) d n)).trans ?_
  cases hpage : d.normalPages.lookup n with
  | some entry => simp [copyEntries, createBase]
  | none =>
    by_cases hdel : n ∈ d.refDeletions
    · have hnone : b.normalPages.lookup n = none := by
        rw [← findNormalPageEntry_base]
        exact hown.1 n hdel (AList.lookup_eq_none.1 hpage)
      simp [hdel, copyEntries, hnone, decreased]
    · simp [hdel, copyEntries]

theorem compactDeltaAndBase_isBase (hb : IsBase b) (hown : DeletesOwnPages [d, b]) :
    IsBase (compactDeltaAndBase b d) := by
  have hcell := fun k => merge_cell (createBase.copyEntries b) d k
  refine ⟨congrArg Cell.isBase (hcell 0), fun k hk => ?_, fun n entry hentry => ?_⟩
  · have hdel := (iff_of_eq (congrArg Cell.deleted (hcell k))).1 hk
    rcases hdel with ⟨-, hfalse⟩ | hdel
    · exact Bool.false_ne_true hfalse.symm
    · exact hb.no_deletions k hdel
  · rw [compactDeltaAndBase_page hown] at hentry
    cases hpage : d.normalPages.lookup n with
    | some e =>
      rw [hpage] at hentry
      cases htomb : e.isTombstone with
      | true => simp [htomb] at hentry
      | false =>
        simp only [htomb, Bool.false_eq_true, if_false, Option.some.injEq] at hentry
        rw [← hentry]
        simpa [PageEntry.isTombstone] using htomb
    | none =>
      rw [hpage] at hentry
      exact hb.no_tombstones n entry hentry

/-- The new base in the place of the delta and the old one. Tombstones are gone. -/
theorem compactDeltaAndBase_sameTables (hd : IsDelta d) (hb : IsBase b) (hown : DeletesOwnPages [d, b]) :
    SameTables [d, b] [compactDeltaAndBase b d] := by
  refine ⟨fun k => ?_, fun n => ?_⟩
  · rw [findRef_base (compactDeltaAndBase_isBase hb hown), findRef_cons, findRef_base hb]
    refine Eq.trans ?_
      (congrArg Cell.ref (merge_cell (createBase.copyEntries b) d k)).symm
    by_cases hdel : k ∈ d.refDeletions
    · simp [hdel, hd.disjoint k hdel]
    · simp [hdel, copyEntries]
  · rw [livePage, livePage, findNormalPageEntry_base, compactDeltaAndBase_page hown,
      findNormalPageEntry_cons, findNormalPageEntry_base]
    cases d.normalPages.lookup n with
    | none => rfl
    | some entry => cases htomb : entry.isTombstone <;> simp [htomb]

end TiFlash.Page
