import TiFlash.Page.Directory
import TiFlash.Page.PageEntriesView

/-!
# What a view shows

A version list is a base and deltas on it. What a view of it shows is settled by two tables, the ref
pairs and the live pages, up to the error of a ref pair whose page is missing.
-/

namespace TiFlash.Page

open TiFlash.Lib Function Option TiFlash.Lib.HashMap PageEntriesView List

/-! ## Keeping tables in step with a directory -/

namespace Directory

variable (D : Directory) {i n m : PageId} {entry : PageEntry}

/-! ### Reference counts -/

theorem count_bind_same (h : D.refs i = some n) : (D.bind i n entry).count n = D.count n := by
  have hrefs : (D.bind i n entry).refs = D.refs := by
    show update D.refs i (some n) = D.refs
    rw [← h, update_eq_self]
  rw [count, count, hrefs]

theorem count_bind_new (h : D.refs i ≠ some n) : (D.bind i n entry).count n = D.count n + 1 :=
  fiberCard_update_new D.finite h

theorem count_bind_gone (h : D.refs i = some m) (hm : m ≠ n) :
    (D.bind i n entry).count m + 1 = D.count m :=
  fiberCard_update_gone D.finite h fun hv => hm (some.inj hv).symm

theorem count_bind_other (h : D.refs i ≠ some m) (hm : m ≠ n) :
    (D.bind i n entry).count m = D.count m :=
  fiberCard_update_other h fun hv => hm (some.inj hv).symm

theorem count_unbind_gone (h : D.refs i = some m) : (D.unbind i).count m + 1 = D.count m :=
  fiberCard_update_gone D.finite h (some_ne_none m).symm

theorem count_unbind_other (h : D.refs i ≠ some m) : (D.unbind i).count m = D.count m :=
  fiberCard_update_other h (some_ne_none m).symm

/-! ### Which pages live -/

theorem bind_data_self : (D.bind i n entry).data n = some entry := if_pos rfl

open Classical in
theorem bind_data_ne (hm : m ≠ n) :
    (D.bind i n entry).data m = if 0 < (D.bind i n entry).count m then D.data m else none := by
  have hiff := (fiberCard_pos_iff (b := m) (D.bind i n entry).finite)
  show (if m = n then some entry else if ∃ j, (D.bind i n entry).refs j = some m then D.data m else none) = _
  rw [if_neg hm]
  exact if_congr hiff.symm rfl rfl

open Classical in
theorem unbind_data :
    (D.unbind i).data m = if 0 < (D.unbind i).count m then D.data m else none := by
  have hiff := (fiberCard_pos_iff (b := m) (D.unbind i).finite)
  exact if_congr hiff.symm rfl rfl

end Directory

/-! ### One page of the tables -/

variable {tombs : Bool} {count : ℕ} {data page page' : Option PageEntry} {entry : PageEntry}

theorem ofNat_succ_sub_one (c : ℕ) : UInt32.ofNat (c + 1) - 1 = UInt32.ofNat c := by
  rw [UInt32.ofNat_add]
  exact UInt32.add_sub_cancel ..

theorem ofNat_eq_one_iff {c : ℕ} (h : c < 2 ^ 32) : UInt32.ofNat c = 1 ↔ c = 1 := by
  rw [← UInt32.toNat_inj, UInt32.toNat_ofNat_of_lt' h]
  rfl

theorem ofNat_eq_zero_iff {c : ℕ} (h : c < 2 ^ 32) : UInt32.ofNat c = 0 ↔ c = 0 := by
  rw [← UInt32.toNat_inj, UInt32.toNat_ofNat_of_lt' h]
  rfl

theorem Holds.dropped (h : Holds tombs (count + 1) (some entry) page) (hfit : count + 1 < 2 ^ 32)
    (hd : Dropped tombs page page') : Holds tombs count (if 0 < count then some entry else none) page' := by
  obtain ⟨e, he, hpage'⟩ := hd
  obtain rfl : e = { entry with ref := UInt32.ofNat (count + 1) } := some.inj (he.symm.trans h)
  by_cases hc : count = 0
  · have hone : ({ entry with ref := UInt32.ofNat (count + 1) } : PageEntry).ref = 1 :=
      (ofNat_eq_one_iff hfit).2 (by omega)
    rw [if_pos hone] at hpage'
    rw [if_neg (by omega)]
    rcases hpage' with hnone | ⟨htombs, htomb⟩
    · exact .inl hnone
    · exact .inr ⟨htombs, _, htomb, rfl⟩
  · have hone : ¬ ({ entry with ref := UInt32.ofNat (count + 1) } : PageEntry).ref = 1 :=
      fun h => hc (by have := (ofNat_eq_one_iff hfit).1 h; omega)
    rw [if_neg hone, ofNat_succ_sub_one] at hpage'
    rw [if_pos (by omega)]
    exact hpage'

theorem Holds.kept {D : Directory} {n : PageId} (h : Holds tombs (D.count n) (D.data n) page) :
    Holds tombs (D.count n) (if 0 < D.count n then D.data n else none) page := by
  split_ifs with hpos
  · exact h
  · have hnone : D.data n = none := by
      by_contra hsome
      exact hpos ((D.count_pos_iff n).2 hsome)
    rw [hnone] at h
    exact h

theorem Holds.not_tombstone (h : Holds tombs count (some entry) page) (hpos : 0 < count)
    (hfit : count < 2 ^ 32) : ∃ e, page = some e ∧ e.ref ≠ 0 := by
  refine ⟨_, h, fun hzero => ?_⟩
  exact absurd ((ofNat_eq_zero_iff hfit).1 hzero) (by omega)

/-! ### Whole tables -/

variable {refs refs' : PageId → Option PageId} {pages pages' : PageId → Option PageEntry} {D : Directory}
  {i n : PageId}

/-- The tables follow `bind`: the new target gets its entry with the right count, the old one loses a
reference. -/
theorem Tracks.bind (h : Tracks tombs refs pages D) (hrefs : refs' = update refs i (some n))
    (hfit : (D.bind i n entry).count n < 2 ^ 32)
    (hpage : pages' n = some { entry with ref := UInt32.ofNat ((D.bind i n entry).count n) })
    (hold : ∀ m, m ≠ n → D.refs i = some m → Dropped tombs (pages m) (pages' m))
    (hother : ∀ m, m ≠ n → D.refs i ≠ some m → pages' m = pages m) :
    Tracks tombs refs' pages' (D.bind i n entry) := by
  refine ⟨?_, fun m => ?_, fun m => ?_⟩
  · rw [hrefs, h.refs_eq]
    rfl
  · by_cases hm : m = n
    · rwa [hm]
    · have hmfit := h.fits m
      by_cases hi : D.refs i = some m
      · have : (D.bind i n entry).count m + 1 = D.count m := D.count_bind_gone hi hm
        omega
      · rwa [D.count_bind_other hi hm]
  · by_cases hm : m = n
    · rw [hm, D.bind_data_self]
      exact hpage
    · rw [D.bind_data_ne hm]
      by_cases hi : D.refs i = some m
      · obtain ⟨e, he⟩ := D.live_of_refs hi
        have hcount : (D.bind i n entry).count m + 1 = D.count m := D.count_bind_gone hi hm
        have hpm := h.holds m
        have hmfit := h.fits m
        rw [he, ← hcount] at hpm
        rw [← hcount] at hmfit
        rw [he]
        exact hpm.dropped hmfit (hold m hm hi)
      · rw [D.count_bind_other hi hm, hother m hm hi]
        exact (h.holds m).kept

theorem Tracks.unbind (h : Tracks tombs refs pages D) (hrefs : refs' = update refs i none)
    (hold : ∀ m, D.refs i = some m → Dropped tombs (pages m) (pages' m))
    (hother : ∀ m, D.refs i ≠ some m → pages' m = pages m) : Tracks tombs refs' pages' (D.unbind i) := by
  refine ⟨?_, fun m => ?_, fun m => ?_⟩
  · rw [hrefs, h.refs_eq]
    rfl
  · have hmfit := h.fits m
    by_cases hi : D.refs i = some m
    · have := D.count_unbind_gone hi
      omega
    · rwa [D.count_unbind_other hi]
  · rw [D.unbind_data]
    by_cases hi : D.refs i = some m
    · obtain ⟨e, he⟩ := D.live_of_refs hi
      have hcount := D.count_unbind_gone hi
      have hpm := h.holds m
      have hmfit := h.fits m
      rw [he, ← hcount] at hpm
      rw [← hcount] at hmfit
      rw [he]
      exact hpm.dropped hmfit (hold m hi)
    · rw [D.count_unbind_other hi, hother m hi]
      exact (h.holds m).kept

/-- A delta does not both delete and bind a page id. -/
structure IsDelta (d : PageEntries) : Prop where
  delta : d.isBase = false
  disjoint : ∀ i, i ∈ d.refDeletions → d.pageRef.lookup i = none

/-- A base deletes nothing and keeps no tombstones. -/
structure IsBase (b : PageEntries) : Prop where
  base : b.isBase = true
  no_deletions : ∀ i, i ∉ b.refDeletions
  no_tombstones : ∀ n entry, b.normalPages.lookup n = some entry → entry.ref ≠ 0

/-- Deltas over a base -/
inductive WellFormed : PageEntriesView → Prop
  | base {b : PageEntries} : IsBase b → WellFormed [b]
  | delta {d : PageEntries} {prev : PageEntriesView} : IsDelta d → WellFormed prev → WellFormed (d :: prev)

def PageEntriesView.livePage (view : PageEntriesView) (n : PageId) : Option PageEntry :=
  (view.findNormalPageEntry n).filter fun entry => !entry.isTombstone

/-- The reference count of a normal page; a page that is not there has none. -/
def PageEntriesView.refCount (view : PageEntriesView) (n : PageId) : UInt32 :=
  match view.findNormalPageEntry n with
  | some entry => entry.ref
  | none => 0

variable {view view' : PageEntriesView} {node : PageEntries} {i n : PageId}

/-! ### The tables of a list -/

theorem findRef_cons : findRef (node :: view) i =
    if i ∈ node.refDeletions then none else (node.pageRef.lookup i).or (findRef view i) := by
  simp only [findRef, PageEntries.isRefDeleted, decide_eq_true_eq]
  split_ifs
  · rfl
  · cases node.pageRef.lookup i <;> rfl

theorem findNormalPageEntry_cons : findNormalPageEntry (node :: view) n =
    (node.normalPages.lookup n).or (findNormalPageEntry view n) := by
  rw [findNormalPageEntry]
  cases node.normalPages.lookup n <;> rfl

theorem findRef_base (h : IsBase node) : findRef [node] i = node.pageRef.lookup i := by
  rw [findRef_cons, if_neg (h.no_deletions i), findRef, or_none]

theorem findNormalPageEntry_base : findNormalPageEntry [node] n = node.normalPages.lookup n := by
  rw [findNormalPageEntry_cons, findNormalPageEntry, or_none]

theorem isRefId_eq_findRef (h : WellFormed view) (i : PageId) : view.isRefId i = view.findRef i := by
  induction h with
  | base hb => simp [isRefId, hb.base, findRef_base hb, PageEntries.isRefId]
  | delta hd _ ih => simp [isRefId, hd.delta, findRef, ih]

/-! ### The page ids of a view -/

theorem mem_foldl_insert (m : HashMap PageId PageId) (s : Finset PageId) :
    (i ∈ m.foldl (fun s k _ => insert k s) s) = (m.lookup i ≠ none ∨ i ∈ s) := by
  have h := get_foldl (fun (s : Finset PageId) k => k ∈ s) (f := fun s k _ => insert k s)
    (g := fun _ _ _ => True) (fun s k v => by simp) (fun s k v k' hk => by simp [hk]) m s i
  refine h.trans ?_
  cases m.lookup i <;> simp

theorem mem_foldl_erase (m : HashSet PageId) (s : Finset PageId) :
    (i ∈ m.foldl (fun s k _ => s.erase k) s) = (i ∉ m ∧ i ∈ s) := by
  have h := get_foldl (fun (s : Finset PageId) k => k ∈ s) (f := fun s k _ => s.erase k)
    (g := fun _ _ _ => False) (fun s k v => by simp) (fun s k v k' hk => by simp [hk]) m s i
  refine h.trans ?_
  rw [← AList.lookup_eq_none]
  cases m.lookup i <;> simp

theorem mem_validPageIds (h : WellFormed view) (i : PageId) :
    i ∈ view.validPageIds ↔ view.findRef i ≠ none := by
  induction h with
  | @base b hb =>
    simp [validPageIds, hb.base, mem_foldl_insert, findRef_base hb]
  | @delta d prev hd _ ih =>
    have hcons : i ∈ validPageIds (d :: prev) ↔
        d.pageRef.lookup i ≠ none ∨ i ∉ d.refDeletions ∧ i ∈ prev.validPageIds := by
      simp [validPageIds, hd.delta, mem_foldl_insert, mem_foldl_erase]
    rw [hcons, ih, findRef_cons]
    by_cases hdel : i ∈ d.refDeletions
    · simp [hdel, hd.disjoint i hdel]
    · cases d.pageRef.lookup i <;> simp [hdel]

/-- The two functions that collect page ids agree: within a version the order of deletions and ref pairs
does not matter. -/
theorem numPages_eq (h : WellFormed view) : view.numPages = view.validPageIds.card := by
  rw [numPages]
  congr 1
  induction h with
  | @base b hb =>
    ext i
    simp [validPageIds, hb.base, mem_foldl_erase, hb.no_deletions i]
  | @delta d prev hd _ ih =>
    ext i
    simp only [validPageIds, foldr_cons, hd.delta, Bool.false_eq_true, if_false,
      mem_foldl_insert, mem_foldl_erase] at ih ⊢
    rw [ih]
    by_cases hdel : i ∈ d.refDeletions
    · simp [hdel, hd.disjoint i hdel]
    · simp [hdel]

theorem mem_validNormalPageIds (view : PageEntriesView) (n : PageId) :
    n ∈ view.validNormalPageIds ↔ view.livePage n ≠ none := by
  induction view with
  | nil => simp [validNormalPageIds, livePage, findNormalPageEntry]
  | cons node prev ih =>
    have h := get_foldl (fun (s : Finset PageId) k => k ∈ s)
      (f := fun s k (entry : PageEntry) => if entry.isTombstone then s.erase k else insert k s)
      (g := fun _ entry _ => entry.isTombstone = false)
      (fun s k entry => by cases entry.isTombstone <;> simp)
      (fun s k entry k' hk => by cases entry.isTombstone <;> simp [hk])
      node.normalPages (validNormalPageIds prev) n
    refine (iff_of_eq h).trans ?_
    rw [livePage, findNormalPageEntry_cons]
    cases node.normalPages.lookup n with
    | none => exact ih
    | some entry => cases hentry : entry.isTombstone <;> simp [hentry]

/-! ### Views that show the same -/

/-- Everything the readers of a view look at. -/
structure SameView (view view' : PageEntriesView) : Prop where
  find : ∀ i, view.find i = view'.find i
  isRefId : ∀ i, view.isRefId i = view'.isRefId i
  validPageIds : view.validPageIds = view'.validPageIds
  validNormalPageIds : view.validNormalPageIds = view'.validNormalPageIds
  numPages : view.numPages = view'.numPages
  refCount : ∀ n, view.refCount n = view'.refCount n

/-- The same references and pages -/
structure SameTables (view view' : PageEntriesView) : Prop where
  refs : ∀ i, view.findRef i = view'.findRef i
  pages : ∀ n, view.livePage n = view'.livePage n

def RefsLive (view : PageEntriesView) : Prop := ∀ i n, view.findRef i = some n → view.livePage n ≠ none

theorem refCount_eq (view : PageEntriesView) (n : PageId) :
    view.refCount n = match view.livePage n with
      | some entry => entry.ref
      | none => 0 := by
  rw [refCount, livePage]
  cases view.findNormalPageEntry n with
  | none => rfl
  | some entry =>
    cases hentry : entry.isTombstone with
    | false => rw [filter_some_pos (by simp [hentry])]
    | true =>
      rw [filter_some_neg (by simp [hentry])]
      exact beq_iff_eq.1 hentry

theorem findNormalPageEntry_of_livePage {entry : PageEntry} (h : view.livePage n = some entry) :
    view.findNormalPageEntry n = some entry := (filter_eq_some_iff.1 h).1

theorem find_eq_of_refsLive (h : RefsLive view) (i : PageId) :
    view.find i = .ok ((view.findRef i).bind view.livePage) := by
  rw [PageEntriesView.find]
  cases href : view.findRef i with
  | none => rfl
  | some n =>
    obtain ⟨entry, hentry⟩ := ne_none_iff_exists'.1 (h i n href)
    simp only [findNormalPageEntry_of_livePage hentry, bind_some, hentry]

section

variable (h : SameTables view view')
include h

theorem SameTables.refsLive (hlive : RefsLive view) : RefsLive view' := by
  intro i n href
  rw [← h.pages]
  exact hlive i n ((h.refs i).trans href)

theorem SameTables.symm : SameTables view' view := ⟨fun i => (h.refs i).symm, fun n => (h.pages n).symm⟩

theorem SameTables.trans {view'' : PageEntriesView} (h' : SameTables view' view'') : SameTables view view'' :=
  ⟨fun i => (h.refs i).trans (h'.refs i), fun n => (h.pages n).trans (h'.pages n)⟩

end

theorem SameTables.refl (view : PageEntriesView) : SameTables view view := ⟨fun _ => rfl, fun _ => rfl⟩

section

variable (h : SameTables view view')
include h

theorem SameTables.cons (d : PageEntries) :
    SameTables (d :: view) (d :: view') := by
  refine ⟨fun i => ?_, fun n => ?_⟩
  · rw [findRef_cons, findRef_cons, h.refs]
  · rw [livePage, livePage, findNormalPageEntry_cons, findNormalPageEntry_cons]
    cases d.normalPages.lookup n with
    | none => exact h.pages n
    | some entry => rfl

theorem SameTables.append (ds : List PageEntries) :
    SameTables (ds ++ view) (ds ++ view') := by
  induction ds with
  | nil => exact h
  | cons d ds ih => exact ih.cons d

theorem SameTables.sameView (hw : WellFormed view) (hw' : WellFormed view') (hlive : RefsLive view) :
    SameView view view' := by
  have hids : view.validPageIds = view'.validPageIds := by
    ext i
    rw [mem_validPageIds hw, mem_validPageIds hw', h.refs]
  refine ⟨fun i => ?_, fun i => ?_, hids, ?_, ?_, fun n => ?_⟩
  · rw [find_eq_of_refsLive hlive, find_eq_of_refsLive (h.refsLive hlive), h.refs, funext h.pages]
  · rw [isRefId_eq_findRef hw, isRefId_eq_findRef hw', h.refs]
  · ext n
    rw [mem_validNormalPageIds, mem_validNormalPageIds, h.pages]
  · rw [numPages_eq hw, numPages_eq hw', hids]
  · rw [refCount_eq, refCount_eq, h.pages]

end

end TiFlash.Page
