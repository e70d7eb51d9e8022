import TiFlash.Page.Proofs.PageViewProofs
import TiFlash.Lib.ExceptBind

/-!
# Records keep the directory

Applying a record, in place to a base or through a view to the delta at its tail, carries it out on the
directory. They differ in one thing: a reference to a page without references is ignored in place, while a
delta finds the tombstone and revives the page.
-/

namespace TiFlash.Page

open TiFlash.Lib TiFlash.Lib.HashMap PageEntriesView Function Option Directory AList

def PageEntries.refs (v : PageEntries) : PageId → Option PageId := fun i => v.pageRef.lookup i

def PageEntries.pages (v : PageEntries) : PageId → Option PageEntry := fun n => v.normalPages.lookup n

/-- The record does not bring a reference count to 2^32. -/
def Directory.Fits (D : Directory) : EditRecord → Prop
  | .put i _ => D.refs i = none → D.count i + 1 < 2 ^ 32
  | .ref i p => D.refs i ≠ some (D.target p) → D.count (D.target p) + 1 < 2 ^ 32
  | _ => True

variable {tombs : Bool} {refs refs' : PageId → Option PageId} {pages pages' : PageId → Option PageEntry}
  {D : Directory} {i n p : PageId} {entry : PageEntry}

/-! ### The records on tables -/

section

variable (h : Tracks tombs refs pages D)
include h

theorem Tracks.ref_eq (hn : pages n = some entry) :
    entry.ref = UInt32.ofNat (D.count n) := by
  have hp := h.holds n
  cases hdata : D.data n with
  | some d =>
    rw [hdata, hn] at hp
    exact congrArg PageEntry.ref (some.inj hp)
  | none =>
    rw [hdata, hn] at hp
    rw [D.count_eq_zero hdata]
    rcases hp with hnone | ⟨-, e, he, hzero⟩
    · exact absurd hnone (some_ne_none entry)
    · rw [some.inj he]
      exact hzero

theorem Tracks.count_eq_zero (hn : pages n = none) : D.count n = 0 := by
  have hp := h.holds n
  cases hdata : D.data n with
  | none => exact D.count_eq_zero hdata
  | some d =>
    rw [hdata, hn] at hp
    exact absurd hp (some_ne_none _).symm

theorem Tracks.page_of_refs (hi : refs i = some n) :
    ∃ entry, pages n = some entry ∧ entry.ref ≠ 0 := by
  rw [h.refs_eq] at hi
  obtain ⟨d, hd⟩ := D.live_of_refs hi
  have hp := h.holds n
  rw [hd] at hp
  refine hp.not_tombstone ((D.count_pos_iff n).2 ?_) (h.fits n)
  rw [hd]
  exact some_ne_none d

end

/-- Only the page `n` changes: it loses a reference. -/
def DropsAt (tombs : Bool) (pages pages' : PageId → Option PageEntry) (n : PageId) : Prop :=
  Dropped tombs (pages n) (pages' n) ∧ ∀ m, m ≠ n → pages' m = pages m

section

variable (h : Tracks tombs refs pages D)
include h

theorem Tracks.put (hfit : D.Fits (.put i entry)) (hn : n = D.target i)
    (hrefs : refs' = update refs i (some n)) (hpages : pages' = update pages n (some (match pages n with
      | none => { entry with ref := 1 }
      | some old => { entry with ref := old.ref + if (refs i).isSome then 0 else 1 }))) :
    Tracks tombs refs' pages' (D.apply (.put i entry)) := by
  have hcases : D.refs i = some n ∨ D.refs i = none ∧ n = i := by
    rw [hn, target]
    cases D.refs i with
    | none => exact .inr ⟨rfl, rfl⟩
    | some m => exact .inl rfl
  have hcount : (D.bind i n entry).count n = D.count n + if (refs i).isSome then 0 else 1 := by
    rcases hcases with hi | ⟨hi, -⟩
    · rw [D.count_bind_same hi, h.refs_eq, hi]
      rfl
    · have hne : D.refs i ≠ some n := by simp [hi]
      rw [D.count_bind_new hne, h.refs_eq, hi]
      rfl
  show Tracks tombs refs' pages' (D.bind i (D.target i) entry)
  rw [← hn]
  refine h.bind hrefs ?_ ?_ ?_ ?_
  · have hnfit := h.fits n
    rcases hcases with hi | ⟨hi, hni⟩
    · rwa [D.count_bind_same hi]
    · rw [hcount, h.refs_eq, hi, hni]
      exact hfit hi
  · rw [hpages, update_self, hcount]
    congr 1
    cases hpn : pages n with
    | some old =>
      rw [UInt32.ofNat_add, ← h.ref_eq hpn]
      split_ifs <;> rfl
    | none =>
      have hnone : refs i = none := by
        rcases hcases with hi | ⟨hi, -⟩
        · obtain ⟨e, he, -⟩ := h.page_of_refs (h.refs_eq ▸ hi)
          exact absurd (hpn.symm.trans he) (some_ne_none e).symm
        · rw [h.refs_eq, hi]
      rw [h.count_eq_zero hpn, hnone]
      rfl
  · intro m hm hi
    rcases hcases with hi' | ⟨hi', -⟩
    · exact absurd (some.inj (hi.symm.trans hi')) hm
    · exact absurd (hi.symm.trans hi') (some_ne_none m)
  · intro m hm _
    rw [hpages, update_of_ne hm]

theorem Tracks.del (hrefs : refs' = update refs i none)
    (hdrop : ∀ n, refs i = some n → DropsAt tombs pages pages' n) (hsame : refs i = none → pages' = pages) :
    Tracks tombs refs' pages' (D.apply (.del i)) := by
  rw [h.refs_eq] at hdrop hsame
  refine h.unbind hrefs (fun m hi => (hdrop m hi).1) fun m hi => ?_
  cases hr : D.refs i with
  | none => rw [hsame hr]
  | some n => exact (hdrop n hr).2 m fun hmn => hi (hmn ▸ hr)

/-- Binding `i` to another page than before. The page may be a tombstone; then it lives again. -/
theorem Tracks.ref (hfit : D.count n + 1 < 2 ^ 32) (hi : refs i ≠ some n) (hn : pages n = some entry)
    {pages₁ : PageId → Option PageEntry} (hdrop : ∀ m, refs i = some m → DropsAt tombs pages pages₁ m)
    (hsame : refs i = none → pages₁ = pages) (hrefs : refs' = update refs i (some n))
    (hpages : pages' = update pages₁ n (some { entry with ref := entry.ref + 1 })) :
    Tracks tombs refs' pages' (D.bind i n entry) := by
  have hcount : (D.bind i n entry).count n = D.count n + 1 := D.count_bind_new (h.refs_eq ▸ hi)
  rw [h.refs_eq] at hdrop hsame
  refine h.bind hrefs (hcount ▸ hfit) ?_ ?_ ?_
  · rw [hpages, update_self, hcount, UInt32.ofNat_add, ← h.ref_eq hn]
    rfl
  · intro m hm hr
    rw [hpages, update_of_ne hm]
    exact (hdrop m hr).1
  · intro m hm hr
    rw [hpages, update_of_ne hm]
    cases hr' : D.refs i with
    | none => rw [hsame hr']
    | some k => exact (hdrop k hr').2 m fun hmk => hr (hmk ▸ hr')

theorem Tracks.bind_same (hi : refs i = some n) (hn : D.data n = some entry) :
    Tracks tombs refs pages (D.bind i n entry) := by
  have hDi : D.refs i = some n := h.refs_eq ▸ hi
  have hcount : (D.bind i n entry).count n = D.count n := D.count_bind_same hDi
  refine h.bind ?_ (hcount ▸ h.fits n) ?_ ?_ fun _ _ _ => rfl
  · rw [← hi, update_eq_self]
  · have hp := h.holds n
    rw [hn] at hp
    rw [hcount]
    exact hp
  · intro m hm hr
    exact absurd (some.inj (hr.symm.trans hDi)) hm

end

theorem Directory.bind_ref (D : Directory) (r : UInt32) :
    ∀ {tombs refs pages}, Tracks tombs refs pages (D.bind i n { entry with ref := r }) →
      Tracks tombs refs pages (D.bind i n entry) := by
  intro tombs refs pages h
  refine ⟨h.refs_eq, h.fits, fun m => ?_⟩
  have hm := h.holds m
  by_cases hmn : m = n
  · subst hmn
    rw [bind_data_self] at hm ⊢
    exact hm
  · rw [bind_data_ne _ hmn] at hm ⊢
    exact hm

/-- The records of a write batch; `UPSERT` is left to the garbage collection. -/
def EditRecord.IsWrite : EditRecord → Prop
  | .upsert _ _ => False
  | _ => True

/-! ### In place -/

namespace PageEntries

variable {v w : PageEntries}

theorem refs_insert (h : w.pageRef = v.pageRef.insert i n) :
    w.refs = update v.refs i (some n) := by
  funext j
  rw [refs, h, lookup_insert_ite, update_apply]
  rfl

theorem refs_erase (h : w.pageRef = v.pageRef.erase i) : w.refs = update v.refs i none := by
  funext j
  rw [refs, h, lookup_erase_ite, update_apply]
  rfl

theorem pages_insert (h : w.normalPages = v.normalPages.insert n entry) :
    w.pages = update v.pages n (some entry) := by
  funext j
  rw [pages, h, lookup_insert_ite, update_apply]
  rfl

theorem pages_erase (h : w.normalPages = v.normalPages.erase n) :
    w.pages = update v.pages n none := by
  funext j
  rw [pages, h, lookup_erase_ite, update_apply]
  rfl

theorem decreasePageRef_pageRef (v : PageEntries) (n : PageId) :
    (v.decreasePageRef n).pageRef = v.pageRef := by
  unfold decreasePageRef
  split
  · rfl
  · dsimp only
    split_ifs <;> rfl

theorem sub_one_eq_zero_iff (r : UInt32) : r - 1 = 0 ↔ r = 1 := by
  constructor
  · intro h
    have := congrArg (· + 1) h
    simpa using this
  · rintro rfl
    rfl

theorem decreasePageRef_pages (hn : v.pages n = some entry) :
    DropsAt false v.pages (v.decreasePageRef n).pages n := by
  have hn' : v.normalPages.lookup n = some entry := hn
  unfold decreasePageRef
  rw [hn']
  simp only [sub_one_eq_zero_iff]
  by_cases hone : entry.ref = 1
  · have hpages : ({ v with normalPages := v.normalPages.erase n } : PageEntries).pages =
        update v.pages n none := pages_erase rfl
    rw [if_pos hone, hpages]
    refine ⟨⟨entry, hn, ?_⟩, fun m hm => update_of_ne hm ..⟩
    rw [if_pos hone, update_self]
    exact .inl rfl
  · have hpages : ({ v with
        normalPages := v.normalPages.insert n { entry with ref := entry.ref - 1 } } : PageEntries).pages =
        update v.pages n (some { entry with ref := entry.ref - 1 }) := pages_insert rfl
    rw [if_neg hone, hpages]
    refine ⟨⟨entry, hn, ?_⟩, fun m hm => update_of_ne hm ..⟩
    rw [if_neg hone, update_self]

theorem mem_pageRef_iff : i ∈ v.pageRef ↔ (v.refs i).isSome := lookup_isSome.symm

theorem put_refs (v : PageEntries) (i : PageId) (entry : PageEntry) :
    (v.put i entry).refs = update v.refs i (some ((v.refs i).getD i)) := by
  cases hi : v.refs i with
  | none =>
    have hnot : i ∉ v.pageRef := by simp [mem_pageRef_iff, hi]
    have hlookup : v.pageRef.lookup i = none := hi
    have hresolve : v.resolveRefId i = i := by simp [resolveRefId, isRefId, hlookup]
    refine refs_insert ?_
    simp [put, hnot, hresolve]
  | some n =>
    have hmem : i ∈ v.pageRef := by simp [mem_pageRef_iff, hi]
    have hsame : (v.put i entry).refs = v.refs := by
      have hpairs : (v.put i entry).pageRef = v.pageRef := by simp [put, hmem]
      unfold refs
      rw [hpairs]
    rw [hsame, getD_some, ← hi, update_eq_self]

theorem put_pages (v : PageEntries) (i : PageId) (entry : PageEntry) :
    (v.put i entry).pages = update v.pages ((v.refs i).getD i) (some (match v.pages ((v.refs i).getD i) with
      | none => { entry with ref := 1 }
      | some old => { entry with ref := old.ref + if (v.refs i).isSome then 0 else 1 })) := by
  refine pages_insert ?_
  show v.normalPages.insert ((v.refs i).getD i) _ = _
  congr 1
  show (match v.pages ((v.refs i).getD i) with
    | none => _
    | some ori => _) = _
  cases v.pages ((v.refs i).getD i) with
  | none => rfl
  | some old =>
    cases hi : v.refs i <;> simp [mem_pageRef_iff, hi]

theorem del_refs (v : PageEntries) (i : PageId) : (v.del i).refs = update v.refs i none := by
  unfold del
  split_ifs with hmem
  · exact refs_erase (decreasePageRef_pageRef ..)
  · have hnone : v.refs i = none := lookup_eq_none.2 hmem
    rw [← hnone, update_eq_self]

theorem del_pages_none (hi : v.refs i = none) : (v.del i).pages = v.pages := by
  have hmem : i ∉ v.pageRef := lookup_eq_none.1 hi
  rw [del, if_neg hmem]

theorem del_pages_some (hi : v.refs i = some n) (hn : v.pages n = some entry) :
    DropsAt false v.pages (v.del i).pages n := by
  have hmem : i ∈ v.pageRef := by simp [mem_pageRef_iff, hi]
  have hresolve : v.resolveRefId i = n := by
    have hlookup : v.pageRef.lookup i = some n := hi
    simp [resolveRefId, isRefId, hlookup]
  rw [del, if_pos hmem, hresolve]
  exact decreasePageRef_pages (v := { v with pageRef := v.pageRef.erase i }) hn

/-- `ref` to a page that is there: nothing to do, or a page loses the reference and another gets it. -/
theorem ref_tables (hn : v.resolveRefId p = n) (hpage : v.pages n = some entry)
    (hold : ∀ m, v.refs i = some m → v.pages m ≠ none) :
    v.refs i = some n ∧ v.ref i p = .ok v ∨
    v.refs i ≠ some n ∧ ∃ w pages₁, v.ref i p = .ok w ∧
      (∀ m, v.refs i = some m → DropsAt false v.pages pages₁ m) ∧
      (v.refs i = none → pages₁ = v.pages) ∧
      w.refs = update v.refs i (some n) ∧
      w.pages = update pages₁ n (some { entry with ref := entry.ref + 1 }) := by
  subst hn
  have hlookup : v.normalPages.lookup (v.resolveRefId p) = some entry := hpage
  unfold ref
  simp only [hlookup]
  cases hi : v.refs i with
  | none =>
    have hi' : v.pageRef.lookup i = none := hi
    refine .inr ⟨(some_ne_none _).symm, v.buildRef i p _ entry, v.pages, ?_, ?_, fun _ => rfl,
      refs_insert rfl, pages_insert rfl⟩
    · simp only [hi']
    · intro m hm
      exact absurd hm (some_ne_none m).symm
  | some m =>
    have hi' : v.pageRef.lookup i = some m := hi
    by_cases hmn : m = v.resolveRefId p
    · left
      simp only [hi', hmn, if_true, and_self]
    · obtain ⟨e, he⟩ := ne_none_iff_exists'.1 (hold m hi)
      have hmem : m ∈ v.normalPages := lookup_isSome.1 (by
        rw [show v.normalPages.lookup m = some e from he]
        rfl)
      refine .inr ⟨fun h => hmn (some.inj h), (v.decreasePageRef m).buildRef i p _ entry,
        (v.decreasePageRef m).pages, ?_, ?_, ?_, ?_, pages_insert rfl⟩
      · simp only [hi', if_neg hmn, decreasePageRefMustExist, if_pos hmem]
        rfl
      · intro k hk
        rw [← some.inj hk]
        exact decreasePageRef_pages he
      · intro hnone
        exact absurd hnone (some_ne_none m)
      · refine refs_insert ?_
        rw [← v.decreasePageRef_pageRef m]
        rfl

end PageEntries

variable {rec : EditRecord} {v : PageEntries}

theorem Tracks.applyInplaceRecord (h : Tracks false v.refs v.pages D) (hrec : rec.IsWrite) (hfit : D.Fits rec) :
    Tracks false (v.applyInplaceRecord rec).refs (v.applyInplaceRecord rec).pages (D.apply rec) := by
  cases rec with
  | put i entry =>
    have htarget : (v.refs i).getD i = D.target i := by rw [h.refs_eq, target]
    exact h.put hfit htarget (v.put_refs i entry) (v.put_pages i entry)
  | del i =>
    refine h.del (v.del_refs i) (fun n hi => ?_) fun hi => PageEntries.del_pages_none hi
    obtain ⟨e, he, -⟩ := h.page_of_refs hi
    exact PageEntries.del_pages_some hi he
  | ref i p =>
    have htarget : v.resolveRefId p = D.target p := by
      show (v.refs p).getD p = _
      rw [h.refs_eq, target]
    have hdata := h.holds (D.target p)
    rw [PageEntries.applyInplaceRecord, apply]
    cases hd : D.data (D.target p) with
    | none =>
      -- no tombstones in place: the page is missing and the record is ignored
      have hmissing : v.normalPages.lookup (v.resolveRefId p) = none := by
        rw [htarget]
        rw [hd] at hdata
        rcases hdata with hnone | ⟨hfalse, -⟩
        · exact hnone
        · exact absurd hfalse Bool.false_ne_true
      simp only [PageEntries.ref, hmissing]
      exact h
    | some d =>
      rw [hd] at hdata
      have hold : ∀ m, v.refs i = some m → v.pages m ≠ none := by
        intro m hm
        obtain ⟨e, he, -⟩ := h.page_of_refs hm
        rw [he]
        exact some_ne_none e
      rcases PageEntries.ref_tables htarget hdata hold with ⟨hi, hok⟩ |
        ⟨hi, w, pages₁, hok, hdrop, hsame, hrefs, hpages⟩
      · rw [hok]
        exact h.bind_same hi hd
      · rw [hok]
        exact (D.bind_ref _) (h.ref (hfit (h.refs_eq ▸ hi)) hi hdata hdrop hsame hrefs hpages)
  | upsert i entry => exact hrec.elim

/-- The version is still a base or a delta, with the same deletions. -/
def SameKind (v w : PageEntries) : Prop := w.isBase = v.isBase ∧ w.refDeletions = v.refDeletions

theorem decreasePageRef_sameKind (v : PageEntries) (n : PageId) : SameKind v (v.decreasePageRef n) := by
  unfold PageEntries.decreasePageRef
  cases v.normalPages.lookup n with
  | none => exact ⟨rfl, rfl⟩
  | some entry =>
    dsimp only
    split_ifs <;> exact ⟨rfl, rfl⟩

theorem ref_sameKind {w : PageEntries} (h : v.ref i p = .ok w) : SameKind v w := by
  unfold PageEntries.ref at h
  cases hn : v.normalPages.lookup (v.resolveRefId p) with
  | none =>
    simp only [hn] at h
    cases h
  | some entry =>
    simp only [hn] at h
    cases hi : v.pageRef.lookup i with
    | none =>
      simp only [hi] at h
      cases h
      exact ⟨rfl, rfl⟩
    | some m =>
      simp only [hi] at h
      split_ifs at h with hm
      · cases h
        exact ⟨rfl, rfl⟩
      · obtain ⟨u, hu, hw⟩ := Except.bind_eq_ok_iff.1 h
        cases hw
        unfold PageEntries.decreasePageRefMustExist at hu
        split_ifs at hu
        cases hu
        exact decreasePageRef_sameKind v m

theorem applyInplaceRecord_sameKind (v : PageEntries) (rec : EditRecord) :
    SameKind v (v.applyInplaceRecord rec) := by
  cases rec with
  | put i entry | upsert i entry => exact ⟨rfl, rfl⟩
  | del i =>
    rw [PageEntries.applyInplaceRecord, PageEntries.del]
    split_ifs
    · exact decreasePageRef_sameKind { v with pageRef := v.pageRef.erase i } _
    · exact ⟨rfl, rfl⟩
  | ref i p =>
    rw [PageEntries.applyInplaceRecord]
    cases h : v.ref i p with
    | ok w => exact ref_sameKind h
    | error e => exact ⟨rfl, rfl⟩

/-! ### The tables of a base -/

theorem Tracks.no_tombstones (h : Tracks false v.refs v.pages D)
    (hn : v.normalPages.lookup n = some entry) : entry.ref ≠ 0 := by
  have hp := h.holds n
  rw [show v.pages n = some entry from hn] at hp
  cases hd : D.data n with
  | none =>
    rw [hd] at hp
    rcases hp with hnone | ⟨hfalse, -⟩
    · exact absurd hnone (some_ne_none entry)
    · exact absurd hfalse Bool.false_ne_true
  | some d =>
    rw [hd] at hp
    have hpos : 0 < D.count n := (D.count_pos_iff n).2 (by simp [hd])
    obtain ⟨e, he, hne⟩ := hp.not_tombstone hpos (h.fits n)
    rwa [some.inj he]

variable {b : PageEntries}

theorem tracks_base_iff (hb : IsBase b) :
    Tracks true (findRef [b]) (findNormalPageEntry [b]) D ↔ Tracks false b.refs b.pages D := by
  have hrefs : findRef [b] = b.refs := funext fun i => findRef_base hb
  have hpages : findNormalPageEntry [b] = b.pages := funext fun n => findNormalPageEntry_base
  rw [hrefs, hpages]
  have hholds : ∀ n, Holds true (D.count n) (D.data n) (b.pages n) ↔
      Holds false (D.count n) (D.data n) (b.pages n) := by
    intro n
    cases D.data n with
    | some d => exact Iff.rfl
    | none =>
      refine or_congr_right (iff_of_false ?_ fun h => Bool.false_ne_true h.1)
      rintro ⟨-, e, he, hzero⟩
      exact hb.no_tombstones n e he hzero
  exact ⟨fun h => ⟨h.refs_eq, h.fits, fun n => (hholds n).1 (h.holds n)⟩,
    fun h => ⟨h.refs_eq, h.fits, fun n => (hholds n).2 (h.holds n)⟩⟩

theorem isBase_createBase : IsBase PageEntries.createBase :=
  ⟨rfl, fun i => notMem_empty i, fun _ entry h => absurd h (some_ne_none entry).symm⟩

theorem tracks_createBase : Tracks false PageEntries.createBase.refs PageEntries.createBase.pages
    empty := by
  refine ⟨rfl, fun n => ?_, fun n => .inl rfl⟩
  rw [empty.count_eq_zero rfl]
  exact Nat.two_pow_pos 32

theorem IsBase.applyInplaceRecord (hb : IsBase b)
    (h : Tracks false (b.applyInplaceRecord rec).refs (b.applyInplaceRecord rec).pages D) :
    IsBase (b.applyInplaceRecord rec) := by
  obtain ⟨hbase, hdels⟩ := applyInplaceRecord_sameKind b rec
  refine ⟨hbase.trans hb.base, fun i => ?_, fun n entry hn => h.no_tombstones hn⟩
  rw [hdels]
  exact hb.no_deletions i

/-! ### Reference counts that stay below 2^32 -/

/-- The record does not bring the reference count of a page to 2^32, as the view shows it. -/
def EditRecord.Fits (view : PageEntriesView) : EditRecord → Prop
  | .put i _ => view.isRefId i = none → view.refCount i ≠ 4294967295
  | .ref i p =>
    view.isRefId i ≠ some (view.resolveRefId p) → view.refCount (view.resolveRefId p) ≠ 4294967295
  | _ => True

variable {view : PageEntriesView}

theorem Tracks.refCount_ne_iff (h : Tracks tombs (findRef view) (findNormalPageEntry view) D) (n : PageId) :
    view.refCount n ≠ 4294967295 ↔ D.count n + 1 < 2 ^ 32 := by
  have hcount : view.refCount n = UInt32.ofNat (D.count n) := by
    rw [refCount]
    cases hn : view.findNormalPageEntry n with
    | some entry => exact h.ref_eq hn
    | none =>
      rw [h.count_eq_zero hn]
      rfl
  have hfit := h.fits n
  rw [hcount, ne_eq, ← UInt32.toNat_inj, UInt32.toNat_ofNat_of_lt' hfit]
  have hmax : (4294967295 : UInt32).toNat = 4294967295 := rfl
  omega

theorem Tracks.fits_iff (hw : WellFormed view)
    (h : Tracks tombs (findRef view) (findNormalPageEntry view) D) (rec : EditRecord) :
    rec.Fits view ↔ D.Fits rec := by
  have hid : ∀ i, view.isRefId i = D.refs i := fun i => by rw [isRefId_eq_findRef hw, h.refs_eq]
  have htarget : ∀ p, view.resolveRefId p = D.target p := fun p => by
    rw [resolveRefId, hid, target]
  cases rec with
  | put i entry => rw [EditRecord.Fits, Directory.Fits, hid, h.refCount_ne_iff]
  | del i | upsert i entry => exact Iff.rfl
  | ref i p => rw [EditRecord.Fits, Directory.Fits, hid, htarget, h.refCount_ne_iff]

end TiFlash.Page
