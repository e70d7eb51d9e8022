import TiFlash.Page.Proofs.EditProofs

/-!
# Records on the delta at the tail

The counterpart of applying a record in place: the tables are those of a whole version list, and the
record changes the delta at its tail.
-/

namespace TiFlash.Page

open TiFlash.Lib TiFlash.Lib.HashMap PageEntriesView DeltaVersionEditAcceptor Function Option

variable {v w : PageEntries} {prev : PageEntriesView} {i n p : PageId} {entry : PageEntry} {D : Directory}

/-! ### Changing the tail -/

theorem findNormalPageEntry_insert (h : w.normalPages = v.normalPages.insert n entry) :
    findNormalPageEntry (w :: prev) = update (findNormalPageEntry (v :: prev)) n (some entry) := by
  funext k
  rw [findNormalPageEntry_cons, h, lookup_insert_ite, update_apply, findNormalPageEntry_cons]
  split_ifs <;> rfl

theorem findNormalPageEntry_congr (h : w.normalPages = v.normalPages) :
    findNormalPageEntry (w :: prev) = findNormalPageEntry (v :: prev) := by
  funext k
  rw [findNormalPageEntry_cons, findNormalPageEntry_cons, h]

theorem findRef_bind (hrefs : w.pageRef = v.pageRef.insert i n)
    (hdels : w.refDeletions = v.refDeletions.erase i) :
    findRef (w :: prev) = update (findRef (v :: prev)) i (some n) := by
  funext k
  rw [findRef_cons, hrefs, hdels, lookup_insert_ite, update_apply, findRef_cons]
  by_cases hk : k = i
  · simp [hk]
  · simp [hk]

theorem findRef_unbind (hrefs : w.pageRef = v.pageRef.erase i)
    (hdels : w.refDeletions = v.refDeletions.insert i ()) :
    findRef (w :: prev) = update (findRef (v :: prev)) i none := by
  funext k
  rw [findRef_cons, hrefs, hdels, lookup_erase_ite, update_apply, findRef_cons]
  by_cases hk : k = i
  · simp [hk]
  · simp [hk]

theorem IsDelta.bind (hv : IsDelta v) (hbase : w.isBase = v.isBase)
    (hrefs : w.pageRef = v.pageRef.insert i n) (hdels : w.refDeletions = v.refDeletions.erase i) :
    IsDelta w := by
  refine ⟨hbase.trans hv.delta, fun k hk => ?_⟩
  rw [hdels, AList.mem_erase] at hk
  rw [hrefs, lookup_insert_ite, if_neg hk.1]
  exact hv.disjoint k hk.2

theorem IsDelta.unbind (hv : IsDelta v) (hbase : w.isBase = v.isBase)
    (hrefs : w.pageRef = v.pageRef.erase i) (hdels : w.refDeletions = v.refDeletions.insert i ()) :
    IsDelta w := by
  refine ⟨hbase.trans hv.delta, fun k hk => ?_⟩
  rw [hdels, AList.mem_insert] at hk
  rw [hrefs, lookup_erase_ite]
  rcases hk with rfl | hk
  · exact if_pos rfl
  · split_ifs
    · rfl
    · exact hv.disjoint k hk

theorem decreasePageRef_tail (prev : PageEntriesView) (v : PageEntries) (n : PageId) :
    (decreasePageRef prev v n).pageRef = v.pageRef ∧
    (decreasePageRef prev v n).refDeletions = v.refDeletions ∧
    (decreasePageRef prev v n).isBase = v.isBase := by
  unfold decreasePageRef
  cases findNormalPageEntry (v :: prev) n with
  | none | some entry => exact ⟨rfl, rfl, rfl⟩

theorem decreasePageRef_drops (hn : findNormalPageEntry (v :: prev) n = some entry) (hpos : entry.ref ≠ 0) :
    DropsAt true (findNormalPageEntry (v :: prev)) (findNormalPageEntry (decreasePageRef prev v n :: prev))
      n := by
  have hle : entry.ref ≤ 1 ↔ entry.ref = 1 := by
    rw [UInt32.le_iff_toNat_le, ← UInt32.toNat_inj]
    rw [ne_eq, ← UInt32.toNat_inj] at hpos
    have h0 : (0 : UInt32).toNat = 0 := rfl
    have h1 : (1 : UInt32).toNat = 1 := rfl
    omega
  have hpages : findNormalPageEntry (decreasePageRef prev v n :: prev) =
      update (findNormalPageEntry (v :: prev)) n
        (some { entry with ref := if entry.ref ≤ 1 then 0 else entry.ref - 1 }) := by
    refine findNormalPageEntry_insert ?_
    simp only [decreasePageRef, hn]
  rw [hpages]
  refine ⟨⟨entry, hn, ?_⟩, fun m hm => update_of_ne hm ..⟩
  rw [update_self]
  by_cases hone : entry.ref = 1
  · rw [if_pos hone, if_pos (hle.2 hone)]
    exact .inr ⟨rfl, rfl⟩
  · rw [if_neg hone, if_neg (fun h => hone (hle.1 h))]

/-! ### What the records do to the tables -/

/-- The ref pairs and pages of the list with `w` at its tail hold a directory, and `w` is a delta. -/
structure Accepted (prev : PageEntriesView) (w : PageEntries) (D : Directory) : Prop where
  delta : IsDelta w
  tracks : Tracks true (findRef (w :: prev)) (findNormalPageEntry (w :: prev)) D

theorem Accepted.isRefId (h : Accepted prev v D) (hp : WellFormed prev) (i : PageId) :
    isRefId (v :: prev) i = D.refs i := by
  rw [isRefId_eq_findRef (.delta h.delta hp), h.tracks.refs_eq]

theorem Accepted.target (h : Accepted prev v D) (hp : WellFormed prev) (p : PageId) :
    resolveRefId (v :: prev) p = D.target p := by
  rw [resolveRefId, h.isRefId hp, Directory.target]

theorem notMem_refDeletions (h : findRef (v :: prev) i = some n) : i ∉ v.refDeletions := by
  intro hdel
  rw [findRef_cons, if_pos hdel] at h
  exact absurd h (some_ne_none n).symm

theorem notMem_pageRef (hv : IsDelta v) (h : findRef (v :: prev) i = none) : i ∉ v.pageRef := by
  rw [← AList.lookup_eq_none]
  by_cases hdel : i ∈ v.refDeletions
  · exact hv.disjoint i hdel
  · rw [findRef_cons, if_neg hdel] at h
    exact (or_eq_none_iff.1 h).1

theorem Accepted.applyPut (h : Accepted prev v D) (hp : WellFormed prev)
    (hfit : D.Fits (.put i entry)) :
    ∃ w, applyPut prev v i entry = .ok w ∧ Accepted prev w (D.apply (.put i entry)) := by
  have hid : PageEntriesView.isRefId (v :: prev) i = findRef (v :: prev) i :=
    isRefId_eq_findRef (.delta h.delta hp) i
  have htarget : (findRef (v :: prev) i).getD i = D.target i := by rw [h.tracks.refs_eq, Directory.target]
  unfold DeltaVersionEditAcceptor.applyPut
  rw [hid]
  cases hi : findRef (v :: prev) i with
  | some n =>
    obtain ⟨old, hold, -⟩ := h.tracks.page_of_refs hi
    have hnot := notMem_refDeletions hi
    have hn : n = D.target i := by rw [← htarget, hi, getD_some]
    simp only [getD_some, hold, isSome_some, isNone_some, Bool.and_false,
      Bool.false_eq_true, if_false, Bool.true_or, if_true]
    refine ⟨_, rfl, ⟨h.delta.delta, fun k hk => ?_⟩, h.tracks.put hfit hn ?_ ?_⟩
    · exact h.delta.disjoint k (AList.mem_erase.1 hk).2
    · rw [← hi, update_eq_self]
      funext k
      rw [findRef_cons, findRef_cons]
      by_cases hk : k = i
      · simp [hk, hnot]
      · simp [hk]
    · rw [hold, hi]
      exact findNormalPageEntry_insert rfl
  | none =>
    have hnot := notMem_pageRef h.delta hi
    have hn : i = D.target i := by rw [← htarget, hi, getD_none]
    simp only [getD_none, isSome_none, Bool.false_and, Bool.false_eq_true, if_false,
      Bool.false_or, hnot, decide_false]
    refine ⟨_, rfl, h.delta.bind rfl rfl rfl, h.tracks.put hfit hn (findRef_bind rfl rfl) ?_⟩
    rw [hi]
    exact findNormalPageEntry_insert rfl

theorem Accepted.applyDel (h : Accepted prev v D) (hp : WellFormed prev) (i : PageId) :
    Accepted prev (applyDel prev v i) (D.apply (.del i)) := by
  have hid : PageEntriesView.isRefId (v :: prev) i = findRef (v :: prev) i :=
    isRefId_eq_findRef (.delta h.delta hp) i
  unfold DeltaVersionEditAcceptor.applyDel
  rw [hid]
  set v₁ : PageEntries := { v with
    refDeletions := v.refDeletions.insert i ()
    pageRef := v.pageRef.erase i } with hv₁
  have hpages₁ : findNormalPageEntry (v₁ :: prev) = findNormalPageEntry (v :: prev) :=
    findNormalPageEntry_congr rfl
  have hrefs₁ : findRef (v₁ :: prev) = update (findRef (v :: prev)) i none := findRef_unbind rfl rfl
  cases hi : findRef (v :: prev) i with
  | none =>
    refine ⟨h.delta.unbind rfl rfl rfl, h.tracks.del hrefs₁ ?_ fun _ => hpages₁⟩
    intro n hn
    exact absurd (hi.symm.trans hn) (some_ne_none n).symm
  | some n =>
    obtain ⟨old, hold, hpos⟩ := h.tracks.page_of_refs hi
    obtain ⟨hrefs, hdels, hbase⟩ := decreasePageRef_tail prev v₁ n
    have hold₁ : findNormalPageEntry (v₁ :: prev) n = some old := (congrFun hpages₁ n).trans hold
    have hdrops := decreasePageRef_drops hold₁ hpos
    refine ⟨h.delta.unbind hbase hrefs hdels, h.tracks.del (findRef_unbind hrefs hdels) ?_ ?_⟩
    · intro m hm
      obtain rfl : n = m := some.inj (hi.symm.trans hm)
      exact hdrops
    · intro hnone
      exact absurd (hi.symm.trans hnone) (some_ne_none n)

/-- `applyRef` to a page that is found: nothing to do, or a page loses the reference and another gets
it. -/
theorem applyRef_tables (hv : IsDelta v) (hp : WellFormed prev) (hn : resolveRefId (v :: prev) p = n)
    (hpage : findNormalPageEntry (v :: prev) n = some entry)
    (hold : ∀ m, findRef (v :: prev) i = some m →
      ∃ old, findNormalPageEntry (v :: prev) m = some old ∧ old.ref ≠ 0) :
    findRef (v :: prev) i = some n ∧ applyRef true prev v i p = .ok v ∨
    findRef (v :: prev) i ≠ some n ∧ ∃ w pages₁, applyRef true prev v i p = .ok w ∧ IsDelta w ∧
      (∀ m, findRef (v :: prev) i = some m → DropsAt true (findNormalPageEntry (v :: prev)) pages₁ m) ∧
      (findRef (v :: prev) i = none → pages₁ = findNormalPageEntry (v :: prev)) ∧
      findRef (w :: prev) = update (findRef (v :: prev)) i (some n) ∧
      findNormalPageEntry (w :: prev) = update pages₁ n (some { entry with ref := entry.ref + 1 }) := by
  unfold applyRef
  rw [hn, isRefId_eq_findRef (.delta hv hp) i]
  simp only [hpage]
  cases hi : findRef (v :: prev) i with
  | none =>
    refine .inr ⟨(some_ne_none n).symm, bindRef v i n entry, findNormalPageEntry (v :: prev),
      rfl, hv.bind rfl rfl rfl, ?_, fun _ => rfl, ?_, findNormalPageEntry_insert rfl⟩
    · intro m hm
      exact absurd hm (some_ne_none m).symm
    · exact findRef_bind rfl rfl
  | some m =>
    by_cases hmn : m = n
    · left
      simp only [hmn, if_true, and_self]
    · obtain ⟨old, hfound, hpos⟩ := hold m hi
      obtain ⟨hrefs, hdels, hbase⟩ := decreasePageRef_tail prev v m
      set v₁ := decreasePageRef prev v m with hv₁
      have hv₁delta : IsDelta v₁ := ⟨hbase.trans hv.delta, fun k hk => by
        rw [hdels] at hk
        rw [hrefs]
        exact hv.disjoint k hk⟩
      have hrefs₁ : findRef (v₁ :: prev) = findRef (v :: prev) := by
        funext k
        rw [findRef_cons, findRef_cons, hrefs, hdels]
      refine .inr ⟨fun h => hmn (some.inj h), bindRef v₁ i n entry,
        findNormalPageEntry (v₁ :: prev), if_neg hmn, hv₁delta.bind rfl rfl rfl, ?_, ?_, ?_,
        findNormalPageEntry_insert rfl⟩
      · intro k hk
        rw [← some.inj hk]
        exact decreasePageRef_drops hfound hpos
      · intro hnone
        exact absurd hnone (some_ne_none m)
      · rw [← hrefs₁]
        exact findRef_bind rfl rfl

/-- What a record does to the directory when it goes through a view: a reference to a tombstone brings
the page back. -/
noncomputable def Directory.applyDelta (D : Directory) (pages : PageId → Option PageEntry) :
    EditRecord → Directory
  | .ref i p =>
    match (D.data (D.target p)).or (pages (D.target p)) with
    | some entry => D.bind i (D.target p) entry
    | none => D
  | rec => D.apply rec

theorem Accepted.applyRef (h : Accepted prev v D) (hp : WellFormed prev) (hfit : D.Fits (.ref i p)) :
    ∃ w, applyRef true prev v i p = .ok w ∧
      Accepted prev w (D.applyDelta (findNormalPageEntry (v :: prev)) (.ref i p)) := by
  have hdata := h.tracks.holds (D.target p)
  rw [Directory.applyDelta]
  cases hpage : findNormalPageEntry (v :: prev) (D.target p) with
  | none =>
    have hnone : D.data (D.target p) = none := by
      by_contra hsome
      have hpos := (D.count_pos_iff _).2 hsome
      rw [h.tracks.count_eq_zero hpage] at hpos
      exact absurd hpos (Nat.lt_irrefl 0)
    rw [hnone]
    refine ⟨v, ?_, h⟩
    unfold DeltaVersionEditAcceptor.applyRef
    rw [h.target hp]
    simp only [hpage, if_true]
  | some entry =>
    have hold := fun m hm => h.tracks.page_of_refs (i := i) (n := m) hm
    rcases applyRef_tables h.delta hp (h.target hp p) hpage hold with ⟨hi, hok⟩ |
      ⟨hi, w, pages₁, hok, hw, hdrop, hsame, hrefs, hpages⟩
    · obtain ⟨d, hd⟩ := D.live_of_refs (h.tracks.refs_eq ▸ hi)
      rw [hd]
      exact ⟨v, hok, h.delta, h.tracks.bind_same hi hd⟩
    · have htracks := h.tracks.ref (hfit (h.tracks.refs_eq ▸ hi)) hi hpage hdrop hsame hrefs hpages
      refine ⟨w, hok, hw, ?_⟩
      cases hd : D.data (D.target p) with
      | none => exact htracks
      | some d =>
        rw [hd, hpage] at hdata
        obtain rfl : entry = _ := some.inj hdata
        exact D.bind_ref _ htracks

/-- A record applied to the delta at the tail is carried out on the directory. -/
theorem Accepted.applyRecord (h : Accepted prev v D) (hp : WellFormed prev) {rec : EditRecord}
    (hrec : rec.IsWrite) (hfit : D.Fits rec) :
    ∃ w, applyRecord true prev v rec = .ok w ∧
      Accepted prev w (D.applyDelta (findNormalPageEntry (v :: prev)) rec) := by
  cases rec with
  | put i entry => exact h.applyPut hp hfit
  | del i => exact ⟨_, rfl, h.applyDel hp i⟩
  | ref i p => exact h.applyRef hp hfit
  | upsert i entry => exact hrec.elim

theorem findRef_createDelta (prev : PageEntriesView) :
    findRef (PageEntries.createDelta :: prev) = findRef prev := by
  funext k
  rw [findRef_cons]
  simp [PageEntries.createDelta]

theorem findNormalPageEntry_createDelta (prev : PageEntriesView) :
    findNormalPageEntry (PageEntries.createDelta :: prev) = findNormalPageEntry prev := by
  funext k
  rw [findNormalPageEntry_cons]
  simp [PageEntries.createDelta]

end TiFlash.Page
