import TiFlash.DM.DMFileReader
import TiFlash.DM.Proofs.RoughSetProofs
import TiFlash.DM.Proofs.RowKeyRangeProofs
import TiFlash.DM.Proofs.VersionFilterProofs

/-!
# Proofs: clean read equals normal read

A pack whose `not_clean` is zero has no delete mark, and one version only of each key, in it and behind it
(`IsClean`). Read at a timestamp that covers its versions and within the range, it passes the filters whole;
its constant columns start with the real first row, which is all that a block in front looks at.
-/

namespace TiFlash.DM

open TiFlash.Lib List

variable {K D : Type*}

/-- Rows that need no filtering in front of the rows `rest`: no deletes, no key twice. -/
structure IsClean [LT K] (rows rest : List (Row K D)) : Prop where
  tag : ∀ r ∈ rows, r.tag = false
  strict : rows.Pairwise fun a b => a.handle < b.handle
  behind : ∀ r ∈ rows, ∀ x ∈ rest, r.handle < x.handle

section Compact

variable [LinearOrder K] {rows : List (Row K D)}

theorem SortedByPk.handle_le (h : SortedByPk rows) :
    rows.Pairwise fun a b => a.handle ≤ b.handle :=
  h.imp fun hab => hab.elim le_of_lt fun heq => heq.1.le

variable {rest : List (Row K D)} {r : Row K D}

theorem handle_lt_of_head_ne (hs : SortedByPk (r :: rest))
    (hne : ∀ n, rest.head? = some n → r.handle ≠ n.handle) : ∀ x ∈ rest, r.handle < x.handle := by
  intro x hx
  cases rest with
  | nil => simp at hx
  | cons n rest =>
    have hle := pairwise_cons.1 hs.handle_le
    have hrn : r.handle < n.handle := lt_of_le_of_ne (hle.1 n mem_cons_self) (hne n rfl)
    rcases mem_cons.1 hx with rfl | hx
    · exact hrn
    · exact hrn.trans_le ((pairwise_cons.1 hle.2).1 x hx)

variable {limit : Nat}

theorem of_notCleanRow_eq_false {next : Option (Row K D)}
    (hkeep : checkRow .compact limit r next = true) (h : notCleanRow limit r next = false) :
    r.tag = false ∧ ∀ n, next = some n → r.handle ≠ n.handle := by
  rw [notCleanRow, hkeep] at h
  cases next with
  | none => exact ⟨by simpa [checkNotClean] using h, by simp⟩
  | some n =>
    obtain ⟨hne, htag⟩ : r.handle ≠ n.handle ∧ r.tag = false := by simpa [checkNotClean] using h
    refine ⟨htag, fun m hm => ?_⟩
    rwa [← Option.some.inj hm]

theorem isClean_of_notClean_zero (hs : SortedByPk (rows ++ rest))
    (h0 : (mapNext (notCleanRow limit) rows rest.head?).count true = 0) :
    IsClean (filterNext (checkRow .compact limit) rows rest.head?) rest := by
  induction rows with
  | nil => exact ⟨by simp, by simp, by simp⟩
  | cons r rows ih =>
    rw [mapNext, count_cons] at h0
    obtain ⟨htag, hstrict, hbehind⟩ := ih hs.tail (by omega)
    have hr : notCleanRow limit r (rows.head?.or rest.head?) = false := by
      cases hb : notCleanRow limit r (rows.head?.or rest.head?) with
      | false => rfl
      | true => simp [hb] at h0
    rw [filterNext]
    split_ifs with hkeep
    · obtain ⟨hrtag, hnext⟩ := of_notCleanRow_eq_false hkeep hr
      rw [← List.head?_append] at hnext
      have hlt := handle_lt_of_head_ne hs hnext
      refine ⟨?_, ?_, ?_⟩
      · exact forall_mem_cons.2 ⟨hrtag, htag⟩
      · refine pairwise_cons.2 ⟨fun x hx => ?_, hstrict⟩
        exact hlt x (mem_append_left _ (mem_of_mem_filterNext hx))
      · exact forall_mem_cons.2 ⟨fun y hy => hlt y (mem_append_right _ hy), hbehind⟩
    · exact ⟨htag, hstrict, hbehind⟩

end Compact

/-! ## The packs of a stable file -/

section Write

open VersionFilterStream

variable {s : VersionFilterStream K D} {cur : Block K D}

theorem rowsOf_pending_of_fetch (hcur : s.fetch.rawBlock = some cur) :
    rowsOf s.pending = cur.rows ++ rowsOf s.fetch.initNextBlock.pending := by
  rw [← rowsOf_pending_fetch, pending_eq_of_rawBlock hcur, rowsOf_cons, rowsOf_pending_initNextBlock]

theorem full_pending_initNextBlock
    (hcur : s.fetch.rawBlock = some cur) (hfull : ∀ x ∈ s.pending, x.isColumnConst = false) :
    ∀ x ∈ s.fetch.initNextBlock.pending, x.isColumnConst = false := by
  intro x hx
  apply hfull x
  apply mem_pending_of_mem_fetch
  rw [pending_eq_of_rawBlock hcur]
  exact mem_cons_of_mem cur (mem_of_mem_readNextBlock hx)

variable [DecidableEq K] {limit : Nat}

theorem notClean_eq_zero_of_filterNext_eq_nil {rows : List (Row K D)}
    {next : Option (Row K D)} (h : filterNext (checkRow .compact limit) rows next = []) :
    (mapNext (notCleanRow limit) rows next).count true = 0 := by
  induction rows with
  | nil => rfl
  | cons r rows ih =>
    rw [filterNext] at h
    split_ifs at h with hkeep
    rw [mapNext, count_cons, ih h]
    have hr : notCleanRow limit r (rows.head?.or next) = false := by
      rw [notCleanRow, Bool.eq_false_iff.2 hkeep]
      cases rows.head?.or next <;> rfl
    simp [hr]

theorem notCleanRows_addNotClean (limit : Nat) (cur : Block K D) (s : VersionFilterStream K D) :
    (s.initNextBlock.addNotClean .compact limit cur).notCleanRows = s.notCleanRows
      + (mapNext (notCleanRow limit) cur.rows (rowsOf s.children).head?).count true := by
  simp only [addNotClean, nextRow_initNextBlock, notCleanBytes_eq]
  rfl

/-- One `read` in `COMPACT` mode on blocks of full columns drops some rows, filters one block, and leaves the
rows behind it. -/
theorem read_compact_spec {s s' : VersionFilterStream K D} {b : Block K D}
    (h : s.read .compact limit = (some b, s')) (hfull : ∀ x ∈ s.pending, x.isColumnConst = false) :
    ∃ skipped cur, rowsOf s.pending = skipped ++ (cur ++ rowsOf s'.pending) ∧
      b.rows = filterNext (checkRow .compact limit) cur (rowsOf s'.pending).head? ∧
      s'.notCleanRows = s.notCleanRows
        + (mapNext (notCleanRow limit) cur (rowsOf s'.pending).head?).count true ∧
      (∀ x ∈ s'.pending, x.isColumnConst = false) := by
  generalize hmode : VersionFilterMode.compact = mode at h
  fun_induction read mode limit s with
  | case1 s hcur => simp at h
  | case2 s cur hcur next hconst =>
    have hmem : cur ∈ s.pending := mem_pending_of_mem_fetch (by simp [pending, hcur])
    simp [hfull cur hmem] at hconst
  | case3 s cur hcur next hconst filter passed hzero ih =>
    subst hmode
    have hnil : filterNext (checkRow .compact limit) cur.rows (rowsOf s.fetch.children).head? = [] := by
      rw [← length_eq_zero_iff, ← count_mapNext, ← filterBytes_initNextBlock]
      exact hzero
    have hclean : (next.addNotClean .compact limit cur).notCleanRows = s.notCleanRows := by
      rw [notCleanRows_addNotClean, notClean_eq_zero_of_filterNext_eq_nil hnil]
      simp
    obtain ⟨skipped, cur', hskip, hb, hnc, hfull'⟩ :=
      ih (by simpa using full_pending_initNextBlock hcur hfull) h
    refine ⟨cur.rows ++ skipped, cur', ?_, hb, ?_, hfull'⟩
    · rw [rowsOf_pending_of_fetch hcur, append_assoc, ← hskip, pending_addNotClean]
    · rw [hnc, hclean]
  | case4 s cur hcur next hconst filter passed hne hall =>
    subst hmode
    obtain ⟨rfl, rfl⟩ : cur = b ∧ next.addNotClean .compact limit cur = s' := by simpa using h
    have hrows : filterNext (checkRow .compact limit) cur.rows (rowsOf s.fetch.children).head?
        = cur.rows := by
      apply (filterNext_sublist ..).eq_of_length
      rw [← count_mapNext, ← filterBytes_initNextBlock]
      exact hall
    refine ⟨[], cur.rows, ?_, ?_, ?_, ?_⟩
    · exact rowsOf_pending_of_fetch hcur
    · rw [pending_addNotClean, rowsOf_pending_initNextBlock, hrows]
    · rw [pending_addNotClean, rowsOf_pending_initNextBlock, notCleanRows_addNotClean, notCleanRows_fetch]
    · exact full_pending_initNextBlock hcur hfull
  | case5 s cur hcur next hconst filter passed hne hall =>
    subst hmode
    obtain ⟨rfl, rfl⟩ : Block.ofRows (applyFilter cur.rows filter) = b ∧
        next.addNotClean .compact limit cur = s' := by simpa using h
    refine ⟨[], cur.rows, ?_, ?_, ?_, ?_⟩
    · exact rowsOf_pending_of_fetch hcur
    · rw [pending_addNotClean, rowsOf_pending_initNextBlock, ← applyFilter_mapNext,
        ← filterBytes_initNextBlock]
      rfl
    · rw [pending_addNotClean, rowsOf_pending_initNextBlock, notCleanRows_addNotClean, notCleanRows_fetch]
    · exact full_pending_initNextBlock hcur hfull

/-! `ReorganizeBlockInputStream` keeps the rows. -/

theorem rowsOf_mergeNextBlocks (cur : List (Row K D)) (stream : List (Block K D)) :
    (mergeNextBlocks cur stream).1 ++ (rowsOf (mergeNextBlocks cur stream).2.1.toList
      ++ rowsOf (mergeNextBlocks cur stream).2.2) = cur ++ rowsOf stream := by
  induction stream generalizing cur with
  | nil => simp [mergeNextBlocks]
  | cons next stream ih =>
    rw [mergeNextBlocks]
    simp only
    split_ifs with hempty hzero hpart
    · rw [ih, rowsOf_cons, length_eq_zero_iff.1 hempty, nil_append]
    · simp
    · have hcut := take_append_drop (findCutOffsetInNextBlock cur next.rows) next.rows
      simp only [Option.toList_some, rowsOf_cons, rowsOf_nil, Block.rows_ofRows, append_nil]
      rw [append_assoc, ← append_assoc (next.rows.take _), hcut]
    · rw [ih, rowsOf_cons, append_assoc]

variable {stream : List (Block K D)}

theorem eq_nil_of_mergeNextBlocks_eq_none {cur : List (Row K D)}
    (h : (mergeNextBlocks cur stream).2.1 = none) : (mergeNextBlocks cur stream).2.2 = [] := by
  induction stream generalizing cur with
  | nil => rfl
  | cons next stream ih =>
    rw [mergeNextBlocks] at h ⊢
    simp only at h ⊢
    split_ifs at h ⊢ with hempty hzero hpart
    · exact ih h
    · exact ih h

variable {next : Option (Block K D)}

theorem rowsOf_reorganizeFrom (hend : next = none → stream = []) :
    rowsOf (reorganizeFrom next stream) = rowsOf next.toList ++ rowsOf stream := by
  fun_induction reorganizeFrom next stream with
  | case1 stream => simp [hend rfl]
  | case2 stream cur ih =>
    rw [rowsOf_cons, ih eq_nil_of_mergeNextBlocks_eq_none, Block.rows_ofRows, rowsOf_mergeNextBlocks]
    simp

theorem rowsOf_reorganize (blocks : List (Block K D)) : rowsOf (reorganize blocks) = rowsOf blocks := by
  rw [reorganize, rowsOf_reorganizeFrom eq_nil_of_readNextBlock_eq_none, ← rowsOf_append]
  exact rowsOf_readNextBlock blocks

theorem isColumnConst_reorganizeFrom :
    ∀ b ∈ reorganizeFrom next stream, b.isColumnConst = false := by
  fun_induction reorganizeFrom next stream with
  | case1 stream => simp
  | case2 stream cur ih =>
    exact forall_mem_cons.2 ⟨rfl, ih⟩

end Write

def packRows (ps : List (DMFilePack K D)) : List (Row K D) := ps.flatMap DMFilePack.rows

theorem mem_packRows {ps : List (DMFilePack K D)} {r : Row K D} :
    r ∈ packRows ps ↔ ∃ p ∈ ps, r ∈ p.rows :=
  mem_flatMap

section Stable

variable [LinearOrder K]

open VersionFilterStream

/-- The pack is what `writePack` makes of its rows. -/
structure DMFilePack.Written (p : DMFilePack K D) : Prop where
  nonempty : p.rows ≠ []
  stat : p = writePack (.ofRows p.rows) p.stat.notClean
  sorted : p.rows.Pairwise fun a b => a.handle ≤ b.handle
  clean : p.stat.notClean = 0 → IsClean p.rows []

/-- A stable file: the packs are written and in order, and a clean pack shares no key with the packs
behind it. Packs may be left out. -/
structure StableFile (ps : List (DMFilePack K D)) : Prop where
  written : ∀ p ∈ ps, p.Written
  ordered : ps.Pairwise fun p q => ∀ r ∈ p.rows, ∀ x ∈ q.rows, r.handle ≤ x.handle
  apart : ps.Pairwise fun p q => p.stat.notClean = 0 → ∀ r ∈ p.rows, ∀ x ∈ q.rows, r.handle < x.handle

theorem StableFile.sublist {ps qs : List (DMFilePack K D)} (h : StableFile ps) (hsub : qs.Sublist ps) :
    StableFile qs :=
  ⟨fun p hp => h.written p (hsub.subset hp), h.ordered.sublist hsub, h.apart.sublist hsub⟩

theorem IsClean.mono {rows rest rest' : List (Row K D)} (h : IsClean rows rest)
    (hsub : ∀ x ∈ rest', x ∈ rest) : IsClean rows rest' :=
  ⟨h.tag, h.strict, fun r hr x hx => h.behind r hr x (hsub x hx)⟩

theorem SortedByPk.sublist {rows rows' : List (Row K D)} (h : SortedByPk rows)
    (hsub : rows'.Sublist rows) : SortedByPk rows' :=
  List.Pairwise.sublist hsub h

variable {s : VersionFilterStream K D}

theorem mem_rowsOf_pending_of_mem_write (limit : Nat) (hfull : ∀ x ∈ s.pending, x.isColumnConst = false) :
    ∀ p ∈ writeIntoNewDMFile limit s, ∀ r ∈ p.rows, r ∈ rowsOf s.pending := by
  fun_induction writeIntoNewDMFile limit s with
  | case1 s s' h => simp
  | case2 s b s' h hempty ih =>
    obtain ⟨skipped, cur, hrows, -, -, hfull'⟩ := read_compact_spec h hfull
    intro p hp r hr
    have := ih hfull' p hp r hr
    rw [hrows]
    exact mem_append_right _ (mem_append_right _ this)
  | case3 s b s' h hne ih =>
    obtain ⟨skipped, cur, hrows, hb, -, hfull'⟩ := read_compact_spec h hfull
    intro p hp r hr
    rw [hrows]
    refine mem_append_right _ ?_
    rcases mem_cons.1 hp with rfl | hp
    · have hr' : r ∈ b.rows := hr
      rw [hb] at hr'
      exact mem_append_left _ (mem_of_mem_filterNext hr')
    · exact mem_append_right _ (ih hfull' p hp r hr)

variable {limit : Nat}

/-- What a `COMPACT` stream over sorted blocks writes is a stable file. -/
theorem stableFile_writeIntoNewDMFile
    (hs : SortedByPk (rowsOf s.pending)) (hfull : ∀ x ∈ s.pending, x.isColumnConst = false) :
    StableFile (writeIntoNewDMFile limit s) := by
  fun_induction writeIntoNewDMFile limit s with
  | case1 s s' h => exact ⟨by simp, .nil, .nil⟩
  | case2 s b s' h hempty ih =>
    obtain ⟨skipped, cur, hrows, -, -, hfull'⟩ := read_compact_spec h hfull
    rw [hrows] at hs
    exact ih (hs.sublist (by simp)) hfull'
  | case3 s b s' h hne ih =>
    obtain ⟨skipped, cur, hrows, hb, hcount, hfull'⟩ := read_compact_spec h hfull
    rw [hrows] at hs
    have hcur : SortedByPk (cur ++ rowsOf s'.pending) := hs.sublist (sublist_append_right _ _)
    have hsub : b.rows.Sublist cur := hb ▸ filterNext_sublist ..
    have hle := pairwise_append.1 hcur.handle_le
    have hclean : s'.notCleanRows - s.notCleanRows = 0 → IsClean b.rows (rowsOf s'.pending) := by
      intro h0
      rw [hb]
      exact isClean_of_notClean_zero hcur (by omega)
    have hmem := mem_rowsOf_pending_of_mem_write limit hfull'
    obtain ⟨hwritten, hordered, hapart⟩ := ih (hcur.sublist (sublist_append_right _ _)) hfull'
    refine ⟨?_, ?_, ?_⟩
    · intro p hp
      rcases mem_cons.1 hp with rfl | hp
      · refine ⟨fun hnil => hne (by simpa [writePack] using hnil), rfl, hle.1.sublist hsub, ?_⟩
        intro h0
        exact (hclean h0).mono (by simp)
      · exact hwritten p hp
    · refine pairwise_cons.2 ⟨fun q hq r hr x hx => ?_, hordered⟩
      exact hle.2.2 r (hsub.subset hr) x (hmem q hq x hx)
    · refine pairwise_cons.2 ⟨fun q hq h0 r hr x hx => ?_, hapart⟩
      exact (hclean h0).behind r hr x (hmem q hq x hx)

theorem StableFile.sorted {ps : List (DMFilePack K D)} (h : StableFile ps) :
    (packRows ps).Pairwise fun a b => a.handle ≤ b.handle := by
  rw [packRows, pairwise_flatMap]
  exact ⟨fun p hp => (h.written p hp).sorted, h.ordered⟩

theorem StableFile.isClean_group {group rest : List (DMFilePack K D)}
    (h : StableFile (group ++ rest)) (h0 : ∀ p ∈ group, p.stat.notClean = 0) :
    IsClean (packRows group) (packRows rest) := by
  have hapart := pairwise_append.1 h.apart
  have hclean : ∀ p ∈ group, IsClean p.rows [] := fun p hp =>
    (h.written p (mem_append_left _ hp)).clean (h0 p hp)
  refine ⟨?_, ?_, ?_⟩
  · intro r hr
    obtain ⟨p, hp, hr⟩ := mem_packRows.1 hr
    exact (hclean p hp).tag r hr
  · rw [packRows, pairwise_flatMap]
    refine ⟨fun p hp => (hclean p hp).strict, ?_⟩
    exact hapart.1.imp_of_mem fun hp _ hpq => hpq (h0 _ hp)
  · intro r hr x hx
    obtain ⟨p, hp, hr⟩ := mem_packRows.1 hr
    obtain ⟨q, hq, hx⟩ := mem_packRows.1 hx
    exact hapart.2.2 p hp q hq (h0 p hp) r hr x hx

theorem IsClean.filterNext_eq_self {rows : List (Row K D)} {next : Option (Row K D)}
    (h : IsClean rows next.toList) (hversion : ∀ r ∈ rows, r.version ≤ limit) :
    filterNext (checkRow .mvcc limit) rows next = rows := by
  induction rows with
  | nil => rfl
  | cons r rows ih =>
    have hlt := pairwise_cons.1 h.strict
    have hkeep : checkRow .mvcc limit r (rows.head?.or next) = true := by
      rw [checkRow_mvcc_iff]
      refine ⟨h.tag r mem_cons_self, hversion r mem_cons_self, ?_⟩
      rintro ⟨n, hn, heq, -⟩
      have hrn : r.handle < n.handle := by
        rcases Option.or_eq_some_iff.1 hn with hn | ⟨-, hn⟩
        · exact hlt.1 n (mem_of_mem_head? hn)
        · exact h.behind r mem_cons_self n (by simp [hn])
      exact hrn.ne heq
    rw [filterNext, if_pos hkeep, ih]
    · exact ⟨fun x hx => h.tag x (mem_cons_of_mem r hx), hlt.2, fun x hx => h.behind x (mem_cons_of_mem r hx)⟩
    · exact fun x hx => hversion x (mem_cons_of_mem r hx)

/-! ## The values that a clean read puts in place of the columns -/

section FirstRow

variable [Inhabited K]

theorem addPack_isBounds {T : Type*} [LinearOrder T] [Inhabited T] {column : List (Cell T)}
    (hlive : ∀ c ∈ column, c.delMark = false) (hne : column ≠ []) :
    IsBounds column (addPack column).min (addPack column).max := by
  have hd := addPack_describes column
  have hall : liveCells column = column := filter_eq_self.2 fun c hc => by simp [hlive c hc]
  have hbounds := hd.bounds
  rw [hall] at hbounds
  apply hbounds
  by_contra hno
  have hnil := hd.empty (Bool.eq_false_iff.2 hno)
  exact hne (hall ▸ hnil)

variable {p : DMFilePack K D} {r : Row K D}

theorem minHandle_of_isClean {rows : List (Row K D)}
    (hrows : p.rows = r :: rows) (h : IsClean p.rows []) : p.minHandle = r.handle := by
  have hb : IsBounds (p.rows.map fun r => (⟨false, r.handle, r.tag⟩ : Cell K)) p.minHandle _ :=
    addPack_isBounds (by simpa using h.tag) (by simp [hrows])
  obtain ⟨⟨c, hc, hmin⟩, -⟩ := hb.attained
  obtain ⟨x, hx, rfl⟩ := mem_map.1 hc
  refine le_antisymm ?_ ?_
  · exact hb.le _ (mem_map_of_mem (hrows ▸ mem_cons_self))
  · have hstrict := h.strict
    rw [hrows] at hx hstrict
    rw [← hmin]
    rcases mem_cons.1 hx with rfl | hx
    · exact le_rfl
    · exact ((pairwise_cons.1 hstrict).1 x hx).le

omit [Inhabited K] in
theorem version_le_maxVersion (h : IsClean p.rows []) (hr : r ∈ p.rows) : r.version ≤ p.maxVersion := by
  have hb : IsBounds (p.rows.map fun r => (⟨false, r.version, r.tag⟩ : Cell Nat)) _ p.maxVersion :=
    addPack_isBounds (by simpa using h.tag) (by simpa using ne_nil_of_mem hr)
  exact hb.ge _ (mem_map_of_mem hr)

end FirstRow

end Stable

/-! ## The groups of packs of a reader -/

section Groups

theorem takePacks_append (cfg : ReaderConfig) (expected : RSResult) (readRows n : Nat)
    (ps : List (ReaderPack K D)) :
    (takePacks cfg expected readRows n ps).1 ++ (takePacks cfg expected readRows n ps).2 = ps := by
  induction ps generalizing readRows n with
  | nil => rfl
  | cons p ps ih =>
    rw [takePacks]
    split_ifs
    · rw [cons_append, ih]
    · rfl

variable {ps : List (ReaderPack K D)} {cfg : ReaderConfig} {p : ReaderPack K D}

theorem mem_takePacks {expected : RSResult} {readRows n : Nat} (h : p ∈ (takePacks cfg expected readRows n ps).1) :
    p.usePack = true ∧ (cfg.enableCleanRead = true → p.handleRes = expected) := by
  induction ps generalizing readRows n with
  | nil => simp [takePacks] at h
  | cons q ps ih =>
    rw [takePacks] at h
    split_ifs at h with hq
    · rcases mem_cons.1 h with rfl | h
      · simp only [Bool.and_eq_true, Bool.not_eq_true', Bool.and_eq_false_imp] at hq
        refine ⟨hq.1.1.1, fun hc => ?_⟩
        simpa using hq.2 hc
      · exact ih h
    · simp at h

/-- A reader that may read at all takes the pack it stands at. -/
theorem takePacks_head (hthreshold : 0 < cfg.rowsThresholdPerRead) (huse : p.usePack = true) :
    ∃ group, (takePacks cfg p.handleRes 0 0 (p :: ps)).1 = p :: group := by
  rw [takePacks, if_pos (by simp [hthreshold, huse])]
  exact ⟨_, rfl⟩

def selected (ps : List (ReaderPack K D)) : List (DMFilePack K D) :=
  (ps.filter ReaderPack.usePack).map ReaderPack.pack

theorem selected_append (ps qs : List (ReaderPack K D)) :
    selected (ps ++ qs) = selected ps ++ selected qs := by
  simp [selected]

theorem selected_eq_map (h : ∀ p ∈ ps, p.usePack = true) :
    selected ps = ps.map ReaderPack.pack := by
  rw [selected, filter_eq_self.2 h]

end Groups

/-! ## Both kinds of read show the same rows -/

section Read

variable {c : Bool} {range : RowKeyRange c} {limit : Nat}

/-- Through both filters, `blocks` show the user columns of the kept `rows`; and a block in front sees the row
it would see in front of `rows`. -/
structure ReadsAs (range : RowKeyRange c) (limit : Nat) (blocks : List (Block (RowKey c) D))
    (rows : List (Row (RowKey c) D)) : Prop where
  head : (rowsOf (rowKeyFilter range blocks)).head? = (rows.filter fun r => range.check r.handle).head?
  data : (keptRows .mvcc limit (rowKeyFilter range blocks)).map Row.data =
    (filterNext (checkRow .mvcc limit) (rows.filter fun r => range.check r.handle) none).map Row.data

variable {blocks : List (Block (RowKey c) D)} {rest rows : List (Row (RowKey c) D)}

theorem ReadsAs.cons_full (hs : rows.Pairwise fun a b => a.handle ≤ b.handle) (hne : rows ≠ [])
    (h : ReadsAs range limit blocks rest) : ReadsAs range limit (.ofRows rows :: blocks) (rows ++ rest) := by
  have hstep : rowKeyFilter range (.ofRows rows :: blocks) =
      if (rows.filter fun r => range.check r.handle).length = 0 then rowKeyFilter range blocks
      else .ofRows (rows.filter fun r => range.check r.handle) :: rowKeyFilter range blocks := by
    obtain ⟨r, rows, rfl⟩ := exists_cons_of_ne_nil hne
    rw [rowKeyFilter]
    simp [filterSorted_eq_filter hs]
  by_cases hkept : (rows.filter fun r => range.check r.handle).length = 0
  · rw [if_pos hkept] at hstep
    have hnil := length_eq_zero_iff.1 hkept
    refine ⟨?_, ?_⟩
    · rw [hstep, filter_append, hnil, nil_append, h.head]
    · rw [hstep, filter_append, hnil, nil_append, h.data]
  · rw [if_neg hkept] at hstep
    refine ⟨?_, ?_⟩
    · rw [hstep, rowsOf_cons, Block.rows_ofRows, filter_append, List.head?_append, List.head?_append, h.head]
    · rw [hstep, keptRows, filter_append, filterNext_append, Option.or_none, ← h.head]
      simp [h.data]

variable {r : Row (RowKey c) D}

theorem ReadsAs.cons_const
    (hrange : ∀ x ∈ r :: rows, range.check x.handle = true) (hclean : IsClean (r :: rows) rest)
    (hversion : ∀ x ∈ r :: rows, x.version ≤ limit) (h : ReadsAs range limit blocks rest) :
    ReadsAs range limit
      (⟨(r :: rows).map fun x => ⟨r.handle, r.version, r.tag, x.data⟩, true⟩ :: blocks)
      ((r :: rows) ++ rest) := by
  have hstep : rowKeyFilter range
        (⟨(r :: rows).map fun x => ⟨r.handle, r.version, r.tag, x.data⟩, true⟩ :: blocks) =
      ⟨(r :: rows).map fun x => ⟨r.handle, r.version, r.tag, x.data⟩, true⟩ :: rowKeyFilter range blocks := by
    rw [rowKeyFilter]
    simp [hrange r mem_cons_self]
  have hall : (r :: rows).filter (fun r => range.check r.handle) = r :: rows := filter_eq_self.2 hrange
  have hkeep : filterNext (checkRow .mvcc limit) (r :: rows)
      (rest.filter fun r => range.check r.handle).head? = r :: rows := by
    refine IsClean.filterNext_eq_self (hclean.mono fun x hx => ?_) hversion
    exact mem_of_mem_filter (mem_of_mem_head? (Option.mem_toList.1 hx))
  refine ⟨?_, ?_⟩
  · rw [hstep, rowsOf_cons, filter_append, hall]
    rfl
  · rw [hstep, keptRows, if_pos rfl, filter_append, hall, filterNext_append, Option.or_none, hkeep,
      map_append, map_append, h.data, map_map]
    rfl

theorem foldl_max_le_iff {α : Type*} (f : α → Nat) (xs : List α) (m bound : Nat) :
    xs.foldl (fun m x => max (f x) m) m ≤ bound ↔ m ≤ bound ∧ ∀ x ∈ xs, f x ≤ bound := by
  induction xs generalizing m with
  | nil => simp
  | cons x xs ih =>
    rw [foldl_cons, ih]
    simp only [max_le_iff, mem_cons, forall_eq_or_imp]
    tauto

variable {cfg : ReaderConfig} {group : List (ReaderPack (RowKey c) D)}

theorem doCleanRead_iff {expected : RSResult} :
    doCleanRead cfg expected group = true ↔
      cfg.enableCleanRead = true ∧ expected = .all ∧ (∀ p ∈ group, p.pack.stat.notClean = 0) ∧
        ∀ p ∈ group, p.pack.maxVersion ≤ cfg.maxReadVersion := by
  have hsum : (group.map fun p => p.pack.stat.notClean).sum = 0 ↔ ∀ p ∈ group, p.pack.stat.notClean = 0 := by
    simp [sum_eq_zero_iff]
  simp only [doCleanRead, Bool.and_eq_true, decide_eq_true_eq, foldl_max_le_iff, hsum, zero_le,
    true_and, and_assoc]

theorem writePack_first {p : DMFilePack (RowKey c) D} (hp : p.Written) (hrows : p.rows = r :: rows) :
    p.stat.firstVersion = r.version ∧ p.stat.firstTag = r.tag := by
  have hstat := hp.stat
  rw [hrows] at hstat
  rw [hstat]
  exact ⟨rfl, rfl⟩

theorem readsAs_readPacks {p : ReaderPack (RowKey c) D}
    {rest : List (DMFilePack (RowKey c) D)} (hfile : StableFile ((p :: group).map ReaderPack.pack ++ rest))
    (hall : ∀ q ∈ p :: group, q.handleRes = .all → ∀ r ∈ q.pack.rows, range.check r.handle = true)
    (hres : ∀ q ∈ p :: group, cfg.enableCleanRead = true → q.handleRes = p.handleRes)
    (h : ReadsAs range cfg.maxReadVersion blocks (packRows rest)) :
    ReadsAs range cfg.maxReadVersion (readPacks cfg p (p :: group) :: blocks)
      (packRows ((p :: group).map ReaderPack.pack) ++ packRows rest) := by
  have hrows : ((p :: group).flatMap fun q => q.pack.rows) = packRows ((p :: group).map ReaderPack.pack) := by
    rw [packRows, flatMap_map]
  have hp := hfile.written p.pack (by simp)
  obtain ⟨r, rows, hr⟩ := exists_cons_of_ne_nil hp.nonempty
  have hcons : packRows ((p :: group).map ReaderPack.pack)
      = r :: (rows ++ packRows (group.map ReaderPack.pack)) := by
    rw [packRows, map_cons, flatMap_cons, hr]
    rfl
  unfold readPacks
  rw [hrows]
  split_ifs with hdo
  · obtain ⟨hclean, hexpected, hnotClean, hversion⟩ := doCleanRead_iff.1 hdo
    have hgroup : IsClean (packRows ((p :: group).map ReaderPack.pack)) (packRows rest) :=
      hfile.isClean_group (by simpa using hnotClean)
    have hpclean := hp.clean (hnotClean p mem_cons_self)
    have hfirst := writePack_first hp hr
    rw [minHandle_of_isClean hr hpclean, hfirst.1, hfirst.2]
    rw [hcons] at hgroup ⊢
    refine ReadsAs.cons_const ?_ hgroup ?_ h
    · intro x hx
      obtain ⟨q, hq, hx⟩ := mem_packRows.1 (hcons ▸ hx)
      obtain ⟨q, hq', rfl⟩ := mem_map.1 hq
      exact hall q hq' ((hres q hq' hclean).trans hexpected) x hx
    · intro x hx
      obtain ⟨q, hq, hx⟩ := mem_packRows.1 (hcons ▸ hx)
      have hqclean := (hfile.written q (mem_append_left _ hq)).clean
      obtain ⟨q, hq', rfl⟩ := mem_map.1 hq
      exact (version_le_maxVersion (hqclean (hnotClean q hq')) hx).trans (hversion q hq')
  · refine ReadsAs.cons_full ?_ (by rw [hcons]; simp) h
    exact (hfile.sublist (sublist_append_left _ _)).sorted

theorem ReadsAs.nil : ReadsAs range limit ([] : List (Block (RowKey c) D)) [] := ⟨rfl, rfl⟩

variable {ps : List (ReaderPack (RowKey c) D)}

/-- A whole file reads as the rows of the selected packs, whether or not clean reads are enabled. -/
theorem readsAs_readFile (cfg : ReaderConfig)
    (hthreshold : 0 < cfg.rowsThresholdPerRead) (hfile : StableFile (selected ps))
    (hall : ∀ p ∈ ps, p.handleRes = .all → ∀ r ∈ p.pack.rows, range.check r.handle = true) :
    ReadsAs range cfg.maxReadVersion (readFile cfg ps) (packRows (selected ps)) := by
  fun_induction readFile cfg ps with
  | case1 => exact ReadsAs.nil
  | case2 p ps hskip ih =>
    have hsel : selected (p :: ps) = selected ps := by
      have hp : p.usePack = false := by simpa using hskip
      simp [selected, hp]
    rw [hsel] at hfile ⊢
    exact ih hfile fun q hq => hall q (mem_cons_of_mem p hq)
  | case3 p ps huse group hempty =>
    -- the pack at hand has rows, so the reader does not stop here
    have hp : p.usePack = true := by simpa using huse
    obtain ⟨g, hg⟩ : ∃ g, group = p :: g := takePacks_head hthreshold hp
    have hw := hfile.written p.pack (by simp [selected, hp])
    have hlen : p.pack.stat.rows = p.pack.rows.length := congrArg (fun q => q.stat.rows) hw.stat
    have hpos := length_pos_iff.2 hw.nonempty
    rw [hg, map_cons, sum_cons] at hempty
    omega
  | case4 p ps huse group rest hrows ih =>
    have hp : p.usePack = true := by simpa using huse
    obtain ⟨g, hg⟩ : ∃ g, group = p :: g := takePacks_head hthreshold hp
    have hsplit : group ++ rest = p :: ps := takePacks_append ..
    have hgroup : ∀ q ∈ group, q.usePack = true ∧
        (cfg.enableCleanRead = true → q.handleRes = p.handleRes) := fun q hq => mem_takePacks hq
    rw [← hsplit, selected_append, selected_eq_map fun q hq => (hgroup q hq).1] at hfile ⊢
    have hrest := ih (hfile.sublist (sublist_append_right _ _)) fun q hq =>
      hall q (hsplit ▸ mem_append_right _ hq)
    have hpack : packRows (group.map ReaderPack.pack ++ selected rest)
        = packRows (group.map ReaderPack.pack) ++ packRows (selected rest) := flatMap_append
    rw [hpack]
    rw [hg] at hfile hgroup hsplit ⊢
    refine readsAs_readPacks hfile ?_ (fun q hq => (hgroup q hq).2) hrest
    exact fun q hq => hall q (hsplit ▸ mem_append_left _ hq)

theorem readFile_eq_nil (hthreshold : cfg.rowsThresholdPerRead = 0) :
    readFile cfg ps = [] := by
  fun_induction readFile cfg ps with
  | case1 | case3 p ps huse group hempty => rfl
  | case2 p ps hskip ih => exact ih
  | case4 p ps huse group rest hrows ih =>
    have hnil : group = [] := by simp [group, takePacks, hthreshold]
    simp [hnil] at hrows

/-- Clean read equals normal read. When a `COMPACT` stream over sorted blocks wrote the file, and the pack
filter answers `All` only for packs in the range, both give the same rows behind both filters. `Segment`
enables clean reads only without the handle, version and tag columns, so rows are compared by their user
columns. -/
theorem clean_read_eq_normal_read (range : RowKeyRange c) (safePoint : Nat)
    {input : List (Block (RowKey c) D)} (hsorted : SortedByPk (rowsOf input)) (cfg : ReaderConfig)
    {ps : List (ReaderPack (RowKey c) D)}
    (hfile : ps.map ReaderPack.pack = writeIntoNewDMFile safePoint (.new (reorganize input)))
    (hall : ∀ p ∈ ps, p.handleRes = .all → ∀ r ∈ p.pack.rows, range.check r.handle = true) :
    (versionFilter .mvcc cfg.maxReadVersion
        (rowKeyFilter range (readFile { cfg with enableCleanRead := true } ps))).map Row.data =
      (versionFilter .mvcc cfg.maxReadVersion
        (rowKeyFilter range (readFile { cfg with enableCleanRead := false } ps))).map Row.data := by
  rcases Nat.eq_zero_or_pos cfg.rowsThresholdPerRead with hzero | hpos
  · have hnil : ∀ enable, readFile { cfg with enableCleanRead := enable } ps = [] :=
      fun enable => readFile_eq_nil hzero
    rw [hnil, hnil]
  have hstable : StableFile (ps.map ReaderPack.pack) := by
    rw [hfile]
    apply stableFile_writeIntoNewDMFile
    · show SortedByPk (rowsOf (reorganize input))
      rwa [rowsOf_reorganize]
    · exact isColumnConst_reorganizeFrom
  have hsel : StableFile (selected ps) := hstable.sublist (filter_sublist.map _)
  have hread : ∀ enable, ReadsAs range cfg.maxReadVersion
      (readFile { cfg with enableCleanRead := enable } ps) (packRows (selected ps)) :=
    fun enable => readsAs_readFile { cfg with enableCleanRead := enable } hpos hsel hall
  simp only [versionFilter, VersionFilterStream.rowsOf_readAll]
  exact (hread true).data.trans (hread false).data.symm

end Read

/-- A clean block, and one with two versions of a key of which a read at 6 sees the older one. -/
def cleanReadInput : List (Block (RowKey false) String) :=
  [.ofRows [⟨.int 1, 5, false, "a"⟩, ⟨.int 2, 6, false, "b"⟩],
    .ofRows [⟨.int 3, 6, false, "c"⟩, ⟨.int 3, 9, false, "d"⟩]]

theorem clean_read_eq_normal_read_two_packs :
    let range : RowKeyRange false := ⟨.intHandleMinKey, .intHandleMaxKey, 1⟩
    let ps := (writeIntoNewDMFile 4 (.new (reorganize cleanReadInput))).map
      fun p => (⟨p, .all, true⟩ : ReaderPack (RowKey false) String)
    (versionFilter .mvcc 6 (rowKeyFilter range (readFile ⟨true, 6, true, 8192⟩ ps))).map Row.data =
      (versionFilter .mvcc 6 (rowKeyFilter range (readFile ⟨false, 6, true, 8192⟩ ps))).map
        Row.data := by
  intro range ps
  have hsorted : SortedByPk (rowsOf cleanReadInput) := by
    unfold SortedByPk
    decide
  have hrange : ∀ r ∈ rowsOf (reorganize cleanReadInput), range.check r.handle = true := by
    rw [rowsOf_reorganize]
    decide
  refine clean_read_eq_normal_read range 4 hsorted ⟨true, 6, true, 8192⟩ ?_ ?_
  · simp [ps, Function.comp_def]
  · intro p hp _ r hr
    obtain ⟨q, hq, rfl⟩ := mem_map.1 hp
    apply hrange
    exact mem_rowsOf_pending_of_mem_write 4 isColumnConst_reorganizeFrom q hq r hr

end TiFlash.DM
