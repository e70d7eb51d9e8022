import TiFlash.Transaction.SnapshotOverlap
import TiFlash.Transaction.Proofs.ApplySnapshotProofs

/-!
# Rows of the old region after a snapshot apply

A worker that has collected rows of the old region and writes them after the range was deleted brings them
back. Runs without this (`OverlapAction.Apart`) end with the rows of the snapshot and those written later
(`overlap_rows_exact`).
-/

namespace TiFlash.Transaction

open TiFlash.Lib List Except RegionData AList

section Collect

variable {region : Region} {row : RegionDataReadInfo} {rows : List RegionDataReadInfo}

theorem resolveLocksAndReadRegionData_ok {tableID : TableID} {startTs : Timestamp}
    {bypassLockTs : List Timestamp} {version confVer : Nat}
    (h : region.resolveLocksAndReadRegionData tableID startTs bypassLockTs version confVer true =
      .ok (rows, .ok)) :
    region.info.peerState = .normal ∧ region.data.scan true = .ok rows := by
  unfold Region.resolveLocksAndReadRegionData at h
  split at h
  · cases h
  · rename_i hnormal
    split at h
    · cases h
    · split at h
      · cases h
      · split at h
        · cases h
        · obtain ⟨collected, hscan, h⟩ := bind_eq_ok_iff.1 h
          cases h
          exact ⟨not_not.1 hnormal, hscan⟩

theorem readRegionCommitCache_some
    (h : region.readRegionCommitCache = .ok (some rows)) : region.data.scan true = .ok rows := by
  unfold Region.readRegionCommitCache at h
  split at h
  · cases h
  · split at h
    · cases h
    · obtain ⟨collected, hscan, h⟩ := bind_eq_ok_iff.1 h
      cases h
      exact hscan

theorem preHandled_of_preDecode {env : PreDecodeEnv} {s s' : KVState} {region' : Region}
    {cache : Option RegionPreDecodeBlockData} (hnormal : region.info.peerState = .normal)
    (h : genRegionPreDecodeBlockData env region s = .ok (region', cache) s') :
    ∃ snap : PreHandledSnapshot, snap.region = region' ∧
      snap.rows = (cache.map (·.dataListRead)).getD [] := by
  obtain ⟨rows, s₁, hreadM, h₁⟩ := EStateM.bind_eq_ok_iff.1 h
  obtain ⟨hread, rfl⟩ := ofExcept_eq_ok_iff.1 hreadM
  cases rows with
  | none =>
    cases h₁
    have hempty : region.data.writeCF = ∅ := by
      unfold Region.readRegionCommitCache Region.isPendingRemove at hread
      rw [hnormal] at hread
      simp only [reduceCtorEq, decide_false, Bool.false_eq_true, if_false] at hread
      split at hread
      · rename_i hnil
        exact ext (isEmpty_iff.1 hnil)
      · obtain ⟨_, -, hread⟩ := bind_eq_ok_iff.1 hread
        cases hread
    exact ⟨⟨region, [], hempty, nofun⟩, rfl, rfl⟩
  | some rows =>
    obtain ⟨⟨block, version⟩, s₂, -, h₂⟩ := EStateM.bind_eq_ok_iff.1 h₁
    cases h₂
    have hscan := readRegionCommitCache_some hread
    refine ⟨⟨_, rows, ?_, ?_⟩, rfl, rfl⟩
    · -- every record was read, so every record is removed
      refine ext (eq_nil_iff_forall_not_mem.2 fun e he => ?_)
      have hlook : ((region.removeRegionCommitCache rows).data.writeCF).lookup e.1 = some e.2 :=
        mem_lookup_iff.2 he
      unfold Region.removeRegionCommitCache at hlook
      rw [lookup_writeCF_removeCommitCache] at hlook
      split_ifs at hlook with hkey
      obtain ⟨row, hread⟩ := scan_reads hscan hlook
      obtain ⟨hrow, -⟩ := readDataByWriteIt_key hread
      rw [← hrow] at hlook hread
      exact hkey (mem_map.2 ⟨row, (mem_scan_iff hscan).2 ⟨_, hlook, hread⟩, hrow⟩)
    · intro r hr r' hr' hkey
      obtain ⟨entry, hentry, hread⟩ := (mem_scan_iff hscan).1 hr
      obtain ⟨entry', hentry', hread'⟩ := (mem_scan_iff hscan).1 hr'
      rw [hkey, hentry'] at hentry
      cases hentry
      rw [hkey, hread'] at hread
      cases hread
      rfl

end Collect

namespace Overlap

variable {data data' : RegionData} {row : RegionDataReadInfo}

theorem mem_rows_insert {kv : KV} (h : data.insert kv = .ok data') : row ∈ data'.rows ↔ row ∈ data.rows ∨ data.committedRow kv = some row := by
  rcases insert_cases h with ⟨key, value, rfl, hdec, rfl⟩ | ⟨key, value, d, rfl, hdec, hnew, -, rfl⟩ |
    ⟨key, value, rfl, -, rfl⟩ | ⟨key, value, rfl, rfl⟩
  · simp [committedRow, hdec]
  · rw [committedRow, hdec, Option.map_some, Option.some_inj, ← rowOf_filled data key value]
    constructor
    · intro hrow
      obtain ⟨entry, hentry, hrow⟩ := mem_rows_iff.1 hrow
      rw [HashMap.lookup_insert_ite] at hentry
      split_ifs at hentry with hkey
      · cases hentry
        exact .inr (hkey ▸ hrow)
      · exact .inl (mem_rows_iff.2 ⟨entry, hentry, hrow⟩)
    · rintro (hrow | rfl)
      · obtain ⟨entry, hentry, hrow⟩ := mem_rows_iff.1 hrow
        exact mem_rows_iff.2 ⟨entry, HashMap.lookup_insert_of_some hnew hentry, hrow⟩
      · exact mem_rows_iff.2 ⟨_, lookup_insert _, rfl⟩
  · exact (or_iff_left nofun).symm
  · exact (or_iff_left nofun).symm

variable {kvs : List KV}

theorem mem_rows_insertAll (h : kvs.foldlM insert data = .ok data') : row ∈ data'.rows ↔ row ∈ data.rows ∨ row ∈ newRows data kvs := by
  induction kvs generalizing data with
  | nil =>
    cases h
    simp [newRows]
  | cons kv kvs ih =>
    obtain ⟨data₁, hins, hrest⟩ := bind_eq_ok_iff.1 h
    rw [ih hrest, mem_rows_insert hins, newRows, hins, mem_append, Option.mem_toList, or_assoc]

theorem write_of_mem_newRows
    (h : row ∈ newRows data kvs) : ∃ value, KV.write row.key value ∈ kvs ∧ decodeWriteCfValue value ≠ none := by
  induction kvs generalizing data with
  | nil => cases h
  | cons kv kvs ih =>
    rw [newRows] at h
    rcases mem_append.1 h with hfirst | hrest
    · cases kv with
      | write key value =>
        obtain ⟨record, hdec, rfl⟩ := Option.map_eq_some_iff.1 (Option.mem_toList.1 hfirst)
        exact ⟨value, mem_cons_self, by rw [hdec]; nofun⟩
      | default key value => cases hfirst
      | lock key value => cases hfirst
    · split at hrest
      · obtain ⟨value, hmem, hdec⟩ := ih hrest
        exact ⟨value, mem_cons_of_mem _ hmem, hdec⟩
      · cases hrest

/-- The rows of the region and those in the storage are the snapshot's and the later ones, also while workers
are on their way. -/
structure Replaced (snap : PreHandledSnapshot) (s : Overlap) : Prop where
  filled : s.region.data.Filled
  key_inj : ∀ r ∈ snap.rows ++ s.later, ∀ r' ∈ snap.rows ++ s.later, r.key = r'.key → r = r'
  rows_iff : ∀ row : RegionDataReadInfo, snap.region.info.range.containsPK row.pk = true →
    (row ∈ s.storage ∨ row ∈ s.region.data.rows ↔ row ∈ snap.rows ++ s.later)
  memory : ∀ row ∈ s.region.data.rows, row ∈ s.later
  collected : ∀ w ∈ s.workers, ∀ row ∈ w.rows, row ∈ s.later
  written : ∀ w ∈ s.workers, w.written = true → ∀ row ∈ w.rows, row ∈ s.storage

/-- What holds at every moment of a run, phase by phase. -/
structure Inv (snap : PreHandledSnapshot) (s : Overlap) : Prop where
  pause : s.pauseFlush = true → ∃ w ∈ s.workers, w.kind = .flush
  applying : s.phase ≠ .notStarted → s.phase ≠ .replaced → s.region.info.peerState = .applying
  alone : s.phase = .rangeDeleted ∨ s.phase = .snapshotWritten → s.workers = []
  deleted : s.phase = .rangeDeleted → ∀ row ∈ s.storage, snap.region.info.range.containsPK row.pk = false
  written : s.phase = .snapshotWritten →
    ∀ row : RegionDataReadInfo, snap.region.info.range.containsPK row.pk = true →
      (row ∈ s.storage ↔ row ∈ snap.rows)
  no_later : s.phase ≠ .replaced → s.later = []
  replaced : s.phase = .replaced → Replaced snap s

theorem inv_start (snap : PreHandledSnapshot) (region : Region) (storage : List RegionDataReadInfo) :
    Inv snap (start region storage) :=
  ⟨nofun, fun h => absurd rfl h, (by rintro (h | h) <;> cases h), nofun, nofun, fun _ => rfl, nofun⟩

end Overlap

/-- When the range is deleted no read or flush is between its collection and its removal of rows, and until
the region is replaced no flush collects rows. What raft writes later are new records that bring their values.
-/
def OverlapAction.Apart (snap : PreHandledSnapshot) (s : Overlap) : OverlapAction → Prop
  | .deleteRange => s.phase = .applying → s.workers = []
  | .collectFlush => s.phase = .rangeDeleted ∨ s.phase = .snapshotWritten →
      ∀ rows, s.region.readRegionCommitCache ≠ .ok (some rows)
  | .raftWrite kvs => s.phase = .replaced →
      (∀ key value, KV.write key value ∈ kvs → decodeWriteCfValue value ≠ none →
        ∀ row ∈ snap.rows ++ s.later, row.key ≠ key) ∧
      ∀ region, s.region.insertAll kvs = .ok region → region.data.Filled
  | _ => True

namespace Overlap

variable {snap : PreHandledSnapshot} {s : Overlap}

/-- Writing rows that belong to the new region changes nothing. -/
theorem Replaced.rows_iff_append (hr : Replaced snap s) {extra : List RegionDataReadInfo}
    (hextra : ∀ row ∈ extra, row ∈ s.later) (row : RegionDataReadInfo)
    (hin : snap.region.info.range.containsPK row.pk = true) :
    row ∈ s.storage ++ extra ∨ row ∈ s.region.data.rows ↔ row ∈ snap.rows ++ s.later := by
  rw [← hr.rows_iff row hin, mem_append]
  constructor
  · rintro ((hst | hrow) | hregion)
    · exact .inl hst
    · exact (hr.rows_iff row hin).2 (mem_append_right _ (hextra row hrow))
    · exact .inr hregion
  · rintro (hst | hregion)
    · exact .inl (.inl hst)
    · exact .inr hregion

section Workers

variable {worker : Worker} {i : Nat}

theorem Inv.collect (h : Inv snap s) (worker : Worker)
    (hphase : ¬ (s.phase = .rangeDeleted ∨ s.phase = .snapshotWritten))
    (hscan : s.region.data.scan true = .ok worker.rows) (hnew : worker.written = false) {pause : Bool}
    (hpause : pause = true → s.pauseFlush = true ∨ worker.kind = .flush) :
    Inv snap { s with workers := s.workers ++ [worker], pauseFlush := pause } where
  pause hp := by
    rcases hpause hp with hold | hflush
    · obtain ⟨w, hw, hkind⟩ := h.pause hold
      exact ⟨w, mem_append_left _ hw, hkind⟩
    · exact ⟨worker, by simp, hflush⟩
  applying := h.applying
  alone hp := absurd hp hphase
  deleted := h.deleted
  written := h.written
  no_later := h.no_later
  replaced hp := by
    have hr := h.replaced hp
    refine ⟨hr.filled, hr.key_inj, hr.rows_iff, hr.memory, ?_, ?_⟩
    · exact forall_mem_append.2 ⟨hr.collected, forall_mem_singleton.2 fun row hrow =>
        hr.memory row ((hr.filled.mem_scan_iff hscan).1 hrow)⟩
    · exact forall_mem_append.2 ⟨hr.written, forall_mem_singleton.2 fun hwritten =>
        absurd (hnew.symm.trans hwritten) nofun⟩

theorem Inv.phase_of_worker (h : Inv snap s) (hi : s.workers[i]? = some worker) :
    ¬ (s.phase = .rangeDeleted ∨ s.phase = .snapshotWritten) := by
  intro hphase
  rw [h.alone hphase] at hi
  cases hi

theorem Inv.writeRows (h : Inv snap s) (hi : s.workers[i]? = some worker) :
    Inv snap { s with
      storage := s.storage ++ worker.rows
      workers := s.workers.set i { worker with written := true } } := by
  have hphase := h.phase_of_worker hi
  have hmem : worker ∈ s.workers := mem_of_getElem? hi
  refine ⟨?_, h.applying, fun hp => absurd hp hphase, fun hp => absurd (.inl hp) hphase,
    fun hp => absurd (.inr hp) hphase, h.no_later, ?_⟩
  · intro hp
    obtain ⟨w, hw, hkind⟩ := h.pause hp
    obtain ⟨j, hj⟩ := mem_iff_getElem?.1 hw
    by_cases hij : i = j
    · subst hij
      rw [hi] at hj
      cases hj
      have hlt : i < s.workers.length := (List.getElem?_eq_some_iff.1 hi).1
      exact ⟨_, mem_set hlt _, hkind⟩
    · exact ⟨w, mem_iff_getElem?.2 ⟨j, by rw [List.getElem?_set_ne hij, hj]⟩, hkind⟩
  · intro hp
    have hr := h.replaced hp
    have hlater := hr.collected worker hmem
    refine ⟨hr.filled, hr.key_inj, hr.rows_iff_append hlater, hr.memory, ?_, ?_⟩
    · intro w hw
      rcases mem_or_eq_of_mem_set hw with hw | rfl
      · exact hr.collected w hw
      · exact hlater
    · intro w hw hwritten row hrow
      rcases mem_or_eq_of_mem_set hw with hw | rfl
      · exact mem_append_left _ (hr.written w hw hwritten row hrow)
      · exact mem_append_right _ hrow

theorem pause_finish (h : s.pauseFlush = true → ∃ w ∈ s.workers, w.kind = .flush)
    (hi : s.workers[i]? = some worker) :
    (s.finish i worker).pauseFlush = true → ∃ w ∈ (s.finish i worker).workers, w.kind = .flush := by
  unfold finish
  by_cases hk : worker.kind = .flush
  · simp [hk]
  · simp only [hk, if_false]
    intro hp
    obtain ⟨w, hw, hkind⟩ := h hp
    obtain ⟨j, hj⟩ := mem_iff_getElem?.1 hw
    refine ⟨w, mem_eraseIdx_iff_getElem?.2 ⟨j, ?_, hj⟩, hkind⟩
    rintro rfl
    rw [hi] at hj
    cases hj
    exact hk hkind

section

variable (h : Inv snap s) (hi : s.workers[i]? = some worker)
include h hi

/-- For a worker that leaves only what holds once the region is replaced is to be shown. -/
theorem Inv.finish {region : Region} {storage : List RegionDataReadInfo} (hinfo : region.info = s.region.info)
    (hreplaced : Replaced snap s → Replaced snap { s.finish i worker with region := region, storage := storage }) :
    Inv snap { s.finish i worker with region := region, storage := storage } := by
  have hphase := h.phase_of_worker hi
  exact ⟨pause_finish h.pause hi, fun hn hr => hinfo ▸ h.applying hn hr, fun hp => absurd hp hphase,
    fun hp => absurd (.inl hp) hphase, fun hp => absurd (.inr hp) hphase, h.no_later,
    fun hp => hreplaced (h.replaced hp)⟩

theorem Inv.failWrite (n : Nat) :
    Inv snap { s.finish i worker with storage := s.storage ++ worker.rows.take n } := by
  have hmem : worker ∈ s.workers := mem_of_getElem? hi
  refine h.finish hi rfl fun hr => ?_
  refine ⟨hr.filled, hr.key_inj, hr.rows_iff_append fun row hrow => ?_, hr.memory, ?_, ?_⟩
  · exact hr.collected worker hmem row (mem_of_mem_take hrow)
  · exact fun w hw => hr.collected w (mem_of_mem_eraseIdx hw)
  · exact fun w hw hwritten row hrow =>
      mem_append_left _ (hr.written w (mem_of_mem_eraseIdx hw) hwritten row hrow)

/-- Removed rows are in the storage, so none is lost. -/
theorem Inv.removeRows (hwritten : worker.written = true) :
    Inv snap { s.finish i worker with region := s.region.removeRegionCommitCache worker.rows } := by
  have hmem : worker ∈ s.workers := mem_of_getElem? hi
  refine h.finish hi rfl fun hr => ?_
  refine ⟨hr.filled.removeCommitCache _, hr.key_inj, ?_, ?_, ?_, ?_⟩
  · intro row hin
    refine Iff.trans ?_ (hr.rows_iff row hin)
    constructor
    · rintro (hst | hrow)
      · exact .inl hst
      · exact .inr (mem_rows_removeCommitCache.1 hrow).1
    · rintro (hst | hrow)
      · exact .inl hst
      · by_cases hkey : row.key ∈ worker.rows.map (·.key)
        · -- the worker has a row with this key, and it is this row
          obtain ⟨row', hrow', heq⟩ := mem_map.1 hkey
          have hsame : row' = row := hr.key_inj _ (mem_append_right _ (hr.collected _ hmem _ hrow'))
            _ (mem_append_right _ (hr.memory _ hrow)) heq
          exact .inl (hsame ▸ hr.written _ hmem hwritten _ hrow')
        · exact .inr (mem_rows_removeCommitCache.2 ⟨hrow, hkey⟩)
  · exact fun row hrow => hr.memory row (mem_rows_removeCommitCache.1 hrow).1
  · exact fun w hw => hr.collected w (mem_of_mem_eraseIdx hw)
  · exact fun w hw => hr.written w (mem_of_mem_eraseIdx hw)

end

end Workers

section Apply

section

variable (h : Inv snap s)
include h

theorem Inv.setApplying (hphase : s.phase = .notStarted) :
    Inv snap { s with region := s.region.setStateApplying, phase := .applying } :=
  ⟨h.pause, fun _ _ => rfl, (by rintro (hp | hp) <;> cases hp), nofun, nofun,
    fun _ => h.no_later (by rw [hphase]; nofun), nofun⟩

theorem Inv.deleteRange (hphase : s.phase = .applying) (hworkers : s.workers = []) :
    Inv snap { s with
      storage := s.storage.filter fun row => !snap.region.info.range.containsPK row.pk
      phase := .rangeDeleted } where
  pause := h.pause
  applying _ _ := h.applying (by rw [hphase]; nofun) (by rw [hphase]; nofun)
  alone _ := hworkers
  deleted _ row hrow := by simpa using (mem_filter.1 hrow).2
  written := nofun
  no_later _ := h.no_later (by rw [hphase]; nofun)
  replaced := nofun

theorem Inv.writeSnapshot (hphase : s.phase = .rangeDeleted) :
    Inv snap { s with
      storage := if s.pauseFlush then s.storage else s.storage ++ snap.rows
      phase := .snapshotWritten } := by
  have halone := h.alone (.inl hphase)
  have hpause : s.pauseFlush = false := by
    by_contra hp
    obtain ⟨w, hw, -⟩ := h.pause (by simpa using hp)
    rw [halone] at hw
    exact absurd hw not_mem_nil
  refine ⟨h.pause, fun _ _ => h.applying (by rw [hphase]; nofun) (by rw [hphase]; nofun),
    fun _ => halone, nofun, ?_, fun _ => h.no_later (by rw [hphase]; nofun), nofun⟩
  intro _ row hin
  simp only [hpause, Bool.false_eq_true, if_false, mem_append]
  constructor
  · rintro (hst | hrow)
    · rw [h.deleted hphase row hst] at hin
      cases hin
    · exact hrow
  · exact .inr

theorem Inv.replace (hphase : s.phase = .snapshotWritten) :
    Inv snap { s with region := s.region.assignRegion snap.region, phase := .replaced } := by
  have halone := h.alone (.inr hphase)
  have hlater := h.no_later (by rw [hphase]; nofun)
  have hrows : snap.region.data.rows = [] := by
    unfold rows
    rw [snap.no_records]
    rfl
  refine ⟨h.pause, fun _ hp => absurd rfl hp, (by rintro (hp | hp) <;> cases hp), nofun, nofun,
    fun hp => absurd rfl hp, fun _ => ⟨?_, ?_, ?_, ?_, ?_, ?_⟩⟩
  · intro key entry hentry
    have : snap.region.data.writeCF.lookup key = some entry := hentry
    rw [snap.no_records] at this
    cases this
  · simp only [hlater, append_nil]
    exact snap.key_inj
  · intro row hin
    simp only [Region.assignRegion, hrows, hlater, append_nil, not_mem_nil, or_false]
    exact h.written hphase row hin
  · intro row hrow
    simp only [Region.assignRegion, hrows] at hrow
    exact absurd hrow not_mem_nil
  · simp [halone]
  · simp [halone]

theorem Inv.writeOld (hphase : s.phase = .notStarted) (region : Region) :
    Inv snap { s with region := region } :=
  ⟨h.pause, fun hp => absurd hphase hp, h.alone, h.deleted, h.written, h.no_later,
    fun hp => absurd (hphase.symm.trans hp) nofun⟩

theorem Inv.writeNew (hphase : s.phase = .replaced) {kvs : List KV} {region : Region}
    (hins : s.region.insertAll kvs = .ok region) (hfilled : region.data.Filled)
    (hfresh : ∀ key value, KV.write key value ∈ kvs → decodeWriteCfValue value ≠ none →
      ∀ row ∈ snap.rows ++ s.later, row.key ≠ key) :
    Inv snap { s with region := region, later := s.later ++ newRows s.region.data kvs } := by
  have hr := h.replaced hphase
  obtain ⟨data, hdata, hregion⟩ := bind_eq_ok_iff.1 hins
  cases hregion
  have hnew : ∀ row ∈ newRows s.region.data kvs, ∀ r ∈ snap.rows ++ s.later, r.key ≠ row.key := by
    intro row hrow
    obtain ⟨value, hkv, hdec⟩ := write_of_mem_newRows hrow
    exact hfresh row.key value hkv hdec
  have hrows : ∀ row ∈ newRows s.region.data kvs, row ∈ data.rows :=
    fun row hrow => (mem_rows_insertAll hdata).2 (.inr hrow)
  refine ⟨h.pause, fun _ hp => absurd hphase hp,
    (by rintro (hp | hp) <;> exact absurd (hphase.symm.trans hp) nofun),
    fun hp => absurd (hphase.symm.trans hp) nofun, fun hp => absurd (hphase.symm.trans hp) nofun,
    fun hp => absurd hphase hp, fun _ => ⟨hfilled, ?_, ?_, ?_, ?_, hr.written⟩⟩
  · intro r hr₁ r' hr₂ hkey
    simp only [← append_assoc] at hr₁ hr₂
    rcases mem_append.1 hr₁ with h₁ | h₁ <;> rcases mem_append.1 hr₂ with h₂ | h₂
    · exact hr.key_inj r h₁ r' h₂ hkey
    · exact absurd hkey (hnew r' h₂ r h₁)
    · exact absurd hkey.symm (hnew r h₁ r' h₂)
    · exact eq_of_mem_rows (hrows r h₁) (hrows r' h₂) hkey
  · intro row hin
    rw [mem_rows_insertAll hdata, ← append_assoc, mem_append, ← hr.rows_iff row hin, or_assoc]
  · intro row hrow
    rcases (mem_rows_insertAll hdata).1 hrow with hrow | hrow
    · exact mem_append_left _ (hr.memory row hrow)
    · exact mem_append_right _ hrow
  · exact fun w hw row hrow => mem_append_left _ (hr.collected w hw row hrow)

end

end Apply

theorem Inv.step (h : Inv snap s) {action : OverlapAction} (hapart : action.Apart snap s) :
    Inv snap (s.step snap action) := by
  cases action with
  | collectRead tableID startTs bypassLockTs version confVer =>
    simp only [Overlap.step]
    split
    · rename_i rows hread
      obtain ⟨hnormal, hscan⟩ := resolveLocksAndReadRegionData_ok hread
      refine h.collect ⟨.read, rows, false⟩ ?_ hscan rfl fun hp => .inl hp
      intro hphase
      have happlying := h.applying (by rcases hphase with hp | hp <;> rw [hp] <;> nofun)
        (by rcases hphase with hp | hp <;> rw [hp] <;> nofun)
      rw [hnormal] at happlying
      cases happlying
    · exact h
  | collectFlush =>
    simp only [Overlap.step]
    split_ifs
    · exact h
    · split
      · rename_i rows hread
        refine h.collect ⟨.flush, rows, false⟩ ?_ (readRegionCommitCache_some hread) rfl
          fun _ => .inr rfl
        exact fun hphase => hapart hphase rows hread
      · exact h
  | writeRows i =>
    simp only [Overlap.step]
    cases hi : s.workers[i]? with
    | none => exact h
    | some worker =>
      simp only
      split_ifs
      · exact h
      · exact h.writeRows hi
  | failWrite i n =>
    simp only [Overlap.step]
    cases hi : s.workers[i]? with
    | none => exact h
    | some worker =>
      simp only
      split_ifs
      · exact h
      · exact h.failWrite hi n
  | removeRows i =>
    simp only [Overlap.step]
    cases hi : s.workers[i]? with
    | none => exact h
    | some worker =>
      simp only
      split_ifs with hwritten
      · exact h.removeRows hi hwritten
      · exact h
  | setApplying =>
    simp only [Overlap.step]
    split_ifs with hphase
    · exact h.setApplying hphase
    · exact h
  | deleteRange =>
    simp only [Overlap.step]
    split_ifs with hphase
    · exact h.deleteRange hphase (hapart hphase)
    · exact h
  | writeSnapshot =>
    simp only [Overlap.step]
    by_cases hphase : s.phase = .rangeDeleted
    · rw [if_pos hphase]
      exact h.writeSnapshot hphase
    · rw [if_neg hphase]
      exact h
  | replace =>
    simp only [Overlap.step]
    split_ifs with hphase
    · exact h.replace hphase
    · exact h
  | raftWrite kvs =>
    simp only [Overlap.step]
    by_cases hphase : s.phase = .notStarted ∨ s.phase = .replaced
    · rw [if_pos hphase]
      cases hins : s.region.insertAll kvs with
      | error e => exact h
      | ok region =>
        simp only
        rcases hphase with hphase | hphase
        · rw [if_neg (by rw [hphase]; nofun)]
          exact h.writeOld hphase region
        · rw [if_pos hphase]
          obtain ⟨hfresh, hfilled⟩ := hapart hphase
          exact h.writeNew hphase hins (hfilled region hins) hfresh
    · rw [if_neg hphase]
      exact h

/-- No worker of the run overlaps the snapshot. -/
def Apart (snap : PreHandledSnapshot) : Overlap → List OverlapAction → Prop
  | _, [] => True
  | s, action :: actions => action.Apart snap s ∧ Apart snap (s.step snap action) actions

theorem Inv.run (h : Inv snap s) {actions : List OverlapAction} (hapart : Apart snap s actions) :
    Inv snap (s.run snap actions) := by
  induction actions generalizing s with
  | nil => exact h
  | cons action actions ih => exact ih (h.step hapart.1) hapart.2

end Overlap

/-- If reads and flushes stay apart from the apply, the rows in the storage and in memory are then those of
the snapshot and the later ones. -/
theorem overlap_rows_exact (snap : PreHandledSnapshot) (region : Region)
    (storage : List RegionDataReadInfo) (actions : List OverlapAction)
    (hapart : Overlap.Apart snap (.start region storage) actions) (s : Overlap)
    (hs : s = (Overlap.start region storage).run snap actions) (hdone : s.phase = .replaced)
    (row : RegionDataReadInfo) (hin : snap.region.info.range.containsPK row.pk = true) :
    row ∈ s.storage ∨ s.region.data.Holds row ↔ row ∈ snap.rows ∨ row ∈ s.later := by
  have hinv : Overlap.Inv snap s := hs ▸ (Overlap.inv_start snap region storage).run hapart
  have hr := hinv.replaced hdone
  rw [hr.filled.holds_iff_mem_rows, hr.rows_iff row hin, mem_append]

section Runs

/-- An old region with one committed row in memory. -/
def oldRegion : Region :=
  ⟨metaAt 3, ⟨insert ⟨5, 8⟩ ⟨⟨.putFlag, 7, some 1, false⟩, ⟨.putFlag, 7, some 1⟩⟩ ∅, ∅, ∅⟩⟩

/-- A snapshot with row 6 -/
def otherRow : PreHandledSnapshot := ⟨⟨metaAt 6, .empty⟩, [⟨6, .putFlag, 12, some 99⟩], rfl, by decide⟩

/-- A read that is done before the apply, and a write and a flush after it. -/
def readBeforeApply : List OverlapAction :=
  [.collectRead 42 100 [] 1 1, .writeRows 0, .removeRows 0, .setApplying, .deleteRange, .writeSnapshot,
    .replace, .raftWrite [.write ⟨7, 20⟩ ⟨.putFlag, 19, some 5, false⟩], .collectFlush, .writeRows 0]

theorem overlap_rows_exact_read_before :
    (((Overlap.start oldRegion []).run otherRow readBeforeApply).phase = .replaced) ∧
    (let s := (Overlap.start oldRegion []).run otherRow readBeforeApply
     ⟨7, .putFlag, 20, some 5⟩ ∈ s.storage ∨ s.region.data.Holds ⟨7, .putFlag, 20, some 5⟩ ↔
      ⟨7, .putFlag, 20, some 5⟩ ∈ otherRow.rows ∨ ⟨7, .putFlag, 20, some 5⟩ ∈ s.later) := by
  refine ⟨by decide +kernel, overlap_rows_exact otherRow oldRegion [] readBeforeApply ?_ _ rfl
    (by decide +kernel) _ (by decide)⟩
  refine ⟨trivial, trivial, trivial, trivial, fun _ => rfl, trivial, trivial, fun _ => ⟨?_, ?_⟩,
    (by rintro (h | h) <;> cases h), trivial, trivial⟩
  · intro key value hmem _ row hrow
    simp only [mem_singleton, KV.write.injEq] at hmem
    rw [hmem.1]
    revert row
    decide +kernel
  · rintro region hregion
    cases hregion
    decide +kernel

/-- A read that has collected its rows when the apply starts and writes them when it is done. -/
def readAcrossApply : List OverlapAction :=
  [.collectRead 42 100 [] 1 1, .setApplying, .deleteRange, .writeSnapshot, .replace, .writeRows 0,
    .removeRows 0]

/-- The row of the old region is in the storage again, though the snapshot does not have it. -/
theorem overlap_brings_row_back :
    let s := (Overlap.start oldRegion []).run otherRow readAcrossApply
    let row : RegionDataReadInfo := ⟨5, .putFlag, 8, some 1⟩
    s.phase = .replaced ∧ s.workers = [] ∧ otherRow.region.info.range.containsPK row.pk = true ∧
      row ∈ s.storage ∧ ¬ (row ∈ otherRow.rows ∨ row ∈ s.later) := by
  decide +kernel

end Runs

end TiFlash.Transaction
