import TiFlash.Transaction.ApplySnapshot
import TiFlash.Transaction.Proofs.RegionDataProofs
import TiFlash.Transaction.Proofs.RegionFlushProofs

/-!
# The rows of an applied snapshot

The committed rows of a snapshot leave the new region first. They reach the storage only through the flush
inside `onSnapshot`, which may be skipped or fail unnoticed. If it is not disturbed all rows arrive; a
snapshot that is delivered again leaves them where they are (`applySnapshot_keeps_rows`).
-/

namespace TiFlash.Transaction

open TiFlash.Lib List Except

/-- The row is in the table storage or in the memory of the region that `KVStore` holds. -/
def KVState.Keeps (s : KVState) (row : RegionDataReadInfo) : Prop :=
  (∃ storage ∈ s.storage, row ∈ storage.rows) ∨ ∃ region ∈ s.region, region.data.Holds row

section Load

open RegionData

/-- What the data of a region holds after the pairs `kvs` have been put into it. -/
structure Loaded (kvs : List KV) (data : RegionData) : Prop where
  write : ∀ key value decoded, KV.write key value ∈ kvs → decodeWriteCfValue value = some decoded →
    ∃ before : RegionData, data.writeCF.lookup key = some ⟨value, before.filled key decoded⟩ ∧
      ∀ (k : TiKVKey) (v : Value), before.defaultCF.lookup k = some v → data.defaultCF.lookup k = some v
  default : ∀ key value, KV.default key value ∈ kvs → data.defaultCF.lookup key = some value

variable {kvs : List KV} {data data' : RegionData}

theorem Loaded.insert {kv : KV} (h : Loaded kvs data)
    (hins : data.insert kv = .ok data') : Loaded (kvs ++ [kv]) data' := by
  constructor
  · intro key value decoded hmem hdec
    rcases mem_append.1 hmem with hmem | hmem
    · obtain ⟨before, hlook, hdefault⟩ := h.write key value decoded hmem hdec
      exact ⟨before, lookup_writeCF_insert hins hlook,
        fun k v hv => lookup_defaultCF_insert hins (hdefault k v hv)⟩
    · obtain rfl := mem_singleton.1 hmem
      rcases insert_cases hins with ⟨_, _, heq, hnone, -⟩ | ⟨_, _, d, heq, hd, -, -, rfl⟩ | ⟨_, _, heq, -⟩ |
        ⟨_, _, heq, -⟩ <;> cases heq
      · rw [hdec] at hnone
        cases hnone
      · cases hdec.symm.trans hd
        exact ⟨data, AList.lookup_insert _, fun _ _ hv => hv⟩
  · intro key value hmem
    rcases mem_append.1 hmem with hmem | hmem
    · exact lookup_defaultCF_insert hins (h.default key value hmem)
    · obtain rfl := mem_singleton.1 hmem
      rcases insert_cases hins with ⟨_, _, heq, -⟩ | ⟨_, _, _, heq, -⟩ | ⟨_, _, heq, -, rfl⟩ | ⟨_, _, heq, -⟩ <;>
        cases heq
      exact AList.lookup_insert _

theorem Loaded.foldlM {before : List KV} (h : Loaded before data)
    (hrun : kvs.foldlM RegionData.insert data = .ok data') : Loaded (before ++ kvs) data' :=
  foldlM_invariant h hrun fun _ _ _ _ _ h hins => h.insert hins

theorem Loaded.holds (h : Loaded kvs data)
    {row : RegionDataReadInfo} (hrow : Committed kvs row) : data.Holds row := by
  obtain ⟨value, decoded, hmem, hdec, htype, hvalue⟩ := hrow
  obtain ⟨before, hlook, hdefault⟩ := h.write _ _ _ hmem hdec
  refine ⟨_, hlook, readDataByWriteIt_eq_ok_iff.2 ⟨rfl, htype, ?_⟩⟩
  unfold filled
  cases hw : decoded.writeType with
  | delFlag => simpa [hw] using hvalue
  | putFlag =>
    simp only [hw] at hvalue ⊢
    obtain ⟨v, hv, hshort | ⟨hshort, hdef⟩⟩ := hvalue
    · exact ⟨v, hv, .inl (by simp [hshort])⟩
    · have hdef := h.default _ _ hdef
      refine ⟨v, hv, ?_⟩
      cases hb : before.defaultCF.lookup ⟨row.key.pk, decoded.prewriteTs⟩ with
      | none => exact .inr ⟨by simp only [hshort, Option.none_or], hdef⟩
      | some v' =>
        have hv' := hdefault _ _ hb
        have : some v' = some v := hv'.symm.trans hdef
        exact .inl (by simpa [hshort, hb] using this)

end Load

section Steps

variable {s s' : KVState} {env : ApplyEnv} {newRegion : Region} {σ : Type}

theorem ofExcept_eq_ok_iff {α : Type} {x : Except Exception α} {s s' : σ} {a : α} :
    ofExcept x s = .ok a s' ↔ x = .ok a ∧ s' = s := by
  cases x with
  | ok b =>
    show EStateM.Result.ok b s = .ok a s' ↔ _
    simp [eq_comm]
  | error e =>
    show EStateM.Result.error e s = .ok a s' ↔ _
    simp

theorem raise_eq_ok_iff {e : Option Exception} {s s' : σ} :
    raise e s = .ok () s' ↔ e = none ∧ s' = s := by
  cases e with
  | none =>
    show EStateM.Result.ok () s = .ok () s' ↔ _
    simp [eq_comm]
  | some e =>
    show EStateM.Result.error e s = .ok () s' ↔ _
    simp

/-- What is collected from a region that is not pending removal: its rows, or nothing if there are none. -/
theorem readRegionCommitCache_ok {region : Region} (hnormal : region.info.peerState = .normal)
    {rows : Option (List RegionDataReadInfo)} (h : region.readRegionCommitCache = .ok rows)
    (row : RegionDataReadInfo) : row ∈ rows.getD [] ↔ region.data.Holds row := by
  unfold Region.readRegionCommitCache Region.isPendingRemove at h
  rw [hnormal] at h
  simp only [reduceCtorEq, decide_false, Bool.false_eq_true, if_false] at h
  split at h
  · rename_i hempty
    cases h
    refine ⟨fun hrow => absurd hrow not_mem_nil, ?_⟩
    rintro ⟨entry, hentry, -⟩
    have := AList.mem_lookup_iff.1 hentry
    rw [isEmpty_iff.1 hempty] at this
    exact absurd this not_mem_nil
  · obtain ⟨rows, hscan, h⟩ := bind_eq_ok_iff.1 h
    cases h
    exact RegionData.mem_scan_iff hscan

variable {version : Int} {block rows : List RegionDataReadInfo}

theorem atomicDecode_alive {env : AttemptEnv} {storage : Option Storage} {force : Bool}
    (h : atomicDecode env storage rows force = .ok (some (block, version)))
    (halive : force = true → ∃ st, storage = some st ∧ st.isTombstone = false) :
    block = rows ∧ ∃ st, storage = some st ∧ st.isTombstone = false ∧
      st.tableInfo.schemaVersion = version := by
  unfold atomicDecode at h
  split at h
  · rename_i hfilter
    cases force with
    | false => cases h
    | true =>
      obtain ⟨st, rfl, hst⟩ := halive rfl
      simp [Option.filter, hst] at hfilter
  · rename_i st hfilter
    obtain ⟨hst, halive⟩ := Option.filter_eq_some_iff.1 hfilter
    split at h
    · cases h
    · cases h
    · cases h
    · cases h
      exact ⟨rfl, st, hst, by simpa using halive, rfl⟩

theorem preDecodeRows_ok {env : PreDecodeEnv} (hsync : env.sync ≠ .synced none) {tableID : TableID}
    (h : preDecodeRows env tableID rows s = .ok (block, version) s') :
    block = rows ∧ s'.region = s.region ∧ ∃ st : Storage, s'.storage = some st ∧
      st.isTombstone = false ∧ st.tableInfo.schemaVersion = version ∧
      ((∃ st₀ : Storage, s.storage = some st₀ ∧ st₀.tableInfo.schemaVersion = version) ∨
        env.sync.version? = some version) ∧ ∀ st₀ ∈ s.storage, st.rows = st₀.rows := by
  unfold preDecodeRows at h
  rw [EStateM.bind_of_ok (EStateM.get_apply s)] at h
  obtain ⟨decoded, s₁, hdec, h⟩ := EStateM.bind_eq_ok_iff.1 h
  obtain ⟨hdec, rfl⟩ := ofExcept_eq_ok_iff.1 hdec
  cases decoded with
  | some decoded =>
    cases h
    obtain ⟨hblock, st, hst, halive, hversion⟩ := atomicDecode_alive hdec nofun
    refine ⟨hblock, rfl, st, hst, halive, hversion, .inl ⟨st, hst, hversion⟩, fun st₀ hst₀ => ?_⟩
    rw [Option.some_inj.1 (hst.symm.trans hst₀)]
  | none =>
    simp only at h
    rw [EStateM.bind_of_ok (EStateM.get_apply _)] at h
    obtain ⟨storage, s₂, hsyncs, h⟩ := EStateM.bind_eq_ok_iff.1 h
    obtain ⟨hsyncs, rfl⟩ := ofExcept_eq_ok_iff.1 hsyncs
    rw [EStateM.bind_of_ok (EStateM.set_apply _ _)] at h
    obtain ⟨decoded, s₃, hrun, h⟩ := EStateM.bind_eq_ok_iff.1 h
    obtain ⟨hdec', rfl⟩ := ofExcept_eq_ok_iff.1 hrun
    cases decoded with
    | none => cases h
    | some decoded =>
      cases h
      cases hs : env.sync with
      | failed e => rw [hs] at hsyncs; cases hsyncs
      | synced table =>
        cases table with
        | none => exact absurd hs hsync
        | some table =>
          have hstorage : ∃ st : Storage, storage = some st ∧ st.isTombstone = false ∧
              st.tableInfo.schemaVersion = table.schemaVersion ∧ ∀ st₀ ∈ s₂.storage, st.rows = st₀.rows := by
            rw [hs] at hsyncs
            cases hst : s₂.storage with
            | none =>
              rw [hst] at hsyncs
              cases hsyncs
              exact ⟨_, rfl, rfl, rfl, nofun⟩
            | some st =>
              rw [hst] at hsyncs
              cases hsyncs
              exact ⟨_, rfl, rfl, rfl, by rintro st₀ ⟨⟩; rfl⟩
          obtain ⟨st, rfl, halive, hversion, hrows⟩ := hstorage
          obtain ⟨hblock, st', hst', halive', hversion'⟩ :=
            atomicDecode_alive hdec' fun _ => ⟨st, rfl, halive⟩
          cases hst'
          refine ⟨hblock, rfl, st, rfl, halive, hversion', .inr ?_, hrows⟩
          rw [← hversion', hversion]
          rfl

/-- Preparing the range changes neither the table nor the meta of the new region. -/
theorem cleanRange_ok {region' : Region} (h : cleanRange env newRegion s = .ok region' s') {st : Storage}
    (hst : s.storage = some st) : ∃ st' : Storage, s'.storage = some st' ∧
      st'.tableInfo = st.tableInfo ∧ st'.isTombstone = st.isTombstone ∧
      st.tableInfo.engineType ≠ .unspecified := by
  unfold cleanRange at h
  rw [EStateM.bind_of_ok (EStateM.get_apply s), hst] at h
  simp only at h
  cases he : st.tableInfo.engineType with
  | tmt =>
    rw [he] at h
    obtain ⟨_, s₁, hr₁, h₁⟩ := EStateM.bind_eq_ok_iff.1 h
    obtain ⟨_, s₂, hr₂, h₂⟩ := EStateM.bind_eq_ok_iff.1 h₁
    obtain ⟨-, rfl⟩ := raise_eq_ok_iff.1 hr₁
    obtain ⟨-, rfl⟩ := raise_eq_ok_iff.1 hr₂
    obtain ⟨-, rfl⟩ := ofExcept_eq_ok_iff.1 h₂
    exact ⟨st, hst, rfl, rfl, nofun⟩
  | dt =>
    rw [he] at h
    obtain ⟨_, s₁, hr₁, h₁⟩ := EStateM.bind_eq_ok_iff.1 h
    obtain ⟨_, s₂, hr₂, h₂⟩ := EStateM.bind_eq_ok_iff.1 h₁
    cases h₂
    exact ⟨_, rfl, rfl, rfl, nofun⟩
  | unspecified | debuggingMemory =>
    rw [he] at h
    cases h

theorem onSnapshot_ok {cache : Option RegionPreDecodeBlockData}
    (h : onSnapshot env newRegion cache s = .ok () s') :
    s'.storage = (EStateM.stateOf (tryFlushRegion env.newFlush ⟨s.storage, newRegion, cache⟩)).storage := by
  obtain ⟨_, s₁, htable, h₁⟩ := EStateM.bind_eq_ok_iff.1 h
  obtain ⟨-, rfl⟩ := raise_eq_ok_iff.1 htable
  rw [EStateM.bind_of_ok (EStateM.get_apply _), EStateM.bind_of_ok (EStateM.set_apply _ _)] at h₁
  obtain ⟨_, s₂, hchanged, h₂⟩ := EStateM.bind_eq_ok_iff.1 h₁
  obtain ⟨-, rfl⟩ := raise_eq_ok_iff.1 h₂
  cases tryFlushRegion env.newFlush ⟨s₁.storage, newRegion, cache⟩ with
  | ok _ f | error _ f => rfl

end Steps

/-- TiDB keeps the table during the apply. -/
structure ApplyEnv.TableKept (env : ApplyEnv) : Prop where
  preDecode : env.preDecode.sync ≠ .synced none
  oldFlush : env.oldFlush.sync ≠ .synced none

/-- Schema versions do not go back. -/
structure ApplyEnv.VersionsGrow (env : ApplyEnv) (storage : Option Storage) : Prop where
  old : ∀ st ∈ storage, ∀ v ∈ env.oldFlush.sync.version?, st.tableInfo.schemaVersion ≤ v
  pre : ∀ u ∈ env.preDecode.sync.version?, ∀ v ∈ env.oldFlush.sync.version?, u ≤ v
  new : ∀ u ∈ env.oldFlush.sync.version?, ∀ v ∈ env.newFlush.sync.version?, u ≤ v

section Apply

variable {s s' : KVState} {env : ApplyEnv} {newRegion : Region} {cache : RegionPreDecodeBlockData} {st : Storage}

/-- Once the old region is dealt with, the pre-decoded rows reach the storage. -/
theorem replaceRegion_stores (h : replaceRegion env newRegion (some cache) s = .ok () s')
    (hst : s.storage = some st) (halive : st.isTombstone = false)
    (hflush : env.newFlush.Undisturbed) (hblock : cache.block = cache.dataListRead)
    (hversion : cache.schemaVersion ≠ st.tableInfo.schemaVersion →
      env.newFlush.sync.version? ≠ some cache.schemaVersion) :
    ∀ row ∈ cache.dataListRead, s'.Keeps row := by
  obtain ⟨_, s₁, hoverlap, h₁⟩ := EStateM.bind_eq_ok_iff.1 h
  obtain ⟨-, rfl⟩ := raise_eq_ok_iff.1 hoverlap
  obtain ⟨region, s₂, hclean, h₂⟩ := EStateM.bind_eq_ok_iff.1 h₁
  obtain ⟨st', hst', htable, htomb, hengine⟩ := cleanRange_ok hclean hst
  have hstorage := onSnapshot_ok h₂
  rw [hst'] at hstorage
  have halive' : st'.Alive st.tableInfo.engineType := ⟨htomb.trans halive, by rw [htable]⟩
  obtain ⟨f, storage', hrun, hf, hrows⟩ := tryFlushRegion_stores hflush region halive' hengine hblock
    (by rw [htable]; exact hversion)
  rw [hrun] at hstorage
  intro row hrow
  exact .inl ⟨storage', hstorage.trans hf, hrows row hrow⟩

/-- The flush of the old region may bring a newer schema, but not one that is older than the cache. -/
theorem flushOldRegion_ok {oldRegion : Region} (h : flushOldRegion env oldRegion s = .ok () s')
    (hkept : env.TableKept) (hst : s.storage = some st)
    (halive : st.isTombstone = false) : ∃ st', s'.storage = some st' ∧ st'.isTombstone = false ∧
      (st'.tableInfo.schemaVersion = st.tableInfo.schemaVersion ∨
        env.oldFlush.sync.version? = some st'.tableInfo.schemaVersion) := by
  have hkeeps : KeepsTable st.tableInfo.engineType st.tableInfo.schemaVersion env.oldFlush.sync s.storage :=
    ⟨st, hst, ⟨halive, rfl⟩, .inl rfl⟩
  have hflushed := tryFlushRegion_keeps env.oldFlush hkept.oldFlush
    ⟨s.storage, oldRegion.setStateApplying, none⟩ hkeeps
  unfold flushOldRegion at h
  rw [EStateM.bind_of_ok (EStateM.get_apply s)] at h
  cases hf : tryFlushRegion env.oldFlush ⟨s.storage, oldRegion.setStateApplying, none⟩ with
  | error e f => rw [hf] at h; cases h
  | ok _ f =>
    rw [hf] at h hflushed
    simp only at h
    rw [EStateM.bind_of_ok (EStateM.set_apply _ _)] at h
    obtain ⟨_, s₁, hcache, h₁⟩ := EStateM.bind_eq_ok_iff.1 h
    obtain ⟨-, rfl⟩ := raise_eq_ok_iff.1 hcache
    obtain ⟨-, rfl⟩ := raise_eq_ok_iff.1 h₁
    obtain ⟨st', hst', halive', hversion⟩ := hflushed
    exact ⟨st', hst', halive'.not_tombstone, hversion⟩

/-- The flush of the new region does not meet the version of the cache again once it has met another. -/
theorem tryApplySnapshot_stores (h : tryApplySnapshot env newRegion (some cache) s = .ok () s') (hst : s.storage = some st) (halive : st.isTombstone = false)
    (hversion : cache.schemaVersion = st.tableInfo.schemaVersion) (hkept : env.TableKept)
    (hold : ∀ v ∈ env.oldFlush.sync.version?, cache.schemaVersion ≤ v)
    (hnew : ∀ u ∈ env.oldFlush.sync.version?, ∀ v ∈ env.newFlush.sync.version?, u ≤ v)
    (hflush : env.newFlush.Undisturbed) (hblock : cache.block = cache.dataListRead) {row : RegionDataReadInfo}
    (hrow : row ∈ cache.dataListRead)
    (hindex : ∀ region ∈ s.region, region.info.appliedIndex = newRegion.info.appliedIndex → s.Keeps row) :
    s'.Keeps row := by
  unfold tryApplySnapshot at h
  rw [EStateM.bind_of_ok (EStateM.get_apply s)] at h
  cases hregion : s.region with
  | none =>
    rw [hregion] at h
    exact replaceRegion_stores h hst halive hflush hblock (fun hne => absurd hversion hne) row hrow
  | some oldRegion =>
    rw [hregion] at h
    simp only at h
    split at h
    · cases h
    split at h
    · rename_i hsame
      cases h
      exact hindex oldRegion hregion hsame
    · obtain ⟨_, s₁, hflushed, h₁⟩ := EStateM.bind_eq_ok_iff.1 h
      obtain ⟨st', hst', halive', hversion'⟩ := flushOldRegion_ok hflushed hkept hst halive
      refine replaceRegion_stores h₁ hst' halive' hflush hblock (fun hne hcache => ?_) row hrow
      rcases hversion' with hsame | hsynced
      · exact hne (hversion.trans hsame.symm)
      · have h₁ := hold _ hsynced
        have h₂ := hnew _ hsynced _ hcache
        exact hne (le_antisymm h₁ h₂)

/-- No committed row is lost if nothing disturbs the flush of the new region. A region at the applied index of
the snapshot has to have the row. -/
theorem applySnapshot_keeps_rows (env : ApplyEnv) (info : RegionMeta) (peerID : Nat) (snaps : List KV)
    (s s' : KVState) (hrun : handleApplySnapshot env info peerID snaps s = .ok () s')
    (hkept : env.TableKept) (hgrow : env.VersionsGrow s.storage)
    (hflush : env.newFlush.Undisturbed) (row : RegionDataReadInfo) (hrow : Committed snaps row)
    (hindex : ∀ region ∈ s.region, region.info.appliedIndex = info.appliedIndex → s.Keeps row) :
    s'.Keeps row := by
  obtain ⟨region, s₁, hgenM, h₁⟩ := EStateM.bind_eq_ok_iff.1 hrun
  obtain ⟨hgen, rfl⟩ := ofExcept_eq_ok_iff.1 hgenM
  have hregion : region = ⟨{ info with peerState := .normal }, .empty⟩ := by
    unfold genRegionPtr at hgen
    split at hgen
    · cases hgen; rfl
    · cases hgen
  subst hregion
  obtain ⟨⟨newRegion, cache⟩, s₂, hpre, h₂⟩ := EStateM.bind_eq_ok_iff.1 h₁
  -- the pairs are in the new region, and its rows are those of the snapshot
  obtain ⟨loaded, s₃, hinsM, hpre₁⟩ := EStateM.bind_eq_ok_iff.1 hpre
  obtain ⟨hins, rfl⟩ := ofExcept_eq_ok_iff.1 hinsM
  obtain ⟨data, hdata, hregion⟩ := bind_eq_ok_iff.1 hins
  cases hregion
  have hloaded : Loaded ([] ++ snaps) data := Loaded.foldlM ⟨nofun, nofun⟩ hdata
  have hholds : data.Holds row := hloaded.holds hrow
  obtain ⟨rows, s₄, hreadM, hpre₂⟩ := EStateM.bind_eq_ok_iff.1 hpre₁
  obtain ⟨hread, rfl⟩ := ofExcept_eq_ok_iff.1 hreadM
  have hmem := (readRegionCommitCache_ok (by rfl) hread row).2 hholds
  cases rows with
  | none => exact absurd hmem not_mem_nil
  | some rows =>
    obtain ⟨⟨block, version⟩, s₅, hdecode, hpre₃⟩ := EStateM.bind_eq_ok_iff.1 hpre₂
    cases hpre₃
    obtain ⟨rfl, hsame, st, hst, halive, hversion, hfrom, hrows⟩ := preDecodeRows_ok hkept.preDecode hdecode
    refine tryApplySnapshot_stores h₂ hst halive hversion.symm hkept ?_ hgrow.new hflush rfl hmem ?_
    · intro v hv
      rcases hfrom with ⟨st₀, hst₀, rfl⟩ | hsync
      · exact hgrow.old st₀ hst₀ v hv
      · exact hgrow.pre _ hsync v hv
    · -- decoding the rows has changed the schema of the table at most
      intro region hregion heq
      rw [hsame] at hregion
      refine (hindex region hregion heq).imp ?_ fun hholds => by rwa [hsame]
      rintro ⟨st₀, hst₀, hkeeps⟩
      exact ⟨st, hst, hrows st₀ hst₀ ▸ hkeeps⟩

end Apply

section Runs

def deltaTable : TableInfo := ⟨.dt, false, 1⟩

/-- No exceptions -/
def calmEnv : ApplyEnv where
  preDecode := ⟨⟨none, .ok true, none⟩, .synced (some deltaTable), ⟨none, .ok true, none⟩⟩
  oldFlush := ⟨true, false, ⟨none, .ok true, none⟩, .synced (some deltaTable), ⟨none, .ok true, none⟩⟩
  oldFlushCache := none
  oldPersist := none
  overlapped := []
  safePoint := 0
  tableLock := none
  deleteRange := none
  previousTable := none
  newFlush := ⟨true, false, ⟨none, .ok true, none⟩, .synced (some deltaTable), ⟨none, .ok true, none⟩⟩
  instanceChanged := false
  persist := none

/-- The same while another flush of the region is running. -/
def flushPausedEnv : ApplyEnv := { calmEnv with newFlush := { calmEnv.newFlush with pauseFlush := true } }

/-- Region 7 at an applied index -/
def metaAt (index : Nat) : RegionMeta := ⟨7, 42, [1], .normal, 1, 1, index, ⟨.min, .max⟩⟩

/-- A snapshot with one row, whose value stands in the default column family. -/
def oneRow : List KV := [.default ⟨5, 10⟩ 99, .write ⟨5, 12⟩ ⟨.putFlag, 10, none, false⟩]

theorem committed_oneRow : Committed oneRow ⟨5, .putFlag, 12, some 99⟩ :=
  ⟨⟨.putFlag, 10, none, false⟩, ⟨.putFlag, 10, none⟩, by decide, rfl, rfl, 99, rfl, .inr ⟨rfl, by decide⟩⟩

/-- The state before the apply: an old region without data, and the row of an older version. -/
def oldState : KVState := ⟨some ⟨deltaTable, false, [⟨5, .putFlag, 8, some 1⟩]⟩, some ⟨metaAt 3, .empty⟩⟩

theorem applySnapshot_keeps_rows_calm :
    ∃ s', handleApplySnapshot calmEnv (metaAt 6) 1 oneRow oldState = .ok () s' ∧
      s'.Keeps ⟨5, .putFlag, 12, some 99⟩ := by
  refine ⟨⟨some ⟨deltaTable, false, [⟨5, .putFlag, 12, some 99⟩]⟩, some ⟨metaAt 6, .empty⟩⟩, rfl, ?_⟩
  refine applySnapshot_keeps_rows calmEnv (metaAt 6) 1 oneRow oldState _ rfl ⟨nofun, nofun⟩ ⟨?_, ?_, ?_⟩
    ⟨rfl, rfl, ⟨rfl, ⟨true, rfl⟩, rfl⟩, ⟨deltaTable, rfl⟩, ⟨rfl, ⟨true, rfl⟩, rfl⟩, rfl⟩ _ committed_oneRow ?_
  · rintro st ⟨⟩ v ⟨⟩
    exact le_rfl
  · rintro u ⟨⟩ v ⟨⟩
    exact le_rfl
  · rintro u ⟨⟩ v ⟨⟩
    exact le_rfl
  · rintro region ⟨⟩ ⟨⟩

/-- While another flush of the region id runs, that of the new region is skipped: the apply returns, and
neither storage nor region has the row. -/
theorem applySnapshot_loses_row_flush_paused :
    ∃ s', handleApplySnapshot flushPausedEnv (metaAt 6) 1 oneRow oldState = .ok () s' ∧
      flushPausedEnv.TableKept ∧ flushPausedEnv.VersionsGrow oldState.storage ∧
      Committed oneRow ⟨5, .putFlag, 12, some 99⟩ ∧ ¬ s'.Keeps ⟨5, .putFlag, 12, some 99⟩ := by
  refine ⟨⟨some ⟨deltaTable, false, []⟩, some ⟨metaAt 6, .empty⟩⟩, rfl, ⟨nofun, nofun⟩, ⟨?_, ?_, ?_⟩,
    committed_oneRow, ?_⟩
  · rintro st ⟨⟩ v ⟨⟩
    exact le_rfl
  · rintro u ⟨⟩ v ⟨⟩
    exact le_rfl
  · rintro u ⟨⟩ v ⟨⟩
    exact le_rfl
  · rintro (⟨st, ⟨⟩, hrow⟩ | ⟨region, ⟨⟩, entry, hentry, -⟩)
    · exact absurd hrow not_mem_nil
    · exact absurd hentry nofun

end Runs

end TiFlash.Transaction
