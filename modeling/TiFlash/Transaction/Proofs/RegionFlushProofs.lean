import TiFlash.Transaction.RegionFlush
import TiFlash.Lib.ExceptBind

/-!
# What a flush leaves in the storage

Whatever happens, a flush keeps the table alive and its schema version is the old one or that of the schema
sync (`tryFlushRegion_keeps`). Undisturbed, it stores all rows of the pre-decoded block
(`tryFlushRegion_stores`).
-/

namespace TiFlash.Transaction

open TiFlash.Lib EStateM

def SchemaSync.version? : SchemaSync → Option Int
  | failed _ => none
  | synced table => table.map (·.schemaVersion)

/-- The table is there, with the engine. -/
structure Storage.Alive (storage : Storage) (engine : StorageEngine) : Prop where
  not_tombstone : storage.isTombstone = false
  engine_eq : storage.tableInfo.engineType = engine

/-- What stays true of the storage of a table that is not dropped. -/
def KeepsTable (engine : StorageEngine) (version : Int) (sync : SchemaSync) (storage : Option Storage) :
    Prop :=
  ∃ st : Storage, storage = some st ∧ st.Alive engine ∧
    (st.tableInfo.schemaVersion = version ∨ sync.version? = some st.tableInfo.schemaVersion)

section Keeps

variable {engine : StorageEngine} {version : Int} {sync : SchemaSync}

theorem KeepsTable.append {st : Storage} (rows : List RegionDataReadInfo)
    (h : KeepsTable engine version sync (some st)) :
    KeepsTable engine version sync (some (st.append rows)) := by
  obtain ⟨_, hst, halive, hversion⟩ := h
  cases hst
  exact ⟨_, rfl, ⟨halive.not_tombstone, halive.engine_eq⟩, hversion⟩

theorem KeepsTable.syncSchemas {storage storage' : Option Storage}
    (h : KeepsTable engine version sync storage) (hsync : sync ≠ .synced none)
    (hrun : sync.syncSchemas storage = .ok storage') : KeepsTable engine version sync storage' := by
  obtain ⟨st, rfl, halive, -⟩ := h
  cases sync with
  | failed e => cases hrun
  | synced table =>
    cases table with
    | none => exact absurd rfl hsync
    | some table =>
      cases hrun
      exact ⟨_, rfl, ⟨rfl, halive.engine_eq⟩, .inr rfl⟩

variable {P : FlushState → Prop}

theorem preserves_raise (e : Option Exception) :
    EStateM.Preserves P (raise e) := by
  cases e with
  | none => exact .pure ()
  | some e => exact .throw e

theorem preserves_ofExcept {α : Type} (x : Except Exception α) :
    EStateM.Preserves P (ofExcept x) := by
  cases x with
  | ok a => exact .pure a
  | error e => exact .throw e

theorem keeps_writeBlock {storage : Storage} {write : Option (Nat × Exception)}
    {block : List RegionDataReadInfo} {s : FlushState}
    (h : KeepsTable engine version sync (some storage)) (hs : KeepsTable engine version sync s.storage) :
    KeepsTable engine version sync (EStateM.stateOf (writeBlock storage write block s)).storage := by
  unfold writeBlock
  split
  · exact hs
  · cases write with
    | none => exact h.append block
    | some p => exact h.append (block.take p.1)

theorem keeps_atomicReadWrite (env : AttemptEnv) (rows : List RegionDataReadInfo) (force : Bool) :
    EStateM.Preserves (fun s => KeepsTable engine version sync s.storage)
      (atomicReadWrite env rows force) := by
  refine .get_bind fun s hs => ?_
  cases hst : s.storage with
  | none => simpa [EStateM.stateOf] using hs
  | some storage =>
    have hst' : KeepsTable engine version sync (some storage) := hst ▸ hs
    simp only
    split_ifs
    · exact hs
    · refine EStateM.Preserves.bind (P := fun s => KeepsTable engine version sync s.storage)
        (preserves_raise _) (fun _ => .bind ?_ fun _ => ?_) s hs
      · exact .set hst'
      · split
        · refine .bind (fun s hs => keeps_writeBlock hst' hs) fun _ => .pure _
        · refine .bind (preserves_ofExcept _) fun ok => ?_
          split_ifs
          · exact .bind (fun s hs => keeps_writeBlock hst' hs) fun _ => .pure _
          · exact .pure _

theorem tryFlushRegion_keeps (env : FlushEnv) (hsync : env.sync ≠ .synced none) :
    EStateM.Preserves (fun s => KeepsTable engine version env.sync s.storage) (tryFlushRegion env) := by
  unfold tryFlushRegion
  split_ifs
  · exact .pure _
  · exact .pure _
  · refine .bind ?_ fun rows => ?_
    · refine .get_bind fun s hs => ?_
      cases s.preDecodeCache with
      | some cache => exact hs
      | none => exact preserves_ofExcept (P := fun s => KeepsTable engine version env.sync s.storage) _ s hs
    · cases rows with
      | none => exact .pure _
      | some rows =>
        refine .bind ?_ fun _ => .modify fun _ hs => hs
        refine .bind (keeps_atomicReadWrite _ _ _) fun done => ?_
        split_ifs
        · exact .pure _
        · refine .get_bind fun s hs => ?_
          cases hrun : env.sync.syncSchemas s.storage with
          | error e => exact hs
          | ok storage =>
            have hstorage := hs.syncSchemas hsync hrun
            have hrest : EStateM.Preserves (fun s => KeepsTable engine version env.sync s.storage) (do
                if ← atomicReadWrite env.second rows true then return
                else throw (.writeRegionFailed s.region.info.regionID s.region.info.tableID)) := by
              refine .bind (keeps_atomicReadWrite _ _ _) fun done => ?_
              split_ifs
              · exact .pure _
              · exact .throw _
            exact hrest { s with storage := storage } hstorage

end Keeps

/-- Nothing around the attempt raises an exception. -/
structure AttemptEnv.Undisturbed (env : AttemptEnv) : Prop where
  lockStructure : env.lockStructure = none
  readRegionBlock : ∃ ok, env.readRegionBlock = .ok ok
  write : env.write = none

/-- No other flush holds the region, nothing raises an exception and the schema sync finds a schema that the
rows fit. -/
structure FlushEnv.Undisturbed (env : FlushEnv) : Prop where
  internalRegion : env.internalRegion = true
  pauseFlush : env.pauseFlush = false
  first : env.first.Undisturbed
  sync : ∃ table, env.sync = .synced (some table)
  second : env.second.Undisturbed
  fits : env.second.readRegionBlock = .ok true

section Stores

variable {engine : StorageEngine} {storage : Storage}

theorem writeBlock_undisturbed (h : storage.Alive engine) (hengine : engine ≠ .unspecified)
    (block : List RegionDataReadInfo) (s : FlushState) :
    writeBlock storage none block s = .ok () { s with storage := some (storage.append block) } := by
  unfold writeBlock
  rw [if_neg (by rw [h.engine_eq]; exact hengine)]
  rfl

variable {s : FlushState}

theorem atomicReadWrite_undisturbed {env : AttemptEnv} (henv : env.Undisturbed)
    (hst : s.storage = some storage) (halive : storage.Alive engine) (hengine : engine ≠ .unspecified)
    (rows : List RegionDataReadInfo) (force : Bool) :
    atomicReadWrite env rows force s = match cachedBlock s.preDecodeCache storage.tableInfo.schemaVersion with
      | some block => .ok true
          { s with storage := some (storage.append block), preDecodeCache := clearBlock s.preDecodeCache }
      | none =>
        if env.readRegionBlock = .ok true then .ok true
          { s with storage := some (storage.append rows), preDecodeCache := clearBlock s.preDecodeCache }
        else .ok false { s with preDecodeCache := clearBlock s.preDecodeCache } := by
  obtain ⟨hlock, ⟨ok, hok⟩, hwrite⟩ := henv
  unfold atomicReadWrite
  rw [bind_of_ok (get_apply s), hst]
  simp only [halive.not_tombstone, Bool.false_eq_true, if_false, hlock, hwrite, hok]
  cases cachedBlock s.preDecodeCache storage.tableInfo.schemaVersion with
  | some block => exact bind_of_ok (writeBlock_undisturbed halive hengine block _)
  | none =>
    cases ok with
    | true => exact bind_of_ok (writeBlock_undisturbed halive hengine rows _)
    | false => rfl

variable {env : FlushEnv} {cache : RegionPreDecodeBlockData}

/-- The second attempt decodes the rows anew, since the cached block is of an older schema. -/
theorem writeRegionDataToStorage_stores (henv : env.Undisturbed) (hst : s.storage = some storage) (halive : storage.Alive engine)
    (hengine : engine ≠ .unspecified) (hcache : s.preDecodeCache = some cache)
    {rows : List RegionDataReadInfo} (hblock : cache.block = rows)
    (hversion : cache.schemaVersion ≠ storage.tableInfo.schemaVersion →
      env.sync.version? ≠ some cache.schemaVersion) :
    ∃ s' storage', writeRegionDataToStorage env rows s = .ok () s' ∧ s'.storage = some storage' ∧
      ∀ row ∈ rows, row ∈ storage'.rows := by
  have hfirst := atomicReadWrite_undisturbed henv.first hst halive hengine rows false
  have hmem : ∀ (st : Storage), ∀ row ∈ rows, row ∈ (st.append rows).rows := fun st row hrow =>
    List.mem_append_right _ hrow
  unfold writeRegionDataToStorage
  rw [hcache] at hfirst
  by_cases hv : cache.schemaVersion = storage.tableInfo.schemaVersion
  · simp only [cachedBlock, hv, if_true, hblock] at hfirst
    rw [bind_of_ok hfirst]
    exact ⟨_, _, rfl, rfl, hmem storage⟩
  · simp only [cachedBlock, hv, if_false] at hfirst
    by_cases hdec : env.first.readRegionBlock = .ok true
    · rw [if_pos hdec] at hfirst
      rw [bind_of_ok hfirst]
      exact ⟨_, _, rfl, rfl, hmem storage⟩
    · rw [if_neg hdec] at hfirst
      rw [bind_of_ok hfirst]
      obtain ⟨table, hsync⟩ := henv.sync
      simp only [Bool.false_eq_true, if_false]
      rw [bind_of_ok (get_apply _)]
      have hrun : env.sync.syncSchemas s.storage = .ok (some { storage with
          tableInfo := { storage.tableInfo with schemaVersion := table.schemaVersion },
          isTombstone := false }) := by
        rw [hsync, hst]
        rfl
      simp only [hrun]
      rw [bind_of_ok (show ofExcept (.ok _) _ = .ok _ _ from rfl), bind_of_ok (set_apply _ _)]
      have hold : cache.schemaVersion ≠ table.schemaVersion := by
        have := hversion hv
        rw [hsync] at this
        exact fun h => this (congrArg some h.symm)
      have hsecond := atomicReadWrite_undisturbed henv.second
        (s := ⟨some { storage with
          tableInfo := { storage.tableInfo with schemaVersion := table.schemaVersion },
          isTombstone := false }, s.region, clearBlock (some cache)⟩) rfl
        ⟨rfl, halive.engine_eq⟩ hengine rows true
      have hcleared : cachedBlock (clearBlock (some cache)) table.schemaVersion = none := if_neg hold
      simp only [hcleared, henv.fits, if_true] at hsecond
      rw [bind_of_ok hsecond]
      exact ⟨_, _, rfl, rfl, hmem _⟩

theorem tryFlushRegion_stores (henv : env.Undisturbed) (region : Region) (halive : storage.Alive engine) (hengine : engine ≠ .unspecified)
    (hblock : cache.block = cache.dataListRead)
    (hversion : cache.schemaVersion ≠ storage.tableInfo.schemaVersion →
      env.sync.version? ≠ some cache.schemaVersion) :
    ∃ s' storage', tryFlushRegion env ⟨some storage, region, some cache⟩ = .ok () s' ∧
      s'.storage = some storage' ∧ ∀ row ∈ cache.dataListRead, row ∈ storage'.rows := by
  obtain ⟨s', storage', hrun, hstorage, hrows⟩ := writeRegionDataToStorage_stores henv
    (s := ⟨some storage, region, some { cache with dataListRead := [] }⟩) rfl halive hengine rfl hblock
    hversion
  refine ⟨{ s' with region := s'.region.removeRegionCommitCache cache.dataListRead }, storage', ?_,
    hstorage, hrows⟩
  unfold tryFlushRegion writeBlockByRegion
  simp only [henv.internalRegion, henv.pauseFlush, Bool.not_true, Bool.false_eq_true, if_false]
  exact bind_of_ok hrun

end Stores

end TiFlash.Transaction
