import TiFlash.Transaction.FlushSystem
import TiFlash.Transaction.Proofs.RegionDataProofs

/-!
# Raft commands and the records in memory

The data of a region is sound when each record is a committed one and has its value at hand, in the default
column family if it does not carry it itself. One elementary command keeps this up to records that the rest
of the request deletes (`Sound.applyCmd`), so a request keeps it (`Sound.applyAll`); so do flushes, splits
and merges.
-/

namespace TiFlash.Transaction

open TiFlash.Lib List Option Except AList CFData HashMap RegionData

/-- Commits are told apart by their keys, and Puts of one row by their prewrite timestamps. -/
structure CommitLog.Ok (log : CommitLog) : Prop where
  key_inj : ∀ c ∈ log.committed, ∀ c' ∈ log.committed, c.row.key = c'.row.key → c = c'
  prewrite_inj : ∀ c ∈ log.committed, ∀ c' ∈ log.committed, c.row.writeType = .putFlag →
    c'.row.writeType = .putFlag → c.row.pk = c'.row.pk → c.prewriteTs = c'.prewriteTs → c = c'

namespace RegionData

/-- The commit that an entry of the write column family stands for. -/
def commitOf (key : TiKVKey) (entry : WriteCFEntry) : Commit := ⟨rowOf key entry, entry.decoded.prewriteTs⟩

/-- Where the value of a Put record is kept if it does not carry it. -/
def defaultKey (key : TiKVKey) (entry : WriteCFEntry) : TiKVKey := ⟨key.pk, entry.decoded.prewriteTs⟩

/-- The records in memory are committed ones with their values; deletions in `pending` excuse a record from
having its value in the default column family. -/
structure Sound (committed : List Commit) (pending : List WriteCmd) (data : RegionData) : Prop where
  logged : ∀ (key : TiKVKey) (entry : WriteCFEntry), data.writeCF.lookup key = some entry →
    commitOf key entry ∈ committed
  decoded : ∀ (key : TiKVKey) (entry : WriteCFEntry), data.writeCF.lookup key = some entry →
    ∃ d, decodeWriteCfValue entry.value = some d ∧ d.writeType = entry.decoded.writeType ∧
      d.prewriteTs = entry.decoded.prewriteTs
  filled : data.Filled
  default : ∀ (key : TiKVKey) (entry : WriteCFEntry), data.writeCF.lookup key = some entry →
    entry.decoded.writeType = .putFlag → entry.value.shortValue = none →
    data.defaultCF.lookup (defaultKey key entry) = entry.decoded.shortValue ∨
      WriteCmd.del .write key ∈ pending

theorem sound_empty (committed : List Commit) (pending : List WriteCmd) :
    Sound committed pending .empty :=
  ⟨nofun, nofun, nofun, nofun⟩

variable {committed committed' : List Commit} {pending rest : List WriteCmd} {data data' : RegionData}

theorem Sound.mono (h : Sound committed pending data) (hsub : ∀ c ∈ committed, c ∈ committed') :
    Sound committed' pending data :=
  ⟨fun key entry he => hsub _ (h.logged key entry he), h.decoded, h.filled, h.default⟩

theorem Sound.of_nil (h : Sound committed [] data) : Sound committed pending data :=
  ⟨h.logged, h.decoded, h.filled, fun key entry hentry hput hshort =>
    (h.default key entry hentry hput hshort).imp_right (nofun)⟩

/-- Fewer records are sound if those that are left still find their values. -/
theorem Sound.of_lookup (h : Sound committed pending data)
    (hlook : ∀ k entry, data'.writeCF.lookup k = some entry → data.writeCF.lookup k = some entry)
    (hdefault : ∀ k entry, data'.writeCF.lookup k = some entry → entry.decoded.writeType = .putFlag →
      entry.value.shortValue = none →
      data'.defaultCF.lookup (defaultKey k entry) = entry.decoded.shortValue ∨ WriteCmd.del .write k ∈ rest) :
    Sound committed rest data' where
  logged k entry hentry := h.logged k entry (hlook k entry hentry)
  decoded k entry hentry := h.decoded k entry (hlook k entry hentry)
  filled k entry hentry := h.filled k entry (hlook k entry hentry)
  default := hdefault

theorem Sound.default_value (h : Sound committed [] data) {key : TiKVKey} {entry : WriteCFEntry}
    (hentry : data.writeCF.lookup key = some entry) (htype : entry.decoded.writeType = .putFlag)
    (hshort : entry.value.shortValue = none) :
    data.defaultCF.lookup (defaultKey key entry) = entry.decoded.shortValue :=
  (h.default key entry hentry htype hshort).resolve_right not_mem_nil

theorem Sound.row_committed (h : Sound committed pending data) {row : RegionDataReadInfo}
    (hrow : row ∈ data.rows) : ∃ c ∈ committed, c.row = row := by
  obtain ⟨entry, hentry, hrow⟩ := mem_rows_iff.1 hrow
  exact ⟨_, h.logged _ _ hentry, hrow⟩

variable {d : DecodedWriteCFValue} {value : WriteCFValue}

theorem decodeWriteCfValue_shortValue
    (h : decodeWriteCfValue value = some d) : d.shortValue = value.shortValue := by
  obtain ⟨writeType, prewriteTs, shortValue, gcFence⟩ := value
  unfold decodeWriteCfValue at h
  cases writeType <;> cases gcFence <;> simp at h <;> rw [← h]

theorem decodeWriteCfValue_put (hput : value.writeType = .putFlag) (h : decodeWriteCfValue value = some d) :
    d.writeType = .putFlag ∧ d.prewriteTs = value.prewriteTs := by
  unfold decodeWriteCfValue at h
  rw [hput] at h
  split at h
  · cases h
  · cases h
    exact ⟨rfl, rfl⟩

end RegionData

open RegionData

/-- Each record is committed once, Puts of one row differ in their prewrite timestamps, a Put finds its value,
and a value is deleted only if `rest` deletes the record that needs it. -/
def WriteCmd.Legal (committed : List Commit) (data : RegionData) (rest : List WriteCmd) : WriteCmd → Prop
  | .put (.write key value) => ∀ d, decodeWriteCfValue value = some d → (∀ c ∈ committed, c.row.key ≠ key) ∧
      (d.writeType = .putFlag →
        (∀ c ∈ committed, c.row.writeType = .putFlag → c.row.pk = key.pk → c.prewriteTs ≠ d.prewriteTs) ∧
        (d.shortValue = none → data.defaultCF.lookup ⟨key.pk, d.prewriteTs⟩ ≠ none))
  | .del .default key => ∀ (k : TiKVKey) (entry : WriteCFEntry), data.writeCF.lookup k = some entry →
      entry.decoded.writeType = .putFlag → entry.value.shortValue = none →
      defaultKey k entry = key → WriteCmd.del .write k ∈ rest
  | _ => True

/-- Every command of the request is legal when its turn comes. -/
def LegalCmds (log : CommitLog) (data : RegionData) : List WriteCmd → Prop
  | [] => True
  | cmd :: cmds => cmd.Legal log.committed data cmds ∧
      ∀ data', data.applyCmd cmd = .ok data' → LegalCmds (log.record data cmd) data' cmds

/-- How a request changes what is owed and which records are in memory. -/
structure Evolves (log : CommitLog) (data : RegionData) (log' : CommitLog) (data' : RegionData) : Prop where
  committed : ∀ c ∈ log.committed, c ∈ log'.committed
  owed : ∀ row ∈ log'.owed, row ∈ data'.rows ∨ row ∈ log.owed ∧ row ∉ data.rows
  keys : ∀ key ∈ data'.writeCF, key ∈ data.writeCF ∨ ∀ c ∈ log.committed, c.row.key ≠ key

theorem Evolves.refl (log : CommitLog) (data : RegionData) : Evolves log data log data where
  committed _ hc := hc
  owed row hrow := (Classical.em (row ∈ data.rows)).imp id fun h => ⟨hrow, h⟩
  keys _ hkey := .inl hkey

theorem Evolves.trans {log log' log'' : CommitLog} {data data' data'' : RegionData}
    (h : Evolves log data log' data') (h' : Evolves log' data' log'' data'') :
    Evolves log data log'' data'' where
  committed c hc := h'.committed c (h.committed c hc)
  owed row hrow := by
    rcases h'.owed row hrow with hmem | ⟨howed, hout⟩
    · exact .inl hmem
    · rcases h.owed row howed with hmem | hold
      · exact absurd hmem hout
      · exact .inr hold
  keys key hkey := by
    rcases h'.keys key hkey with hmem | hfresh
    · exact h.keys key hmem
    · exact .inr fun c hc => hfresh c (h.committed c hc)

/-- Rows that a change leaves alone stay what they are, so nothing owed gets lost. -/
theorem Evolves.of_owed_subset {log log' : CommitLog} {data data' : RegionData}
    (hcommitted : log'.committed = log.committed) (howed : ∀ row ∈ log'.owed, row ∈ log.owed)
    (hrows : ∀ row ∈ log'.owed, row ∈ data.rows → row ∈ data'.rows)
    (hkeys : ∀ key ∈ data'.writeCF, key ∈ data.writeCF) : Evolves log data log' data' where
  committed c hc := hcommitted ▸ hc
  owed row hrow := by
    by_cases hmem : row ∈ data.rows
    · exact .inl (hrows row hrow hmem)
    · exact .inr ⟨howed row hrow, hmem⟩
  keys key hkey := .inl (hkeys key hkey)

section Cmd

variable {log : CommitLog} {data data' : RegionData} {rest : List WriteCmd} {cmd : WriteCmd}

variable {committed : List Commit}

theorem RegionData.Sound.drop_pending (h : Sound committed (cmd :: rest) data)
    (hcmd : ∀ key, cmd ≠ .del .write key) : Sound committed rest data := by
  refine h.of_lookup (fun _ _ hentry => hentry) fun key entry hentry hput hshort => ?_
  rcases h.default key entry hentry hput hshort with hval | hdel
  · exact .inl hval
  · exact .inr ((mem_cons.1 hdel).resolve_left fun heq => hcmd key heq.symm)

variable {key : TiKVKey}

theorem putWrite_keeps (hlog : log.Ok) {value : WriteCFValue}
    {d : DecodedWriteCFValue} (h : Sound log.committed rest data)
    (hdec : decodeWriteCfValue value = some d) (hnew : key ∉ data.writeCF)
    (hlegal : (WriteCmd.put (.write key value)).Legal log.committed data rest)
    (hdata : data' = { data with writeCF := data.writeCF.insert key ⟨value, data.filled key d⟩ }) :
    let log' := log.record data (.put (.write key value))
    Sound log'.committed rest data' ∧ log'.Ok ∧ Evolves log data log' data' := by
  subst hdata
  obtain ⟨hfresh, hput⟩ := hlegal d hdec
  have hlook : (data.writeCF.insert key ⟨value, data.filled key d⟩).lookup key =
      some ⟨value, data.filled key d⟩ := lookup_insert _
  have hkeep : ∀ (k : TiKVKey) (entry : WriteCFEntry), data.writeCF.lookup k = some entry →
      (data.writeCF.insert key ⟨value, data.filled key d⟩).lookup k = some entry :=
    fun k entry hentry => lookup_insert_of_some hnew hentry
  -- an entry of the new map is the new one or an old one
  have hcases : ∀ (k : TiKVKey) (entry : WriteCFEntry),
      (data.writeCF.insert key ⟨value, data.filled key d⟩).lookup k = some entry →
      k = key ∧ entry = ⟨value, data.filled key d⟩ ∨ data.writeCF.lookup k = some entry := by
    intro k entry hentry
    rw [lookup_insert_ite] at hentry
    split_ifs at hentry with hk
    · cases hentry
      exact .inl ⟨hk, rfl⟩
    · exact .inr hentry
  have hrecord : log.record data (.put (.write key value)) = ⟨commitOf key ⟨value, data.filled key d⟩ ::
      log.committed, rowOf key ⟨value, data.filled key d⟩ :: log.owed⟩ := by
    simp only [CommitLog.record, hdec, commitOf, rowOf_filled]
    rfl
  have hmem : rowOf key ⟨value, data.filled key d⟩ ∈
      rows { data with writeCF := data.writeCF.insert key ⟨value, data.filled key d⟩ } :=
    mem_rows_iff.2 ⟨_, hlook, rfl⟩
  simp only [hrecord]
  refine ⟨⟨?_, ?_, ?_, ?_⟩, ⟨?_, ?_⟩, ⟨fun c hc => mem_cons_of_mem _ hc, ?_, ?_⟩⟩
  · intro k entry hentry
    rcases hcases k entry hentry with ⟨rfl, rfl⟩ | hold
    · exact mem_cons_self
    · exact mem_cons_of_mem _ (h.logged k entry hold)
  · intro k entry hentry
    rcases hcases k entry hentry with ⟨rfl, rfl⟩ | hold
    · exact ⟨d, hdec, rfl, rfl⟩
    · exact h.decoded k entry hold
  · intro k entry hentry htype
    rcases hcases k entry hentry with ⟨rfl, rfl⟩ | hold
    · have htype' : d.writeType = .putFlag := htype
      obtain ⟨-, hvalue⟩ := hput htype'
      cases hs : d.shortValue with
      | some v => simp [filled, hs]
      | none => simpa [filled, hs, htype'] using hvalue hs
    · exact h.filled k entry hold htype
  · intro k entry hentry htype hshort
    rcases hcases k entry hentry with ⟨rfl, rfl⟩ | hold
    · have htype' : d.writeType = .putFlag := htype
      have hs : d.shortValue = none := (decodeWriteCfValue_shortValue hdec).trans hshort
      left
      simp [filled, defaultKey, hs, htype']
    · exact h.default k entry hold htype hshort
  · intro c hc c' hc' hkey
    rcases mem_cons.1 hc with rfl | hc <;> rcases mem_cons.1 hc' with rfl | hc'
    · rfl
    · exact absurd hkey.symm (hfresh c' hc')
    · exact absurd hkey (hfresh c hc)
    · exact hlog.key_inj c hc c' hc' hkey
  · intro c hc c' hc' hp hp' hpk hts
    rcases mem_cons.1 hc with rfl | hc <;> rcases mem_cons.1 hc' with rfl | hc'
    · rfl
    · exact absurd hts.symm ((hput hp).1 c' hc' hp' hpk.symm)
    · exact absurd hts ((hput hp').1 c hc hp hpk)
    · exact hlog.prewrite_inj c hc c' hc' hp hp' hpk hts
  · intro row hrow
    rcases mem_cons.1 hrow with rfl | hrow
    · exact .inl hmem
    · by_cases hold : row ∈ data.rows
      · obtain ⟨entry, hentry, heq⟩ := mem_rows_iff.1 hold
        exact .inl (mem_rows_iff.2 ⟨entry, hkeep _ _ hentry, heq⟩)
      · exact .inr ⟨hrow, hold⟩
  · intro k hk
    rcases (mem_insert _).1 hk with rfl | hk
    · exact .inr hfresh
    · exact .inl hk

theorem delWrite_keeps (h : Sound log.committed (.del .write key :: rest) data) :
    Sound log.committed rest (data.remove .write key) ∧
      Evolves log data (log.record data (.del .write key)) (data.remove .write key) := by
  have hlook : ∀ (k : TiKVKey) (entry : WriteCFEntry),
      (data.remove .write key).writeCF.lookup k = some entry → data.writeCF.lookup k = some entry ∧
        (k = key → entry.decoded.writeType = .delFlag) := by
    intro k entry hentry
    rcases remove_write_cases data key with ⟨heq, hdel⟩ | heq
    · rw [heq] at hentry
      refine ⟨hentry, ?_⟩
      rintro rfl
      exact hdel entry hentry
    · rw [heq, lookup_erase_ite] at hentry
      split_ifs at hentry with hk
      exact ⟨hentry, fun h => absurd h hk⟩
  have hother : ∀ (k : TiKVKey) (entry : WriteCFEntry), k ≠ key →
      data.writeCF.lookup k = some entry → (data.remove .write key).writeCF.lookup k = some entry := by
    intro k entry hne hentry
    rcases remove_write_cases data key with ⟨heq, -⟩ | heq
    · rwa [heq]
    · rw [heq]
      exact (lookup_erase_ne hne).trans hentry
  have hdefault : (data.remove .write key).defaultCF = data.defaultCF := by
    rcases remove_write_cases data key with ⟨heq, -⟩ | heq <;> rw [heq]
  refine ⟨h.of_lookup (fun k entry hentry => (hlook k entry hentry).1) ?_,
    Evolves.of_owed_subset rfl ?_ ?_ ?_⟩
  · intro k entry hentry htype hshort
    obtain ⟨hold, hkept⟩ := hlook k entry hentry
    rw [hdefault]
    rcases h.default k entry hold htype hshort with hval | hdel
    · exact .inl hval
    · rcases mem_cons.1 hdel with hdel | hdel
      · have hk : k = key := by injection hdel
        rw [hkept hk] at htype
        cases htype
      · exact .inr hdel
  · exact fun row hrow => (mem_filter.1 hrow).1
  · intro row hrow hold
    obtain ⟨entry, hentry, heq⟩ := mem_rows_iff.1 hold
    have hne : row.key ≠ key := by simpa using (mem_filter.1 hrow).2
    exact mem_rows_iff.2 ⟨entry, hother _ _ hne hentry, heq⟩
  · intro k hk
    obtain ⟨entry, hentry⟩ := mem_iff_lookup.1 hk
    exact mem_iff_lookup.2 ⟨entry, (hlook k entry hentry).1⟩

/-- Changes of the other column families that leave the values of all records in place. -/
theorem RegionData.Sound.of_writeCF_eq (h : Sound committed (cmd :: rest) data)
    (hwrite : data'.writeCF = data.writeCF) (hcmd : ∀ key, cmd ≠ .del .write key)
    (hdefault : ∀ (key : TiKVKey) (entry : WriteCFEntry), data.writeCF.lookup key = some entry →
      entry.decoded.writeType = .putFlag → entry.value.shortValue = none →
      data.defaultCF.lookup (defaultKey key entry) = entry.decoded.shortValue →
      data'.defaultCF.lookup (defaultKey key entry) = entry.decoded.shortValue ∨
        WriteCmd.del .write key ∈ rest) : Sound committed rest data' := by
  have h := h.drop_pending hcmd
  refine h.of_lookup (fun _ _ hentry => hwrite ▸ hentry) fun key entry hentry htype hshort => ?_
  rw [hwrite] at hentry
  rcases h.default key entry hentry htype hshort with hval | hdel
  · exact hdefault key entry hentry htype hshort hval
  · exact .inr hdel

theorem Evolves.of_writeCF_eq (hwrite : data'.writeCF = data.writeCF) (hlog : log.record data cmd = log) :
    Evolves log data (log.record data cmd) data' := by
  rw [hlog]
  refine .of_owed_subset rfl (fun _ hrow => hrow) (fun row _ hrow => ?_) fun key hkey => hwrite ▸ hkey
  unfold rows at hrow ⊢
  rwa [hwrite]

theorem RegionData.Sound.applyCmd (h : Sound log.committed (cmd :: rest) data) (hlog : log.Ok)
    (hlegal : cmd.Legal log.committed data rest) (hrun : data.applyCmd cmd = .ok data') :
    Sound (log.record data cmd).committed rest data' ∧ (log.record data cmd).Ok ∧
      Evolves log data (log.record data cmd) data' := by
  cases cmd with
  | put kv =>
    rcases insert_cases hrun with ⟨key, value, rfl, hdec, hdata⟩ |
      ⟨key, value, d, rfl, hdec, hnew, -, hdata⟩ | ⟨key, value, rfl, hnew, rfl⟩ | ⟨key, value, rfl, rfl⟩
    · have hrecord : log.record data (.put (.write key value)) = log := by
        simp only [CommitLog.record, hdec]
      subst hdata
      rw [hrecord]
      exact ⟨h.drop_pending nofun, hlog, .refl _ _⟩
    · exact putWrite_keeps hlog (h.drop_pending nofun) hdec hnew hlegal hdata
    · refine ⟨h.of_writeCF_eq rfl nofun ?_, hlog, .of_writeCF_eq rfl rfl⟩
      intro k entry hentry htype _ hval
      left
      obtain ⟨v, hv⟩ := ne_none_iff_exists'.1 (h.filled k entry hentry htype)
      rw [hv] at hval ⊢
      exact lookup_insert_of_some hnew hval
    · exact ⟨h.of_writeCF_eq rfl nofun fun _ _ _ _ _ hval => .inl hval, hlog, .of_writeCF_eq rfl rfl⟩
  | del cf key =>
    cases hrun
    cases cf with
    | write =>
      obtain ⟨hsound, hevolves⟩ := delWrite_keeps h
      exact ⟨hsound, ⟨hlog.key_inj, hlog.prewrite_inj⟩, hevolves⟩
    | default =>
      refine ⟨h.of_writeCF_eq rfl nofun ?_, hlog, .of_writeCF_eq rfl rfl⟩
      intro k entry hentry htype hshort hval
      by_cases hk : defaultKey k entry = key
      · exact .inr (hlegal k entry hentry htype hshort hk)
      · exact .inl ((lookup_erase_ne hk).trans hval)
    | lock => exact ⟨h.of_writeCF_eq rfl nofun fun _ _ _ _ _ hval => .inl hval, hlog, .of_writeCF_eq rfl rfl⟩

theorem RegionData.Sound.applyAll {cmds : List WriteCmd} (h : Sound log.committed cmds data) (hlog : log.Ok)
    (hlegal : LegalCmds log data cmds) (hrun : cmds.foldlM RegionData.applyCmd data = .ok data') :
    Sound (log.recordAll data cmds).committed [] data' ∧ (log.recordAll data cmds).Ok ∧
      Evolves log data (log.recordAll data cmds) data' := by
  induction cmds generalizing log data with
  | nil =>
    rw [foldlM_nil, pure_eq_ok_iff] at hrun
    subst hrun
    exact ⟨h, hlog, .refl _ _⟩
  | cons cmd cmds ih =>
    rw [foldlM_cons, bind_eq_ok_iff] at hrun
    obtain ⟨data₁, hcmd, hrest⟩ := hrun
    obtain ⟨hcmd_legal, hrest_legal⟩ := hlegal
    obtain ⟨hsound, hok, hevolves⟩ := h.applyCmd hlog hcmd_legal hcmd
    have hall : log.recordAll data (cmd :: cmds) = (log.record data cmd).recordAll data₁ cmds := by
      simp only [CommitLog.recordAll, hcmd]
    rw [hall]
    obtain ⟨hsound', hok', hevolves'⟩ := ih hsound hok (hrest_legal data₁ hcmd) hrest
    exact ⟨hsound', hok', hevolves.trans hevolves'⟩

end Cmd

section Remove

variable {log : CommitLog} {data : RegionData}

/-- A record leaves with its own value and no other. -/
theorem RegionData.Sound.removeCommitted (h : Sound log.committed [] data) (hlog : log.Ok) (key : TiKVKey) :
    Sound log.committed [] (data.removeCommitted key) := by
  unfold RegionData.removeCommitted
  cases hl : data.writeCF.lookup key with
  | none => exact h
  | some removed =>
    have hlook : ∀ (k : TiKVKey) (entry : WriteCFEntry), (data.writeCF.erase key).lookup k = some entry →
        k ≠ key ∧ data.writeCF.lookup k = some entry := by
      intro k entry hentry
      rw [lookup_erase_ite] at hentry
      split_ifs at hentry with hk
      exact ⟨hk, hentry⟩
    refine h.of_lookup (fun k entry hentry => (hlook k entry hentry).2) fun k entry hentry htype hshort => ?_
    obtain ⟨hne, hold⟩ := hlook k entry hentry
    have hval := h.default_value hold htype hshort
    left
    simp only [removeDataByWriteIt]
    split_ifs with hput
    · -- the removed value belongs to another commit
      refine (lookup_erase_ne fun hkey => hne ?_).trans hval
      simp only [defaultKey, TiKVKey.mk.injEq] at hkey
      have hsame : commitOf k entry = commitOf key removed :=
        hlog.prewrite_inj _ (h.logged k entry hold) _ (h.logged key removed hl) htype hput hkey.1 hkey.2
      exact congrArg (fun c : Commit => c.row.key) hsame
    · exact hval

theorem RegionData.Sound.removeCommitCache (h : Sound log.committed [] data) (hlog : log.Ok)
    (removed : List RegionDataReadInfo) : Sound log.committed [] (data.removeCommitCache removed) := by
  induction removed generalizing data with
  | nil => exact h
  | cons row removed ih => exact ih (h.removeCommitted hlog row.key)

end Remove

/-- The bounds of the range do not lie between versions of a row. -/
def RegionRange.RespectsRows (range : RegionRange) : Prop :=
  ∀ pk ts ts', range.contains ⟨pk, ts⟩ = range.contains ⟨pk, ts'⟩

section Split

theorem CFData.lookup_splitInto {ν : Type} (range : RegionRange) (ori : HashMap TiKVKey ν)
    (k : TiKVKey) :
    ((splitInto range ori ∅).1.lookup k, (splitInto range ori ∅).2.lookup k) =
      if range.contains k then (none, ori.lookup k) else (ori.lookup k, none) := by
  have hfold := get_foldl
    (fun (maps : HashMap TiKVKey ν × HashMap TiKVKey ν) k => (maps.1.lookup k, maps.2.lookup k))
    (f := fun maps key value => if range.contains key then
      (maps.1.erase key, if key ∈ maps.2 then maps.2 else maps.2.insert key value) else maps)
    (g := fun key value cell => if range.contains key then (none, cell.2.or (some value)) else cell)
    ?_ ?_ ori (ori, ∅) k
  · refine hfold.trans ?_
    cases hl : ori.lookup k with
    | none | some v => by_cases hk : range.contains k = true <;> simp [hk]
  · intro maps key value
    by_cases hk : range.contains key = true
    · simp only [hk, if_true, lookup_erase]
      by_cases hmem : key ∈ maps.2
      · obtain ⟨v, hv⟩ := mem_iff_lookup.1 hmem
        simp [hmem, hv]
      · simp [hmem, lookup_insert, lookup_eq_none.2 hmem]
    · simp [hk]
  · intro maps key value k' hne
    by_cases hk : range.contains key = true
    · simp only [hk, if_true, lookup_erase_ne hne]
      by_cases hmem : key ∈ maps.2
      · simp [hmem]
      · simp [hmem, lookup_insert_ne hne]
    · simp [hk]

variable {committed : List Commit} {data : RegionData} {range : RegionRange}

theorem RegionData.lookup_splitInto_fst (data : RegionData) (range : RegionRange) (k : TiKVKey) :
    (data.splitInto range).1.writeCF.lookup k = if range.contains k then none else data.writeCF.lookup k := by
  have h := congrArg Prod.fst (lookup_splitInto range data.writeCF k)
  by_cases hk : range.contains k = true <;> simpa [hk, splitInto] using h

theorem RegionData.lookup_splitInto_snd (data : RegionData) (range : RegionRange) (k : TiKVKey) :
    (data.splitInto range).2.writeCF.lookup k = if range.contains k then data.writeCF.lookup k else none := by
  have h := congrArg Prod.snd (lookup_splitInto range data.writeCF k)
  by_cases hk : range.contains k = true <;> simpa [hk, splitInto] using h

variable {k : TiKVKey}

theorem RegionData.mem_splitInto_fst : k ∈ (data.splitInto range).1.writeCF ↔
    range.contains k = false ∧ k ∈ data.writeCF := by
  rw [← lookup_isSome, lookup_splitInto_fst, ← lookup_isSome]
  by_cases hk : range.contains k = true <;> simp [hk]

theorem RegionData.mem_splitInto_snd : k ∈ (data.splitInto range).2.writeCF ↔
    range.contains k = true ∧ k ∈ data.writeCF := by
  rw [← lookup_isSome, lookup_splitInto_snd, ← lookup_isSome]
  by_cases hk : range.contains k = true <;> simp [hk]

theorem RegionData.mem_rows_splitInto (range : RegionRange) {row : RegionDataReadInfo}
    (hrow : row ∈ data.rows) :
    row ∈ (data.splitInto range).1.rows ∨ row ∈ (data.splitInto range).2.rows := by
  obtain ⟨entry, hentry, heq⟩ := mem_rows_iff.1 hrow
  by_cases hk : range.contains row.key = true
  · exact .inr (mem_rows_iff.2 ⟨entry, by rw [lookup_splitInto_snd, if_pos hk, hentry], heq⟩)
  · exact .inl (mem_rows_iff.2 ⟨entry, by rw [lookup_splitInto_fst, if_neg hk, hentry], heq⟩)

theorem RegionData.Sound.of_side {data' : RegionData} (h : Sound committed [] data)
    (hrange : range.RespectsRows) (side : Bool)
    (hwrite : ∀ k, data'.writeCF.lookup k = if range.contains k = side then data.writeCF.lookup k else none)
    (hdefault : ∀ k, data'.defaultCF.lookup k =
      if range.contains k = side then data.defaultCF.lookup k else none) : Sound committed [] data' := by
  have hlook : ∀ (k : TiKVKey) (entry : WriteCFEntry), data'.writeCF.lookup k = some entry →
      range.contains k = side ∧ data.writeCF.lookup k = some entry := by
    intro k entry hentry
    rw [hwrite] at hentry
    split_ifs at hentry with hk
    exact ⟨hk, hentry⟩
  refine h.of_lookup (fun k entry hentry => (hlook k entry hentry).2) fun k entry hentry htype hshort => ?_
  obtain ⟨hk, hold⟩ := hlook k entry hentry
  left
  have hdefaultKey : range.contains (defaultKey k entry) = side := (hrange _ _ _).trans hk
  rw [hdefault, if_pos hdefaultKey, h.default_value hold htype hshort]

/-- Both parts of a split are sound: records and their values go the same way. -/
theorem RegionData.Sound.splitInto (h : Sound committed [] data) (hrange : range.RespectsRows) :
    Sound committed [] (data.splitInto range).1 ∧ Sound committed [] (data.splitInto range).2 := by
  constructor
  · refine h.of_side hrange false (fun k => ?_) fun k => ?_
    · rw [lookup_splitInto_fst]
      cases range.contains k <;> rfl
    · refine (congrArg Prod.fst (lookup_splitInto range data.defaultCF k)).trans ?_
      cases range.contains k <;> rfl
  · refine h.of_side hrange true (lookup_splitInto_snd data range) fun k => ?_
    refine (congrArg Prod.snd (lookup_splitInto range data.defaultCF k)).trans ?_
    cases range.contains k <;> rfl

end Split

section Merge

variable {ν : Type}

theorem CFData.lookup_foldlM_emplaceNew {pairs : List ((_ : TiKVKey) × ν)}
    (hnodup : pairs.NodupKeys) {tar m : HashMap TiKVKey ν}
    (h : pairs.foldlM emplaceNew tar = .ok m) :
    (∀ k, m.lookup k = (tar.lookup k).or (pairs.dlookup k)) ∧ ∀ k ∈ pairs.keys, k ∉ tar := by
  induction pairs generalizing tar with
  | nil =>
    rw [foldlM_nil, pure_eq_ok_iff] at h
    subst h
    simp
  | cons pair pairs ih =>
    rw [foldlM_cons, bind_eq_ok_iff] at h
    obtain ⟨tar₁, hstep, hrest⟩ := h
    unfold emplaceNew at hstep
    split_ifs at hstep with hmem
    cases hstep
    rw [nodupKeys_cons] at hnodup
    obtain ⟨hlook, hout⟩ := ih hnodup.2 hrest
    constructor
    · intro k
      rw [hlook k, lookup_insert_ite]
      by_cases hk : k = pair.1
      · subst hk
        rw [if_pos rfl, lookup_eq_none.2 hmem, some_or, none_or]
        exact (dlookup_cons_eq pairs pair.1 pair.2).symm
      · rw [if_neg hk, dlookup_cons_ne _ _ hk]
    · intro k hk
      rw [keys_cons, mem_cons] at hk
      rcases hk with rfl | hk
      · exact hmem
      · exact fun hin => hout k hk ((mem_insert _).2 (.inr hin))

theorem CFData.lookup_mergeFrom {tar ori m : HashMap TiKVKey ν} (h : mergeFrom tar ori = .ok m) :
    (∀ k, m.lookup k = (tar.lookup k).or (ori.lookup k)) ∧ ∀ k ∈ ori, k ∉ tar :=
  lookup_foldlM_emplaceNew ori.nodupKeys h

variable {committed : List Commit} {data ori data' : RegionData}

section

variable (h : data.mergeFrom ori = .ok data')
include h

theorem RegionData.mergeFrom_ok :
    CFData.mergeFrom data.writeCF ori.writeCF = .ok data'.writeCF ∧
      CFData.mergeFrom data.defaultCF ori.defaultCF = .ok data'.defaultCF := by
  obtain ⟨default, hdefault, h⟩ := bind_eq_ok_iff.1 h
  obtain ⟨write, hwrite, h⟩ := bind_eq_ok_iff.1 h
  obtain ⟨lock, -, h⟩ := bind_eq_ok_iff.1 h
  cases h
  exact ⟨hwrite, hdefault⟩

theorem RegionData.lookup_mergeFrom (k : TiKVKey) :
    data'.writeCF.lookup k = (data.writeCF.lookup k).or (ori.writeCF.lookup k) :=
  (CFData.lookup_mergeFrom (mergeFrom_ok h).1).1 k

theorem RegionData.mem_mergeFrom {k : TiKVKey} :
    k ∈ data'.writeCF ↔ k ∈ data.writeCF ∨ k ∈ ori.writeCF := by
  rw [← lookup_isSome, lookup_mergeFrom h, ← lookup_isSome, ← lookup_isSome, isSome_or, Bool.or_eq_true]

theorem RegionData.mem_rows_mergeFrom {row : RegionDataReadInfo} (hrow : row ∈ data.rows ∨ row ∈ ori.rows) :
    row ∈ data'.rows := by
  rcases hrow with hrow | hrow
  · obtain ⟨entry, hentry, heq⟩ := mem_rows_iff.1 hrow
    exact mem_rows_iff.2 ⟨entry, by rw [lookup_mergeFrom h, hentry, some_or], heq⟩
  · obtain ⟨entry, hentry, heq⟩ := mem_rows_iff.1 hrow
    have hnone : data.writeCF.lookup row.key = none :=
      AList.lookup_eq_none.2 ((CFData.lookup_mergeFrom (mergeFrom_ok h).1).2 _
        (mem_iff_lookup.2 ⟨entry, hentry⟩))
    exact mem_rows_iff.2 ⟨entry, by rw [lookup_mergeFrom h, hnone, none_or, hentry], heq⟩

end

/-- A merge keeps the records of both sides, with their values. -/
theorem RegionData.Sound.mergeFrom (h : Sound committed [] data) (hori : Sound committed [] ori)
    (hrun : data.mergeFrom ori = .ok data') : Sound committed [] data' := by
  obtain ⟨hdefault, hdisj⟩ := CFData.lookup_mergeFrom (mergeFrom_ok hrun).2
  have hcases : ∀ (k : TiKVKey) (entry : WriteCFEntry), data'.writeCF.lookup k = some entry →
      data.writeCF.lookup k = some entry ∨ ori.writeCF.lookup k = some entry := by
    intro k entry hentry
    rw [lookup_mergeFrom hrun] at hentry
    rcases or_eq_some_iff.1 hentry with hd | ⟨-, ho⟩
    · exact .inl hd
    · exact .inr ho
  refine ⟨?_, ?_, ?_, ?_⟩
  · exact fun k entry hentry => (hcases k entry hentry).elim (h.logged k entry) (hori.logged k entry)
  · exact fun k entry hentry => (hcases k entry hentry).elim (h.decoded k entry) (hori.decoded k entry)
  · exact fun k entry hentry => (hcases k entry hentry).elim (h.filled k entry) (hori.filled k entry)
  · intro k entry hentry htype hshort
    left
    rw [hdefault]
    rcases hcases k entry hentry with hd | ho
    · have hval := h.default_value hd htype hshort
      obtain ⟨v, hv⟩ := ne_none_iff_exists'.1 (h.filled k entry hd htype)
      rw [hval, hv, some_or]
    · have hval := hori.default_value ho htype hshort
      obtain ⟨v, hv⟩ := ne_none_iff_exists'.1 (hori.filled k entry ho htype)
      have hnone : data.defaultCF.lookup (defaultKey k entry) = none := by
        refine lookup_eq_none.2 (hdisj _ ?_)
        exact mem_iff_lookup.2 ⟨_, hval.trans hv⟩
      rw [hnone, none_or, hval]

end Merge

end TiFlash.Transaction
