import TiFlash.Transaction.Proofs.RegionCommandsProofs
import TiFlash.Transaction.Proofs.SnapshotOverlapProofs

/-!
# A flush never loses a commit

The invariant speaks of the regions by id (`get`). Each action keeps it if raft behaves
(`FlushAction.Legal`); `flush_loses_no_commit` is read off it.
-/

namespace TiFlash.Transaction

open TiFlash.Lib RegionData HashMap List Option Except Function AList

/-- Records in memory are sound and each in one region; what is owed is in the storage or in memory; storage
and flushes have only rows of commits. -/
structure FlushInv (get : RegionID → Option Region) (storage : List RegionDataReadInfo)
    (workers : List FlushWorker) (log : CommitLog) : Prop where
  log_ok : log.Ok
  ids : ∀ id region, get id = some region → region.info.regionID = id
  sound : ∀ id region, get id = some region → region.data.Sound log.committed []
  apart : ∀ id id' region region' key, get id = some region → get id' = some region' →
    key ∈ region.data.writeCF → key ∈ region'.data.writeCF → id = id'
  stored : ∀ row ∈ storage, ∃ c ∈ log.committed, c.row = row
  owed : ∀ row ∈ log.owed, row ∈ storage ∨ ∃ id region, get id = some region ∧ row ∈ region.data.rows
  collected : ∀ w ∈ workers, ∀ row ∈ w.rows, ∃ c ∈ log.committed, c.row = row
  written : ∀ w ∈ workers, w.written = true → ∀ row ∈ w.rows, row ∈ storage

section Change

variable {get get' : RegionID → Option Region} {storage : List RegionDataReadInfo}
  {workers : List FlushWorker} {log log' : CommitLog} {id : RegionID} {region region' : Region}

theorem RegionData.Sound.key_committed {committed : List Commit} {data : RegionData}
    (h : data.Sound committed []) {key : TiKVKey} (hkey : key ∈ data.writeCF) :
    ∃ c ∈ committed, c.row.key = key := by
  obtain ⟨entry, hentry⟩ := mem_iff_lookup.1 hkey
  exact ⟨_, h.logged key entry hentry, rfl⟩

section

variable (h : FlushInv get storage workers log)
include h

/-- One region changes: its new records are new commits, and no row that is owed gets lost. -/
theorem FlushInv.update (hget : get id = some region) (hid : region'.info.regionID = id) (hlog : log'.Ok)
    (hsub : ∀ c ∈ log.committed, c ∈ log'.committed) (hsound : region'.data.Sound log'.committed [])
    (hkeys : ∀ key ∈ region'.data.writeCF, key ∈ region.data.writeCF ∨ ∀ c ∈ log.committed, c.row.key ≠ key)
    (howed : ∀ row ∈ log'.owed, row ∈ storage ∨ row ∈ region'.data.rows ∨
      row ∈ log.owed ∧ row ∉ region.data.rows) :
    FlushInv (update get id (some region')) storage workers log' := by
  have hother : ∀ i r key, get i = some r → key ∈ r.data.writeCF → key ∈ region'.data.writeCF → id = i := by
    intro i r key hi hkey hkey'
    rcases hkeys key hkey' with hold | hfresh
    · exact h.apart id i region r key hget hi hold hkey
    · obtain ⟨c, hc, hck⟩ := (h.sound i r hi).key_committed hkey
      exact absurd hck (hfresh c hc)
  refine ⟨hlog, ?_, ?_, ?_, ?_, ?_, ?_, h.written⟩
  · intro i r hi
    rcases update_eq_some_iff.1 hi with ⟨rfl, ⟨⟩⟩ | ⟨-, hi⟩
    · exact hid
    · exact h.ids i r hi
  · intro i r hi
    rcases update_eq_some_iff.1 hi with ⟨rfl, ⟨⟩⟩ | ⟨-, hi⟩
    · exact hsound
    · exact (h.sound i r hi).mono hsub
  · intro i i' r r' key hi hi' hkey hkey'
    rcases update_eq_some_iff.1 hi with ⟨rfl, ⟨⟩⟩ | ⟨-, hold⟩ <;>
      rcases update_eq_some_iff.1 hi' with ⟨rfl, ⟨⟩⟩ | ⟨-, hold'⟩
    · rfl
    · exact hother i' r' key hold' hkey' hkey
    · exact (hother i r key hold hkey hkey').symm
    · exact h.apart i i' r r' key hold hold' hkey hkey'
  · intro row hrow
    obtain ⟨c, hc, hcr⟩ := h.stored row hrow
    exact ⟨c, hsub c hc, hcr⟩
  · intro row hrow
    rcases howed row hrow with hst | hmem | ⟨hold, hout⟩
    · exact .inl hst
    · exact .inr ⟨id, region', update_self .., hmem⟩
    · rcases h.owed row hold with hst | ⟨i, r, hi, hmem⟩
      · exact .inl hst
      · have hne : i ≠ id := by
          rintro rfl
          rw [hget] at hi
          cases hi
          exact hout hmem
        exact .inr ⟨i, r, (update_of_ne hne ..).trans hi, hmem⟩
  · intro w hw row hrow
    obtain ⟨c, hc, hcr⟩ := h.collected w hw row hrow
    exact ⟨c, hsub c hc, hcr⟩

/-- The records are dealt out to the regions anew. -/
theorem FlushInv.redistribute (hids : ∀ id region, get' id = some region → region.info.regionID = id)
    (hsound : ∀ id region, get' id = some region → region.data.Sound log.committed [])
    (hapart : ∀ id id' region region' key, get' id = some region → get' id' = some region' →
      key ∈ region.data.writeCF → key ∈ region'.data.writeCF → id = id')
    (hrows : ∀ id region row, get id = some region → row ∈ region.data.rows →
      ∃ id' region', get' id' = some region' ∧ row ∈ region'.data.rows) :
    FlushInv get' storage workers log := by
  refine ⟨h.log_ok, hids, hsound, hapart, h.stored, ?_, h.collected, h.written⟩
  intro row hrow
  rcases h.owed row hrow with hst | ⟨id, region, hget, hmem⟩
  · exact .inl hst
  · exact .inr (hrows id region row hget hmem)

variable {rows : List RegionDataReadInfo}

theorem FlushInv.store (hrows : ∀ row ∈ rows, ∃ c ∈ log.committed, c.row = row) :
    FlushInv get (storage ++ rows) workers log := by
  refine ⟨h.log_ok, h.ids, h.sound, h.apart, ?_, ?_, h.collected, ?_⟩
  · exact forall_mem_append.2 ⟨h.stored, hrows⟩
  · intro row hrow
    exact (h.owed row hrow).imp_left (mem_append_left _)
  · exact fun w hw hwritten row hrow => mem_append_left _ (h.written w hw hwritten row hrow)

theorem FlushInv.remove (hget : get id = some region) (hstored : ∀ row ∈ rows, row ∈ storage) :
    FlushInv (Function.update get id (some (region.removeRegionCommitCache rows))) storage workers log := by
  have hsound := h.sound id region hget
  refine h.update hget (h.ids id region hget) h.log_ok (fun _ hc => hc)
    (hsound.removeCommitCache h.log_ok rows) ?_ ?_
  · intro key hkey
    obtain ⟨entry, hentry⟩ := mem_iff_lookup.1 hkey
    unfold Region.removeRegionCommitCache at hentry
    rw [lookup_writeCF_removeCommitCache] at hentry
    split_ifs at hentry
    exact .inl (mem_iff_lookup.2 ⟨entry, hentry⟩)
  · intro row hrow
    by_cases hmem : row ∈ region.data.rows
    · by_cases hkey : row.key ∈ rows.map (·.key)
      · -- the removed row with this key is a commit with the same key, so it is this row
        obtain ⟨row', hrow', heq⟩ := mem_map.1 hkey
        obtain ⟨c, hc, rfl⟩ := hsound.row_committed hmem
        obtain ⟨c', hc', rfl⟩ := h.stored row' (hstored row' hrow')
        have hsame := h.log_ok.key_inj c' hc' c hc heq
        exact .inl (hsame ▸ hstored _ hrow')
      · exact .inr (.inl (mem_rows_removeCommitCache.2 ⟨hmem, hkey⟩))
    · exact .inr (.inr ⟨hrow, hmem⟩)

end

end Change

section Split

variable {get : RegionID → Option Region} {storage : List RegionDataReadInfo}
  {workers : List FlushWorker} {log : CommitLog} {id : RegionID} {region : Region}

theorem FlushInv.splitOne (h : FlushInv get storage workers log) (hget : get id = some region)
    (newInfo : RegionMeta) {range : RegionRange} (hrange : range.RespectsRows)
    (hne : newInfo.regionID ≠ id) (hnew : get newInfo.regionID = none) :
    FlushInv (Function.update (Function.update get id (some ⟨region.info, (region.data.splitInto range).1⟩))
      newInfo.regionID (some ⟨newInfo, (region.data.splitInto range).2⟩)) storage workers log := by
  obtain ⟨hsound₁, hsound₂⟩ := (h.sound id region hget).splitInto hrange
  set get' := Function.update (Function.update get id
    (some ⟨region.info, (region.data.splitInto range).1⟩)) newInfo.regionID
    (some ⟨newInfo, (region.data.splitInto range).2⟩)
  -- the three kinds of ids
  have hcases : ∀ i r, get' i = some r ↔
      (i = newInfo.regionID ∧ ⟨newInfo, (region.data.splitInto range).2⟩ = r) ∨
      (i ≠ newInfo.regionID ∧ (i = id ∧ ⟨region.info, (region.data.splitInto range).1⟩ = r ∨
        i ≠ id ∧ get i = some r)) := by
    intro i r
    rw [update_eq_some_iff, update_eq_some_iff, some_inj, some_inj]
  refine h.redistribute ?_ ?_ ?_ ?_
  · intro i r hi
    rcases (hcases i r).1 hi with ⟨rfl, rfl⟩ | ⟨-, ⟨rfl, rfl⟩ | ⟨-, hi⟩⟩
    · rfl
    · exact h.ids _ region hget
    · exact h.ids i r hi
  · intro i r hi
    rcases (hcases i r).1 hi with ⟨rfl, rfl⟩ | ⟨-, ⟨rfl, rfl⟩ | ⟨-, hi⟩⟩
    · exact hsound₂
    · exact hsound₁
    · exact h.sound i r hi
  · intro i i' r r' key hi hi' hkey hkey'
    rcases (hcases i r).1 hi with ⟨rfl, rfl⟩ | ⟨-, ⟨rfl, rfl⟩ | ⟨hi₂, hold⟩⟩ <;>
      rcases (hcases i' r').1 hi' with ⟨rfl, rfl⟩ | ⟨-, ⟨rfl, rfl⟩ | ⟨hi₂', hold'⟩⟩
    · rfl
    · exact absurd (mem_splitInto_snd.1 hkey).1 (by rw [(mem_splitInto_fst.1 hkey').1]; nofun)
    · exact absurd (h.apart i' id r' region key hold' hget hkey' (mem_splitInto_snd.1 hkey).2) hi₂'
    · exact absurd (mem_splitInto_snd.1 hkey').1 (by rw [(mem_splitInto_fst.1 hkey).1]; nofun)
    · rfl
    · exact absurd (h.apart i' _ r' region key hold' hget hkey' (mem_splitInto_fst.1 hkey).2) hi₂'
    · exact absurd (h.apart i id r region key hold hget hkey (mem_splitInto_snd.1 hkey').2) hi₂
    · exact absurd (h.apart i _ r region key hold hget hkey (mem_splitInto_fst.1 hkey').2) hi₂
    · exact h.apart i i' r r' key hold hold' hkey hkey'
  · intro i r row hi hrow
    by_cases h₂ : i = id
    · obtain ⟨⟩ := hget.symm.trans (h₂ ▸ hi)
      rcases mem_rows_splitInto range hrow with hrow | hrow
      · exact ⟨id, _, (hcases _ _).2 (.inr ⟨hne.symm, .inl ⟨rfl, rfl⟩⟩), hrow⟩
      · exact ⟨_, _, (hcases _ _).2 (.inl ⟨rfl, rfl⟩), hrow⟩
    · have h₁ : i ≠ newInfo.regionID := by
        rintro rfl
        cases hnew.symm.trans hi
      exact ⟨i, r, (hcases _ _).2 (.inr ⟨h₁, .inr ⟨h₂, hi⟩⟩), hrow⟩

theorem find?_id_eq_none {regions : List Region} {i : RegionID} (h : i ∉ regions.map (·.info.regionID)) :
    regions.find? (fun r => r.info.regionID = i) = none :=
  List.find?_eq_none.2 fun _ hr heq => h (of_decide_eq_true heq ▸ mem_map_of_mem hr)

theorem splitOff_ids (data : RegionData) (infos : List RegionMeta) :
    (Region.splitOff data infos).2.map (·.info.regionID) = infos.map (·.regionID) := by
  induction infos generalizing data with
  | nil => rfl
  | cons info infos ih =>
    simp only [Region.splitOff, map_cons]
    rw [ih]

theorem FlushInv.splitOff {infos : List RegionMeta} (h : FlushInv get storage workers log)
    (hget : get id = some region)
    (hinfos : ∀ info ∈ infos, info.regionID ≠ id ∧ get info.regionID = none ∧ info.range.RespectsRows)
    (hnodup : (infos.map (·.regionID)).Nodup) {newInfo : RegionMeta} (hid : newInfo.regionID = id) :
    FlushInv (fun i => if i = id then some ⟨newInfo, (Region.splitOff region.data infos).1⟩
      else ((Region.splitOff region.data infos).2.find? (fun r => r.info.regionID = i)).or (get i))
      storage workers log := by
  induction infos generalizing get region with
  | nil =>
    have hupdate : FlushInv (Function.update get id (some ⟨newInfo, region.data⟩)) storage workers log := by
      refine h.update hget hid h.log_ok (fun _ hc => hc) (h.sound id region hget)
        (fun _ hkey => .inl hkey) ?_
      intro row hrow
      by_cases hmem : row ∈ region.data.rows
      · exact .inr (.inl hmem)
      · exact .inr (.inr ⟨hrow, hmem⟩)
    refine cast (congrArg (FlushInv · storage workers log) ?_) hupdate
    funext i
    simp only [Region.splitOff, List.find?_nil, none_or, update_apply]
  | cons info infos ih =>
    rw [map_cons, nodup_cons] at hnodup
    obtain ⟨hne, hnone, hrange⟩ := hinfos info mem_cons_self
    have hone := h.splitOne hget { info with peerState := .normal, appliedIndex := raftInitLogIndex }
      hrange hne hnone
    have hrest := ih hone
      ((update_of_ne hne.symm ..).trans (update_self ..)) ?_ hnodup.2
    · refine cast (congrArg (FlushInv · storage workers log) ?_) hrest
      funext i
      simp only [Region.splitOff]
      by_cases hi : i = id
      · simp [hi]
      · simp only [hi, if_false, List.find?_cons]
        by_cases hin : info.regionID = i
        · subst hin
          simp [find?_id_eq_none ((splitOff_ids (region.data.splitInto info.range).1 infos) ▸ hnodup.1)]
        · simp only [hin, decide_false]
          rw [update_of_ne (Ne.symm hin), update_of_ne hi]
    · intro info' hinfo'
      obtain ⟨hne', hnone', hrange'⟩ := hinfos info' (mem_cons_of_mem _ hinfo')
      refine ⟨hne', ?_, hrange'⟩
      have hdiff : info'.regionID ≠ info.regionID := by
        intro heq
        exact hnodup.1 (heq ▸ mem_map_of_mem hinfo')
      rw [update_of_ne hdiff, update_of_ne hne', hnone']

end Split

section Merge

variable {get : RegionID → Option Region} {storage : List RegionDataReadInfo}
  {workers : List FlushWorker} {log : CommitLog} {id sourceID : RegionID} {target source : Region}

theorem FlushInv.merge (h : FlushInv get storage workers log) (hget : get id = some target)
    (hsource : get sourceID = some source) (hne : sourceID ≠ id) {merged : Region}
    (hid : merged.info.regionID = id) (hmerge : target.data.mergeFrom source.data = .ok merged.data) :
    FlushInv (Function.update (Function.update get id (some merged)) sourceID none) storage workers log := by
  set get' := Function.update (Function.update get id (some merged)) sourceID none
  have hcases : ∀ i r, get' i = some r ↔ i ≠ sourceID ∧ (i = id ∧ merged = r ∨ i ≠ id ∧ get i = some r) := by
    intro i r
    rw [update_eq_some_iff, update_eq_some_iff, some_inj]
    simp
  -- a key of the merged region is in no region but the two
  have hapart : ∀ i r key, i ≠ sourceID → i ≠ id → get i = some r → key ∈ r.data.writeCF →
      key ∉ merged.data.writeCF := by
    intro i r key h₁ h₂ hi hkey hmerged
    rcases (mem_mergeFrom hmerge).1 hmerged with hin | hin
    · exact h₂ (h.apart i id r target key hi hget hkey hin)
    · exact h₁ (h.apart i sourceID r source key hi hsource hkey hin)
  refine h.redistribute ?_ ?_ ?_ ?_
  · intro i r hi
    obtain ⟨-, ⟨rfl, rfl⟩ | ⟨-, hold⟩⟩ := (hcases i r).1 hi
    · exact hid
    · exact h.ids i r hold
  · intro i r hi
    obtain ⟨-, ⟨rfl, rfl⟩ | ⟨-, hold⟩⟩ := (hcases i r).1 hi
    · exact (h.sound _ target hget).mergeFrom (h.sound _ source hsource) hmerge
    · exact h.sound i r hold
  · intro i i' r r' key hi hi' hkey hkey'
    obtain ⟨h₁, ⟨rfl, rfl⟩ | ⟨h₂, hold⟩⟩ := (hcases i r).1 hi <;>
      obtain ⟨h₁', ⟨rfl, rfl⟩ | ⟨h₂', hold'⟩⟩ := (hcases i' r').1 hi'
    · rfl
    · exact absurd hkey (hapart i' r' key h₁' h₂' hold' hkey')
    · exact absurd hkey' (hapart i r key h₁ h₂ hold hkey)
    · exact h.apart i i' r r' key hold hold' hkey hkey'
  · intro i r row hi hrow
    have hat_id := (hcases id merged).2 ⟨hne.symm, .inl ⟨rfl, rfl⟩⟩
    by_cases h₁ : i = sourceID
    · obtain ⟨⟩ := hsource.symm.trans (h₁ ▸ hi)
      exact ⟨id, merged, hat_id, mem_rows_mergeFrom hmerge (.inr hrow)⟩
    · by_cases h₂ : i = id
      · obtain ⟨⟩ := hget.symm.trans (h₂ ▸ hi)
        exact ⟨id, merged, hat_id, mem_rows_mergeFrom hmerge (.inl hrow)⟩
      · exact ⟨i, r, (hcases i r).2 ⟨h₁, .inr ⟨h₂, hi⟩⟩, hrow⟩

end Merge

namespace FlushSystem

def Inv (s : FlushSystem) : Prop := FlushInv (fun id => s.regions.lookup id) s.storage s.workers s.log

section Steps

variable {s s' : FlushSystem} {regionID : RegionID} {cmds : List WriteCmd} {index : Nat}

variable {log : CommitLog} {region : Region}

theorem Inv.read_committed {rows : List RegionDataReadInfo}
    (h : region.data.Sound log.committed []) (hread : region.readRegionCommitCache = .ok (some rows)) :
    ∀ row ∈ rows, ∃ c ∈ log.committed, c.row = row := by
  intro row hrow
  exact h.row_committed ((h.filled.mem_scan_iff (readRegionCommitCache_some hread)).1 hrow)

theorem Inv.flushNow (h : FlushInv (update (fun id => s.regions.lookup id) region.info.regionID (some region))
      s.storage s.workers s.log) (hrun : s.flushNow region = .ok s') : s'.Inv := by
  obtain ⟨rows, hread, hrun⟩ := bind_eq_ok_iff.1 hrun
  cases rows with
  | none =>
    cases hrun
    unfold Inv
    rw [lookup_insert_eq_update]
    exact h
  | some rows =>
    cases hrun
    have hget := update_self region.info.regionID (some region) (fun id => s.regions.lookup id)
    have hstore := h.store (read_committed (h.sound _ _ hget) hread)
    have hstored : ∀ row ∈ rows, row ∈ s.storage ++ rows := fun row hrow => mem_append_right _ hrow
    have hremove := hstore.remove hget hstored
    rw [Function.update_idem] at hremove
    unfold Inv
    rw [lookup_insert_eq_update]
    exact hremove

variable {region' : Region}

theorem handleWriteRaftCmd_ok (h : region.handleWriteRaftCmd cmds index = .ok region')
    (hindex : region.info.appliedIndex < index) : region'.info.regionID = region.info.regionID ∧
      (handlingOrder cmds).foldlM RegionData.applyCmd region.data = .ok region'.data := by
  unfold Region.handleWriteRaftCmd at h
  rw [if_neg (Nat.not_le.2 hindex)] at h
  split at h
  · cases h
  · obtain ⟨data, hdata, h⟩ := bind_eq_ok_iff.1 h
    cases h
    exact ⟨rfl, hdata⟩

theorem Inv.handleWriteRaftCmd {flushNow : Bool} (h : s.Inv)
    (hlegal : ∀ region, s.regions.lookup regionID = some region → region.info.appliedIndex < index →
      LegalCmds s.log region.data (handlingOrder cmds))
    (hrun : s.handleWriteRaftCmd regionID cmds index flushNow = .ok s') : s'.Inv := by
  unfold FlushSystem.handleWriteRaftCmd at hrun
  cases hget : s.regions.lookup regionID with
  | none =>
    rw [hget] at hrun
    cases hrun
    exact h
  | some region =>
    rw [hget] at hrun
    obtain ⟨region', hregion, hrun⟩ := bind_eq_ok_iff.1 hrun
    by_cases hindex : index ≤ region.info.appliedIndex
    · rw [if_pos hindex] at hrun
      cases hrun
      exact h
    · rw [if_neg hindex] at hrun
      have hlt := Nat.lt_of_not_le hindex
      obtain ⟨hid, hdata⟩ := handleWriteRaftCmd_ok hregion hlt
      obtain ⟨hsound, hlog, hevolves⟩ :=
        (h.sound _ _ hget).of_nil.applyAll h.log_ok (hlegal region hget hlt) hdata
      have hname : region'.info.regionID = regionID := hid.trans (h.ids _ _ hget)
      have hupdate := h.update hget hname hlog hevolves.committed hsound hevolves.keys
        (fun row hrow => .inr (hevolves.owed row hrow))
      rw [← hname] at hupdate
      split at hrun
      · exact Inv.flushNow hupdate hrun
      · cases hrun
        unfold Inv
        rw [lookup_insert_eq_update]
        exact hupdate

variable {newRegions : List Region}

theorem lookup_emplaceAll {regions : HashMap RegionID Region}
    (hnew : ∀ region ∈ newRegions, region.info.regionID ∉ regions)
    (hnodup : (newRegions.map (·.info.regionID)).Nodup) (i : RegionID) :
    (emplaceAll regions newRegions).lookup i =
      (newRegions.find? (fun region => region.info.regionID = i)).or (regions.lookup i) := by
  induction newRegions generalizing regions with
  | nil => rfl
  | cons region newRegions ih =>
    rw [map_cons, nodup_cons] at hnodup
    have hstep : emplaceAll regions (region :: newRegions) =
        emplaceAll (regions.insert region.info.regionID region) newRegions := by
      unfold emplaceAll
      rw [foldl_cons, if_neg (hnew region mem_cons_self)]
    rw [hstep, ih ?_ hnodup.2, lookup_insert_ite, List.find?_cons]
    · by_cases hi : region.info.regionID = i
      · rw [find?_id_eq_none (hi ▸ hnodup.1), if_pos hi.symm, decide_eq_true hi, none_or, some_or]
      · rw [if_neg (Ne.symm hi), decide_eq_false hi]
    · intro r hr hmem
      rcases (mem_insert _).1 hmem with heq | hold
      · exact hnodup.1 (heq ▸ mem_map_of_mem hr)
      · exact hnew r (mem_cons_of_mem _ hr) hold

variable {infos : List RegionMeta}

theorem execBatchSplit_ok (h : region.execBatchSplit infos index = .ok (region', newRegions)) :
    region'.info.regionID = region.info.regionID ∧ (region'.data, newRegions) =
        Region.splitOff region.data (infos.filter fun info => info.regionID ≠ region.info.regionID) := by
  unfold Region.execBatchSplit at h
  split at h
  · cases h
  · simp only at h
    split at h
    · cases h
    · rename_i info hself
      cases h
      have hmem : info ∈ infos.filter fun info => info.regionID = region.info.regionID := by
        rw [hself]
        exact mem_cons_self
      exact ⟨of_decide_eq_true (mem_filter.1 hmem).2, rfl⟩
    · cases h

theorem Inv.batchSplit (h : s.Inv) (hnodup : (infos.map (·.regionID)).Nodup)
    (hinfos : ∀ info ∈ infos, info.regionID ≠ regionID → info.regionID ∉ s.regions ∧ info.range.RespectsRows)
    (hrun : s.batchSplit regionID infos index = .ok s') : s'.Inv := by
  unfold FlushSystem.batchSplit at hrun
  cases hget : s.regions.lookup regionID with
  | none =>
    rw [hget] at hrun
    cases hrun
    exact h
  | some region =>
    rw [hget] at hrun
    simp only at hrun
    split at hrun
    · cases hrun
      exact h
    · obtain ⟨⟨region', newRegions⟩, hsplit, hrun⟩ := bind_eq_ok_iff.1 hrun
      cases hrun
      obtain ⟨hid, hoff⟩ := execBatchSplit_ok hsplit
      have hname : region.info.regionID = regionID := h.ids _ _ hget
      rw [hname] at hid hoff
      set others := infos.filter fun info => info.regionID ≠ regionID with hothers
      have hmem : ∀ info ∈ others, info.regionID ≠ regionID ∧ info.regionID ∉ s.regions ∧
          info.range.RespectsRows := by
        intro info hinfo
        obtain ⟨hin, hne⟩ := mem_filter.1 hinfo
        exact ⟨of_decide_eq_true hne, hinfos info hin (of_decide_eq_true hne)⟩
      have hdistinct : (others.map (·.regionID)).Nodup := (filter_sublist.map _).nodup hnodup
      have hinv := FlushInv.splitOff h hget (fun info hinfo =>
        ⟨(hmem info hinfo).1, lookup_eq_none.2 (hmem info hinfo).2.1, (hmem info hinfo).2.2⟩)
        hdistinct hid
      rw [← hoff] at hinv
      have hids : newRegions.map (·.info.regionID) = others.map (·.regionID) := by
        have := splitOff_ids region.data others
        rwa [← hoff] at this
      refine cast (congrArg (FlushInv · s.storage s.workers s.log) ?_) hinv
      funext i
      rw [lookup_emplaceAll ?_ (hids ▸ hdistinct), lookup_insert_ite, hid]
      · by_cases hi : i = regionID
        · rw [if_pos hi, if_pos hi, find?_id_eq_none, none_or]
          rintro hin
          obtain ⟨info, hinfo, hinfoid⟩ := mem_map.1 (hids ▸ hin)
          exact (hmem info hinfo).1 (hinfoid.trans hi)
        · rw [if_neg hi, if_neg hi]
      · intro r hr hin
        have hr := mem_map_of_mem (f := fun r : Region => r.info.regionID) hr
        rw [hids] at hr
        obtain ⟨info, hinfo, hinfoid⟩ := mem_map.1 hr
        rcases (mem_insert _).1 hin with heq | hold
        · exact (hmem info hinfo).1 (hinfoid.trans (heq.trans hid))
        · exact (hmem info hinfo).2.1 (hinfoid.symm ▸ hold)

variable {sourceInfo : RegionMeta}

theorem execCommitMerge_ok {target source merged : Region}
    (h : target.execCommitMerge source sourceInfo index = .ok merged) :
    merged.info.regionID = target.info.regionID ∧ target.data.mergeFrom source.data = .ok merged.data := by
  obtain ⟨-, -, h⟩ := bind_eq_ok_iff.1 h
  obtain ⟨data, hdata, h⟩ := bind_eq_ok_iff.1 h
  cases h
  exact ⟨rfl, hdata⟩

theorem Inv.commitMerge (h : s.Inv) (hne : sourceInfo.regionID ≠ regionID)
    (hindex : ∀ region, s.regions.lookup regionID = some region → region.info.appliedIndex < index)
    (hrun : s.commitMerge regionID sourceInfo index = .ok s') : s'.Inv := by
  unfold FlushSystem.commitMerge at hrun
  cases hget : s.regions.lookup regionID with
  | none =>
    rw [hget] at hrun
    cases hrun
    exact h
  | some target =>
    rw [hget] at hrun
    simp only at hrun
    rw [if_neg (Nat.not_le.2 (hindex target hget))] at hrun
    cases hsource : s.regions.lookup sourceInfo.regionID with
    | none =>
      rw [hsource] at hrun
      cases hrun
    | some source =>
      rw [hsource] at hrun
      obtain ⟨merged, hmerged, hrun⟩ := bind_eq_ok_iff.1 hrun
      cases hrun
      obtain ⟨hid, hdata⟩ := execCommitMerge_ok hmerged
      have hname : merged.info.regionID = regionID := hid.trans (h.ids _ _ hget)
      have hmerge := FlushInv.merge h hget hsource hne hname hdata
      unfold Inv
      rw [lookup_erase_eq_update, lookup_insert_eq_update, hname]
      exact hmerge

theorem Inv.withWorkers {storage : List RegionDataReadInfo} {workers workers' : List FlushWorker}
    {get : RegionID → Option Region} (h : FlushInv get storage workers log)
    (hworkers : ∀ w ∈ workers', w ∈ workers ∨ (∀ row ∈ w.rows, ∃ c ∈ log.committed, c.row = row) ∧
      (w.written = true → ∀ row ∈ w.rows, row ∈ storage)) : FlushInv get storage workers' log where
  __ := h
  collected w hw row hrow := by
    rcases hworkers w hw with hold | ⟨hcommitted, -⟩
    · exact h.collected w hold row hrow
    · exact hcommitted row hrow
  written w hw hwritten row hrow := by
    rcases hworkers w hw with hold | ⟨-, hstored⟩
    · exact h.written w hold hwritten row hrow
    · exact hstored hwritten row hrow

theorem Inv.collect (h : s.Inv) (hrun : s.step (.collect regionID) = .ok s') : s'.Inv := by
  simp only [step] at hrun
  cases hget : s.regions.lookup regionID with
  | none =>
    rw [hget] at hrun
    cases hrun
    exact h
  | some region =>
    rw [hget] at hrun
    simp only at hrun
    split at hrun
    · rename_i rows hread
      cases hrun
      refine Inv.withWorkers h fun w hw => ?_
      rcases mem_append.1 hw with hold | hnew
      · exact .inl hold
      · rw [mem_singleton.1 hnew]
        exact .inr ⟨read_committed (h.sound _ _ hget) hread, nofun⟩
    · cases hrun
      exact h

variable {i : Nat}

theorem Inv.writeRows (h : s.Inv) (hrun : s.step (.writeRows i) = .ok s') : s'.Inv := by
  simp only [step] at hrun
  split at hrun
  · rename_i worker hworker
    split at hrun
    · cases hrun
      exact h
    · cases hrun
      have hcommitted := h.collected worker (mem_of_getElem? hworker)
      refine Inv.withWorkers (h.store hcommitted) fun w hw => ?_
      rcases mem_or_eq_of_mem_set hw with hold | rfl
      · exact .inl hold
      · exact .inr ⟨hcommitted, fun _ row hrow => mem_append_right _ hrow⟩
  · cases hrun
    exact h

theorem Inv.failWrite {n : Nat} (h : s.Inv) (hrun : s.step (.failWrite i n) = .ok s') : s'.Inv := by
  simp only [step] at hrun
  split at hrun
  · rename_i worker hworker
    split at hrun
    · cases hrun
      exact h
    · cases hrun
      have hcommitted := h.collected worker (mem_of_getElem? hworker)
      exact Inv.withWorkers (h.store fun row hrow => hcommitted row (mem_of_mem_take hrow))
        fun w hw => .inl (mem_of_mem_eraseIdx hw)
  · cases hrun
    exact h

theorem Inv.removeRows (h : s.Inv) (hrun : s.step (.removeRows i) = .ok s') : s'.Inv := by
  simp only [step] at hrun
  split at hrun
  · rename_i worker hworker
    split at hrun
    · rename_i hwritten
      cases hrun
      have hstored := h.written worker (mem_of_getElem? hworker) hwritten
      refine Inv.withWorkers ?_ fun w hw => .inl (mem_of_mem_eraseIdx hw)
      unfold removeFrom
      cases hget : s.regions.lookup worker.regionID with
      | none => exact h
      | some region =>
        rw [lookup_insert_eq_update]
        exact h.remove hget hstored
    · cases hrun
      exact h
  · cases hrun
    exact h

end Steps

end FlushSystem

/-- Raft's writes are legal (`LegalCmds`), a split creates new ids and does not separate the versions of a
row, and a merge is committed once. -/
def FlushAction.Legal (s : FlushSystem) : FlushAction → Prop
  | .writeCmd regionID cmds index _ => ∀ region, s.regions.lookup regionID = some region →
      region.info.appliedIndex < index → LegalCmds s.log region.data (handlingOrder cmds)
  | .batchSplit regionID infos _ => (infos.map (·.regionID)).Nodup ∧ ∀ info ∈ infos,
      info.regionID ≠ regionID → info.regionID ∉ s.regions ∧ info.range.RespectsRows
  | .commitMerge regionID sourceInfo index => sourceInfo.regionID ≠ regionID ∧
      ∀ region, s.regions.lookup regionID = some region → region.info.appliedIndex < index
  | _ => True

namespace FlushSystem

/-- Every command is legal when its turn comes. -/
def LegalRun (s : FlushSystem) : List FlushAction → Prop
  | [] => True
  | action :: actions => action.Legal s ∧ ∀ s', s.step action = .ok s' → s'.LegalRun actions

variable {s s' : FlushSystem}

theorem Inv.step {action : FlushAction} (h : s.Inv) (hlegal : action.Legal s)
    (hrun : s.step action = .ok s') : s'.Inv := by
  cases action with
  | writeCmd regionID cmds index flushNow => exact h.handleWriteRaftCmd hlegal hrun
  | batchSplit regionID infos index => exact h.batchSplit hlegal.1 hlegal.2 hrun
  | commitMerge regionID sourceInfo index => exact h.commitMerge hlegal.1 hlegal.2 hrun
  | collect regionID => exact h.collect hrun
  | writeRows i => exact h.writeRows hrun
  | failWrite i n => exact h.failWrite hrun
  | removeRows i => exact h.removeRows hrun

theorem Inv.run {actions : List FlushAction} (h : s.Inv) (hlegal : s.LegalRun actions)
    (hrun : s.run actions = .ok s') : s'.Inv := by
  induction actions generalizing s with
  | nil =>
    cases hrun
    exact h
  | cons action actions ih =>
    obtain ⟨hfirst, hrest⟩ := hlegal
    obtain ⟨s₁, hstep, hrun⟩ := bind_eq_ok_iff.1 hrun
    exact ih (h.step hfirst hstep) (hrest s₁ hstep) hrun

theorem lookup_emplaceAll_cases {regions : HashMap RegionID Region} {newRegions : List Region}
    {i : RegionID} {region : Region} (h : (emplaceAll regions newRegions).lookup i = some region) :
    regions.lookup i = some region ∨ region ∈ newRegions ∧ region.info.regionID = i := by
  induction newRegions generalizing regions with
  | nil => exact .inl h
  | cons first newRegions ih =>
    unfold emplaceAll at h
    rw [foldl_cons] at h
    rcases ih h with hold | ⟨hmem, hid⟩
    · split_ifs at hold with hin
      · exact .inl hold
      · rw [lookup_insert_ite] at hold
        split_ifs at hold with hi
        · cases hold
          exact .inr ⟨mem_cons_self, hi.symm⟩
        · exact .inl hold
    · exact .inr ⟨mem_cons_of_mem _ hmem, hid⟩

theorem inv_start (infos : List RegionMeta) : (start infos).Inv := by
  have hempty : ∀ id region, (start infos).regions.lookup id = some region →
      region.data = .empty ∧ region.info.regionID = id := by
    intro id region hget
    rcases lookup_emplaceAll_cases hget with hnone | ⟨hmem, hid⟩
    · cases hnone
    · obtain ⟨info, -, rfl⟩ := mem_map.1 hmem
      exact ⟨rfl, hid⟩
  refine ⟨⟨nofun, nofun⟩, fun id region hget => (hempty id region hget).2, ?_, ?_, nofun, nofun, nofun, nofun⟩
  · intro id region hget
    rw [(hempty id region hget).1]
    exact sound_empty _ _
  · intro id id' region region' key hget hget' hkey
    rw [(hempty id region hget).1] at hkey
    exact absurd hkey (notMem_empty _)

end FlushSystem

/-- Commits row 5. -/
def commitRow : List WriteCmd :=
  [.put (.default ⟨5, 10⟩ 99), .put (.write ⟨5, 12⟩ ⟨.putFlag, 10, none, false⟩)]

/-- Region 7 keeps the rows below 4, region 8 gets the others. -/
def halves : List RegionMeta :=
  [⟨7, 42, [1], .normal, 2, 1, 0, ⟨.min, .row 4⟩⟩, ⟨8, 42, [1], .normal, 2, 1, 0, ⟨.row 4, .max⟩⟩]

/-- The region is split and merged again while a flush is under way. -/
def splitAndMerge : List FlushAction :=
  [.writeCmd 7 commitRow 6 false, .collect 7, .batchSplit 7 halves 7, .writeRows 0, .removeRows 0,
    .commitMerge 7 ⟨8, 42, [1], .normal, 2, 1, 0, ⟨.row 4, .max⟩⟩ 8]

theorem respectsRows_of_row {range : RegionRange} {pk : RawTiDBPK}
    (h : range = ⟨.row pk, .max⟩) : range.RespectsRows := by
  subst h
  intro pk ts ts'
  rfl

theorem legal_commitRow (region : Region) (hempty : region.data = .empty) :
    LegalCmds ⟨[], []⟩ region.data (handlingOrder commitRow) := by
  rw [hempty]
  refine ⟨trivial, fun data' hdata => ⟨fun d hd => ⟨nofun, fun _ => ⟨nofun, fun _ => ?_⟩⟩, fun _ _ => trivial⟩⟩
  cases hd
  cases hdata
  decide

end TiFlash.Transaction
