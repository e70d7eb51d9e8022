import TiFlash.Transaction.Proofs.RegionTableProofs

/-!
# The range in `RegionTable` is never less than the range in `KVStore`

Between the handlers the table has, for each region of the store, exactly its range.
-/

namespace TiFlash.Transaction.RegionTable

open TiFlash.DM TiFlash.Lib List Option Except Tables HashMap AList

/-- The entry of a region: its table id and its range. -/
def entryOf (region : Region) : RecordKVFormat.TableID × RawRange := (region.mappedTableID, region.range.raw)

/-- The entry a region of the store should have in the table. -/
def entryAt (regions : HashMap RegionID Region) (id : RegionID) :
    Option (RecordKVFormat.TableID × RawRange) :=
  (regions.lookup id).map entryOf

namespace Store

/-- The region table has every region under its id. -/
structure Inv (s : Store) : Prop where
  ids : ∀ id region, s.regions.lookup id = some region → region.id = id
  entries : ∀ id, s.table.Has id (entryAt s.regions id)

variable {s : Store} {id : RegionID} {region : Region}

theorem Inv.has (h : s.Inv) (hlookup : s.regions.lookup id = some region) :
    s.table.Has id (some (entryOf region)) := by
  have hentry := h.entries id
  unfold entryAt at hentry
  rw [hlookup] at hentry
  exact hentry

theorem Inv.has_none (h : s.Inv) (hlookup : s.regions.lookup id = none) :
    s.table.Has id none := by
  have hentry := h.entries id
  unfold entryAt at hentry
  rw [hlookup] at hentry
  exact hentry

theorem Inv.covered (h : s.Inv) (hlookup : s.regions.lookup id = some region) :
    region.id = id ∧ s.Covered region := by
  have hid := h.ids id region hlookup
  have hentry := h.has hlookup
  rw [← hid] at hentry
  exact ⟨hid, hentry.table, region.range.raw, hentry.range_some, fun _ hkey => hkey⟩

variable {s s' : Store}

/-- A handler that changes one region changes the table for that region only. -/
theorem Inv.insert (h : s.Inv) (hregions : s'.regions = s.regions.insert region.id region)
    (hsame : ∀ id ≠ region.id, Tables.SameAt s.table s'.table id)
    (hhas : s'.table.Has region.id (some (entryOf region))) : s'.Inv := by
  constructor
  · intro id region' hlookup
    rw [hregions, lookup_insert_ite] at hlookup
    split_ifs at hlookup with hid
    · rw [← some.inj hlookup, hid]
    · exact h.ids id region' hlookup
  · intro id
    unfold entryAt
    rw [hregions, lookup_insert_ite]
    split_ifs with hid
    · rw [hid]
      exact hhas
    · exact (h.entries id).of_same (hsame id hid)

theorem Inv.removeRegion (h : s.Inv) (id : RegionID) : (s.removeRegion id).Inv := by
  constructor
  · intro id' region hlookup
    have hlookup' : (s.regions.erase id).lookup id' = some region := hlookup
    rw [lookup_erase_ite] at hlookup'
    split_ifs at hlookup'
    exact h.ids id' region hlookup'
  · intro id'
    show (s.table.removeRegion id).Has id' (entryAt (s.regions.erase id) id')
    unfold entryAt
    rw [lookup_erase_ite]
    split_ifs with hid
    · subst hid
      exact (h.entries id').removeRegion
    · exact (h.entries id').of_same (removeRegion_same s.table hid)

/-! ## Loops over regions -/

theorem lookup_emplace (s : Store) (region : Region) (id : RegionID) :
    (s.emplace region).regions.lookup id
      = (s.regions.lookup id).or (if region.id = id then some region else none) := by
  unfold emplace
  split_ifs with hmem hid hid
  · subst hid
    obtain ⟨old, hold⟩ := mem_iff_lookup.1 hmem
    rw [hold]
    rfl
  · rw [or_none]
  · subst hid
    rw [lookup_insert, lookup_eq_none.2 hmem]
    rfl
  · rw [lookup_insert_ne (Ne.symm hid), or_none]

theorem lookup_emplaceAll (s : Store) (news : List Region) (id : RegionID) :
    (news.foldl emplace s).regions.lookup id
      = (s.regions.lookup id).or (news.find? fun region => region.id = id) := by
  induction news generalizing s with
  | nil => simp
  | cons region news ih =>
    rw [foldl_cons, ih, lookup_emplace, Option.or_assoc, List.find?_cons]
    by_cases hid : region.id = id <;> simp [hid]

theorem emplace_table (s : Store) (region : Region) :
    (s.emplace region).table = s.table ∧ (s.emplace region).calls = s.calls := by
  unfold emplace
  split_ifs <;> exact ⟨rfl, rfl⟩

theorem emplaceAll_table (s : Store) (news : List Region) :
    (news.foldl emplace s).table = s.table ∧ (news.foldl emplace s).calls = s.calls := by
  induction news generalizing s with
  | nil => exact ⟨rfl, rfl⟩
  | cons region news ih =>
    obtain ⟨htable, hcalls⟩ := emplace_table s region
    rw [foldl_cons, (ih _).1, (ih _).2]
    exact ⟨htable, hcalls⟩

variable (us : List Region)

theorem updateAll_regions (s : Store) :
    (us.foldl updateRegion s).regions = s.regions ∧ (us.foldl updateRegion s).calls = s.calls := by
  induction us generalizing s with
  | nil => exact ⟨rfl, rfl⟩
  | cons u us ih => exact ih (s.updateRegion u)

theorem updateAll_same (s : Store) (h : ∀ u ∈ us, u.id ≠ id) :
    Tables.SameAt s.table (us.foldl updateRegion s).table id := by
  induction us generalizing s with
  | nil => exact Tables.SameAt.refl _ _
  | cons u us ih =>
    have hfirst : Tables.SameAt s.table (s.updateRegion u).table id :=
      getOrInsertRegion_same s.table _ _ (Ne.symm (h u mem_cons_self))
    exact hfirst.trans (ih _ fun u' hu' => h u' (mem_cons_of_mem _ hu'))

theorem updateAll_keeps (s : Store) (huniq : ∀ u ∈ us, u.id = id → u = region)
    (h : s.table.Has id (some (entryOf region))) :
    (us.foldl updateRegion s).table.Has id (some (entryOf region)) := by
  induction us generalizing s with
  | nil => exact h
  | cons u us ih =>
    refine ih _ (fun u' hu' => huniq u' (mem_cons_of_mem _ hu')) ?_
    by_cases hid : u.id = id
    · have hu := huniq u mem_cons_self hid
      show (s.table.getOrInsertRegion u.mappedTableID u.id u.range.raw).1.Has id _
      rw [hid, hu, Tables.Has.getOrInsertRegion_some h]
      exact h
    · exact h.of_same (getOrInsertRegion_same s.table _ _ (Ne.symm hid))

theorem updateAll_inserts (s : Store) (huniq : ∀ u ∈ us, u.id = id → u = region)
    (hmem : ∃ u ∈ us, u.id = id) (h : s.table.Has id none) :
    (us.foldl updateRegion s).table.Has id (some (entryOf region)) := by
  induction us generalizing s with
  | nil =>
    obtain ⟨u, hu, -⟩ := hmem
    cases hu
  | cons u us ih =>
    have huniq' : ∀ u' ∈ us, u'.id = id → u' = region :=
      fun u' hu' => huniq u' (mem_cons_of_mem _ hu')
    by_cases hid : u.id = id
    · refine updateAll_keeps us _ huniq' ?_
      show (s.table.getOrInsertRegion u.mappedTableID u.id u.range.raw).1.Has id _
      rw [hid, huniq u mem_cons_self hid]
      exact h.getOrInsertRegion_none _ _
    · refine ih _ huniq' ?_ ?_
      · obtain ⟨u', hu', hid'⟩ := hmem
        rcases mem_cons.1 hu' with rfl | hu'
        · exact absurd hid' hid
        · exact ⟨u', hu', hid'⟩
      · exact h.of_same (getOrInsertRegion_same s.table _ _ (Ne.symm hid))

theorem updateAll_entries {us : List Region} (hus : ∀ u ∈ us, s.regions.lookup u.id = some u)
    (h : s.table.Has id (entryAt s.regions id) ∨ (s.table.Has id none ∧ ∃ u ∈ us, u.id = id)) :
    (us.foldl updateRegion s).table.Has id (entryAt s.regions id) := by
  have huniq : ∀ region, s.regions.lookup id = some region → ∀ u ∈ us, u.id = id → u = region := by
    intro region hlookup u hu hid
    have hu' := hus u hu
    rw [hid, hlookup] at hu'
    exact (some.inj hu').symm
  rcases h with h | ⟨h, u, hu, hid⟩
  · unfold entryAt at h ⊢
    cases hlookup : s.regions.lookup id with
    | none =>
      rw [hlookup] at h
      refine h.of_same (updateAll_same us s fun u hu hid => ?_)
      have hu' := hus u hu
      rw [hid, hlookup] at hu'
      cases hu'
    | some region =>
      rw [hlookup] at h
      exact updateAll_keeps us s (huniq region hlookup) h
  · have hlookup : s.regions.lookup id = some u := hid ▸ hus u hu
    unfold entryAt
    rw [hlookup]
    exact updateAll_inserts us s (huniq u hlookup) ⟨u, hu, hid⟩ h

/-! ## The handlers -/

theorem rangeKeys_ok {raw : RawRange} {range : RegionRangeKeys} (h : rangeKeys raw = .ok range) :
    range.raw = raw := by
  unfold rangeKeys at h
  split at h
  · cases h
  · rename_i range' hrange
    cases h
    unfold RegionRangeKeys.ofRaw? at hrange
    split at hrange
    · cases hrange
    · split_ifs at hrange
      rw [← some.inj hrange]

variable {index : Nat}

theorem ofMeta_ok {info : MetaRegion} (h : Region.ofMeta info index = .ok region) :
    region.id = info.id ∧ region.range.raw = info.range ∧ region.appliedIndex = index ∧
      region.mappedTableID = region.range.mappedTableID := by
  obtain ⟨range, hrange, ⟨⟩⟩ := bind_eq_ok_iff.1 h
  exact ⟨rfl, rangeKeys_ok hrange, rfl, rfl⟩

variable {news : List Region}

theorem execBatchSplit_ok {storeID index : Nat} {curr derived : Region} {infos : List MetaRegion}
    (h : execBatchSplit storeID curr infos index = .ok (derived, news)) :
    (∃ info ∈ infos, info.id = curr.id ∧ ∃ fresh, Region.ofMeta info index = .ok fresh ∧
        derived = { fresh with mappedTableID := curr.mappedTableID }) ∧
      ∀ region ∈ news, region.id ≠ curr.id ∧
        ∃ info ∈ infos, Region.ofMeta info initialAppliedIndex = .ok region := by
  unfold execBatchSplit at h
  split_ifs at h
  obtain ⟨news', hnews, h⟩ := bind_eq_ok_iff.1 h
  obtain ⟨derived', hderived, h⟩ := bind_eq_ok_iff.1 h
  obtain ⟨rfl, rfl⟩ := h
  constructor
  · unfold derivedRegion at hderived
    split at hderived
    · cases hderived
    · rename_i info hfilter
      have hmem : info ∈ infos.filter (·.id = curr.id) := by rw [hfilter]; exact mem_singleton_self _
      obtain ⟨hinfo, hid⟩ := mem_filter.1 hmem
      obtain ⟨fresh, hfresh, ⟨⟩⟩ := bind_eq_ok_iff.1 hderived
      exact ⟨info, hinfo, of_decide_eq_true hid, fresh, hfresh, rfl⟩
    · cases hderived
  · intro region hregion
    obtain ⟨info, hinfo, hnew⟩ := (mem_of_mapM_eq_ok hnews).1 hregion
    obtain ⟨hmem, hid⟩ := mem_filter.1 hinfo
    unfold newRegion at hnew
    split_ifs at hnew
    refine ⟨?_, info, hmem, hnew⟩
    rw [(ofMeta_ok hnew).1]
    exact of_decide_eq_true hid

theorem stored_spec (hids : ∀ id r, s.regions.lookup id = some r → r.id = id) (hmem : region ∈ news) :
    let s' := news.foldl emplace s
    (s'.stored region).id = region.id ∧ s'.regions.lookup region.id = some (s'.stored region) := by
  intro s'
  have hlookup := lookup_emplaceAll s news region.id
  unfold stored
  cases hold : s.regions.lookup region.id with
  | some old =>
    rw [hold, some_or] at hlookup
    rw [hlookup]
    exact ⟨hids _ _ hold, rfl⟩
  | none =>
    rw [hold, none_or] at hlookup
    cases hfind : news.find? fun r => r.id = region.id with
    | none => exact absurd (decide_eq_true rfl) (find?_eq_none.1 hfind region hmem)
    | some r =>
      rw [hfind] at hlookup
      rw [hlookup]
      exact ⟨by simpa using find?_some hfind, rfl⟩

theorem handleBatchSplit_spec (h : s.Inv) {curr derived : Region}
    (hcurr : s.regions.lookup derived.id = some curr)
    (htable : derived.mappedTableID = curr.mappedTableID)
    (hnews : ∀ region ∈ news, region.id ≠ derived.id) :
    (s.handleBatchSplit derived news).Inv ∧ (s.handleBatchSplit derived news).calls
        = .shrink curr.range.raw derived.range.raw :: s.calls := by
  set s₀ : Store := { s with regions := s.regions.insert derived.id derived } with hs₀
  set s₁ := news.foldl emplace s₀ with hs₁
  set us := news.map s₁.stored with hus
  set s₂ := us.foldl updateRegion s₁ with hs₂
  have hresult : s.handleBatchSplit derived news = s₂.shrinkRegionRange derived := by
    unfold handleBatchSplit
    rw [hs₂, hus, foldl_map]
  have hlookup₀ : ∀ id, s₀.regions.lookup id = if id = derived.id then some derived else s.regions.lookup id :=
    fun id => lookup_insert_ite s.regions derived.id id derived
  have hids₀ : ∀ id r, s₀.regions.lookup id = some r → r.id = id := by
    intro id r hr
    rw [hlookup₀] at hr
    split_ifs at hr with hid
    · rw [← some.inj hr, hid]
    · exact h.ids id r hr
  have hstored : ∀ region ∈ news, (s₁.stored region).id = region.id ∧
      s₁.regions.lookup region.id = some (s₁.stored region) := fun region => stored_spec hids₀
  have htable₁ : s₁.table = s.table := (emplaceAll_table s₀ news).1
  have hregions₂ : s₂.regions = s₁.regions := (updateAll_regions us s₁).1
  have hne : ∀ u ∈ us, u.id ≠ derived.id := by
    intro u hu
    obtain ⟨region, hregion, rfl⟩ := mem_map.1 hu
    rw [(hstored region hregion).1]
    exact hnews region hregion
  -- the region that keeps the id is still there with its old range
  have hcurr₂ : s₂.table.Has derived.id (some (derived.mappedTableID, curr.range.raw)) := by
    rw [htable]
    refine Tables.Has.of_same ?_ (updateAll_same us s₁ hne)
    rw [htable₁]
    exact h.has hcurr
  have hlookup₁ : ∀ id ≠ derived.id, s₁.regions.lookup id
      = (s.regions.lookup id).or (news.find? fun region => region.id = id) := by
    intro id hid
    rw [hs₁, lookup_emplaceAll, hlookup₀, if_neg hid]
  have hentries : ∀ id ≠ derived.id, s₂.table.Has id (entryAt s₁.regions id) := by
    intro id hid
    refine updateAll_entries ?_ ?_
    · intro u hu
      obtain ⟨region, hregion, rfl⟩ := mem_map.1 hu
      rw [(hstored region hregion).1]
      exact (hstored region hregion).2
    · rw [htable₁]
      unfold entryAt
      rw [hlookup₁ id hid]
      cases hold : s.regions.lookup id with
      | some old => exact .inl (h.has hold)
      | none =>
        cases hfind : news.find? fun region => region.id = id with
        | none => exact .inl (h.has_none hold)
        | some region =>
          have hregion := mem_of_find?_eq_some hfind
          have hid' : region.id = id := by simpa using find?_some hfind
          exact .inr ⟨h.has_none hold, s₁.stored region, mem_map_of_mem hregion,
            (hstored region hregion).1.trans hid'⟩
  have hderived₁ : s₁.regions.lookup derived.id = some derived := by
    rw [hs₁, lookup_emplaceAll, hlookup₀, if_pos rfl, some_or]
  rw [hresult]
  refine ⟨⟨?_, ?_⟩, ?_⟩
  · intro id region hlookup
    have hlookup' : s₁.regions.lookup id = some region := by rw [← hregions₂]; exact hlookup
    by_cases hid : id = derived.id
    · rw [hid, hderived₁] at hlookup'
      rw [← some.inj hlookup', hid]
    · rw [hlookup₁ id hid, or_eq_some_iff] at hlookup'
      rcases hlookup' with hold | ⟨-, hfind⟩
      · exact h.ids id region hold
      · simpa using find?_some hfind
  · intro id
    show (s₂.table.shrinkRegionRange derived.mappedTableID derived.id derived.range.raw).Has id
      (entryAt s₂.regions id)
    rw [hregions₂]
    by_cases hid : id = derived.id
    · rw [hid]
      unfold entryAt
      rw [hderived₁]
      exact hcurr₂.shrinkRegionRange
    · exact (hentries id hid).of_same (shrinkRegionRange_same s₂.table _ _ hid)
  · show Call.shrink (s₂.table.getOrInsertRegion derived.mappedTableID derived.id derived.range.raw).2 derived.range.raw
      :: s₂.calls = _
    rw [hcurr₂.getOrInsertRegion_some, (updateAll_regions us s₁).2, (emplaceAll_table s₀ news).2]

theorem extend_shrink_spec (h : s.Inv) (hextend : s.extendRegionRange region.id region.range = .ok s')
    (hmapped : region.mappedTableID = region.range.mappedTableID) :
    let s'' := ({ s' with regions := s'.regions.insert region.id region }).shrinkRegionRange region
    s''.Inv ∧ s''.regions = s.regions.insert region.id region ∧
      ((∀ old, s.regions.lookup region.id = some old →
          (old.range.raw.stop = [] ↔ region.range.raw.stop = [])) →
        (∀ call ∈ s.calls, call.Ok) → ∀ call ∈ s''.calls, call.Ok) := by
  intro s''
  obtain ⟨t, ht, hs'⟩ := bind_eq_ok_iff.1 hextend
  rw [pure_eq_ok_iff] at hs'
  obtain ⟨hsame, hentry⟩ := extendRegionRange_spec (h.entries region.id) ht
  have hregions : s''.regions = s.regions.insert region.id region := by
    show s'.regions.insert region.id region = _
    rw [← hs']
  have htable : s''.table = t.shrinkRegionRange region.mappedTableID region.id region.range.raw := by
    show s'.table.shrinkRegionRange region.mappedTableID region.id region.range.raw = _
    rw [← hs']
  have hcalls : s''.calls
      = .shrink (t.getOrInsertRegion region.mappedTableID region.id region.range.raw).2 region.range.raw
        :: (extendCall s.table region.id region.range ++ s.calls) := by
    show Call.shrink (s'.table.getOrInsertRegion region.mappedTableID region.id region.range.raw).2
      region.range.raw :: s'.calls = _
    rw [← hs']
  have hothers : ∀ id ≠ region.id, Tables.SameAt s.table s''.table id := by
    intro id hid
    rw [htable]
    exact (hsame id hid).trans (shrinkRegionRange_same t _ _ hid)
  rw [← hmapped] at hentry
  rcases hentry with ⟨hnone, hhas⟩ | ⟨recorded, hsome, hhas⟩
  · have hshrink : s''.table.Has region.id (some (entryOf region)) := by
      rw [htable]
      exact Tables.Has.shrinkRegionRange hhas
    refine ⟨h.insert hregions hothers hshrink, hregions, fun _ hok call hcall => ?_⟩
    have hrange : s.table.rangeInTable region.range.mappedTableID region.id = none := by
      rw [(h.entries region.id).range, hnone]
      rfl
    rw [hcalls, Tables.Has.getOrInsertRegion_some hhas, extendCall, hrange, nil_append] at hcall
    rcases mem_cons.1 hcall with rfl | hcall
    · exact fun _ hkey => hkey
    · exact hok call hcall
  · have hshrink : s''.table.Has region.id (some (entryOf region)) := by
      rw [htable]
      exact Tables.Has.shrinkRegionRange hhas
    refine ⟨h.insert hregions hothers hshrink, hregions, fun hbounds hok call hcall => ?_⟩
    have hrange : s.table.rangeInTable region.range.mappedTableID region.id = some recorded := by
      have hhad := h.entries region.id
      rw [hsome] at hhad
      exact hmapped ▸ hhad.range_some
    -- the entry is the range of the region that is in the store
    obtain ⟨old, hold, heq⟩ := map_eq_some_iff.1 hsome
    have hrecorded : recorded = old.range.raw := (congrArg Prod.snd heq).symm
    have hextended := (extended_ok_iff recorded region.range.raw).2 (hrecorded ▸ hbounds old hold)
    rw [hcalls, Tables.Has.getOrInsertRegion_some hhas, extendCall, hrange] at hcall
    rcases mem_cons.1 hcall with rfl | hcall
    · exact hextended.2
    · rcases mem_append.1 hcall with hcall | hcall
      · rw [mem_singleton.1 hcall]
        exact hextended
      · exact hok call hcall

theorem extendRegionRange_mapped {range : RegionRangeKeys}
    (h : s.table.Has id (some (entryOf region))) (hextend : s.extendRegionRange id range = .ok s') :
    region.mappedTableID = range.mappedTableID := by
  obtain ⟨t, ht, -⟩ := bind_eq_ok_iff.1 hextend
  rcases (extendRegionRange_spec h ht).2 with ⟨hnone, -⟩ | ⟨recorded, hsome, -⟩
  · cases hnone
  · exact congrArg Prod.fst (some.inj hsome)

theorem execCommitMerge_ok {target merged : Region} {sourceInfo : MetaRegion} {left : Option MetaRegion}
    (h : s.execCommitMerge target sourceInfo left index = .ok (s', merged)) :
    merged.id = target.id ∧ merged.mappedTableID = target.mappedTableID ∧
      s.extendRegionRange target.id merged.range = .ok s' ∧
      (merged.range.raw.stop = target.range.raw.stop ∨ (sourceInfo.range.stop ≠ target.range.raw.start ∧
          merged.range.raw.stop = sourceInfo.range.stop)) := by
  unfold execCommitMerge at h
  split at h
  · cases h
  · rename_i source hsource
    obtain ⟨raw, hraw, h⟩ := bind_eq_ok_iff.1 h
    obtain ⟨range, hrange, h⟩ := bind_eq_ok_iff.1 h
    obtain ⟨s₁, hextend, h⟩ := bind_eq_ok_iff.1 h
    obtain ⟨-, -, h⟩ := bind_eq_ok_iff.1 h
    obtain ⟨rfl, rfl⟩ := h
    refine ⟨rfl, rfl, hextend, ?_⟩
    show range.raw.stop = _ ∨ (_ ∧ range.raw.stop = _)
    rw [rangeKeys_ok hrange]
    unfold checkBeforeCommitMerge at hraw
    split_ifs at hraw with hstate hmatch hleft
    · cases hraw
      exact .inl rfl
    · cases hraw
      rw [not_not.1 hmatch]
      exact .inr ⟨fun hstop => hleft (.inr hstop), rfl⟩

/-! ## Runs -/

theorem step_spec {command : Command} (h : s.Inv) (hstep : s.step command = .ok s') :
    s'.Inv ∧ (command.KeepsBounds s → (∀ call ∈ s.calls, call.Ok) → ∀ call ∈ s'.calls, call.Ok) := by
  cases command with
  | batchSplit id infos index =>
    have hbatch : s.batchSplit id infos index = .ok s' := hstep
    unfold batchSplit at hbatch
    split at hbatch
    · cases hbatch
      exact ⟨h, fun _ hok => hok⟩
    · rename_i curr hcurr
      split_ifs at hbatch with hindex
      · cases hbatch
        exact ⟨h, fun _ hok => hok⟩
      · obtain ⟨⟨derived, news⟩, hexec, ⟨⟩⟩ := bind_eq_ok_iff.1 hbatch
        obtain ⟨⟨info, hinfo, hid, fresh, hfresh, hderived⟩, hnews⟩ := execBatchSplit_ok hexec
        have hcurrID := h.ids id curr hcurr
        obtain ⟨hfreshID, hraw, -⟩ := ofMeta_ok hfresh
        obtain ⟨hderivedID, hraw, hmapped⟩ : derived.id = id ∧ derived.range.raw = info.range ∧
            derived.mappedTableID = curr.mappedTableID := by
          rw [hderived]
          exact ⟨hfreshID.trans (hid.trans hcurrID), hraw, rfl⟩
        obtain ⟨hinv, hcalls⟩ := handleBatchSplit_spec h (hderivedID.symm ▸ hcurr) hmapped
          fun region hregion => by
            rw [hderivedID, ← hcurrID]
            exact (hnews region hregion).1
        refine ⟨hinv, fun hbounds hok call hcall => ?_⟩
        rw [hcalls] at hcall
        rcases mem_cons.1 hcall with rfl | hcall
        · rw [hraw]
          exact hbounds curr hcurr (not_le.1 hindex) info hinfo (hid.trans hcurrID)
        · exact hok call hcall
  | commitMerge id sourceInfo left index =>
    have hmerge : s.commitMerge id sourceInfo left index = .ok s' := hstep
    unfold commitMerge at hmerge
    split at hmerge
    · cases hmerge
      exact ⟨h, fun _ hok => hok⟩
    · rename_i target htarget
      split_ifs at hmerge with hindex hmem
      · cases hmerge
        exact ⟨h.removeRegion _, fun _ hok => hok⟩
      · cases hmerge
        exact ⟨h, fun _ hok => hok⟩
      · obtain ⟨⟨s₁, merged⟩, hexec, ⟨⟩⟩ := bind_eq_ok_iff.1 hmerge
        obtain ⟨hmergedID, hmapped, hextend, hstop⟩ := execCommitMerge_ok hexec
        have htargetID := h.ids id target htarget
        have hfiled := extendRegionRange_mapped (h.has (htargetID.symm ▸ htarget)) hextend
        rw [← hmergedID] at hextend
        obtain ⟨hinv, -, hcalls⟩ := extend_shrink_spec h hextend (hmapped.trans hfiled)
        refine ⟨hinv.removeRegion _, fun hbounds hok => hcalls (fun old hold => ?_) hok⟩
        rw [hmergedID, htargetID, htarget] at hold
        obtain rfl := some.inj hold
        rcases hstop with hstop | ⟨hright, hstop⟩
        · rw [hstop]
        · rw [hstop]
          exact (hbounds target htarget (not_le.1 hindex)).resolve_left hright
  | applySnapshot info index =>
    obtain ⟨new, hnew, hsnap⟩ := bind_eq_ok_iff.1 hstep
    obtain ⟨hid, hraw, hindex, hmapped⟩ := ofMeta_ok hnew
    unfold tryApplySnapshot at hsnap
    simp only at hsnap
    split_ifs at hsnap with hnewer hsameIndex
    · cases hsnap
      exact ⟨h, fun _ hok => hok⟩
    · split at hsnap
      · cases hsnap
      · obtain ⟨s₁, hextend, ⟨⟩⟩ := bind_eq_ok_iff.1 hsnap
        obtain ⟨hinv, -, hcalls⟩ := extend_shrink_spec h hextend hmapped
        refine ⟨hinv, fun hbounds hok => hcalls (fun old hold => ?_) hok⟩
        rw [hraw]
        refine hbounds old (hid ▸ hold) ?_
        rw [hold] at hnewer hsameIndex
        simp only [map_some, any_some, decide_eq_true_eq, some.injEq] at hnewer hsameIndex
        omega
  | destroy id =>
    have hdestroy : s.destroy id = s' := Except.ok.inj hstep
    rw [← hdestroy]
    unfold destroy
    split_ifs
    · exact ⟨h.removeRegion id, fun _ hok => hok⟩
    · exact ⟨h, fun _ hok => hok⟩

theorem run_spec {commands : List Command} (h : s.Inv) (hrun : s.run commands = .ok s') :
    s'.Inv ∧ (Along (fun s command => command.KeepsBounds s) s commands →
      (∀ call ∈ s.calls, call.Ok) → ∀ call ∈ s'.calls, call.Ok) := by
  induction commands generalizing s with
  | nil =>
    obtain rfl : s = s' := pure_eq_ok_iff.1 hrun
    exact ⟨h, fun _ hok => hok⟩
  | cons command commands ih =>
    obtain ⟨s₁, hstep, hrun⟩ := bind_eq_ok_iff.1 hrun
    obtain ⟨hinv, hcalls⟩ := step_spec h hstep
    obtain ⟨hinv', hcalls'⟩ := ih hinv hrun
    exact ⟨hinv', fun hbounds hok => hcalls' (hbounds.2 s₁ hstep) (hcalls hbounds.1 hok)⟩

theorem restore_inv (storeID : Nat) (persisted : List Region) :
    (restore storeID persisted).Inv ∧ (restore storeID persisted).calls = [] := by
  set s := (persisted.map Region.deserialize).foldl emplace ⟨storeID, ∅, empty, []⟩ with hs
  have hrestore : restore storeID persisted
      = (s.regions.entries.map (·.2)).foldl updateRegion s := by
    unfold restore
    rw [← hs, foldl_map]
  have hids : ∀ id region, s.regions.lookup id = some region → region.id = id := by
    intro id region hlookup
    rw [hs, lookup_emplaceAll] at hlookup
    simpa using find?_some hlookup
  have htable : s.table = empty := (emplaceAll_table _ _).1
  obtain ⟨hregions, hcalls⟩ := updateAll_regions (s.regions.entries.map (·.2)) s
  have hlookup : ∀ u ∈ s.regions.entries.map (·.2), s.regions.lookup u.id = some u := by
    intro u hu
    obtain ⟨⟨id, region⟩, hentry, rfl⟩ := mem_map.1 hu
    have hfound : s.regions.lookup id = some region := mem_lookup_iff.2 hentry
    rw [hids id region hfound]
    exact hfound
  rw [hrestore]
  refine ⟨⟨by rw [hregions]; exact hids, fun id => ?_⟩, hcalls.trans (emplaceAll_table _ _).2⟩
  rw [hregions]
  refine updateAll_entries hlookup ?_
  rw [htable]
  cases hfound : s.regions.lookup id with
  | none =>
    refine .inl ?_
    unfold entryAt
    rw [hfound]
    exact empty_has id
  | some region =>
    refine .inr ⟨empty_has id, region, ?_, hids id region hfound⟩
    exact mem_map.2 ⟨⟨id, region⟩, mem_lookup_iff.1 hfound, rfl⟩

end Store

/-- `extendRegionRange` covers both ranges exactly when both end at a key or neither does. After every run every
region is covered; if no merge or snapshot changes whether a region has an end, ranges are only extended and shrunk
as they should be. -/
theorem core_rule_of_run (recorded given : RawRange) (storeID : Nat) (persisted : List Region)
    (commands : List Command) (s : Store) :
    ((Call.extend recorded given (extended recorded given)).Ok ↔ (recorded.stop = [] ↔ given.stop = [])) ∧
    ((Store.restore storeID persisted).run commands = .ok s →
      (∀ id region, s.regions.lookup id = some region → region.id = id ∧ s.Covered region) ∧
        (Along (fun s command => command.KeepsBounds s) (Store.restore storeID persisted) commands →
          s.CoreRule)) := by
  refine ⟨extended_ok_iff recorded given, fun hrun => ?_⟩
  obtain ⟨hinv, hcalls⟩ := Store.restore_inv storeID persisted
  obtain ⟨hinv', hcalls'⟩ := Store.run_spec hinv hrun
  have hcovered : ∀ id region, s.regions.lookup id = some region → region.id = id ∧ s.Covered region :=
    fun id region hlookup => hinv'.covered hlookup
  refine ⟨hcovered, fun hbounds => ⟨hcovered, hcalls' hbounds ?_⟩⟩
  rw [hcalls]
  exact fun call hcall => absurd hcall not_mem_nil

/-! ## A region without an end -/

/-- A record key of table 5 -/
def keyOf (b : Byte) : Bytes := RecordKVFormat.recordPrefix 5 ++ [b]

def regionFrom (id : RegionID) (start stop : Bytes)
    (hmapped : computeMappedTableID start = some 5) (hordered : stop = [] ∨ start < stop) :
    Region :=
  ⟨id, ⟨⟨start, stop⟩, 5, hmapped, hordered⟩, 5, 1, 1, [1], .normal, 6⟩

/-- From 1 to 5 -/
def leftRegion : Region := regionFrom 1 (keyOf 1) (keyOf 5) (by decide) (.inr (by decide))

/-- From 5 on, without an end -/
def lastRegion : Region := regionFrom 2 (keyOf 5) [] (by decide) (.inl rfl)

/-- From 5 to 9 -/
def middleRegion : Region := regionFrom 2 (keyOf 5) (keyOf 9) (by decide) (.inr (by decide))

theorem merge_of_bounded_regions :
    ∃ s, (Store.restore 1 [leftRegion, middleRegion]).run [.commitMerge 1 middleRegion.toMeta none 10] = .ok s ∧
      s.CoreRule := by
  obtain ⟨s, hs⟩ : ∃ s, (Store.restore 1 [leftRegion, middleRegion]).run
      [.commitMerge 1 middleRegion.toMeta none 10] = .ok s := ⟨_, rfl⟩
  have hrule := core_rule_of_run ⟨[], []⟩ ⟨[], []⟩ 1 [leftRegion, middleRegion]
    [.commitMerge 1 middleRegion.toMeta none 10] s
  refine ⟨s, hs, (hrule.2 hs).2 ⟨fun target htarget _ => .inr ?_, fun _ _ => trivial⟩⟩
  obtain rfl : leftRegion = target := some.inj htarget
  decide

/-- The merge with the region that has no end does not extend the range, which then does not shrink. -/
theorem merge_with_last_region :
    ∃ s, (Store.restore 1 [leftRegion, lastRegion]).run [.commitMerge 1 lastRegion.toMeta none 10] = .ok s ∧
      ∃ recorded given left, Call.extend recorded given left ∈ s.calls ∧ ¬ left.Contains given ∧
        Call.shrink left given ∈ s.calls := by
  refine ⟨_, rfl, ⟨keyOf 1, keyOf 5⟩, ⟨keyOf 1, []⟩, ⟨keyOf 1, keyOf 5⟩, ?_, ?_, ?_⟩
  · exact mem_cons_of_mem _ mem_cons_self
  · intro h
    exact absurd (h (keyOf 5) (by decide)) (by decide)
  · exact mem_cons_self

end TiFlash.Transaction.RegionTable
