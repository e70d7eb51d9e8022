import TiFlash.Transaction.Proofs.CoreRuleProofs
import TiFlash.Transaction.Proofs.RegionSplitProofs

/-!
# A split partitions the records, a merge unites them
-/

namespace TiFlash.Transaction.RegionSplit

open TiFlash.DM TiFlash.Lib RecordKVFormat RegionTable List Except RegionRangeKeys RegionSplit.CFData

/-! ## The data of a region -/

namespace RegionData

/-- `part` has exactly the records of `old` whose user key passes a test. -/
structure Has (old part : RegionData) (keys : Bytes → Bool) : Prop where
  write : part.writeCF.data = old.writeCF.data.filter fun r => keys r.userKey
  default : part.defaultCF.data = old.defaultCF.data.filter fun r => keys r.userKey
  lock : part.lockCF.data = old.lockCF.data.filter fun r => keys r.userKey

variable {keys keys' : Bytes → Bool} {a b : RegionData}

theorem Has.trans {c : RegionData} {keys'' : Bytes → Bool} (hab : Has a b keys)
    (hbc : Has b c keys') (h : ∀ key, (keys' key && keys key) = keys'' key) : Has a c keys'' := by
  constructor
  · rw [hbc.write, hab.write, filter_filter]
    exact filter_congr fun r _ => h r.userKey
  · rw [hbc.default, hab.default, filter_filter]
    exact filter_congr fun r _ => h r.userKey
  · rw [hbc.lock, hab.lock, filter_filter]
    exact filter_congr fun r _ => h r.userKey

theorem Has.congr {range : RawRange} (hab : Has a b keys)
    (hin : a.In range) (h : ∀ key, range.Mem key → keys key = keys' key) : Has a b keys' := by
  constructor
  · rw [hab.write]
    exact filter_congr fun r hr => h _ (hin.1 r hr)
  · rw [hab.default]
    exact filter_congr fun r hr => h _ (hin.2.1 r hr)
  · rw [hab.lock]
    exact filter_congr fun r hr => h _ (hin.2.2 r hr)

theorem splitInto_has (data : RegionData) (range : RegionRangeKeys) :
    Has data (data.splitInto range).1 (fun key => !decide (range.raw.Mem key)) ∧
      Has data (data.splitInto range).2 (fun key => range.raw.Mem key) := by
  obtain ⟨hw, hw', -⟩ := splitInto_spec data.writeCF range
  obtain ⟨hd, hd', -⟩ := splitInto_spec data.defaultCF range
  obtain ⟨hl, hl', -⟩ := splitInto_spec data.lockCF range
  simp only [decide_not] at hw hd hl
  exact ⟨⟨hw, hd, hl⟩, ⟨hw', hd', hl'⟩⟩

theorem splitInto_sizeOk {data : RegionData} (h : data.SizeOk) (range : RegionRangeKeys) :
    (data.splitInto range).1.SizeOk ∧ (data.splitInto range).2.SizeOk := by
  have hd := splitInto_size data.defaultCF range
  have hw := splitInto_size data.writeCF range
  have hl := splitInto_size data.lockCF range
  have hd' := (splitInto_spec data.defaultCF range).2.2
  have hw' := (splitInto_spec data.writeCF range).2.2
  have hl' := (splitInto_spec data.lockCF range).2.2
  constructor
  · show data.cfDataSize - _ = _
    rw [h, ← hd, ← hw, ← hl]
    abel
  · show 0 + _ = _
    rw [zero_add, hd', hw', hl']
    rfl

end RegionData

theorem splitOff_infos (news : List RegionTable.Region) (data : RegionData) :
    (splitOff data news).2.map (·.info) = news := by
  induction news generalizing data with
  | nil => rfl
  | cons new news ih => rw [splitOff, map_cons, ih]

theorem splitOff_spec (news : List RegionTable.Region) (data : RegionData) (hsize : data.SizeOk) :
    RegionData.Has data (splitOff data news).1 (fun key => !news.any fun new => new.range.raw.Mem key) ∧
      (splitOff data news).1.SizeOk ∧ (∀ part ∈ (splitOff data news).2, part.data.SizeOk) ∧
      (news.Pairwise (fun a b => a.range.raw.Disjoint b.range.raw) →
        ∀ part ∈ (splitOff data news).2, RegionData.Has data part.data fun key => part.info.range.raw.Mem key) := by
  induction news generalizing data with
  | nil =>
    refine ⟨⟨?_, ?_, ?_⟩, hsize, by simp [splitOff], by simp [splitOff]⟩ <;> simp [splitOff]
  | cons new news ih =>
    obtain ⟨hleft, htaken⟩ := RegionData.splitInto_has data new.range
    obtain ⟨hsleft, hstaken⟩ := RegionData.splitInto_sizeOk hsize new.range
    obtain ⟨hrest, hsrest, hsparts, hparts⟩ := ih (data.splitInto new.range).1 hsleft
    refine ⟨?_, hsrest, ?_, ?_⟩
    · refine hleft.trans hrest fun key => ?_
      simp only [any_cons, Bool.not_or]
      exact Bool.and_comm _ _
    · exact forall_mem_cons.2 ⟨hstaken, hsparts⟩
    · intro hdisjoint part hpart
      rw [pairwise_cons] at hdisjoint
      rcases mem_cons.1 hpart with rfl | hpart
      · exact htaken
      · refine hleft.trans (hparts hdisjoint.2 part hpart) fun key => ?_
        have hmem : part.info ∈ news := by
          rw [← splitOff_infos news (data.splitInto new.range).1]
          exact mem_map_of_mem hpart
        have hdis := hdisjoint.1 part.info hmem key
        by_cases hkey : part.info.range.raw.Mem key
        · have hnot : ¬ new.range.raw.Mem key := fun hnew => hdis ⟨hnew, hkey⟩
          simp [hkey, hnot]
        · simp [hkey]

/-! ## The meta of a split -/

variable {region : RegionTable.Region} {info : MetaRegion}

theorem ofMeta_toMeta {index : Nat} (h : Region.ofMeta info index = .ok region) :
    region.toMeta = info := by
  obtain ⟨range, hrange, ⟨⟩⟩ := bind_eq_ok_iff.1 h
  show MetaRegion.mk info.id range.raw _ _ _ = info
  rw [Store.rangeKeys_ok hrange]

theorem ofMeta_isOk_iff (info : MetaRegion) (index : Nat) :
    (∃ region, Region.ofMeta info index = .ok region) ↔ (ofRaw? info.range).isSome := by
  unfold Region.ofMeta rangeKeys
  cases h : ofRaw? info.range with
  | none => simp [bind, Except.bind]
  | some range => simp [bind, Except.bind, pure, Except.pure]

variable {infos : List MetaRegion}

theorem execBatchSplit_meta {storeID : Nat} (index : Nat) (h : SplitOf storeID region infos)
    (hlegal : ∀ info ∈ infos, (ofRaw? info.range).isSome) :
    ∃ derived news, Store.execBatchSplit storeID region infos index = .ok (derived, news) ∧
      derived.id = region.id ∧ (derived.toMeta :: news.map (·.toMeta)).Perm infos := by
  obtain ⟨info, hfilter⟩ := h.derived
  have hinfo : info ∈ infos.filter (·.id = region.id) := by rw [hfilter]; exact mem_singleton_self _
  obtain ⟨derived, hderived⟩ := (ofMeta_isOk_iff info index).2 (hlegal info (mem_of_mem_filter hinfo))
  have hnews : ∀ info ∈ infos.filter (·.id ≠ region.id), ∃ new, Store.newRegion storeID info = .ok new ∧
      new.toMeta = info := by
    intro info hinfo
    obtain ⟨hmem, hid⟩ := mem_filter.1 hinfo
    obtain ⟨new, hnew⟩ := (ofMeta_isOk_iff info initialAppliedIndex).2 (hlegal info hmem)
    refine ⟨new, ?_, ofMeta_toMeta hnew⟩
    unfold Store.newRegion
    rw [if_pos (h.peers info hmem (of_decide_eq_true hid))]
    exact hnew
  obtain ⟨news, hmapM, hmetas⟩ := exists_mapM_eq_ok hnews
  refine ⟨{ derived with mappedTableID := region.mappedTableID }, news, ?_, ?_, ?_⟩
  · unfold Store.execBatchSplit
    have hne : infos.isEmpty = false := by
      cases infos with
      | nil => cases hinfo
      | cons _ _ => rfl
    have hder : Store.derivedRegion region infos index
        = .ok { derived with mappedTableID := region.mappedTableID } := by
      unfold Store.derivedRegion
      rw [hfilter]
      exact bind_eq_ok_iff.2 ⟨derived, hderived, rfl⟩
    rw [hne, if_neg Bool.false_ne_true, hmapM]
    rw [hder]
    rfl
  · show derived.id = _
    rw [(Store.ofMeta_ok hderived).1]
    exact of_decide_eq_true (mem_filter.1 hinfo).2
  · show (derived.toMeta :: _).Perm infos
    rw [ofMeta_toMeta hderived, hmetas]
    have hperm := filter_append_perm (fun i : MetaRegion => decide (i.id = region.id)) infos
    rw [hfilter] at hperm
    simpa using hperm

variable {storeID index : Nat}

theorem execBatchSplit_illegal (hinfo : info ∈ infos) (hillegal : ofRaw? info.range = none) :
    ∀ result, Store.execBatchSplit storeID region infos index ≠ .ok result := by
  rintro ⟨derived, news⟩ h
  unfold Store.execBatchSplit at h
  split_ifs at h
  obtain ⟨news', hnews, h⟩ := bind_eq_ok_iff.1 h
  obtain ⟨derived', hderived, -⟩ := bind_eq_ok_iff.1 h
  have hno : ∀ idx r, Region.ofMeta info idx ≠ .ok r := by
    intro idx r hr
    have hsome := (ofMeta_isOk_iff info idx).1 ⟨r, hr⟩
    rw [hillegal] at hsome
    cases hsome
  by_cases hid : info.id = region.id
  · unfold Store.derivedRegion at hderived
    have hmem : info ∈ infos.filter (·.id = region.id) := mem_filter.2 ⟨hinfo, decide_eq_true hid⟩
    split at hderived
    · cases hderived
    · rename_i info' hfilter
      rw [hfilter] at hmem
      rw [← mem_singleton.1 hmem] at hderived
      obtain ⟨fresh, hfresh, -⟩ := bind_eq_ok_iff.1 hderived
      exact hno _ _ hfresh
    · cases hderived
  · obtain ⟨new, hnew⟩ := exists_of_mapM_eq_ok hnews
      (mem_filter.2 ⟨hinfo, decide_eq_true hid⟩ : info ∈ infos.filter (·.id ≠ region.id))
    unfold Store.newRegion at hnew
    split_ifs at hnew
    exact hno _ _ hnew

/-! ## Tilings -/

variable {range : RawRange}

theorem Tiles.perm {infos infos' : List MetaRegion} (h : Tiles range infos) (hperm : infos'.Perm infos) :
    Tiles range infos' := by
  refine ⟨fun key => ?_, ?_⟩
  · rw [h.covers key]
    simp only [hperm.mem_iff]
  · refine (List.Perm.pairwise_iff ?_ hperm).2 h.disjoint
    exact fun hab key hkey => hab key hkey.symm

variable {α : Type}

theorem countP_le_one {p : α → Bool} {as : List α}
    (h : as.Pairwise fun a b => ¬ (p a = true ∧ p b = true)) : as.countP p ≤ 1 := by
  induction as with
  | nil => simp
  | cons a as ih =>
    rw [pairwise_cons] at h
    rw [countP_cons]
    by_cases ha : p a = true
    · have hzero : as.countP p = 0 := countP_eq_zero.2 fun b hb hpb => h.1 b hb ⟨ha, hpb⟩
      rw [hzero, if_pos ha]
    · rw [if_neg ha, Nat.add_zero]
      exact ih h.2

theorem Tiles.countP_eq_one (h : Tiles range infos) {key : Bytes} (hkey : range.Mem key) :
    infos.countP (fun info => info.range.Mem key) = 1 := by
  obtain ⟨info, hinfo, hmem⟩ := (h.covers key).1 hkey
  have hpos : 0 < infos.countP fun info => info.range.Mem key :=
    countP_pos_iff.2 ⟨info, hinfo, decide_eq_true hmem⟩
  have hle : infos.countP (fun info => decide (info.range.Mem key)) ≤ 1 :=
    countP_le_one (h.disjoint.imp fun hab hboth =>
      hab key ⟨of_decide_eq_true hboth.1, of_decide_eq_true hboth.2⟩)
  omega

/-! ## Batch split -/

theorem liftMeta_eq_ok_iff {x : Except RegionTable.Exception α} {a : α} :
    liftMeta x = .ok a ↔ x = .ok a := by
  cases x <;> simp [liftMeta]

variable {news : List DataRegion}

theorem execBatchSplit_eq_ok_iff {region derived : DataRegion} :
    execBatchSplit storeID region infos index = .ok (derived, news) ↔
      ∃ metas, Store.execBatchSplit storeID region.info infos index = .ok (derived.info, metas) ∧
        splitOff region.data metas = (derived.data, news) := by
  unfold execBatchSplit
  rw [bind_eq_ok_iff]
  constructor
  · rintro ⟨⟨info, metas⟩, hmeta, h⟩
    obtain ⟨rfl, rfl⟩ := h
    exact ⟨metas, liftMeta_eq_ok_iff.1 hmeta, rfl⟩
  · rintro ⟨metas, hmeta, hsplit⟩
    refine ⟨(derived.info, metas), liftMeta_eq_ok_iff.2 hmeta, ?_⟩
    rw [pure_eq_ok_iff, hsplit]

theorem execBatchSplit_shares {region derived : DataRegion} (hok : region.Ok)
    (htiles : Tiles region.info.range.raw infos)
    (hperm : (derived.info.toMeta :: news.map (·.info.toMeta)).Perm infos)
    (hexec : execBatchSplit storeID region infos index = .ok (derived, news)) :
    ∀ part ∈ derived :: news, HasShare region part := by
  obtain ⟨metas, -, hsplit⟩ := execBatchSplit_eq_ok_iff.1 hexec
  have hinfos := splitOff_infos metas region.data
  obtain ⟨hrest, hsrest, hsparts, hparts⟩ := splitOff_spec metas region.data hok.size
  rw [hsplit] at hinfos hrest hsrest hsparts hparts
  subst hinfos
  have htiles' := htiles.perm hperm
  have hdisjoint := htiles'.disjoint
  rw [pairwise_cons, pairwise_map] at hdisjoint
  have hnews : (news.map (·.info)).Pairwise fun a b => a.range.raw.Disjoint b.range.raw :=
    pairwise_map.2 hdisjoint.2
  -- a key of the old range that no new region takes is in the range of the region that keeps the id
  have hderived : RegionData.Has region.data derived.data fun key => derived.info.range.raw.Mem key := by
    refine hrest.congr hok.inRange fun key hkey => ?_
    obtain ⟨info, hinfo, hmem⟩ := (htiles'.covers key).1 hkey
    rw [Bool.eq_iff_iff, Bool.not_eq_true', any_eq_false, decide_eq_true_iff]
    constructor
    · intro hnone
      rcases mem_cons.1 hinfo with rfl | hinfo
      · exact hmem
      · obtain ⟨part, hpart, rfl⟩ := mem_map.1 hinfo
        exact absurd (decide_eq_true hmem) (hnone part.info (mem_map_of_mem hpart))
    · intro hkeyDerived new hnew hkeyNew
      obtain ⟨part, hpart, rfl⟩ := mem_map.1 hnew
      exact hdisjoint.1 part.info.toMeta (mem_map_of_mem hpart) key
        ⟨hkeyDerived, of_decide_eq_true hkeyNew⟩
  intro part hpart
  rcases mem_cons.1 hpart with rfl | hpart
  · exact ⟨hderived.write, hderived.default, hderived.lock, hsrest⟩
  · have hhas := hparts hnews part hpart
    exact ⟨hhas.write, hhas.default, hhas.lock, hsparts part hpart⟩

theorem countP_records {region : DataRegion} {parts : List DataRegion}
    (records : DataRegion → List α) [DecidableEq α] (userKey : α → Bytes)
    (hshare : ∀ part ∈ parts, records part
      = (records region).filter fun r => part.info.range.raw.Mem (userKey r))
    (htiles : Tiles region.info.range.raw (parts.map (·.info.toMeta))) {r : α} (hr : r ∈ records region)
    (hmem : region.info.range.raw.Mem (userKey r)) :
    parts.countP (fun part => r ∈ records part) = 1 := by
  have hone := htiles.countP_eq_one hmem
  rw [countP_map] at hone
  rw [← hone]
  refine countP_congr fun part hpart => ?_
  rw [decide_eq_true_iff, hshare part hpart, mem_filter]
  simp [hr, RegionTable.Region.toMeta]

/-! ## Commit merge -/

theorem start_ne_nil (range : RegionRangeKeys) : range.raw.start ≠ [] := by
  intro h
  have hmapped := range.mapped
  rw [h] at hmapped
  cases hmapped

variable {a b : RegionRangeKeys}

theorem disjoint_of_stop_eq_start (h : a.raw.stop = b.raw.start) :
    a.raw.Disjoint b.raw := by
  rintro key ⟨ha, hb⟩
  have hlt := ha.2.resolve_left (h ▸ start_ne_nil b)
  exact absurd hlt (not_lt.2 (h ▸ hb.1))

variable {target source : RegionTable.Region}

theorem Adjacent.disjoint (h : Adjacent target source) :
    target.range.raw.Disjoint source.range.raw := by
  rcases h with h | h
  · exact fun key hkey => disjoint_of_stop_eq_start h key hkey.symm
  · exact disjoint_of_stop_eq_start h

theorem mem_union_iff (h : a.raw.stop = b.raw.start) (key : Bytes) :
    (RawRange.mk a.raw.start b.raw.stop).Mem key ↔ a.raw.Mem key ∨ b.raw.Mem key := by
  have hne : a.raw.stop ≠ [] := h ▸ start_ne_nil b
  have hlt := a.ordered.resolve_left hne
  unfold RawRange.Mem
  rw [h] at hlt ⊢
  have hb := start_ne_nil b
  constructor
  · rintro ⟨hle, hstop⟩
    rcases lt_or_ge key b.raw.start with hkey | hkey
    · exact .inl ⟨hle, .inr hkey⟩
    · exact .inr ⟨hkey, hstop⟩
  · rintro (⟨hle, hkey⟩ | ⟨hle, hkey⟩)
    · refine ⟨hle, ?_⟩
      rcases b.ordered with hstop | hstop
      · exact .inl hstop
      · exact .inr ((hkey.resolve_left hb).trans hstop)
    · exact ⟨hlt.le.trans hle, hkey⟩

theorem ofRaw?_union (h : a.raw.stop = b.raw.start) :
    ∃ range, ofRaw? ⟨a.raw.start, b.raw.stop⟩ = some range ∧
      range.raw = ⟨a.raw.start, b.raw.stop⟩ ∧ range.mappedTableID = a.mappedTableID := by
  have hlt := a.ordered.resolve_left (h ▸ start_ne_nil b)
  rw [h] at hlt
  have hordered : b.raw.stop = [] ∨ a.raw.start < b.raw.stop := b.ordered.imp_right hlt.trans
  refine ⟨⟨⟨a.raw.start, b.raw.stop⟩, a.mappedTableID, a.mapped, hordered⟩, ?_, rfl, rfl⟩
  unfold ofRaw?
  split
  · rename_i hnone
    have hmapped := a.mapped
    rw [show computeMappedTableID a.raw.start = none from hnone] at hmapped
    cases hmapped
  · rename_i tableID hsome
    have hmapped := a.mapped
    rw [show computeMappedTableID a.raw.start = some tableID from hsome] at hmapped
    obtain rfl := Option.some.inj hmapped
    rw [dif_pos hordered]

theorem not_atLeft (h : target.range.raw.stop = source.range.raw.start) : ¬ AtLeft target source := by
  intro hleft
  have hne : target.range.raw.stop ≠ [] := h ▸ start_ne_nil source.range
  have hne' : source.range.raw.stop ≠ [] := hleft ▸ start_ne_nil target.range
  have hlt := (target.range.ordered.resolve_left hne).trans_eq h
  have hlt' := (source.range.ordered.resolve_left hne').trans_eq hleft
  exact lt_asymm hlt hlt'

theorem mergeMeta_spec (hadj : Adjacent target source)
    (hstate : source.peerState = .merging ∨ source.peerState = .normal) (hid : source.id ≠ target.id)
    (index : Nat) :
    ∃ range : RegionRangeKeys,
      (∀ key, range.raw.Mem key ↔ target.range.raw.Mem key ∨ source.range.raw.Mem key) ∧
      range.mappedTableID = (leftPart target source).range.mappedTableID ∧
      mergeMeta target source source.toMeta none index
        = if range.mappedTableID = target.mappedTableID then
            .ok (Store.mergedRegion target range source.toMeta index)
          else .error (.tableNotMatch target.id) := by
  have hnot : ¬ (source.peerState ≠ .merging ∧ source.peerState ≠ .normal) := by
    rintro ⟨hm, hn⟩
    rcases hstate with h | h
    · exact hm h
    · exact hn h
  -- with the merged range at hand the rest of the command does not depend on the side
  have hrest : ∀ raw range, Store.checkBeforeCommitMerge target source source.toMeta = .ok raw →
      ofRaw? raw = some range →
      mergeMeta target source source.toMeta none index
        = if range.mappedTableID = target.mappedTableID then
            .ok (Store.mergedRegion target range source.toMeta index)
          else .error (.tableNotMatch target.id) := by
    intro raw range hcheck hrange
    have hkeys : rangeKeys raw = .ok range := by unfold rangeKeys; rw [hrange]
    have hmerged : Store.checkMerged (Store.mergedRegion target range source.toMeta index) source.toMeta.id
        none = .ok () := by
      have hid' : source.toMeta.id ≠ (Store.mergedRegion target range source.toMeta index).id := hid
      unfold Store.checkMerged
      rw [if_neg hid']
      rfl
    unfold mergeMeta
    rw [hcheck]
    show (rangeKeys raw >>= _) = _
    rw [hkeys]
    show (checkTable target range >>= _) = _
    unfold checkTable
    by_cases htable : range.mappedTableID = target.mappedTableID
    · rw [if_neg (not_not.2 htable), if_pos htable]
      rw [hmerged]
      rfl
    · rw [if_pos htable, if_neg htable]
      rfl
  rcases hadj with hleft | hright
  · obtain ⟨range, hrange, hraw, htable⟩ := ofRaw?_union hleft
    refine ⟨range, fun key => ?_, ?_, hrest _ range ?_ hrange⟩
    · rw [hraw, mem_union_iff hleft, or_comm]
    · rw [htable, leftPart, if_pos hleft]
    · unfold Store.checkBeforeCommitMerge
      rw [if_neg hnot, if_neg (not_not.2 rfl), if_pos (.inr hleft)]
  · obtain ⟨range, hrange, hraw, htable⟩ := ofRaw?_union hright
    refine ⟨range, fun key => ?_, ?_, hrest _ range ?_ hrange⟩
    · rw [hraw, mem_union_iff hright]
    · rw [htable, leftPart, if_neg (not_atLeft hright)]
    · unfold Store.checkBeforeCommitMerge
      have hno : ¬ (source.range.raw.start = [] ∨ source.range.raw.stop = target.range.raw.start) := by
        rintro (h | h)
        · exact start_ne_nil source.range h
        · exact not_atLeft hright h
      rw [if_neg hnot, if_neg (not_not.2 rfl), if_neg hno]

theorem lock_not_collide {target source : RegionData} {a b : RawRange} (ha : target.In a) (hb : source.In b)
    (hdisjoint : a.Disjoint b) : ¬ Collide target.lockCF source.lockCF := by
  rintro ⟨r, hr, r', hr', hkey⟩
  have hencode : encodeBytes r.userKey ++ [] = encodeBytes r'.userKey ++ [] := by
    rw [append_nil, append_nil]
    exact hkey
  have heq := (encodeBytes_append_inj hencode).1
  exact hdisjoint r.userKey ⟨ha.2.2 r hr, heq ▸ hb.2.2 r' hr'⟩

variable {data ori : RegionData}

theorem mergeFrom_spec (hd : ¬ Collide data.defaultCF ori.defaultCF)
    (hw : ¬ Collide data.writeCF ori.writeCF) (hl : ¬ Collide data.lockCF ori.lockCF) :
    ∃ merged, data.mergeFrom ori = some merged ∧ merged.writeCF.data = data.writeCF.data ++ ori.writeCF.data ∧
      merged.defaultCF.data = data.defaultCF.data ++ ori.defaultCF.data ∧
      merged.lockCF.data = data.lockCF.data ++ ori.lockCF.data ∧
      merged.cfDataSize = data.cfDataSize
        + (ori.defaultCF.recordsSize + ori.writeCF.recordsSize + ori.lockCF.recordsSize) := by
  obtain ⟨d, hd, hddata⟩ := mergeFrom_of_not_collide hd
  obtain ⟨w, hw, hwdata⟩ := mergeFrom_of_not_collide hw
  obtain ⟨l, hl, hldata⟩ := mergeFrom_of_not_collide hl
  refine ⟨⟨w, d, l, data.cfDataSize
    + (ori.defaultCF.recordsSize + ori.writeCF.recordsSize + ori.lockCF.recordsSize)⟩,
    ?_, hwdata, hddata, hldata, rfl⟩
  unfold RegionData.mergeFrom
  rw [hd, hw, hl]
  rfl

theorem mergeFrom_none (h : Collide data.defaultCF ori.defaultCF ∨ Collide data.writeCF ori.writeCF) :
    data.mergeFrom ori = none := by
  unfold RegionData.mergeFrom
  rcases h with h | h
  · rw [mergeFrom_of_collide h]
    rfl
  · rw [mergeFrom_of_collide h]
    cases data.defaultCF.mergeFrom ori.defaultCF <;> rfl

/-- Records of one table under one key of the map are of one row. -/
theorem not_collide_of_inTable {target source : RegionData} {a b : RawRange} {tablePrefix : Bytes}
    (ha : target.In a) (hb : source.In b) (hdisjoint : a.Disjoint b) (hta : target.InTable tablePrefix)
    (htb : source.InTable tablePrefix) :
    ¬ Collide target.writeCF source.writeCF ∧ ¬ Collide target.defaultCF source.defaultCF := by
  have hrow : ∀ k k' : Bytes, k.take rawKeyNoHandleSize = tablePrefix →
      k'.take rawKeyNoHandleSize = tablePrefix → getRawTiDBPK k = getRawTiDBPK k' → k = k' := by
    intro k k' hk hk' hpk
    rw [← take_append_drop rawKeyNoHandleSize k, ← take_append_drop rawKeyNoHandleSize k', hk, hk']
    exact congrArg (tablePrefix ++ ·) hpk
  constructor
  · rintro ⟨r, hr, r', hr', hkey⟩
    have heq := hrow _ _ (hta.1 r hr) (htb.1 r' hr') (congrArg Prod.fst hkey)
    exact hdisjoint r.userKey ⟨ha.1 r hr, heq ▸ hb.1 r' hr'⟩
  · rintro ⟨r, hr, r', hr', hkey⟩
    have heq := hrow _ _ (hta.2 r hr) (htb.2 r' hr') (congrArg Prod.fst hkey)
    exact hdisjoint r.userKey ⟨ha.2.1 r hr, heq ▸ hb.2.1 r' hr'⟩

theorem execCommitMerge_of_meta {target source : DataRegion} {sourceInfo : MetaRegion} {index : Nat}
    {info : RegionTable.Region}
    (hmeta : mergeMeta target.info source.info sourceInfo none index = .ok info) :
    execCommitMerge target source sourceInfo none index
      = (mergeData target.data source.data >>= fun data => pure ⟨info, data⟩) := by
  unfold execCommitMerge
  rw [hmeta]
  rfl

theorem mem_of_append {α : Type} {l a b : List α} {userKey : α → Bytes} {ra rb rc : RawRange}
    (hmem : ∀ key, rc.Mem key ↔ ra.Mem key ∨ rb.Mem key) (hl : l = a ++ b)
    (ha : ∀ r ∈ a, ra.Mem (userKey r)) (hb : ∀ r ∈ b, rb.Mem (userKey r)) : ∀ r ∈ l, rc.Mem (userKey r) :=
  hl ▸ forall_mem_append.2 ⟨fun r hr => (hmem _).2 (.inl (ha r hr)), fun r hr => (hmem _).2 (.inr (hb r hr))⟩

theorem iff_and_forall_of_ne_ok {ε α : Type} {x : Except ε α} {p : Prop} {q : α → Prop}
    (hx : ∀ a, x ≠ .ok a) (hp : ¬ p) : ((∃ a, x = .ok a) ↔ p) ∧ ∀ a, x = .ok a → q a :=
  ⟨iff_of_false (fun ⟨a, h⟩ => hx a h) hp, fun a h => absurd h (hx a)⟩

/-- The merge succeeds for regions of one table, or more generally without records under one key. -/
theorem execCommitMerge_iff {target source : DataRegion} (htarget : target.Ok) (hsource : source.Ok)
    (hadj : Adjacent target.info source.info)
    (hstate : source.info.peerState = .merging ∨ source.info.peerState = .normal)
    (hid : source.info.id ≠ target.info.id) (index : Nat) :
    ((∃ merged, execCommitMerge target source source.info.toMeta none index = .ok merged) ↔
      (leftPart target.info source.info).range.mappedTableID = target.info.mappedTableID ∧
      ¬ Collide target.data.writeCF source.data.writeCF ∧
      ¬ Collide target.data.defaultCF source.data.defaultCF) ∧
    ∀ merged, execCommitMerge target source source.info.toMeta none index = .ok merged →
      United target source merged := by
  obtain ⟨range, hmem, htable, hmeta⟩ := mergeMeta_spec hadj hstate hid index
  have hlock := lock_not_collide htarget.inRange hsource.inRange hadj.disjoint
  by_cases htables : range.mappedTableID = target.info.mappedTableID
  · rw [if_pos htables] at hmeta
    by_cases hcollide : Collide target.data.defaultCF source.data.defaultCF ∨
        Collide target.data.writeCF source.data.writeCF
    · refine iff_and_forall_of_ne_ok (fun merged h => ?_) ?_
      · rw [execCommitMerge_of_meta hmeta, mergeData, mergeFrom_none hcollide] at h
        cases h
      · rintro ⟨-, hw, hd⟩
        exact hcollide.elim hd hw
    · obtain ⟨hd, hw⟩ := not_or.1 hcollide
      obtain ⟨data, hdata, hwrite, hdefault, hlockdata, hsize⟩ := mergeFrom_spec hd hw hlock
      have hexec : execCommitMerge target source source.info.toMeta none index
          = .ok ⟨Store.mergedRegion target.info range source.info.toMeta index, data⟩ := by
        rw [execCommitMerge_of_meta hmeta, mergeData, hdata]
        rfl
      refine ⟨iff_of_true ⟨_, hexec⟩ ⟨htable ▸ htables, hw, hd⟩, fun merged h => ?_⟩
      rw [hexec] at h
      obtain rfl := ok.inj h
      have hsum : data.cfDataSize = target.data.cfDataSize + source.data.cfDataSize := by
        rw [hsize, hsource.size]
      refine ⟨hwrite, hdefault, hlockdata, hsum, hmem, rfl, ⟨⟨?_, ?_, ?_⟩, ?_⟩⟩
      · exact mem_of_append hmem hwrite htarget.inRange.1 hsource.inRange.1
      · exact mem_of_append hmem hdefault htarget.inRange.2.1 hsource.inRange.2.1
      · exact mem_of_append hmem hlockdata htarget.inRange.2.2 hsource.inRange.2.2
      · show data.cfDataSize = _
        rw [hsize, htarget.size, recordsSize_append hwrite, recordsSize_append hdefault,
          recordsSize_append hlockdata]
        abel
  · rw [if_neg htables] at hmeta
    refine iff_and_forall_of_ne_ok (fun merged h => ?_) ?_
    · unfold execCommitMerge at h
      rw [hmeta] at h
      cases h
    · rintro ⟨hleft, -⟩
      exact htables (htable.trans hleft)

theorem execBatchSplit_iff {region : DataRegion} (hok : region.Ok)
    (hsplit : SplitOf storeID region.info infos) (htiles : Tiles region.info.range.raw infos) :
    ((∃ derived news, execBatchSplit storeID region infos index = .ok (derived, news)) ↔
      ∀ info ∈ infos, (ofRaw? info.range).isSome) ∧
    ∀ derived news, execBatchSplit storeID region infos index = .ok (derived, news) →
      (derived.info.toMeta :: news.map (·.info.toMeta)).Perm infos ∧ derived.info.id = region.info.id ∧
        Partitioned region (derived :: news) := by
  have hlegal_of_ok : ∀ derived news, execBatchSplit storeID region infos index = .ok (derived, news) →
      ∀ info ∈ infos, (ofRaw? info.range).isSome := by
    intro derived news hexec info hinfo
    obtain ⟨metas, hmeta, -⟩ := execBatchSplit_eq_ok_iff.1 hexec
    by_contra hnone
    exact execBatchSplit_illegal hinfo (Option.not_isSome_iff_eq_none.1 hnone) _ hmeta
  refine ⟨⟨fun ⟨derived, news, hexec⟩ => hlegal_of_ok derived news hexec, fun hlegal => ?_⟩,
    fun derived news hexec => ?_⟩
  · obtain ⟨info, metas, hmeta, -, -⟩ := execBatchSplit_meta index hsplit hlegal
    exact ⟨⟨info, (splitOff region.data metas).1⟩, (splitOff region.data metas).2,
      execBatchSplit_eq_ok_iff.2 ⟨metas, hmeta, rfl⟩⟩
  · obtain ⟨info, metas', hmeta', hid, hperm⟩ :=
      execBatchSplit_meta index hsplit (hlegal_of_ok derived news hexec)
    obtain ⟨metas, hmeta, hoff⟩ := execBatchSplit_eq_ok_iff.1 hexec
    rw [hmeta, ok.injEq, Prod.mk.injEq] at hmeta'
    obtain ⟨rfl, rfl⟩ := hmeta'
    have hinfos : news.map (·.info) = metas := by
      have h := splitOff_infos metas region.data
      rwa [hoff] at h
    have hperm' : (derived.info.toMeta :: news.map (·.info.toMeta)).Perm infos := by
      rw [← hinfos, map_map] at hperm
      exact hperm
    have hshares := execBatchSplit_shares hok htiles hperm' hexec
    have htiles' : Tiles region.info.range.raw ((derived :: news).map (·.info.toMeta)) := htiles.perm hperm'
    refine ⟨hperm', hid, hshares, ?_, ?_, ?_, ?_⟩
    · exact fun r hr => countP_records (fun part => part.data.writeCF.data) WriteRecord.userKey
        (fun part hpart => (hshares part hpart).write) htiles' hr (hok.inRange.1 r hr)
    · exact fun r hr => countP_records (fun part => part.data.defaultCF.data) DefaultRecord.userKey
        (fun part hpart => (hshares part hpart).default) htiles' hr (hok.inRange.2.1 r hr)
    · exact fun r hr => countP_records (fun part => part.data.lockCF.data) LockRecord.userKey
        (fun part hpart => (hshares part hpart).lock) htiles' hr (hok.inRange.2.2 r hr)
    · intro part hpart r hr d hd huser _
      rw [(hshares part hpart).write] at hr
      rw [(hshares part hpart).default]
      refine mem_filter.2 ⟨hd, decide_eq_true ?_⟩
      have hmem : part.info.range.raw.Mem r.userKey := of_decide_eq_true (mem_filter.1 hr).2
      show part.info.range.raw.Mem d.userKey
      rw [huser]
      exact hmem

/-- A batch split whose ranges tile the region succeeds iff each starts in a table, and then partitions the
records. A merge of adjacent regions succeeds iff the left one starts in the table under which the target is
registered and no two records share primary key and timestamp, as records of one table never do, and then
unites them. -/
theorem split_partitions_merge_unites :
    (∀ (storeID index : Nat) (region : DataRegion) (infos : List MetaRegion), region.Ok →
      SplitOf storeID region.info infos → Tiles region.info.range.raw infos →
      ((∃ derived news, execBatchSplit storeID region infos index = .ok (derived, news)) ↔
        ∀ info ∈ infos, (ofRaw? info.range).isSome) ∧
      ∀ derived news, execBatchSplit storeID region infos index = .ok (derived, news) →
        (derived.info.toMeta :: news.map (·.info.toMeta)).Perm infos ∧ derived.info.id = region.info.id ∧
          Partitioned region (derived :: news)) ∧
    (∀ (index : Nat) (target source : DataRegion), target.Ok → source.Ok → Adjacent target.info source.info →
      source.info.peerState = .merging ∨ source.info.peerState = .normal →
      source.info.id ≠ target.info.id →
      ((∃ merged, execCommitMerge target source source.info.toMeta none index = .ok merged) ↔
        (leftPart target.info source.info).range.mappedTableID = target.info.mappedTableID ∧
        ¬ Collide target.data.writeCF source.data.writeCF ∧
        ¬ Collide target.data.defaultCF source.data.defaultCF) ∧
      ∀ merged, execCommitMerge target source source.info.toMeta none index = .ok merged →
        United target source merged) ∧
    ∀ (target source : DataRegion) (tablePrefix : Bytes), target.Ok → source.Ok →
      Adjacent target.info source.info → target.data.InTable tablePrefix → source.data.InTable tablePrefix →
      ¬ Collide target.data.writeCF source.data.writeCF ∧
        ¬ Collide target.data.defaultCF source.data.defaultCF := by
  refine ⟨fun storeID index region infos hok hsplit htiles => execBatchSplit_iff hok hsplit htiles,
    fun index target source htarget hsource hadj hstate hid =>
      execCommitMerge_iff htarget hsource hadj hstate hid index,
    fun target source tablePrefix htarget hsource hadj htt hts => ?_⟩
  exact not_collide_of_inTable htarget.inRange hsource.inRange hadj.disjoint htt hts

/-! ## Regions of one and of two tables -/

/-- A record key -/
def rowKey (tableID : RecordKVFormat.TableID) (b : Byte) : Bytes := recordPrefix tableID ++ [b]

/-- Table 5 -/
def table5 : RecordKVFormat.TableID := 5

/-- Table 6 -/
def table6 : RecordKVFormat.TableID := 6

/-- A committed row at a key: a write record and its default record. -/
def rowData (userKey : Bytes) : RegionData :=
  let w : WriteRecord := ⟨userKey, 20, 10, [1]⟩
  let d : DefaultRecord := ⟨userKey, 10, [2]⟩
  ⟨⟨[w], nodup_singleton _⟩, ⟨[d], nodup_singleton _⟩, .empty, defaultTrait.size d + writeTrait.size w⟩

theorem rowData_sizeOk (userKey : Bytes) : (rowData userKey).SizeOk := by
  simp [RegionData.SizeOk, rowData, CFData.recordsSize, CFData.empty]

variable {userKey : Bytes}

theorem rowData_in (h : range.Mem userKey) :
    (rowData userKey).In range := by
  refine ⟨fun r hr => ?_, fun r hr => ?_, fun r hr => by cases hr⟩
  · rw [mem_singleton.1 hr]
    exact h
  · rw [mem_singleton.1 hr]
    exact h

/-- A region with one row -/
def rowRegion (id : RegionID) (range : RegionRangeKeys) (userKey : Bytes) : DataRegion :=
  ⟨⟨id, range, range.mappedTableID, 3, 1, [1], .normal, 6⟩, rowData userKey⟩

theorem rowRegion_ok (id : RegionID) {range : RegionRangeKeys}
    (h : range.raw.Mem userKey) : (rowRegion id range userKey).Ok :=
  ⟨rowData_in h, rowData_sizeOk userKey⟩

theorem tiles_of_cut (a b c : MetaRegion) (hstart : a.range.start = b.range.start)
    (hcut : b.range.stop = c.range.start) (hstop : a.range.stop = c.range.stop)
    (hle : a.range.start ≤ b.range.stop) (hne : b.range.stop ≠ [])
    (hlt : a.range.stop = [] ∨ b.range.stop < a.range.stop) : Tiles a.range [b, c] := by
  refine ⟨fun key => ?_, ?_⟩
  · simp only [mem_cons, not_mem_nil, or_false, exists_eq_or_imp, exists_eq_left, RawRange.Mem,
      ← hstart, ← hcut, ← hstop]
    constructor
    · rintro ⟨hge, hkey⟩
      rcases lt_or_ge key b.range.stop with h | h
      · exact .inl ⟨hge, .inr h⟩
      · exact .inr ⟨h, hkey⟩
    · rintro (⟨hge, hkey⟩ | ⟨hge, hkey⟩)
      · exact ⟨hge, hlt.imp_right ((hkey.resolve_left hne).trans ·)⟩
      · exact ⟨hle.trans hge, hkey⟩
  · rw [pairwise_pair]
    rintro key ⟨hb, hc⟩
    exact absurd (hb.2.resolve_left hne) (not_lt.2 (hcut ▸ hc.1))

/-- Table 5 from 1 on -/
def openRange : RegionRangeKeys := ⟨⟨rowKey table5 1, []⟩, table5, by decide, .inl rfl⟩

/-- Table 5 from 1 to 4 -/
def lowRange : RegionRangeKeys := ⟨⟨rowKey table5 1, rowKey table5 4⟩, table5, by decide, .inr (by decide)⟩

/-- Table 5 from 4 on -/
def highRange : RegionRangeKeys := ⟨⟨rowKey table5 4, []⟩, table5, by decide, .inl rfl⟩

theorem split_and_merge_of_one_table :
    (∃ derived news, execBatchSplit 1 (rowRegion 1 openRange (rowKey table5 2))
        [⟨1, lowRange.raw, 4, 1, [1]⟩, ⟨2, highRange.raw, 4, 1, [1]⟩] 10 = .ok (derived, news) ∧
      Partitioned (rowRegion 1 openRange (rowKey table5 2)) (derived :: news)) ∧
    ∃ merged, execCommitMerge (rowRegion 1 lowRange (rowKey table5 2)) (rowRegion 2 highRange (rowKey table5 5))
        (rowRegion 2 highRange (rowKey table5 5)).info.toMeta none 10 = .ok merged ∧
      United (rowRegion 1 lowRange (rowKey table5 2)) (rowRegion 2 highRange (rowKey table5 5)) merged := by
  obtain ⟨hsplit, hmerge, htable⟩ := split_partitions_merge_unites
  constructor
  · obtain ⟨hiff, hpart⟩ := hsplit 1 10 (rowRegion 1 openRange (rowKey table5 2))
      [⟨1, lowRange.raw, 4, 1, [1]⟩, ⟨2, highRange.raw, 4, 1, [1]⟩] (rowRegion_ok 1 (by decide))
      ⟨⟨_, rfl⟩, by decide⟩
      (tiles_of_cut ⟨1, openRange.raw, 4, 1, [1]⟩ _ _ rfl rfl rfl (by decide) (by decide) (.inl rfl))
    obtain ⟨derived, news, hexec⟩ := hiff.2 (by decide)
    exact ⟨derived, news, hexec, (hpart derived news hexec).2.2⟩
  · have hadj : Adjacent (rowRegion 1 lowRange (rowKey table5 2)).info
        (rowRegion 2 highRange (rowKey table5 5)).info := .inr rfl
    have hlow : (rowRegion 1 lowRange (rowKey table5 2)).Ok := rowRegion_ok 1 (by decide)
    have hhigh : (rowRegion 2 highRange (rowKey table5 5)).Ok := rowRegion_ok 2 (by decide)
    obtain ⟨hw, hd⟩ := htable _ _ (recordPrefix table5) hlow hhigh hadj
      ⟨by decide, by decide⟩ ⟨by decide, by decide⟩
    obtain ⟨hiff, hunited⟩ := hmerge 10 _ _ hlow hhigh hadj (.inr rfl) (by decide)
    obtain ⟨merged, hexec⟩ := hiff.2 ⟨rfl, hw, hd⟩
    exact ⟨merged, hexec, hunited merged hexec⟩

/-- The first key of table 6, which is not a record key. -/
def tableBoundary : Bytes := [116] ++ encodeInt64 table6

/-- Table 5 from 1 to the first record of table 6 -/
def toTable6 : RegionRangeKeys := ⟨⟨rowKey table5 1, rowKey table6 0⟩, table5, by decide, .inr (by decide)⟩

/-- Table 6 from its first record on -/
def fromTable6 : RegionRangeKeys := ⟨⟨rowKey table6 0, []⟩, table6, by decide, .inl rfl⟩

/-- A split at the border of a table raises an exception, and so does the merge of regions of two tables with
records of one primary key and timestamp. -/
theorem split_and_merge_across_tables :
    (Tiles openRange.raw [⟨1, ⟨rowKey table5 1, tableBoundary⟩, 4, 1, [1]⟩, ⟨2, ⟨tableBoundary, []⟩, 4, 1, [1]⟩] ∧
      (rowRegion 1 openRange (rowKey table5 2)).Ok ∧
      execBatchSplit 1 (rowRegion 1 openRange (rowKey table5 2))
        [⟨1, ⟨rowKey table5 1, tableBoundary⟩, 4, 1, [1]⟩, ⟨2, ⟨tableBoundary, []⟩, 4, 1, [1]⟩] 10
          = .error (.ofMeta .illegalRange)) ∧
    Adjacent (rowRegion 1 toTable6 (rowKey table5 2)).info (rowRegion 2 fromTable6 (rowKey table6 2)).info ∧
      (rowRegion 1 toTable6 (rowKey table5 2)).Ok ∧ (rowRegion 2 fromTable6 (rowKey table6 2)).Ok ∧
      execCommitMerge (rowRegion 1 toTable6 (rowKey table5 2)) (rowRegion 2 fromTable6 (rowKey table6 2))
        (rowRegion 2 fromTable6 (rowKey table6 2)).info.toMeta none 10 = .error .duplicateKey := by
  refine ⟨⟨?_, rowRegion_ok 1 (by decide), rfl⟩, .inr rfl, rowRegion_ok 1 (by decide),
    rowRegion_ok 2 (by decide), rfl⟩
  exact tiles_of_cut ⟨1, openRange.raw, 4, 1, [1]⟩ _ _ rfl rfl rfl (by decide) (by decide) (.inl rfl)

end TiFlash.Transaction.RegionSplit
