import TiFlash.Lib.ExceptBind
import TiFlash.Transaction.RegionTable

/-!
# What the calls of `RegionTable` do

Each region has no entry or one, under one table. Each call is described by what it does to the entry of its
region; the others stay.
-/

namespace TiFlash.Transaction.RegionTable

open TiFlash.DM TiFlash.Lib Function Tables

/-! ## Extending a range -/

theorem nil_lt_of_ne_nil {key : Bytes} (h : key ≠ []) : ([] : Bytes) < key := by
  obtain ⟨b, rest, rfl⟩ := List.exists_cons_of_ne_nil h
  exact List.nil_lt_cons b rest

variable {recorded given : RawRange}

theorem extended_contains_of_bounded (hr : recorded.stop ≠ []) (hg : given.stop ≠ []) :
    (extended recorded given).Contains recorded ∧ (extended recorded given).Contains given := by
  unfold extended
  split_ifs with hlarger hstart hstop hstop
  · refine ⟨fun key h => h, ?_⟩
    rintro key ⟨hle, hlt⟩
    exact ⟨hlarger.1.trans hle, .inr ((hlt.resolve_left hg).trans_le hlarger.2)⟩
  · constructor
    · rintro key ⟨hle, hlt⟩
      exact ⟨hstart.le.trans hle, .inr ((hlt.resolve_left hr).trans hstop)⟩
    · exact fun key h => h
  · constructor
    · rintro key ⟨hle, hlt⟩
      exact ⟨hstart.le.trans hle, hlt⟩
    · rintro key ⟨hle, hlt⟩
      exact ⟨hle, .inr ((hlt.resolve_left hg).trans_le (not_lt.1 hstop))⟩
  · constructor
    · rintro key ⟨hle, hlt⟩
      exact ⟨hle, .inr ((hlt.resolve_left hr).trans hstop)⟩
    · rintro key ⟨hle, hlt⟩
      exact ⟨(not_lt.1 hstart).trans hle, hlt⟩
  · constructor
    · exact fun key h => h
    · rintro key ⟨hle, hlt⟩
      exact ⟨(not_lt.1 hstart).trans hle, .inr ((hlt.resolve_left hg).trans_le (not_lt.1 hstop))⟩

theorem extended_contains_of_unbounded (hr : recorded.stop = []) (hg : given.stop = []) :
    (extended recorded given).Contains recorded ∧ (extended recorded given).Contains given := by
  unfold extended
  rw [hr, hg]
  split_ifs with hlarger hstart hstop hstop
  · exact ⟨fun key h => h, fun key h => ⟨hlarger.1.trans h.1, .inl hr⟩⟩
  · exact absurd hstop (lt_irrefl _)
  · exact ⟨fun key h => ⟨hstart.le.trans h.1, .inl rfl⟩, fun key h => ⟨h.1, .inl rfl⟩⟩
  · exact absurd hstop (lt_irrefl _)
  · exact ⟨fun key h => ⟨h.1, .inl rfl⟩, fun key h => ⟨(not_lt.1 hstart).trans h.1, .inl rfl⟩⟩

theorem not_contains_of_unbounded {outer inner : RawRange} (ho : outer.stop ≠ []) (hi : inner.stop = []) :
    ¬ outer.Contains inner := by
  intro h
  have hmem := h (max inner.start outer.stop) ⟨le_max_left _ _, .inl hi⟩
  exact absurd (hmem.2.resolve_left ho) (not_lt.2 (le_max_right _ _))

theorem extended_stop_of_unbounded_left (hr : recorded.stop = []) (hg : given.stop ≠ []) :
    (extended recorded given).stop = given.stop := by
  have hlt : recorded.stop < given.stop := hr ▸ nil_lt_of_ne_nil hg
  unfold extended
  rw [if_neg fun h => absurd h.2 (not_le.2 hlt), if_pos hlt]

theorem extended_stop_of_unbounded_right (hg : given.stop = []) :
    (extended recorded given).stop = recorded.stop := by
  have hnot : ¬ recorded.stop < given.stop := by rw [hg]; exact List.not_lt_nil _
  unfold extended
  split_ifs <;> rfl

theorem extended_ok_iff (recorded given : RawRange) :
    (Call.extend recorded given (extended recorded given)).Ok ↔ (recorded.stop = [] ↔ given.stop = []) := by
  by_cases hr : recorded.stop = []
  · by_cases hg : given.stop = []
    · exact iff_of_true (extended_contains_of_unbounded hr hg) (iff_of_true hr hg)
    · refine iff_of_false (fun h => ?_) (fun h => hg (h.1 hr))
      exact not_contains_of_unbounded (by rwa [extended_stop_of_unbounded_left hr hg]) hr h.1
  · by_cases hg : given.stop = []
    · refine iff_of_false (fun h => ?_) (fun h => hr (h.2 hg))
      exact not_contains_of_unbounded (by rwa [extended_stop_of_unbounded_right hg]) hg h.2
    · exact iff_of_true (extended_contains_of_bounded hr hg) (iff_of_false hr hg)

/-! ## The entry of a region -/

namespace Tables

/-- What the table has of a region: nothing, or a range under one table. -/
structure Has (t : Tables) (id : RegionID) (entry : Option (RecordKVFormat.TableID × RawRange)) : Prop where
  table : t.regions id = entry.map (·.1)
  range : ∀ tableID, t.rangeInTable tableID id = (entry.filter (·.1 = tableID)).map (·.2)

/-- The calls on another region change nothing for this one. -/
def SameAt (t t' : Tables) (id : RegionID) : Prop :=
  t'.regions id = t.regions id ∧ ∀ tableID, t'.rangeInTable tableID id = t.rangeInTable tableID id

variable {id : RegionID} {entry : Option (RecordKVFormat.TableID × RawRange)}

theorem Has.of_same {t t' : Tables} (h : t.Has id entry) (hsame : SameAt t t' id) : t'.Has id entry :=
  ⟨hsame.1.trans h.table, fun tableID => (hsame.2 tableID).trans (h.range tableID)⟩

variable {tableID : RecordKVFormat.TableID}

theorem filter_other {tableID' : RecordKVFormat.TableID} (h : tableID' ≠ tableID) (range : RawRange) :
    ((some (tableID, range)).filter (·.1 = tableID')).map (·.2) = none := by
  rw [Option.filter_some, if_neg (by simpa using Ne.symm h)]
  rfl

variable {t : Tables} {range : RawRange}

theorem Has.range_some (h : t.Has id (some (tableID, range))) : t.rangeInTable tableID id = some range := by
  rw [h.range]
  simp

theorem empty_has (id : RegionID) : empty.Has id none := ⟨rfl, fun _ => rfl⟩

theorem SameAt.refl (t : Tables) (id : RegionID) : SameAt t t id := ⟨rfl, fun _ => rfl⟩

theorem SameAt.trans {t t' t'' : Tables} (h : SameAt t t' id) (h' : SameAt t' t'' id) :
    SameAt t t'' id :=
  ⟨h'.1.trans h.1, fun tableID => (h'.2 tableID).trans (h.2 tableID)⟩

theorem setRange_rangeInTable (t : Tables) (tableID tableID' : RecordKVFormat.TableID) (id id' : RegionID)
    (range : RawRange) :
    (t.setRange tableID id range).rangeInTable tableID' id'
      = if tableID' = tableID ∧ id' = id then some range else t.rangeInTable tableID' id' := by
  unfold setRange
  by_cases ht : tableID' = tableID
  · subst ht
    by_cases hid : id' = id
    · subst hid; simp
    · simp [hid]
  · simp [ht]

variable {id id' : RegionID}

theorem setRange_same (t : Tables) (tableID : RecordKVFormat.TableID) (range : RawRange) (h : id' ≠ id) :
    SameAt t (t.setRange tableID id range) id' :=
  ⟨rfl, fun tableID' => by rw [setRange_rangeInTable, if_neg fun hc => h hc.2]⟩

theorem insertNew_same (t : Tables) (tableID : RecordKVFormat.TableID) (range : RawRange) (h : id' ≠ id) :
    SameAt t (t.insertNew tableID id range) id' :=
  ⟨update_of_ne h _ _, (setRange_same t tableID range h).2⟩

theorem Has.setRange (h : t.Has id (some (tableID, range))) (range' : RawRange) :
    (t.setRange tableID id range').Has id (some (tableID, range')) := by
  refine ⟨h.table, fun tableID' => ?_⟩
  rw [setRange_rangeInTable, h.range]
  by_cases ht : tableID' = tableID
  · subst ht; simp
  · rw [if_neg fun hc => ht hc.1, filter_other ht, filter_other ht]

theorem Has.insertNew (h : t.Has id none) (tableID : RecordKVFormat.TableID) (range : RawRange) :
    (t.insertNew tableID id range).Has id (some (tableID, range)) := by
  refine ⟨update_self _ _ _, fun tableID' => ?_⟩
  show (t.setRange tableID id range).rangeInTable tableID' id = _
  rw [setRange_rangeInTable, h.range]
  by_cases ht : tableID' = tableID
  · subst ht; simp
  · rw [if_neg fun hc => ht hc.1, filter_other ht]
    rfl

/-! ## The calls -/

variable {tableID : RecordKVFormat.TableID} {raw : RawRange}

theorem getOrInsertRegion_same (t : Tables) (tableID : RecordKVFormat.TableID) (raw : RawRange) (h : id' ≠ id) :
    SameAt t (t.getOrInsertRegion tableID id raw).1 id' := by
  unfold getOrInsertRegion
  split
  · exact SameAt.refl t id'
  · exact insertNew_same t _ _ h

theorem Has.getOrInsertRegion_none (h : t.Has id none) (tableID : RecordKVFormat.TableID) (raw : RawRange) :
    (t.getOrInsertRegion tableID id raw).1.Has id (some (tableID, raw)) := by
  have hnone : t.rangeInTable tableID id = none := by rw [h.range]; rfl
  unfold getOrInsertRegion
  rw [hnone]
  exact h.insertNew _ _

theorem Has.getOrInsertRegion_some {recorded : RawRange} (h : t.Has id (some (tableID, recorded))) :
    t.getOrInsertRegion tableID id raw = (t, recorded) := by
  unfold getOrInsertRegion
  rw [h.range_some]

theorem shrinkRegionRange_same (t : Tables) (tableID : RecordKVFormat.TableID) (raw : RawRange) (h : id' ≠ id) :
    SameAt t (t.shrinkRegionRange tableID id raw) id' :=
  (getOrInsertRegion_same t tableID raw h).trans (setRange_same _ _ _ h)

theorem Has.shrinkRegionRange {recorded : RawRange} (h : t.Has id (some (tableID, recorded))) :
    (t.shrinkRegionRange tableID id raw).Has id (some (tableID, raw)) := by
  unfold Tables.shrinkRegionRange
  rw [h.getOrInsertRegion_some]
  exact h.setRange _

variable {range : RegionRangeKeys}

theorem extendRegionRange_spec {t t' : Tables} (h : t.Has id entry)
    (hok : t.extendRegionRange id range = .ok t') :
    (∀ id' ≠ id, SameAt t t' id') ∧ ((entry = none ∧ t'.Has id (some (range.mappedTableID, range.raw))) ∨
        ∃ recorded, entry = some (range.mappedTableID, recorded) ∧
          t'.Has id (some (range.mappedTableID, extended recorded range.raw))) := by
  unfold extendRegionRange at hok
  cases entry with
  | none =>
    have htable : t.regions id = none := h.table
    have hrange : t.rangeInTable range.mappedTableID id = none := by rw [h.range]; rfl
    simp only [htable, insertRegion, hrange] at hok
    cases hok
    exact ⟨fun id' hid => insertNew_same t _ _ hid, .inl ⟨rfl, h.insertNew _ _⟩⟩
  | some entry =>
    obtain ⟨tableID, recorded⟩ := entry
    have htable : t.regions id = some tableID := h.table
    simp only [htable] at hok
    split_ifs at hok with hne
    have heq : range.mappedTableID = tableID := not_not.1 hne
    subst heq
    simp only [h.range_some] at hok
    cases hok
    exact ⟨fun id' hid => setRange_same t _ _ hid, .inr ⟨recorded, rfl, h.setRange _⟩⟩

theorem removeRegion_same (t : Tables) (h : id' ≠ id) :
    SameAt t (t.removeRegion id) id' := by
  unfold removeRegion
  split
  · exact SameAt.refl t id'
  · refine ⟨update_of_ne h _ _, fun tableID' => ?_⟩
    rename_i tableID _
    by_cases ht : tableID' = tableID
    · subst ht; simp [h]
    · simp [ht]

theorem Has.removeRegion (h : t.Has id entry) :
    (t.removeRegion id).Has id none := by
  unfold Tables.removeRegion
  cases entry with
  | none =>
    have htable : t.regions id = none := h.table
    rw [htable]
    exact h
  | some entry =>
    obtain ⟨tableID, recorded⟩ := entry
    have htable : t.regions id = some tableID := h.table
    rw [htable]
    refine ⟨update_self _ _ _, fun tableID' => ?_⟩
    have hrange := h.range tableID'
    by_cases ht : tableID' = tableID
    · subst ht; simp
    · rw [filter_other ht] at hrange
      simpa [ht] using hrange

end Tables

end TiFlash.Transaction.RegionTable
