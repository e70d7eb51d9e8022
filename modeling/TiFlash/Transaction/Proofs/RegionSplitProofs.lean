import TiFlash.Transaction.Proofs.TiKVRecordFormatProofs
import TiFlash.Transaction.RegionSplit

/-!
# What split and merge do to the records

The test on stored keys is a test on user keys, so all versions of a row and its lock move together.
-/

namespace TiFlash.Transaction.RegionSplit

open TiFlash.DM TiFlash.Lib RecordKVFormat RegionTable List RegionRangeKeys

/-! ## Stored keys -/

theorem encodeBytes_ne_nil (key : Bytes) : encodeBytes key ≠ [] := by
  rcases lt_or_ge key.length 8 with h | h
  · rw [encodeBytes_of_lt h]
    exact ne_nil_of_length_pos (by rw [length_encodeGroup h.le]; omega)
  · rw [encodeBytes_of_le h]
    refine ne_nil_of_length_pos ?_
    rw [length_append, length_encodeGroup (length_take_le 8 key)]
    omega

/-- A stored key is in the stored range exactly if its user key is in the raw range, whatever is behind
the encoding. -/
theorem comparableContains_iff (range : RegionRangeKeys) (userKey suffix : Bytes) :
    range.comparableContains (encodeBytes userKey ++ suffix) = true ↔ range.raw.Mem userKey := by
  have hstart : range.startKey ≤ encodeBytes userKey ++ suffix ↔ range.raw.start ≤ userKey := by
    rw [← not_lt, ← not_lt, ← append_nil range.startKey, startKey, encodeBytes_append_lt_iff]
    simp
  have hend : range.endKey = [] ∨ encodeBytes userKey ++ suffix < range.endKey ↔
      range.raw.stop = [] ∨ userKey < range.raw.stop := by
    unfold endKey
    by_cases hstop : range.raw.stop = []
    · simp [hstop]
    · rw [if_neg hstop, ← append_nil (encodeBytes range.raw.stop), encodeBytes_append_lt_iff]
      simp [hstop, encodeBytes_ne_nil]
  unfold comparableContains RawRange.Mem
  rw [Bool.and_eq_true, Bool.or_eq_true, decide_eq_true_iff, decide_eq_true_iff, decide_eq_true_iff,
    hstart, hend]

theorem contains_tiKVKey_iff {κ ρ : Type} (t : Trait κ ρ) (range : RegionRangeKeys) (r : ρ) :
    range.comparableContains (t.tiKVKey r) = true ↔ range.raw.Mem (t.userKey r) :=
  comparableContains_iff range (t.userKey r) (t.suffix r)

/-! ## One column family -/

namespace CFData

variable {κ ρ : Type} [DecidableEq κ] {t : Trait κ ρ} (cf : CFData t)

theorem insert_data {r : ρ} (h : t.key r ∉ cf.data.map t.key) :
    (cf.insert r).data = cf.data ++ [r] := by
  unfold insert
  rw [dif_neg (by simpa [hasKey] using h)]
  rfl

variable (range : RegionRangeKeys)

theorem foldl_splitStep (rs : List ρ) (hdistinct : (rs.map t.key).Nodup)
    (o n : CFData t) (size : UInt64) (hnew : ∀ r ∈ rs, t.key r ∉ n.data.map t.key) :
    let moved := rs.filter fun r => range.raw.Mem (t.userKey r)
    let s := rs.foldl (splitStep range) (o, n, size)
    s.1.data = (o.data.filter fun r => t.key r ∉ moved.map t.key) ∧
      s.2.1.data = n.data ++ moved ∧ s.2.2 = size + (moved.map t.size).sum := by
  induction rs generalizing o n size with
  | nil => simp
  | cons r rs ih =>
    rw [map_cons, nodup_cons] at hdistinct
    have hnew' : ∀ r' ∈ rs, t.key r' ∉ n.data.map t.key := fun r' hr' => hnew r' (mem_cons_of_mem _ hr')
    intro moved s
    by_cases hmem : range.raw.Mem (t.userKey r)
    · have hstep : splitStep range (o, n, size) r = (o.erase (t.key r), n.insert r, size + t.size r) := by
        unfold splitStep
        rw [if_pos ((contains_tiKVKey_iff t range r).2 hmem)]
      have hinsert := insert_data n (hnew r mem_cons_self)
      obtain ⟨ho, hn, hs⟩ := ih hdistinct.2 (o.erase (t.key r)) (n.insert r) (size + t.size r) (by
        intro r' hr' hin
        rw [hinsert, map_append, mem_append] at hin
        rcases hin with hin | hin
        · exact hnew' r' hr' hin
        · rw [map_singleton, mem_singleton] at hin
          exact hdistinct.1 (hin ▸ mem_map_of_mem hr'))
      have hmoved : moved = r :: rs.filter fun r => range.raw.Mem (t.userKey r) := by
        simp [moved, hmem]
      have hfold : s = rs.foldl (splitStep range) (o.erase (t.key r), n.insert r, size + t.size r) := by
        simp only [s, foldl_cons, hstep]
      rw [hfold, hmoved]
      refine ⟨?_, ?_, ?_⟩
      · rw [ho]
        show ((o.data.filter (t.key · ≠ t.key r)).filter _) = _
        rw [filter_filter]
        refine filter_congr fun r' _ => ?_
        simp only [map_cons, mem_cons, not_or, Bool.decide_and]
        exact Bool.and_comm _ _
      · rw [hn, hinsert, append_assoc, singleton_append]
      · rw [hs, map_cons, sum_cons, add_assoc]
    · have hstep : splitStep range (o, n, size) r = (o, n, size) := by
        unfold splitStep
        rw [if_neg fun h => hmem ((contains_tiKVKey_iff t range r).1 h)]
      have hmoved : moved = rs.filter fun r => range.raw.Mem (t.userKey r) := by
        simp [moved, hmem]
      have hfold : s = rs.foldl (splitStep range) (o, n, size) := by
        simp only [s, foldl_cons, hstep]
      rw [hfold, hmoved]
      exact ih hdistinct.2 o n size hnew'

theorem splitInto_spec :
    let s := cf.splitInto range .empty
    s.1.data = (cf.data.filter fun r => ¬ range.raw.Mem (t.userKey r)) ∧
      s.2.1.data = cf.within range.raw ∧ s.2.2 = s.2.1.recordsSize := by
  obtain ⟨ho, hn, hs⟩ := foldl_splitStep range cf.data cf.distinct cf .empty 0 (by simp [empty])
  refine ⟨?_, ?_, ?_⟩
  · refine ho.trans (filter_congr fun r hr => ?_)
    rw [decide_eq_decide, mem_map]
    refine not_congr ⟨?_, fun hmem => ⟨r, mem_filter.2 ⟨hr, decide_eq_true hmem⟩, rfl⟩⟩
    rintro ⟨r', hr', hkey⟩
    obtain ⟨hr', hmem⟩ := mem_filter.1 hr'
    -- records with one key are one record
    have heq := inj_on_of_nodup_map cf.distinct hr' hr hkey
    exact heq ▸ of_decide_eq_true hmem
  · exact hn
  · refine hs.trans ?_
    unfold recordsSize
    rw [show (splitInto cf range empty).2.1.data = _ from hn, zero_add]
    rfl

theorem sum_filter_add {α : Type} (f : α → UInt64) (p : α → Bool) (as : List α) :
    ((as.filter p).map f).sum + ((as.filter fun a => !p a).map f).sum = (as.map f).sum := by
  rw [← sum_append, ← map_append]
  exact ((filter_append_perm p as).map f).sum_eq

theorem splitInto_size :
    (cf.splitInto range .empty).2.2 + (cf.splitInto range .empty).1.recordsSize = cf.recordsSize := by
  obtain ⟨ho, hn, hs⟩ := splitInto_spec cf range
  rw [hs]
  unfold recordsSize
  rw [ho, hn]
  have hsum := sum_filter_add t.size (fun r => range.raw.Mem (t.userKey r)) cf.data
  simpa [within] using hsum

/-! ## Merging one column family -/

theorem addNew_data {r : ρ} (h : ¬ cf.hasKey (t.key r) = true) :
    (cf.addNew r h).data = cf.data ++ [r] := rfl

theorem foldlM_mergeStep (rs : List ρ) (hdistinct : (rs.map t.key).Nodup) (cf : CFData t) (size : UInt64)
    (hnew : ∀ r ∈ rs, t.key r ∉ cf.data.map t.key) :
    ∃ merged, rs.foldlM mergeStep (cf, size) = some (merged, size + (rs.map t.size).sum) ∧
      merged.data = cf.data ++ rs := by
  induction rs generalizing cf size with
  | nil => exact ⟨cf, by simp [pure], by simp⟩
  | cons r rs ih =>
    rw [map_cons, nodup_cons] at hdistinct
    have hfirst : ¬ cf.hasKey (t.key r) = true := by simpa [hasKey] using hnew r mem_cons_self
    obtain ⟨merged, hfold, hdata⟩ := ih hdistinct.2 (cf.addNew r hfirst) (size + t.size r) (by
      intro r' hr' hin
      rw [addNew_data, map_append, mem_append] at hin
      rcases hin with hin | hin
      · exact hnew r' (mem_cons_of_mem _ hr') hin
      · rw [map_singleton, mem_singleton] at hin
        exact hdistinct.1 (hin ▸ mem_map_of_mem hr'))
    refine ⟨merged, ?_, ?_⟩
    · have hstep : mergeStep (cf, size) r = some (cf.addNew r hfirst, size + t.size r) := by
        unfold mergeStep
        rw [dif_neg hfirst]
      rw [foldlM_cons, hstep]
      show rs.foldlM mergeStep (cf.addNew r hfirst, size + t.size r) = _
      rw [hfold, map_cons, sum_cons, add_assoc]
    · rw [hdata, addNew_data, append_assoc, singleton_append]

/-- A key stays in the map, so a record with it stops the merge. -/
theorem foldlM_mergeStep_none (rs : List ρ) (cf : CFData t) (size : UInt64)
    (h : ∃ r ∈ rs, t.key r ∈ cf.data.map t.key) : rs.foldlM mergeStep (cf, size) = none := by
  induction rs generalizing cf size with
  | nil =>
    obtain ⟨r, hr, -⟩ := h
    cases hr
  | cons r rs ih =>
    rw [foldlM_cons]
    by_cases hfirst : cf.hasKey (t.key r) = true
    · have hstep : mergeStep (cf, size) r = none := by
        unfold mergeStep
        rw [dif_pos hfirst]
      rw [hstep]
      rfl
    · have hstep : mergeStep (cf, size) r = some (cf.addNew r hfirst, size + t.size r) := by
        unfold mergeStep
        rw [dif_neg hfirst]
      rw [hstep]
      refine ih _ _ ?_
      obtain ⟨r', hr', hin⟩ := h
      rcases mem_cons.1 hr' with rfl | hr'
      · exact absurd (by simpa [hasKey] using hin) hfirst
      · refine ⟨r', hr', ?_⟩
        rw [addNew_data, map_append]
        exact mem_append_left _ hin

theorem mergeFrom_of_not_collide {cf ori : CFData t} (h : ¬ Collide cf ori) :
    ∃ merged, cf.mergeFrom ori = some (merged, ori.recordsSize) ∧ merged.data = cf.data ++ ori.data := by
  obtain ⟨merged, hmerge, hdata⟩ := foldlM_mergeStep ori.data ori.distinct cf 0 (by
    intro r hr hin
    obtain ⟨r', hr', hkey⟩ := mem_map.1 hin
    exact h ⟨r', hr', r, hr, hkey⟩)
  rw [zero_add] at hmerge
  exact ⟨merged, hmerge, hdata⟩

theorem mergeFrom_of_collide {cf ori : CFData t} (h : Collide cf ori) : cf.mergeFrom ori = none := by
  obtain ⟨r, hr, r', hr', hkey⟩ := h
  exact foldlM_mergeStep_none ori.data cf 0 ⟨r', hr', hkey ▸ mem_map_of_mem hr⟩

omit [DecidableEq κ] in
theorem recordsSize_append {merged cf ori : CFData t} (h : merged.data = cf.data ++ ori.data) :
    merged.recordsSize = cf.recordsSize + ori.recordsSize := by
  unfold recordsSize
  rw [h, map_append, sum_append]

end CFData

end TiFlash.Transaction.RegionSplit
