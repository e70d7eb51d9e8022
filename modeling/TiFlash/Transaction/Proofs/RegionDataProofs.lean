import TiFlash.Transaction.RegionData
import TiFlash.Lib.ExceptBind

/-!
# What a region keeps in memory

The cells of the column families after an insert and after a removal, and the rows that a scan returns.
-/

namespace TiFlash.Transaction

open TiFlash.Lib List Except AList

namespace RegionData

variable {data data' : RegionData}

section Read

variable {key : TiKVKey} {entry : WriteCFEntry} {row : RegionDataReadInfo}

theorem readDataByWriteIt_key {needValue : Bool}
    (h : data.readDataByWriteIt key entry needValue = .ok row) :
    row.key = key ∧ row.writeType = entry.decoded.writeType := by
  unfold readDataByWriteIt at h
  split at h
  · cases h; exact ⟨rfl, rfl⟩
  · split at h
    · cases h; exact ⟨rfl, rfl⟩
    · split at h
      · cases h; exact ⟨rfl, rfl⟩
      · split at h
        · cases h; exact ⟨rfl, rfl⟩
        · cases h

/-- Reading a record with its value: the value of a Put stands in the record or in the default column
family. -/
theorem readDataByWriteIt_eq_ok_iff :
    data.readDataByWriteIt key entry true = .ok row ↔
      row.key = key ∧ row.writeType = entry.decoded.writeType ∧
      match entry.decoded.writeType with
      | .delFlag => row.value = none
      | .putFlag => ∃ v, row.value = some v ∧ (entry.decoded.shortValue = some v ∨
          entry.decoded.shortValue = none ∧
            data.defaultCF.lookup ⟨key.pk, entry.decoded.prewriteTs⟩ = some v) := by
  obtain ⟨pk, ts⟩ := key
  obtain ⟨rpk, rtype, rts, rvalue⟩ := row
  unfold readDataByWriteIt RegionDataReadInfo.key
  cases hw : entry.decoded.writeType with
  | delFlag =>
    simp only [Bool.not_true, Bool.false_eq_true, if_false, ne_eq, reduceCtorEq, not_false_eq_true,
      if_true, Except.ok.injEq, RegionDataReadInfo.mk.injEq, TiKVKey.mk.injEq]
    constructor
    · rintro ⟨rfl, rfl, rfl, rfl⟩; exact ⟨⟨rfl, rfl⟩, rfl, rfl⟩
    · rintro ⟨⟨rfl, rfl⟩, rfl, rfl⟩; exact ⟨rfl, rfl, rfl, rfl⟩
  | putFlag =>
    simp only [Bool.not_true, Bool.false_eq_true, if_false, ne_eq, not_true_eq_false]
    cases hs : entry.decoded.shortValue with
    | some v =>
      simp only [Except.ok.injEq, RegionDataReadInfo.mk.injEq, TiKVKey.mk.injEq]
      constructor
      · rintro ⟨rfl, rfl, rfl, rfl⟩; exact ⟨⟨rfl, rfl⟩, rfl, v, rfl, .inl rfl⟩
      · rintro ⟨⟨rfl, rfl⟩, rfl, v', rfl, h | h⟩
        · cases h; exact ⟨rfl, rfl, rfl, rfl⟩
        · cases h.1
    | none =>
      cases hd : data.defaultCF.lookup ⟨pk, entry.decoded.prewriteTs⟩ with
      | some v =>
        simp only [Except.ok.injEq, RegionDataReadInfo.mk.injEq, TiKVKey.mk.injEq]
        constructor
        · rintro ⟨rfl, rfl, rfl, rfl⟩; exact ⟨⟨rfl, rfl⟩, rfl, v, rfl, .inr ⟨trivial, rfl⟩⟩
        · rintro ⟨⟨rfl, rfl⟩, rfl, v', rfl, h | h⟩
          · cases h
          · cases h.2; exact ⟨rfl, rfl, rfl, rfl⟩
      | none =>
        simp only [reduceCtorEq, false_iff]
        rintro ⟨-, -, v, -, h | h⟩
        · cases h
        · cases h.2

theorem mem_scan_iff {rows : List RegionDataReadInfo} (h : data.scan true = .ok rows) :
    row ∈ rows ↔ data.Holds row := by
  rw [mem_of_mapM_eq_ok h]
  constructor
  · rintro ⟨e, he, hread⟩
    obtain ⟨hkey, -⟩ := readDataByWriteIt_key hread
    rw [← hkey] at hread
    refine ⟨e.2, ?_, hread⟩
    rw [hkey]
    exact mem_lookup_iff.2 he
  · rintro ⟨entry, hentry, hread⟩
    exact ⟨⟨row.key, entry⟩, mem_lookup_iff.1 hentry, hread⟩

theorem scan_reads {rows : List RegionDataReadInfo} (h : data.scan true = .ok rows)
    (hentry : data.writeCF.lookup key = some entry) :
    ∃ row, data.readDataByWriteIt key entry true = .ok row :=
  exists_of_mapM_eq_ok h (mem_lookup_iff.1 hentry)

end Read

section Remove

theorem lookup_writeCF_removeCommitted (data : RegionData) (key k : TiKVKey) :
    (data.removeCommitted key).writeCF.lookup k = if k = key then none else data.writeCF.lookup k := by
  unfold removeCommitted
  cases hl : data.writeCF.lookup key with
  | none =>
    by_cases hk : k = key
    · subst hk
      simpa using hl
    · simp [hk]
  | some entry => exact HashMap.lookup_erase_ite data.writeCF key k

theorem lookup_writeCF_removeCommitCache (data : RegionData) (rows : List RegionDataReadInfo)
    (k : TiKVKey) : (data.removeCommitCache rows).writeCF.lookup k =
      if k ∈ rows.map (·.key) then none else data.writeCF.lookup k := by
  unfold removeCommitCache
  induction rows generalizing data with
  | nil => rfl
  | cons row rows ih =>
    rw [foldl_cons, ih, lookup_writeCF_removeCommitted]
    by_cases h₁ : k ∈ rows.map (·.key)
    · simp [h₁]
    · by_cases h₂ : k = row.key <;> simp [h₁, h₂]

theorem remove_write_cases (data : RegionData) (key : TiKVKey) :
    (data.remove .write key = data ∧ ∀ entry, data.writeCF.lookup key = some entry →
      entry.decoded.writeType = .delFlag) ∨
    data.remove .write key = { data with writeCF := data.writeCF.erase key } := by
  simp only [remove]
  cases hl : data.writeCF.lookup key with
  | none => exact .inl ⟨rfl, nofun⟩
  | some entry =>
    simp only [shouldIgnoreRemove]
    by_cases hdel : entry.decoded.writeType = .delFlag
    · refine .inl ⟨by simp [hdel], ?_⟩
      rintro _ ⟨⟩
      exact hdel
    · exact .inr (by simp [hdel])

end Remove

section Insert

variable {key : TiKVKey} {value : WriteCFValue} {decoded : DecodedWriteCFValue}

/-- The decoded value after `finishInsert`. -/
def filled (data : RegionData) (key : TiKVKey) (decoded : DecodedWriteCFValue) : DecodedWriteCFValue :=
  { decoded with shortValue := decoded.shortValue.or (match decoded.writeType with
      | .putFlag => data.defaultCF.lookup ⟨key.pk, decoded.prewriteTs⟩
      | .delFlag => none) }

theorem finishInsert_eq_ok {d : DecodedWriteCFValue} (h : data.finishInsert key decoded = .ok d) :
    d = data.filled key decoded ∧ (decoded.writeType = .delFlag → decoded.shortValue = none) := by
  obtain ⟨writeType, prewriteTs, shortValue⟩ := decoded
  unfold finishInsert at h
  unfold filled
  cases writeType <;> cases shortValue <;> simp_all

theorem insert_cases {kv : KV} (h : data.insert kv = .ok data') :
    (∃ key value, kv = .write key value ∧ decodeWriteCfValue value = none ∧ data' = data) ∨
    (∃ key value decoded, kv = .write key value ∧ decodeWriteCfValue value = some decoded ∧
      key ∉ data.writeCF ∧ (decoded.writeType = .delFlag → decoded.shortValue = none) ∧
      data' = { data with writeCF := data.writeCF.insert key ⟨value, data.filled key decoded⟩ }) ∨
    (∃ key value, kv = .default key value ∧ key ∉ data.defaultCF ∧
      data' = { data with defaultCF := data.defaultCF.insert key value }) ∨
    (∃ key value, kv = .lock key value ∧ data' = { data with lockCF := data.lockCF.insert key value }) := by
  cases kv with
  | write key value =>
    simp only [insert] at h
    cases hd : decodeWriteCfValue value with
    | none =>
      rw [hd] at h
      cases h
      exact .inl ⟨key, value, rfl, hd, rfl⟩
    | some decoded =>
      rw [hd] at h
      simp only at h
      split at h
      · cases h
      · rename_i hkey
        obtain ⟨d, hfin, h⟩ := bind_eq_ok_iff.1 h
        obtain ⟨rfl, hdel⟩ := finishInsert_eq_ok hfin
        cases h
        exact .inr (.inl ⟨key, value, decoded, rfl, hd, hkey, hdel, rfl⟩)
  | default key value =>
    simp only [insert] at h
    split at h
    · cases h
    · rename_i hkey
      cases h
      exact .inr (.inr (.inl ⟨key, value, rfl, hkey, rfl⟩))
  | lock key value =>
    cases h
    exact .inr (.inr (.inr ⟨key, value, rfl, rfl⟩))

theorem lookup_writeCF_insert {kv : KV} (h : data.insert kv = .ok data') {entry : WriteCFEntry}
    (hentry : data.writeCF.lookup key = some entry) : data'.writeCF.lookup key = some entry := by
  rcases insert_cases h with ⟨_, _, -, -, rfl⟩ | ⟨key', value, decoded, -, -, hnew, -, rfl⟩ |
    ⟨_, _, -, -, rfl⟩ | ⟨_, _, -, rfl⟩
  · exact hentry
  · exact HashMap.lookup_insert_of_some hnew hentry
  · exact hentry
  · exact hentry

theorem lookup_defaultCF_insert {kv : KV} (h : data.insert kv = .ok data') {value : Value}
    (hvalue : data.defaultCF.lookup key = some value) : data'.defaultCF.lookup key = some value := by
  rcases insert_cases h with ⟨_, _, -, -, rfl⟩ | ⟨_, _, _, -, -, -, -, rfl⟩ | ⟨_, _, -, hnew, rfl⟩ | ⟨_, _, -, rfl⟩
  · exact hvalue
  · exact hvalue
  · exact HashMap.lookup_insert_of_some hnew hvalue
  · exact hvalue

end Insert

section Rows

variable {row : RegionDataReadInfo}

theorem mem_rows_iff :
    row ∈ data.rows ↔ ∃ entry, data.writeCF.lookup row.key = some entry ∧ rowOf row.key entry = row := by
  unfold rows
  rw [mem_map]
  constructor
  · rintro ⟨e, he, rfl⟩
    exact ⟨e.2, mem_lookup_iff.2 he, rfl⟩
  · rintro ⟨entry, hentry, hrow⟩
    exact ⟨⟨row.key, entry⟩, mem_lookup_iff.1 hentry, hrow⟩

/-- The record that `insert` keeps stands for the row that is committed. -/
theorem rowOf_filled (data : RegionData) (key : TiKVKey) (value : WriteCFValue) (d : DecodedWriteCFValue) :
    rowOf key ⟨value, data.filled key d⟩ = data.recordRow key d := by
  obtain ⟨writeType, prewriteTs, shortValue⟩ := d
  cases writeType <;> rfl

theorem eq_of_mem_rows {row' : RegionDataReadInfo} (h : row ∈ data.rows) (h' : row' ∈ data.rows)
    (hkey : row.key = row'.key) : row = row' := by
  obtain ⟨entry, hentry, hrow⟩ := mem_rows_iff.1 h
  obtain ⟨entry', hentry', hrow'⟩ := mem_rows_iff.1 h'
  rw [hkey, hentry'] at hentry
  cases hentry
  rw [← hrow, ← hrow', hkey]

def Filled (data : RegionData) : Prop :=
  ∀ (key : TiKVKey) (entry : WriteCFEntry), data.writeCF.lookup key = some entry →
    entry.decoded.writeType = .putFlag → entry.decoded.shortValue ≠ none

instance (data : RegionData) : Decidable data.Filled :=
  decidable_of_iff (∀ e ∈ data.writeCF.entries, e.2.decoded.writeType = .putFlag →
      e.2.decoded.shortValue ≠ none)
    ⟨fun h key entry hentry => h ⟨key, entry⟩ (mem_lookup_iff.1 hentry),
      fun h e he => h e.1 e.2 (mem_lookup_iff.2 he)⟩

theorem Filled.holds_iff_mem_rows (h : data.Filled) : data.Holds row ↔ row ∈ data.rows := by
  rw [mem_rows_iff]
  refine exists_congr fun entry => and_congr_right fun hentry => ?_
  rw [readDataByWriteIt_eq_ok_iff]
  have hfilled := h row.key entry hentry
  obtain ⟨pk, writeType, ts, value⟩ := row
  unfold rowOf RegionDataReadInfo.key
  cases hw : entry.decoded.writeType with
  | delFlag =>
    simp only [true_and, reduceCtorEq, if_false, RegionDataReadInfo.mk.injEq]
    constructor
    · rintro ⟨rfl, rfl⟩; exact ⟨rfl, rfl⟩
    · rintro ⟨rfl, rfl⟩; exact ⟨rfl, rfl⟩
  | putFlag =>
    simp only [true_and, if_true, RegionDataReadInfo.mk.injEq]
    constructor
    · rintro ⟨rfl, v, rfl, hv | ⟨hnone, -⟩⟩
      · exact ⟨rfl, hv⟩
      · exact absurd hnone (hfilled hw)
    · rintro ⟨rfl, rfl⟩
      obtain ⟨v, hv⟩ := Option.ne_none_iff_exists'.1 (hfilled hw)
      exact ⟨rfl, v, hv, .inl hv⟩

theorem Filled.mem_scan_iff (h : data.Filled) {collected : List RegionDataReadInfo}
    (hscan : data.scan true = .ok collected) : row ∈ collected ↔ row ∈ data.rows := by
  rw [RegionData.mem_scan_iff hscan, h.holds_iff_mem_rows]

theorem mem_rows_removeCommitCache {removed : List RegionDataReadInfo} :
    row ∈ (data.removeCommitCache removed).rows ↔ row ∈ data.rows ∧ row.key ∉ removed.map (·.key) := by
  rw [mem_rows_iff, mem_rows_iff, lookup_writeCF_removeCommitCache]
  by_cases hk : row.key ∈ removed.map (·.key)
  · simp [hk]
  · simp [hk]

theorem Filled.removeCommitCache (h : data.Filled) (removed : List RegionDataReadInfo) :
    (data.removeCommitCache removed).Filled := by
  intro key entry hentry
  rw [lookup_writeCF_removeCommitCache] at hentry
  by_cases hk : key ∈ removed.map (·.key)
  · simp [hk] at hentry
  · rw [if_neg hk] at hentry
    exact h key entry hentry

end Rows

end RegionData

end TiFlash.Transaction
