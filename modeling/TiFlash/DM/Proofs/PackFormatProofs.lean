import TiFlash.DM.PackFormat

/-!
# Proofs: a meta page is read back as it was written

Every part of the format reads back what it has written. The loops of the writer and of the reader agree on
the last schema.
-/

namespace TiFlash.DM.PackFormat

open TiFlash.Lib List

theorem readStringBinary_reads {s : Bytes} (h : s.length ≤ maxStringSize) :
    Reads readStringBinary (writeStringBinary s) s := by
  have hsize : s.length < 128 ^ 9 := lt_of_le_of_lt h (by decide)
  refine (readVarUInt_reads hsize).bind ?_
  rw [if_neg (not_lt.2 h)]
  exact readStrict_reads s

theorem readUInt64_reads (n : UInt64) : Reads readUInt64 (writeLE 8 n.toNat) n := by
  have h := (readLE_reads (w := 8) n.toNat_lt).map UInt64.ofNat
  rwa [UInt64.ofNat_toNat] at h

theorem readInt64_reads (n : Int64) : Reads readInt64 (writeLE 8 n.toUInt64.toNat) n :=
  (readUInt64_reads n.toUInt64).map UInt64.toInt64

theorem lift_reads {α : Type} {o : Option α} {v : α} (h : o = some v) : Reads (StateT.lift o) [] v := by
  subst h
  exact fun _ => rfl

/-! ## Ranges -/

theorem rowKeyValue_value {c : Bool} (v : RowKeyValue c) : rowKeyValue c v.value = some v := by
  cases v with
  | common value => rfl
  | int value intValue h =>
    unfold rowKeyValue
    simp only [RowKeyValue.value]
    split
    · rename_i hnone
      rw [h] at hnone
      cases hnone
    · rename_i v hv
      cases h.symm.trans hv
      rw [dif_pos intValue.2]

/-- What fits into the format: a `size_t`, and strings that `readStringBinary` accepts -/
def Range.Fits (r : Range) : Prop := r.2.rowkeyColumnSize < 2 ^ 64 ∧ r.2.start.value.length ≤ maxStringSize ∧
    r.2.stop.value.length ≤ maxStringSize

theorem Range.deserialize_reads {r : Range} (h : r.Fits) : Reads Range.deserialize r.serialize r := by
  obtain ⟨hn, hstart, hstop⟩ := h
  obtain ⟨c, range⟩ := r
  refine (readByte_reads _).bind ((readLE_reads hn).bind ((readStringBinary_reads hstart).bind ?_))
  refine append_nil (writeStringBinary _) ▸ (readStringBinary_reads hstop).bind ?_
  cases c <;>
    exact (lift_reads (rowKeyValue_value _)).bind ((lift_reads (rowKeyValue_value _)).bind (Reads.pure _))

/-! ## Packs -/

section Packs

variable {T : Type} (blocks : Nat → List (Column T)) {getName : T → Bytes} {factory : Bytes → Option T}

/-- The part of a pack that is stored -/
def Pack.stored (p : Pack) : RestoredPack T :=
  ⟨p.rows, p.bytes, p.schema.map blocks, p.deleteRange, p.dataPage⟩

/-- A block of columns that fits into the format -/
structure BlockFits (getName : T → Bytes) (columns : List (Column T)) : Prop where
  ne_nil : columns ≠ []
  length_lt : columns.length < 2 ^ 32
  names : ∀ col ∈ columns, col.name.length ≤ maxStringSize ∧ (getName col.type).length ≤ maxStringSize

/-- A pack that can be stored: it is a delete range that is not empty, or it has a schema with columns. -/
structure Pack.Storable (getName : T → Bytes) (p : Pack) : Prop where
  range : p.deleteRange.Fits
  schema : if p.deleteRange.none then ∃ ptr, p.schema = some ptr ∧ BlockFits getName (blocks ptr)
    else p.schema = none

variable {blocks}

theorem Column.deserialize_reads (hfactory : ∀ t, factory (getName t) = some t) {col : Column T}
    (h : col.name.length ≤ maxStringSize ∧ (getName col.type).length ≤ maxStringSize) :
    Reads (Column.deserialize factory) (col.serialize getName) col := by
  refine (readInt64_reads _).bind ((readStringBinary_reads h.1).bind ?_)
  refine append_nil (writeStringBinary _) ▸ (readStringBinary_reads h.2).bind ?_
  exact (lift_reads (hfactory col.type)).bind (Reads.pure _)

theorem deserializePack_reads (hfactory : ∀ t, factory (getName t) = some t) {p : Pack}
    (hp : p.deleteRange.Fits) (schema : Option Nat)
    (hschema : ∀ ptr, schema = some ptr → BlockFits getName (blocks ptr)) :
    Reads (deserializePack factory currentVersion) (serializePack blocks getName p schema)
      ⟨p.rows, p.bytes, schema.map blocks, p.deleteRange, p.dataPage⟩ := by
  refine (readUInt64_reads _).bind ((readUInt64_reads _).bind ((Range.deserialize_reads hp).bind
    ((readUInt64_reads _).bind ?_)))
  cases schema with
  | none => exact (readLE_reads (w := 4) (n := 0) (by decide)).bind (b := []) (Reads.pure _)
  | some ptr =>
    obtain ⟨hne, hlength, hnames⟩ := hschema ptr rfl
    refine (readLE_reads hlength).bind ?_
    rw [if_neg (mt length_eq_zero_iff.1 hne)]
    have hcols := readMany_reads fun col hcol => Column.deserialize_reads hfactory (hnames col hcol)
    exact hcols.map fun columns => RestoredPack.mk p.rows p.bytes (some columns) p.deleteRange p.dataPage

theorem deserializeLoop_step {a b : Bytes} {pack pack' : RestoredPack T} {last last' : Option (List (Column T))}
    {n : Nat} {packs : List (RestoredPack T)} (hpack : Reads (deserializePack factory currentVersion) a pack)
    (hset : setLastSchema last pack = some (pack', last'))
    (hrest : Reads (deserializeLoop factory currentVersion last' n) b packs) :
    Reads (deserializeLoop factory currentVersion last (n + 1)) (a ++ b) (pack' :: packs) := by
  refine hpack.bind ((lift_reads hset).bind (b := b) ?_)
  exact hrest.map (pack' :: ·)

theorem deserializeLoop_reads (hfactory : ∀ t, factory (getName t) = some t) (last : Option Nat)
    {packs : List Pack} (h : ∀ p ∈ packs.takeWhile Pack.saved, p.Storable blocks getName) :
    ∃ bytes, serializePacks blocks getName last packs = some bytes ∧
      Reads (deserializeLoop factory currentVersion (last.map blocks) (packs.takeWhile Pack.saved).length) bytes
        ((packs.takeWhile Pack.saved).map (Pack.stored blocks)) := by
  induction packs generalizing last with
  | nil => exact ⟨[], rfl, Reads.pure []⟩
  | cons p packs ih =>
    rw [serializePacks]
    by_cases hsaved : p.saved = true
    swap
    · rw [takeWhile_cons_of_neg hsaved]
      exact ⟨[], by simp [hsaved], Reads.pure []⟩
    rw [takeWhile_cons_of_pos hsaved] at h ⊢
    have hp := h p mem_cons_self
    have hrest : ∀ q ∈ packs.takeWhile Pack.saved, q.Storable blocks getName :=
      fun q hq => h q (mem_cons_of_mem p hq)
    have hschema := hp.schema
    by_cases hrange : p.deleteRange.none = true
    · rw [if_pos hrange] at hschema
      obtain ⟨ptr, hptr, hfits⟩ := hschema
      obtain ⟨bytes, hbytes, hread⟩ := ih (some ptr) hrest
      by_cases hlast : last = some ptr
      · refine ⟨serializePack blocks getName p none ++ bytes, ?_, ?_⟩
        · simp [hsaved, hrange, hptr, hlast, hbytes]
        refine deserializeLoop_step (deserializePack_reads hfactory hp.range none (by simp)) ?_ hread
        simp [setLastSchema, hrange, hlast, Pack.stored, hptr]
      · refine ⟨serializePack blocks getName p (some ptr) ++ bytes, ?_, ?_⟩
        · simp [hsaved, hrange, hptr, Ne.symm hlast, hbytes]
        · refine deserializeLoop_step (deserializePack_reads hfactory hp.range (some ptr) ?_) ?_ hread
          · intro _ heq
            cases heq
            exact hfits
          · simp [setLastSchema, hrange, Pack.stored, hptr]
    · rw [if_neg hrange] at hschema
      obtain ⟨bytes, hbytes, hread⟩ := ih last hrest
      refine ⟨serializePack blocks getName p none ++ bytes, by simp [hsaved, hrange, hbytes], ?_⟩
      refine deserializeLoop_step (deserializePack_reads hfactory hp.range none (by simp)) ?_ hread
      simp [setLastSchema, hrange, Pack.stored, hschema]

/-- The saved packs in front of a list are stored and read back: a pack of rows needs a schema, and what is
written has to fit into the format. -/
theorem deserializePacks_of_storable (hfactory : ∀ t, factory (getName t) = some t) (packs : List Pack)
    (h : ∀ p ∈ packs.takeWhile Pack.saved, p.Storable blocks getName)
    (hlength : (packs.takeWhile Pack.saved).length < 2 ^ 64) :
    ∃ bytes, serializeSavedPacks blocks getName packs = some bytes ∧ (deserializePacks factory).run bytes =
        some ((packs.takeWhile Pack.saved).map (Pack.stored blocks), []) := by
  obtain ⟨bytes, hbytes, hread⟩ := deserializeLoop_reads hfactory none h
  refine ⟨_, by rw [serializeSavedPacks, hbytes]; rfl, ?_⟩
  have hversion := readLE_reads (w := 8) (n := currentVersion) (by decide)
  have hall : Reads (deserializePacks factory) _ _ := hversion.bind ((readLE_reads hlength).bind hread)
  have hrun := hall []
  rw [append_nil] at hrun
  exact hrun

end Packs

/-- A pack of three rows -/
def rowPack : Pack := ⟨3, 40, some 0, ⟨true, .common [], .common [], 0⟩, 7, true⟩

/-- A delete range of all handles -/
def allDeleted : Pack := ⟨0, 0, none, ⟨false, .newAll false 1⟩, 0, true⟩

/-- A block with the column `a` -/
def oneColumn : Nat → List (Column Unit) := fun _ => [⟨1, [97], ()⟩]

theorem deserializePacks_two_packs :
    ∃ bytes, serializeSavedPacks oneColumn (fun _ => [85]) [rowPack, allDeleted] = some bytes ∧
      (deserializePacks fun _ => some ()).run bytes =
        some (([rowPack, allDeleted].takeWhile Pack.saved).map (Pack.stored oneColumn), []) := by
  refine @deserializePacks_of_storable Unit oneColumn _ (fun _ => some ()) (fun _ => rfl) _ ?_ (by decide)
  rintro p (_ | ⟨_, _ | ⟨_, ⟨⟩⟩⟩)
  · refine ⟨by unfold Range.Fits; decide, 0, rfl, ?_⟩
    exact ⟨by simp [oneColumn], by decide, by simp [oneColumn, maxStringSize]⟩
  · exact ⟨by unfold Range.Fits; decide, rfl⟩

/-- An empty delete range is not taken for a delete range, and has no schema. -/
theorem empty_delete_range_not_stored :
    serializeSavedPacks (fun _ => ([] : List (Column Unit))) (fun _ => [])
      [⟨0, 0, none, ⟨false, .newNone false 1⟩, 0, true⟩] = none := by
  decide

end TiFlash.DM.PackFormat
