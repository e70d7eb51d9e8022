import TiFlash.DM.DeltaValueSpace

/-!
# Proofs: the pack list of a delta value space

The meta page is read back as it was written. Counters, order and meta page depend on the packs as values
(`Ledger`); here is how they change when a pack is added, extended, saved or merged.
-/

namespace TiFlash.DM

open List

variable {c : Bool} {D : Type*}

/-! ## Writing and reading the meta page -/

/-- The pack as it should be restored -/
def Pack.stored (p : Pack c D) : StoredPack c :=
  ⟨p.rows, p.bytes, p.schema.map SchemaPtr.columns, p.deleteRange, p.dataPage⟩

/-- A pack that `serializeSavedPacks` can write: only packs of rows have a schema, and it has columns. -/
structure Pack.Serializable (p : Pack c D) : Prop where
  range : p.isDeleteRange = true → p.schema = none
  schema : p.isDeleteRange = false → ∃ schema, p.schema = some schema ∧ schema.columns ≠ []

theorem deserializePack_none (p : Pack c D) :
    deserializePack (serializePack p none) = ⟨p.rows, p.bytes, none, p.deleteRange, p.dataPage⟩ := rfl

theorem deserializePack_some (p : Pack c D) {schema : SchemaPtr} (hs : p.schema = some schema)
    (hne : schema.columns ≠ []) : deserializePack (serializePack p (some schema)) = p.stored := by
  simp [deserializePack, serializePack, Pack.stored, hs, hne]

section Loop

variable {p : SerializedPack c} (last : Option (List ColumnHeader)) (n : Nat) (ps : List (SerializedPack c))

theorem deserializeLoop_range (h : (deserializePack p).isDeleteRange = true) :
    deserializeLoop last (n + 1) (p :: ps) = (deserializePack p :: ·) <$> deserializeLoop last n ps := by
  rw [deserializeLoop.eq_def]
  simp [h]

theorem deserializeLoop_schema (h : (deserializePack p).isDeleteRange = false)
    {schema : List ColumnHeader} (hs : (deserializePack p).schema = some schema) :
    deserializeLoop last (n + 1) (p :: ps) =
      (deserializePack p :: ·) <$> deserializeLoop (some schema) n ps := by
  rw [deserializeLoop.eq_def]
  simp [h, hs]

theorem deserializeLoop_last (h : (deserializePack p).isDeleteRange = false)
    (hs : (deserializePack p).schema = none) (schema : List ColumnHeader) :
    deserializeLoop (some schema) (n + 1) (p :: ps) =
      ({ deserializePack p with schema := some schema } :: ·) <$> deserializeLoop (some schema) n ps := by
  rw [deserializeLoop.eq_def]
  simp [h, hs]

end Loop

variable (last : Option SchemaPtr)

/-- The loops of the writer and of the reader agree on what the last schema is. -/
theorem deserializeLoop_serializePacks {packs : List (Pack c D)}
    (h : ∀ p ∈ packs, p.Serializable) :
    ∃ page, serializePacks last packs = some page ∧
      deserializeLoop (last.map SchemaPtr.columns) (packs.takeWhile Pack.saved).length page =
        some ((packs.takeWhile Pack.saved).map Pack.stored) := by
  induction packs generalizing last with
  | nil => exact ⟨[], rfl, rfl⟩
  | cons p packs ih =>
    have hp := h p mem_cons_self
    have hrest : ∀ q ∈ packs, q.Serializable := fun q hq => h q (mem_cons_of_mem p hq)
    rw [serializePacks]
    cases hsaved : p.saved with
    | false => exact ⟨[], by simp, by simp [hsaved, deserializeLoop]⟩
    | true =>
      rw [takeWhile_cons_of_pos hsaved]
      cases hrange : p.isDeleteRange with
      | true =>
        obtain ⟨page, hpage, hread⟩ := ih last hrest
        refine ⟨serializePack p none :: page, by simp [hpage], ?_⟩
        have hrange' : (deserializePack (serializePack p none)).isDeleteRange = true := hrange
        rw [length_cons, deserializeLoop_range _ _ _ hrange', hread]
        simp [deserializePack_none, Pack.stored, hp.range hrange]
      | false =>
        obtain ⟨schema, hs, hne⟩ := hp.schema hrange
        obtain ⟨page, hpage, hread⟩ := ih (some schema) hrest
        by_cases hlast : last = some schema
        · refine ⟨serializePack p none :: page, by simp [hs, hlast, hpage], ?_⟩
          rw [Option.map_some] at hread
          have hrange' : (deserializePack (serializePack p none)).isDeleteRange = false := hrange
          rw [hlast, length_cons, Option.map_some, deserializeLoop_last _ _ hrange' rfl, hread]
          simp [deserializePack_none, Pack.stored, hs]
        · have hne' : ¬ some schema = last := fun heq => hlast heq.symm
          refine ⟨serializePack p (some schema) :: page, by simp [hs, hne', hpage], ?_⟩
          have hschema : (deserializePack (serializePack p (some schema))).schema = some schema.columns := by
            rw [deserializePack_some p hs hne, Pack.stored, hs]
            rfl
          have hrange' : (deserializePack (serializePack p (some schema))).isDeleteRange = false := hrange
          rw [Option.map_some] at hread
          rw [length_cons, deserializeLoop_schema _ _ _ hrange' hschema, hread, deserializePack_some p hs hne]
          rfl

theorem deserializePacks_serializeSavedPacks {packs : List (Pack c D)}
    (h : ∀ p ∈ packs, p.Serializable) :
    ∃ page, serializeSavedPacks packs = some page ∧
      deserializePacks page = some ((packs.takeWhile Pack.saved).map Pack.stored) := by
  obtain ⟨page, hpage, hread⟩ := deserializeLoop_serializePacks none h
  refine ⟨⟨currentVersion, _, page⟩, by rw [serializeSavedPacks, hpage]; rfl, ?_⟩
  rw [deserializePacks, if_neg (lt_irrefl _)]
  exact hread

/-! ## The pack list as a ledger -/

variable (p : Pack c D)

/-- What was appended into a pack, in the order of the writes. -/
def Pack.items : List (DeltaItem c D) :=
  match p.deleteRange with
  | some range => if range.none then p.origin.flatten.map .row else [.delete range]
  | none => p.origin.flatten.map .row

/-- A pack without the two fields that are not part of what it stands for. -/
def Pack.core : Pack c D := { p with cache := none, appendable := false }

variable (packs : List (Pack c D))

def totalRows : Nat := (packs.map Pack.rows).sum

def totalDeletes : Nat := (packs.map fun p => p.isDeleteRange.toNat).sum

def unsavedPacks : List (Pack c D) := packs.filter fun p => !p.saved

/-- The counters of a delta value space. -/
structure Counters where
  rows : Nat
  deletes : Nat
  unsavedRows : Nat
  unsavedDeletes : Nat

/-- What the pack list, the counters, the meta page and the appended items say about each other. -/
structure Ledger (packs : List (Pack c D)) (n : Counters) (appended : List (DeltaItem c D))
    (page : MetaPage c) : Prop where
  savedPrefix : packs.Pairwise fun p q => q.saved = true → p.saved = true
  rows : n.rows = totalRows packs
  deletes : n.deletes = totalDeletes packs
  unsavedRows : n.unsavedRows = totalRows (unsavedPacks packs)
  unsavedDeletes : n.unsavedDeletes = totalDeletes (unsavedPacks packs)
  items : packs.flatMap Pack.items = appended
  metaPage : serializeSavedPacks packs = some page

variable (ps qs : List (Pack c D))

@[simp] theorem totalRows_append :
    totalRows (ps ++ qs) = totalRows ps + totalRows qs := by
  simp [totalRows]

@[simp] theorem totalDeletes_append :
    totalDeletes (ps ++ qs) = totalDeletes ps + totalDeletes qs := by
  simp [totalDeletes]

@[simp] theorem totalRows_singleton : totalRows [p] = p.rows := by
  simp [totalRows]

@[simp] theorem totalDeletes_singleton : totalDeletes [p] = p.isDeleteRange.toNat := by
  simp [totalDeletes]

@[simp] theorem unsavedPacks_append :
    unsavedPacks (ps ++ qs) = unsavedPacks ps ++ unsavedPacks qs :=
  filter_append ..

theorem serializePacks_append_unsaved (packs : List (Pack c D)) {p : Pack c D}
    (hp : p.saved = false) (rest : List (Pack c D)) :
    serializePacks last (packs ++ p :: rest) = serializePacks last packs := by
  induction packs generalizing last with
  | nil => simp [serializePacks, hp]
  | cons q packs ih =>
    rw [cons_append, serializePacks, serializePacks, ih]
    cases q.schema with
    | none => rfl
    | some schema => simp only [ih]

theorem serializeSavedPacks_append_unsaved {p : Pack c D}
    (hp : p.saved = false) (rest : List (Pack c D)) :
    serializeSavedPacks (packs ++ p :: rest) = serializeSavedPacks packs := by
  have htake : (packs ++ p :: rest).takeWhile Pack.saved = packs.takeWhile Pack.saved := by
    induction packs with
    | nil => simp [hp]
    | cons q packs ih => simp only [cons_append, takeWhile_cons, ih]
  rw [serializeSavedPacks, serializeSavedPacks, htake, serializePacks_append_unsaved none packs hp]

theorem serializePacks_map_core (packs : List (Pack c D)) :
    serializePacks last (packs.map Pack.core) = serializePacks last packs := by
  induction packs generalizing last with
  | nil => rfl
  | cons p packs ih =>
    rw [map_cons, serializePacks, serializePacks]
    simp only [ih]
    rfl

namespace Ledger

variable {packs packs' : List (Pack c D)} {n : Counters} {appended : List (DeltaItem c D)}
  {page : MetaPage c}

theorem append (h : Ledger packs n appended page) {p : Pack c D} (hp : p.saved = false) :
    Ledger (packs ++ [p])
      ⟨n.rows + p.rows, n.deletes + p.isDeleteRange.toNat, n.unsavedRows + p.rows,
        n.unsavedDeletes + p.isDeleteRange.toNat⟩ (appended ++ p.items) page := by
  have hun : unsavedPacks [p] = [p] := by simp [unsavedPacks, hp]
  refine ⟨?_, ?_, ?_, ?_, ?_, ?_, ?_⟩
  · refine pairwise_append.2 ⟨h.savedPrefix, pairwise_singleton _ _, ?_⟩
    intro q _ r hr hsaved
    rw [mem_singleton.1 hr, hp] at hsaved
    cases hsaved
  · simp [h.rows]
  · simp [h.deletes]
  · simp [h.unsavedRows, hun]
  · simp [h.unsavedDeletes, hun]
  · simp [h.items]
  · rw [serializeSavedPacks_append_unsaved packs hp, h.metaPage]

theorem extend {p p' : Pack c D} (h : Ledger (packs ++ [p]) n appended page) (hp : p.saved = false)
    (hp' : p'.saved = false) (hrange : p'.isDeleteRange = p.isDeleteRange) {k : Nat}
    (hrows : p'.rows = p.rows + k) {new : List (DeltaItem c D)} (hitems : p'.items = p.items ++ new) :
    Ledger (packs ++ [p']) ⟨n.rows + k, n.deletes, n.unsavedRows + k, n.unsavedDeletes⟩
      (appended ++ new) page := by
  have hun : unsavedPacks [p] = [p] := by simp [unsavedPacks, hp]
  have hun' : unsavedPacks [p'] = [p'] := by simp [unsavedPacks, hp']
  refine ⟨?_, ?_, ?_, ?_, ?_, ?_, ?_⟩
  · obtain ⟨hpre, -, -⟩ := pairwise_append.1 h.savedPrefix
    refine pairwise_append.2 ⟨hpre, pairwise_singleton _ _, ?_⟩
    intro q _ r hr hsaved
    rw [mem_singleton.1 hr, hp'] at hsaved
    cases hsaved
  · have hn := h.rows
    rw [totalRows_append, totalRows_singleton] at hn ⊢
    show n.rows + k = _
    omega
  · have hn := h.deletes
    rw [totalDeletes_append, totalDeletes_singleton] at hn ⊢
    rw [hrange]
    exact hn
  · have hn := h.unsavedRows
    rw [unsavedPacks_append, totalRows_append, hun, totalRows_singleton] at hn
    rw [unsavedPacks_append, totalRows_append, hun', totalRows_singleton]
    show n.unsavedRows + k = _
    omega
  · have hn := h.unsavedDeletes
    rw [unsavedPacks_append, totalDeletes_append, hun, totalDeletes_singleton] at hn
    rw [unsavedPacks_append, totalDeletes_append, hun', totalDeletes_singleton, hrange]
    exact hn
  · rw [← h.items]
    simp [hitems]
  · have := h.metaPage
    rw [serializeSavedPacks_append_unsaved packs hp] at this
    rw [serializeSavedPacks_append_unsaved packs hp', this]

theorem map_core_iff : Ledger (packs.map Pack.core) n appended page ↔ Ledger packs n appended page := by
  have hrows : ∀ ps : List (Pack c D), totalRows (ps.map Pack.core) = totalRows ps := fun ps => by
    rw [totalRows, map_map]
    rfl
  have hdeletes : ∀ ps : List (Pack c D), totalDeletes (ps.map Pack.core) = totalDeletes ps := fun ps => by
    rw [totalDeletes, map_map]
    rfl
  have hun : unsavedPacks (packs.map Pack.core) = (unsavedPacks packs).map Pack.core := by
    rw [unsavedPacks, filter_map]
    rfl
  have hitems : (packs.map Pack.core).flatMap Pack.items = packs.flatMap Pack.items := flatMap_map ..
  have hpage : serializeSavedPacks (packs.map Pack.core) = serializeSavedPacks packs := by
    have hlen : ((packs.map Pack.core).takeWhile Pack.saved).length
        = (packs.takeWhile Pack.saved).length := by
      rw [takeWhile_map, length_map]
      rfl
    rw [serializeSavedPacks, serializeSavedPacks, hlen, serializePacks_map_core]
  constructor
  · rintro ⟨h1, h2, h3, h4, h5, h6, h7⟩
    rw [pairwise_map] at h1
    exact ⟨h1, h2.trans (hrows _), h3.trans (hdeletes _), h4.trans (hun ▸ hrows _),
      h5.trans (hun ▸ hdeletes _), hitems ▸ h6, hpage ▸ h7⟩
  · rintro ⟨h1, h2, h3, h4, h5, h6, h7⟩
    refine ⟨pairwise_map.2 h1, h2.trans (hrows _).symm, h3.trans (hdeletes _).symm, ?_, ?_,
      hitems.trans h6, hpage.trans h7⟩
    · rw [h4, hun, hrows]
    · rw [h5, hun, hdeletes]

theorem congr_core (h : Ledger packs n appended page) (hcore : packs'.map Pack.core = packs.map Pack.core) :
    Ledger packs' n appended page := by
  rw [← map_core_iff, hcore, map_core_iff]
  exact h

theorem replace (h : Ledger packs n appended page)
    (hsorted : packs'.Pairwise fun p q => q.saved = true → p.saved = true)
    (hrows : totalRows packs' = totalRows packs) (hdeletes : totalDeletes packs' = totalDeletes packs)
    {ur ud : Nat} (hur : totalRows (unsavedPacks packs') + ur = totalRows (unsavedPacks packs))
    (hud : totalDeletes (unsavedPacks packs') + ud = totalDeletes (unsavedPacks packs))
    (hitems : packs'.flatMap Pack.items = packs.flatMap Pack.items) {page' : MetaPage c}
    (hpage : serializeSavedPacks packs' = some page') :
    Ledger packs' ⟨n.rows, n.deletes, n.unsavedRows - ur, n.unsavedDeletes - ud⟩ appended page' := by
  refine ⟨hsorted, h.rows.trans hrows.symm, h.deletes.trans hdeletes.symm, ?_, ?_, hitems.trans h.items,
    hpage⟩
  · have := h.unsavedRows
    show n.unsavedRows - ur = _
    omega
  · have := h.unsavedDeletes
    show n.unsavedDeletes - ud = _
    omega

/-- Packs that are not saved, right behind the saved ones, are replaced by saved packs with the same
rows, range and items. -/
theorem save {start tasks saved rest : List (Pack c D)}
    (h : Ledger (start ++ tasks ++ rest) n appended page)
    (hstart : ∀ p ∈ start, p.saved = true) (htasks : ∀ p ∈ tasks, p.saved = false)
    (hsaved : ∀ p ∈ saved, p.saved = true) (hrest : ∀ p ∈ rest, p.saved = false)
    (hrows : saved.map Pack.rows = tasks.map Pack.rows)
    (hrange : saved.map Pack.isDeleteRange = tasks.map Pack.isDeleteRange)
    (hitems : saved.map Pack.items = tasks.map Pack.items) {page' : MetaPage c}
    (hpage : serializeSavedPacks (start ++ saved ++ rest) = some page') :
    Ledger (start ++ saved ++ rest)
      ⟨n.rows, n.deletes, n.unsavedRows - totalRows tasks, n.unsavedDeletes - totalDeletes tasks⟩
      appended page' := by
  have hall : ∀ {ps : List (Pack c D)}, (∀ p ∈ ps, p.saved = true) → unsavedPacks ps = [] := fun hps =>
    filter_eq_nil_iff.2 fun p hp => by simp [hps p hp]
  have hnone : ∀ {ps : List (Pack c D)}, (∀ p ∈ ps, p.saved = false) → unsavedPacks ps = ps := fun hps =>
    filter_eq_self.2 fun p hp => by simp [hps p hp]
  have hr : totalRows saved = totalRows tasks := congrArg List.sum hrows
  have hd : totalDeletes saved = totalDeletes tasks := by
    have := congrArg (fun l => (l.map Bool.toNat).sum) hrange
    simpa [totalDeletes, Function.comp_def] using this
  have hi : saved.flatMap Pack.items = tasks.flatMap Pack.items := by
    rw [flatMap_def, hitems, ← flatMap_def]
  refine h.replace ?_ ?_ ?_ ?_ ?_ ?_ hpage
  · rw [append_assoc, pairwise_append, pairwise_append]
    refine ⟨pairwise_of_forall_mem_list fun p hp q _ _ => hstart p hp, ⟨?_, ?_, ?_⟩, ?_⟩
    · exact pairwise_of_forall_mem_list fun p hp q _ _ => hsaved p hp
    · exact pairwise_of_forall_mem_list fun p hp q hq hqs => by simp [hrest q hq] at hqs
    · exact fun p hp q _ _ => hsaved p hp
    · exact fun p hp q _ _ => hstart p hp
  · simp [hr]
  · simp [hd]
  · simp [hall hstart, hall hsaved, hnone htasks, hnone hrest, Nat.add_comm]
  · simp [hall hstart, hall hsaved, hnone htasks, hnone hrest, Nat.add_comm]
  · simp [hi]

end Ledger

end TiFlash.DM
