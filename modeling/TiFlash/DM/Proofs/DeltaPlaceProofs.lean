import TiFlash.DM.DeltaPlace
import TiFlash.DM.Proofs.RowKeyOrderProofs
import TiFlash.Lib.ExceptBind

/-!
# Proofs: row ids of a placement

What one call of the generator does, said in terms of the rows it has not passed and of its row id
(`UpsertStep`, `DeleteStep`), and the rows of a block that a placement looks at.
-/

namespace TiFlash.DM

open TiFlash.Lib List RidGenerator

variable {c : Bool} {K τ α : Type}

/-! ## One row of the delta -/

section Generator

variable [LinearOrder K] {key : K} {g : RidGenerator K}

/-- `skipSmaller` passes the rows before the key, and stops in front of a row in the stable block. -/
theorem skipSmaller_spec (key : K) (g : RidGenerator K) : ∃ passed,
    g.ahead = passed ++ (g.skipSmaller key).ahead ∧ (∀ k ∈ passed, k < key) ∧
    (g.skipSmaller key).rid = g.rid + passed.length ∧ (g.skipSmaller key).dupPrev = g.dupPrev ∧
    ((g.skipSmaller key).stableBlock = [] → (g.skipSmaller key).ahead = []) ∧
    ∀ k ∈ (g.skipSmaller key).stableBlock.head?, key ≤ k := by
  fun_induction skipSmaller key g with
  | case1 dupPrev k block stream rid hlt ih =>
    obtain ⟨passed, hahead, hpassed, hrid, hdup, hnil, hhead⟩ := ih
    refine ⟨k :: passed, ?_, ?_, ?_, hdup, hnil, hhead⟩
    · simpa [ahead] using hahead
    · exact forall_mem_cons.2 ⟨hlt, hpassed⟩
    · rw [hrid, length_cons, Nat.add_right_comm, Nat.add_assoc]
  | case2 dupPrev k block stream rid hlt =>
    refine ⟨[], rfl, by simp, rfl, rfl, by simp, ?_⟩
    simpa using hlt
  | case3 dupPrev k block stream rid ih =>
    obtain ⟨passed, hahead, hrest⟩ := ih
    exact ⟨passed, by simpa [ahead, blockRows] using hahead, hrest⟩
  | case4 dupPrev rid =>
    exact ⟨[], rfl, by simp, rfl, rfl, fun _ => rfl, by simp⟩

/-- What one call of `nextForDelete` does -/
inductive DeleteStep (key : K) (g : RidGenerator K) :
    Except PlaceError (Option Nat × RidGenerator K) → Prop
  | found {passed tail : List K} {g' : RidGenerator K} (hahead : g.ahead = passed ++ key :: tail)
      (hpassed : ∀ k ∈ passed, k < key) (htail : g'.ahead = tail)
      (hrid : g'.rid = g.rid + passed.length) :
      DeleteStep key g (.ok (some (g.rid + passed.length), g'))
  | absent {passed tail : List K} {k : K} {g' : RidGenerator K} (hahead : g.ahead = passed ++ k :: tail)
      (hpassed : ∀ k ∈ passed, k < key) (hlt : key < k) (htail : g'.ahead = k :: tail)
      (hrid : g'.rid = g.rid + passed.length + 1) : DeleteStep key g (.ok (none, g'))
  | atEnd (hpassed : ∀ k ∈ g.ahead, k < key) : DeleteStep key g (.error .rowsNotFound)

theorem nextForDelete_spec (key : K) (g : RidGenerator K) : DeleteStep key g (g.nextForDelete key) := by
  obtain ⟨passed, hahead, hpassed, hrid, -, hnil, hhead⟩ := skipSmaller_spec key g
  unfold nextForDelete
  generalize g.skipSmaller key = g₁ at *
  obtain ⟨dupPrev, block, stream, rid⟩ := g₁
  subst hrid
  cases block with
  | nil =>
    refine .atEnd fun k hk => hpassed k ?_
    rwa [hahead, hnil rfl, append_nil] at hk
  | cons k block =>
    have hle : key ≤ k := hhead k rfl
    by_cases heq : key = k
    · subst heq
      simp only [if_true]
      exact .found hahead hpassed rfl rfl
    · simp only [heq, if_false]
      exact .absent hahead hpassed (lt_of_le_of_ne hle heq) rfl rfl

/-- What one call of `nextForUpsert` does -/
inductive UpsertStep (key : K) (dupNext : Bool) (g : RidGenerator K) :
    (Nat × Bool) × RidGenerator K → Prop
  | found {passed tail : List K} {g' : RidGenerator K} (hahead : g.ahead = passed ++ key :: tail)
      (hpassed : ∀ k ∈ passed, k < key) (hdup : g'.dupPrev = dupNext)
      (htail : g'.ahead = if dupNext then key :: tail else tail)
      (hrid : g'.rid = g.rid + passed.length + if dupNext then 0 else 1) :
      UpsertStep key dupNext g ((g.rid + passed.length, true), g')
  | absent {passed tail : List K} {g' : RidGenerator K} (hahead : g.ahead = passed ++ tail)
      (hpassed : ∀ k ∈ passed, k < key) (hlt : ∀ k ∈ tail.head?, key < k) (hdup : g'.dupPrev = dupNext)
      (htail : g'.ahead = tail) (hrid : g'.rid = g.rid + passed.length + if dupNext then 0 else 1) :
      UpsertStep key dupNext g ((g.rid + passed.length, g.dupPrev), g')

theorem nextForUpsert_spec (key : K) (dupNext : Bool) (g : RidGenerator K) :
    UpsertStep key dupNext g (g.nextForUpsert key dupNext) := by
  obtain ⟨passed, hahead, hpassed, hrid, hdup, hnil, hhead⟩ := skipSmaller_spec key g
  unfold nextForUpsert
  generalize g.skipSmaller key = g₁ at *
  obtain ⟨dupPrev, block, stream, rid⟩ := g₁
  subst hrid hdup
  cases block with
  | nil =>
    refine .absent hahead hpassed ?_ rfl rfl ?_
    · simp [hnil rfl]
    · cases dupNext <;> rfl
  | cons k block =>
    have hle : key ≤ k := hhead k rfl
    by_cases heq : key = k
    · subst heq
      simp only [if_true]
      refine .found hahead hpassed ?_ ?_ ?_
      · rfl
      · cases dupNext <;> rfl
      · cases dupNext <;> rfl
    · simp only [heq, if_false]
      refine .absent hahead hpassed ?_ rfl rfl ?_
      · intro x hx
        obtain rfl : k = x := Option.some.inj hx
        exact lt_of_le_of_ne hle heq
      · cases dupNext <;> rfl

end Generator

/-! ## The rows of the block that are placed -/

variable {range : RowKeyRange c}

theorem length_takeWhile_le_of_imp {p q : α → Bool} {l : List α} (h : ∀ a ∈ l, p a = true → q a = true) :
    (l.takeWhile p).length ≤ (l.takeWhile q).length := by
  induction l with
  | nil => simp
  | cons a l ih =>
    obtain ⟨ha, hl⟩ := forall_mem_cons.1 h
    cases hp : p a with
    | false => simp [hp]
    | true => simpa [hp, ha hp] using ih hl

theorem getPosRangeOfSorted_isOk {handles : List (RowKey c)} (hs : handles.Pairwise (· ≤ ·))
    (hrange : ∀ k ∈ handles, range.checkStart k = true ∨ range.checkEnd k = true) :
    ∃ offset limit, getPosRangeOfSorted range handles = .ok (offset, limit) := by
  have hle : (handles.takeWhile fun k => !range.checkStart k).length
      ≤ (handles.takeWhile range.checkEnd).length :=
    length_takeWhile_le_of_imp fun k hk hstart => (hrange k hk).resolve_left (by simpa using hstart)
  refine ⟨(range.getPosRange handles).1, (range.getPosRange handles).2, ?_⟩
  rw [getPosRangeOfSorted, endIndex_eq hs]
  simp only [getPosRange_eq hs]
  rw [if_neg (by omega)]

/-- A handle from the end of the range on, but before its start: the end of the rows is before their start. -/
theorem getPosRangeOfSorted_fails {handles : List (RowKey c)} (hs : handles.Pairwise (· ≤ ·)) {k : RowKey c}
    (hk : k ∈ handles) (hstart : range.checkStart k = false) (hend : range.checkEnd k = false) :
    getPosRangeOfSorted range handles = .error .lengthError := by
  have hlt : (handles.takeWhile range.checkEnd).length
      < (handles.takeWhile fun k => !range.checkStart k).length := by
    obtain ⟨before, after, rfl⟩ := append_of_mem hk
    obtain ⟨-, -, hbefore⟩ := pairwise_append.1 hs
    have hall : ∀ k' ∈ before, (!range.checkStart k') = true := by
      intro k' hk'
      rw [Bool.not_eq_true', Bool.eq_false_iff]
      intro h
      rw [checkStart_mono (hbefore k' hk' k mem_cons_self) h] at hstart
      cases hstart
    rw [takeWhile_append_of_pos hall, takeWhile_cons_of_pos (by rw [hstart]; rfl), length_append, length_cons]
    have hcut : (before ++ k :: after).takeWhile range.checkEnd = before.takeWhile range.checkEnd := by
      rw [takeWhile_append]
      split_ifs with hlen
      · rw [takeWhile_cons_of_neg (by rw [hend]; exact Bool.false_ne_true), append_nil]
        exact Eq.symm <| takeWhile_prefix _ |>.eq_of_length hlen
      · rfl
    have := takeWhile_prefix range.checkEnd (l := before) |>.length_le
    rw [hcut]
    omega
  rw [getPosRangeOfSorted, endIndex_eq hs]
  simp only [getPosRange_eq hs]
  rw [if_pos hlt]

theorem getPosRangeOfSorted_spec {handles : List (RowKey c)} {offset limit : Nat}
    (hs : handles.Pairwise (· ≤ ·)) (h : getPosRangeOfSorted range handles = .ok (offset, limit)) :
    limit = (handles.filter range.check).length ∧
    ∀ (rows : List α) (handle : α → RowKey c), rows.map handle = handles →
      (rows.drop offset).take limit = rows.filter fun r => range.check (handle r) := by
  simp only [getPosRangeOfSorted, endIndex_eq hs] at h
  split_ifs at h
  obtain ⟨rfl, rfl⟩ := Prod.mk.inj ((getPosRange_eq hs).symm.trans (Except.ok.inj h))
  have hcut : ∀ {β : Type} (rows : List β) (handle : β → RowKey c), rows.map handle = handles →
      (rows.drop (handles.takeWhile fun k => !range.checkStart k).length).take
          ((handles.takeWhile range.checkEnd).length - (handles.takeWhile fun k => !range.checkStart k).length)
        = rows.filter fun r => range.check (handle r) := by
    intro β rows handle hrows
    rw [← hrows, pairwise_map] at hs
    rw [← hrows]
    simp only [takeWhile_map, length_map]
    refine (filter_eq_take_drop ?_ ?_).symm
    · exact hs.imp fun hab ha => checkStart_mono hab ha
    · exact hs.imp fun hab hb => checkEnd_anti hab hb
  refine ⟨?_, hcut⟩
  have hlen := takeWhile_prefix range.checkEnd (l := handles) |>.length_le
  have hself := hcut handles id (map_id _)
  simp only [id_eq] at hself
  rw [← hself, length_take, length_drop]
  omega

theorem pairwise_handle {block : List (SortKey c)} (h : block.Pairwise (· ≤ ·)) :
    (block.map SortKey.handle).Pairwise (· ≤ ·) := by
  rw [pairwise_map]
  exact h.imp fun hab => Prod.Lex.monotone_fst _ _ hab

theorem checkSorted_of_pairwise [LinearOrder K] {keys : List K} (h : keys.Pairwise (· ≤ ·)) :
    checkSorted keys = .ok () := by
  rw [checkSorted, if_pos (isChain_iff_pairwise.2 h)]

end TiFlash.DM
