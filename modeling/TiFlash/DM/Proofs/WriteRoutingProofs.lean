import TiFlash.DM.Proofs.StoreDeleteProofs

/-!
# Proofs: every row reaches its segment

What is written reaches the right segments exactly when it lies in the key space. All integer handles do. A
common handle need not: the smallest key of a table with two key columns is two `CodecFlagBytes`, and a key
whose first column is the empty string is before it.
-/

namespace TiFlash.DM

open TiFlash.Lib List RowKeyRange Except

variable {c : Bool} {D : Type*} {n : Nat}

/-- However the store changes between the attempts, a block is written as it should. -/
def WriteOk (n deltaCacheLimitRows : Nat) (block : List (Row (RowKey c) D)) : Prop :=
  ∀ env : List (Attempt c), (∀ a ∈ env, a.Possible n) →
    ∃ st, writeBlock deltaCacheLimitRows block env = .ok st ∧ WriteOutcome block env st

/-- However the store changes between attempts, a delete range is written as it should; once the map stays
there are at most as many appends as segments. -/
def DeleteOk (n : Nat) (range : RowKeyRange c) : Prop := ∀ env : List (Attempt c), (∀ a ∈ env, a.Possible n) →
    ∃ st, deleteRange range env = .ok st ∧ DeleteOutcome range env st ∧
      ∀ (s : DeltaMergeStore c) (later : List (Attempt c)), (∀ a ∈ later, a.Possible n) →
        (∀ a ∈ later, a.lookup = s) →
        ∃ st', deleteRange range (env ++ later) = .ok st' ∧
          st'.appended.length ≤ st.appended.length + s.segmentList.length

/-- Within the key space, or without keys -/
def RowKeyRange.InKeySpace (n : Nat) (range : RowKeyRange c) : Prop :=
  if range.none then ∀ k, range.check k = false
  else (newAll c n).start.value ≤ range.start.value ∧ range.stop.value ≤ (newAll c n).stop.value

/-! ## A store at rest -/

/-- An attempt on a new store on which nobody works. -/
def Attempt.atRest (n : Nat) : Attempt c := ⟨.create n, .create n⟩

theorem Attempt.possible_atRest (n : Nat) : (Attempt.atRest n : Attempt c).Possible n :=
  ⟨.create n, .create n, .create, .refl, rfl, rfl⟩

theorem possible_of_mem_replicate {m : Nat} {a : Attempt c}
    (h : a ∈ replicate m (Attempt.atRest n : Attempt c)) : a.Possible n := by
  rw [eq_of_mem_replicate h]
  exact Attempt.possible_atRest n

/-! ## Blocks -/

variable {block : List (Row (RowKey c) D)}

theorem writeOk_of_keySpace (hn : 0 < n) (hsorted : SortedByPk block)
    (hspace : ∀ r ∈ block, (newAll c n).check r.handle = true) (limitRows : Nat) :
    WriteOk n limitRows block := by
  intro env henv
  obtain ⟨st, hst, hinv⟩ := (writeInv_init block).run hsorted hspace limitRows
    fun a ha => (henv a ha).inv hn
  exact ⟨st, hst, by simpa using hinv.toWriteOutcome⟩

theorem WriteOutcome.length_le {env : List (Attempt c)} {st : WriteState c D}
    (h : WriteOutcome block env st) : st.appended.length ≤ st.offset := by
  have hle : st.appended.length ≤ (st.appended.flatMap (·.content)).length := by
    have hone : ∀ m ∈ st.appended.map fun a => a.content.length, 1 ≤ m := by
      intro m hm
      obtain ⟨a, ha, rfl⟩ := mem_map.1 hm
      exact length_pos_of_ne_nil (h.nonempty a ha)
    simpa using card_nsmul_le_sum _ 1 hone
  rw [h.rows, length_take] at hle
  omega

variable {limitRows : Nat}

theorem failed_writeAttempt_atRest {st st' : WriteState c D}
    (h : writeAttempt limitRows block st (Attempt.atRest n) = .ok st') :
    st'.failed = st.failed := by
  have hfinish : ∀ (x : Segment c) (limit : Nat) (pack) (rows : List (Row (RowKey c) D)),
      (st.finish (Attempt.atRest n).append x limit pack rows).failed = st.failed := fun _ _ _ _ => rfl
  unfold writeAttempt at h
  split at h
  · rw [← ok.inj h]
  · split at h
    · exact absurd h (by simp)
    · simp only at h
      split_ifs at h
      · rw [← ok.inj h]
      · rw [← ok.inj h, hfinish]
      · rw [← ok.inj h, hfinish]

theorem failed_atRest {m : Nat} {st st' : WriteState c D} (h : (replicate m (Attempt.atRest n)).foldlM
      (writeAttempt limitRows block) st = .ok st') : st'.failed = st.failed := by
  induction m generalizing st with
  | zero => rw [← ok.inj h]
  | succ m ih =>
    rw [replicate_succ, foldlM_cons] at h
    cases hst : writeAttempt limitRows block st (Attempt.atRest n) with
    | error e => rw [hst] at h; exact absurd h (by simp [bind, Except.bind])
    | ok st₁ =>
      rw [hst] at h
      exact (ih h).trans (failed_writeAttempt_atRest hst)

theorem keySpace_of_writeOk (hn : 0 < n) (h : WriteOk n limitRows block) :
    ∀ r ∈ block, (newAll c n).check r.handle = true := by
  obtain ⟨st, hst, hout⟩ := h (replicate block.length (Attempt.atRest n)) fun a ha =>
    possible_of_mem_replicate ha
  -- as many attempts as rows are enough
  have hend : st.offset = block.length := by
    rcases hout.progress with hp | hp
    · exact hp
    · have hfailed : st.failed = 0 := failed_atRest hst
      have hle := hout.length_le
      have hoff := hout.offset_le
      rw [length_replicate] at hp
      omega
  intro r hr
  have hmem : r ∈ st.appended.flatMap (·.content) := by
    rw [hout.rows, hend, take_length]
    exact hr
  obtain ⟨a, ha, hra⟩ := mem_flatMap.1 hmem
  obtain ⟨e, he, hstore⟩ := hout.moment a ha
  have hinv := ((possible_of_mem_replicate he).inv hn).append
  rw [← hstore] at hinv
  exact hinv.newAll_check (hout.mem a ha) (hout.inside a ha r hra)

/-! ## Delete ranges -/

variable {range : RowKeyRange c}

theorem deleteRange_none (h : range.none = true) (env : List (Attempt c)) :
    deleteRange range env = .ok ⟨range, [], 0⟩ := by
  unfold deleteRange
  induction env with
  | nil => rfl
  | cons a env ih =>
    have hattempt : deleteAttempt range ⟨range, [], 0⟩ a = .ok ⟨range, [], 0⟩ := by
      simp [deleteAttempt, h]
    rw [foldlM_cons, hattempt]
    exact ih

theorem deleteInv_init (hnone : range.none = false)
    (hlo : (newAll c n).start.value ≤ range.start.value)
    (hhi : range.stop.value ≤ (newAll c n).stop.value) :
    DeleteInv n range [] ⟨range, [], 0⟩ := by
  have hlt := none_eq_false_iff.1 hnone
  refine ⟨⟨by simp, by simp, by simp, by simp, ?_, .inr rfl⟩, rfl, ?_, ?_⟩
  · intro hend
    exact absurd hend (by simp [hnone])
  · rw [← (canonical_newAll c n).start]
    exact RowKeyValue.pos_le_pos hlo (hlt.le.trans hhi)
  · intro k
    simp only [not_mem_nil, false_and, exists_false, false_iff, not_and]
    intro hk
    exact not_lt.2 ((range.check_iff k).1 hk).1

theorem deleteOk_of_keySpace (hn : 0 < n) (h : range.InKeySpace n) :
    DeleteOk n range := by
  intro env henv
  unfold RowKeyRange.InKeySpace at h
  cases hnone : range.none with
  | true =>
    rw [hnone, if_pos rfl] at h
    refine ⟨_, deleteRange_none hnone env, ⟨by simp, by simp, by simp, by simp, ?_, .inl hnone⟩, ?_⟩
    · intro _ k
      simp [h k]
    · intro s later _ _
      exact ⟨_, deleteRange_none hnone _, by simp⟩
  | false =>
    rw [hnone, if_neg (by simp)] at h
    obtain ⟨hlo, hhi⟩ := h
    obtain ⟨st, hst, hinv, hge⟩ := (deleteInv_init hnone hlo hhi).run hhi le_rfl
      fun a ha => (henv a ha).inv hn
    refine ⟨st, hst, by simpa using hinv.toDeleteOutcome, ?_⟩
    intro s later hlater hs
    obtain ⟨st', hst', hle⟩ := hinv.appended_le hhi hge (fun a ha => (hlater a ha).inv hn) hs
    refine ⟨st', ?_, ?_⟩
    · unfold deleteRange
      rw [foldlM_append, hst]
      exact hst'
    · have hahead : st.ahead s ≤ s.segmentList.length := countP_le_length
      omega

theorem locate_create {key : RowKeyValueRef c} (hsound : key.Sound) :
    (DeltaMergeStore.create n : DeltaMergeStore c).locate key
      = if key.pos < (newAll c n).stop.value then some ⟨0, 0, .newAll c n, 1, 0⟩ else none := by
  set first : Segment c := ⟨0, 0, .newAll c n, 1, 0⟩ with hfirst
  have hlt : EndRef.lt ⟨none, key⟩ first.endRef = true ↔ key.pos < (newAll c n).stop.value := by
    unfold EndRef.lt Segment.endRef
    rw [decide_eq_true_eq, RowKeyValueRef.compare_neg_iff hsound
      first.range.stop.sound_toRowKeyValueRef, ← (canonical_newAll c n).stop]
    rfl
  show (SortedMap.upperBound EndRef.lt ⟨none, key⟩ [first.entry]).map (·.2) = _
  unfold SortedMap.upperBound
  by_cases hkey : key.pos < (newAll c n).stop.value
  · have := hlt.2 hkey
    simp [hkey, Segment.entry, this]
  · have : EndRef.lt ⟨none, key⟩ first.endRef = false := by
      rw [← Bool.not_eq_true, hlt]
      exact hkey
    simp [hkey, Segment.entry, this]

/-- On a new store a successful attempt reaches the end of the key space. -/
theorem deleteAttempt_atRest {st st' : DeleteState c} (hnone : st.curRange.none = false)
    (h : deleteAttempt range st (Attempt.atRest n) = .ok st') :
    st.curRange.start.pos < (newAll c n).stop.value ∧
      st'.curRange.start = (newAll c n).stop ∧ st'.curRange.stop = range.stop := by
  have hlocate : (Attempt.atRest n : Attempt c).lookup.locate st.curRange.start.toRowKeyValueRef
      = if st.curRange.start.pos < (newAll c n).stop.value then
          some ⟨0, 0, .newAll c n, 1, 0⟩ else none :=
    locate_create st.curRange.start.sound_toRowKeyValueRef
  have hab : (Attempt.atRest n : Attempt c).append.hasAbandoned ⟨0, 0, .newAll c n, 1, 0⟩ = false := rfl
  unfold deleteAttempt at h
  rw [hnone, if_neg (by simp), hlocate] at h
  split_ifs at h with hlt
  · simp only [hab, Bool.false_eq_true, if_false] at h
    split_ifs at h <;> exact ⟨hlt, by rw [← ok.inj h], by rw [← ok.inj h]⟩

/-- A range that ends behind the key space is not written to the end: behind the only segment of a new
store there is none. -/
theorem stop_le_of_deleteOk (hnone : range.none = false) (h : DeleteOk n range) :
    range.stop.value ≤ (newAll c n).stop.value := by
  by_contra hgt
  rw [not_le] at hgt
  obtain ⟨st, hst, -⟩ := h [.atRest n, .atRest n] (by simp [Attempt.possible_atRest])
  obtain ⟨st₁, hfirst, hrest⟩ := bind_eq_ok_iff.1 hst
  obtain ⟨st₂, hsecond, -⟩ := bind_eq_ok_iff.1 hrest
  obtain ⟨-, hstart, hstop⟩ := deleteAttempt_atRest hnone hfirst
  have hnone₁ : st₁.curRange.none = false := by
    rw [none_eq_false_iff, hstart, hstop]
    exact hgt
  have hlt := (deleteAttempt_atRest hnone₁ hsecond).1
  rw [hstart, (canonical_newAll c n).stop] at hlt
  exact absurd hlt (lt_irrefl _)

theorem intHandleMinKey_le (v : RowKeyValue false) : (newAll false n).start.value ≤ v.value := by
  cases v with
  | int d v h =>
    have hmin : encodeInt64 intHandleMin ≤ encodeInt64 v :=
      not_lt.1 fun hlt => absurd (encodeInt64_lt_iff.1 hlt) (not_lt.2 v.2.1)
    have hprefix : ¬ d < d.take 8 := take_prefix 8 d |>.le
    rw [(take_of_decodeInt64 h).2] at hprefix
    exact hmin.trans (not_lt.1 hprefix)

theorem le_start_of_deleteOk (hn : 0 < n) (hnone : range.none = false) (h : DeleteOk n range) :
    (newAll c n).start.value ≤ range.start.value := by
  have hhi := stop_le_of_deleteOk hnone h
  have hlt := none_eq_false_iff.1 hnone
  obtain ⟨st, hst, hout, -⟩ := h [.atRest n] (by simp [Attempt.possible_atRest])
  obtain ⟨st₁, hfirst, hrest⟩ := bind_eq_ok_iff.1 hst
  obtain rfl : st₁ = st := ok.inj hrest
  obtain ⟨-, hstart, hstop⟩ := deleteAttempt_atRest hnone hfirst
  have hend : st₁.curRange.none = true := by
    simpa [RowKeyRange.none, hstart, hstop] using hhi
  cases c with
  | false => exact intHandleMinKey_le _
  | true =>
    have hpos : ∀ v : RowKeyValue true, v.pos = v.value := by
      rintro ⟨v⟩
      rfl
    have hkey : range.start.key.pos = range.start.value := by
      cases range.start with
      | common v => rfl
    have hcheck : range.check range.start.key = true := by
      rw [range.check_iff, hkey, hpos, hpos]
      exact ⟨le_rfl, hlt⟩
    obtain ⟨a, ha, hak⟩ := (hout.union hend range.start.key).2 hcheck
    obtain ⟨e, he, hstore⟩ := hout.moment a ha
    obtain rfl := mem_singleton.1 he
    have hinv := ((Attempt.possible_atRest (c := true) n).inv hn).append
    rw [← hstore] at hinv
    have hsegment := (hinv.ranges.bounds (v := RowKeyValue.value)
      (fun y hy => (hinv.proper y (hinv.mem y hy)).upward) (hout.mem a ha)).1
    have hcontent := ((a.content.check_iff _).1 hak).1
    rw [hkey, hpos] at hcontent
    exact hsegment.trans ((hout.inside a ha).1.trans hcontent)

theorem keySpace_of_deleteOk (hn : 0 < n) (h : DeleteOk n range) :
    range.InKeySpace n := by
  unfold RowKeyRange.InKeySpace
  cases hnone : range.none with
  | true =>
    obtain ⟨st, hst, hout, -⟩ := h [] (by simp)
    obtain rfl : ⟨range, [], 0⟩ = st := ok.inj hst
    intro k
    have hk := hout.union hnone k
    simpa using hk
  | false =>
    exact ⟨le_start_of_deleteOk hn hnone h, stop_le_of_deleteOk hnone h⟩

/-! ## Results -/

/-- A sorted block is cut and appended as it should, and a delete range is, exactly when they lie in the
key space. -/
theorem writes_reach_segments_iff (hn : 0 < n) (deltaCacheLimitRows : Nat) :
    (∀ block : List (Row (RowKey c) D), SortedByPk block → (WriteOk n deltaCacheLimitRows block
      ↔ ∀ r ∈ block, (newAll c n).check r.handle = true)) ∧
    ∀ range : RowKeyRange c, DeleteOk n range ↔ range.InKeySpace n := by
  refine ⟨fun block hsorted => ⟨keySpace_of_writeOk hn, ?_⟩, fun range => ⟨keySpace_of_deleteOk hn, ?_⟩⟩
  · exact fun hspace => writeOk_of_keySpace hn hsorted hspace deltaCacheLimitRows
  · exact deleteOk_of_keySpace hn

/-- Two versions of a row and one of another in a table with integer handles, and a delete range for all of
them. -/
theorem writes_reach_segments_int :
    WriteOk 1 4096 ([⟨.int ⟨-5, by decide⟩, 1, false, ()⟩, ⟨.int ⟨-5, by decide⟩, 3, true, ()⟩,
        ⟨.int ⟨7, by decide⟩, 2, false, ()⟩] : List (Row (RowKey false) Unit)) ∧
      DeleteOk 1 (newAll false 1) := by
  have h := writes_reach_segments_iff (c := false) (D := Unit) Nat.one_pos 4096
  refine ⟨(h.1 _ ?_).2 ?_, (h.2 _).2 ?_⟩
  · simp only [SortedByPk]
    decide
  · simp only [forall_mem_cons]
    decide
  · exact (if_neg (by decide)).mpr ⟨le_rfl, le_rfl⟩

/-- The key `('', 1)` of a table with the clustered primary key `(varchar, int)`. -/
def emptyStringKey : RowKey true := .common [1, 0, 0, 0, 0, 0, 0, 0, 0, 247, 3, 128, 0, 0, 0, 0, 0, 0, 1]

/-- On a new store the loop for this key makes no step: no attempt fails, and none appends anything. -/
theorem writeBlock_emptyStringKey (attempts : Nat) :
    writeBlock 4096 [(⟨emptyStringKey, 1, false, ()⟩ : Row (RowKey true) Unit)]
      (replicate attempts (Attempt.atRest 2)) = .ok .init := by
  have hattempt : writeAttempt 4096 [(⟨emptyStringKey, 1, false, ()⟩ : Row (RowKey true) Unit)] .init
      (Attempt.atRest 2) = .ok .init := by with_unfolding_all rfl
  unfold writeBlock
  induction attempts with
  | zero => rfl
  | succ m ih =>
    rw [replicate_succ, foldlM_cons, hattempt]
    exact ih

/-- The row is never written, and the loop is never left. -/
theorem write_of_empty_string_key_never_ends :
    ¬ WriteOk 2 4096 [(⟨emptyStringKey, 1, false, ()⟩ : Row (RowKey true) Unit)] ∧
      ∀ attempts, writeBlock 4096 [(⟨emptyStringKey, 1, false, ()⟩ : Row (RowKey true) Unit)]
        (replicate attempts (Attempt.atRest 2)) = .ok .init := by
  refine ⟨fun h => ?_, writeBlock_emptyStringKey⟩
  obtain ⟨st, hst, hout⟩ := h (replicate 1 (Attempt.atRest 2)) fun a ha => possible_of_mem_replicate ha
  rw [writeBlock_emptyStringKey] at hst
  obtain rfl := ok.inj hst
  rcases hout.progress with hp | hp <;> simp [WriteState.init] at hp

end TiFlash.DM
