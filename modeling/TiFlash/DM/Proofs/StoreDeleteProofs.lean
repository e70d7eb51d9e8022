import TiFlash.DM.Proofs.StoreWriteProofs

/-!
# Proofs: writing a delete range

The ends of a delete range need not be canonical: `shrink` and `none` compare the strings of the ends,
`check` their positions. Up to the end of the key space the two orders agree.
-/

namespace TiFlash.DM

open TiFlash.Lib List RowKeyRange RowKeyValue

variable {c : Bool} {n : Nat}

/-! ## Attempts -/

/-- What a delete range has become after the attempts `env`. -/
structure DeleteOutcome (range : RowKeyRange c) (env : List (Attempt c)) (st : DeleteState c) : Prop where
  mem : ∀ a ∈ st.appended, a.segment ∈ a.store.segmentList
  valid : ∀ a ∈ st.appended, a.store.isSegmentValid a.segment = true
  /-- What is appended to a segment lies inside of it. -/
  inside : ∀ a ∈ st.appended, a.segment.range.start.value ≤ a.content.start.value ∧
    a.content.stop.value ≤ a.segment.range.stop.value
  moment : ∀ a ∈ st.appended, ∃ e ∈ env, a.store = e.append
  /-- At the end the appended ranges make up the whole range. -/
  union : st.curRange.none = true → ∀ k, (∃ a ∈ st.appended, a.content.check k = true) ↔ range.check k = true
  /-- Unless the loop has ended, every attempt has appended something or has failed. -/
  progress : st.curRange.none = true ∨ env.length = st.appended.length + st.failed

/-- The part of the range before `curRange` has been appended. -/
structure DeleteInv (n : Nat) (range : RowKeyRange c) (env : List (Attempt c)) (st : DeleteState c) :
    Prop extends DeleteOutcome range env st where
  stop : st.curRange.stop = range.stop
  space : (newAll c n).start.value ≤ st.curRange.start.pos
  covered : ∀ k, (∃ a ∈ st.appended, a.content.check k = true)
    ↔ range.check k = true ∧ k.pos < st.curRange.start.pos

section Attempt

variable {range : RowKeyRange c} {env : List (Attempt c)} {st : DeleteState c} {a : Attempt c}
  {x : Segment c}

/-- The range that reaches the segment of the current start is not empty, also when it is cut again. -/
theorem shrink_nonempty (hrange : range.start.value < range.stop.value)
    (hproper : x.Proper) (hstart : range.start.value < x.range.stop.value)
    (hstop : x.range.start.value < range.stop.value) :
    ((range.shrink x.range).shrink x.range).none = false := by
  rw [none_eq_false_iff]
  have hup := hproper.upward
  simp only [shrink]
  split_ifs <;> assumption

theorem shrink_inside (range range' : RowKeyRange c) :
    range'.start.value ≤ (range.shrink range').start.value ∧
      (range.shrink range').stop.value ≤ range'.stop.value := by
  simp only [shrink]
  constructor
  · split_ifs with h
    · exact h
    · exact le_rfl
  · split_ifs with h
    · exact h.le
    · exact le_rfl

/-- An attempt either changes nothing but the number of failures, or appends one range and goes on behind
one of the segments. -/
def DeleteState.Moves (s : DeltaMergeStore c) (st st' : DeleteState c) : Prop :=
  (st'.curRange = st.curRange ∧ st'.appended = st.appended) ∨
    ∃ x ∈ s.segmentList, st.curRange.start.pos < x.range.stop.pos ∧
      st'.curRange.start = x.range.stop ∧ st'.appended.length = st.appended.length + 1

theorem DeleteInv.attempt (h : DeleteInv n range env st) (ha : AttemptInv n a)
    (hhi : range.stop.value ≤ (newAll c n).stop.value)
    (hge : range.start.value ≤ st.curRange.start.value) :
    ∃ st', deleteAttempt range st a = .ok st' ∧ DeleteInv n range (env ++ [a]) st' ∧
      range.start.value ≤ st'.curRange.start.value ∧ st.Moves a.lookup st' := by
  have hmoment : ∀ b ∈ st.appended, ∃ e ∈ env ++ [a], b.store = e.append := by
    intro b hb
    obtain ⟨e, he, heq⟩ := h.moment b hb
    exact ⟨e, mem_append_left _ he, heq⟩
  unfold deleteAttempt
  cases hnone : st.curRange.none with
  | true =>
    exact ⟨st, rfl, ⟨⟨h.mem, h.valid, h.inside, hmoment, h.union, .inl hnone⟩, h.stop, h.space,
      h.covered⟩, hge, .inl ⟨rfl, rfl⟩⟩
  | false =>
    have hcur : st.curRange.start.value < range.stop.value := by
      rw [← h.stop]
      exact none_eq_false_iff.1 hnone
    have hprogress : env.length = st.appended.length + st.failed := by
      rcases h.progress with hp | hp
      · exact absurd hp (by simp [hnone])
      · exact hp
    have hposhi : st.curRange.start.pos < (newAll c n).stop.value :=
      (st.curRange.start.pos_le_value.trans_lt hcur).trans_le hhi
    obtain ⟨x, hx, hlocate, hxlo, hxhi⟩ :=
      ha.lookup.locate st.curRange.start.sound_toRowKeyValueRef h.space hposhi
    have hproper := ha.lookup.proper x (ha.lookup.mem x hx)
    obtain ⟨hxmin, hxmax⟩ := ha.lookup.ranges.bounds (v := value)
      (fun y hy => (ha.lookup.proper y (ha.lookup.mem y hy)).upward) hx
    -- the order of the strings, from that of the positions
    have hcurx : st.curRange.start.value < x.range.stop.value := by
      refine not_le.1 fun hle => absurd hxhi (not_lt.2 ?_)
      rw [← hproper.canonical.stop]
      exact pos_le_pos hle (hcur.le.trans hhi)
    have hxcur : x.range.start.value ≤ st.curRange.start.value := hxlo.trans st.curRange.start.pos_le_value
    have hrange : range.start.value < range.stop.value := hge.trans_lt hcur
    have hfull := shrink_nonempty hrange hproper (hge.trans_lt hcurx) (hxcur.trans_lt hcur)
    simp only [hlocate, hfull, Bool.false_eq_true, if_false]
    cases hab : a.append.hasAbandoned x with
    | true =>
      refine ⟨_, rfl, ⟨⟨h.mem, h.valid, h.inside, hmoment, h.union, .inr ?_⟩, h.stop, h.space,
        h.covered⟩, hge, .inl ⟨rfl, rfl⟩⟩
      simp only [length_append, length_singleton]
      omega
    | false =>
      have hmem := ha.mem_append hx hab
      have hcons : ∀ {P : Appended c (RowKeyRange c) → Prop}, (∀ b ∈ st.appended, P b) →
          P ⟨a.append, x, range.shrink x.range⟩ →
          ∀ b ∈ st.appended ++ [⟨a.append, x, range.shrink x.range⟩], P b := by
        intro P hold hnew
        exact forall_mem_append.2 ⟨hold, forall_mem_singleton.2 hnew⟩
      have hshrink := check_shrink (hrange.le.trans hhi) hhi
        (hproper.upward.le.trans hxmax) hxmax
      have hcovered : ∀ k, (∃ b ∈ st.appended ++ [⟨a.append, x, range.shrink x.range⟩],
          b.content.check k = true) ↔ range.check k = true ∧ k.pos < x.range.stop.pos := by
        intro k
        have hsplit : (∃ b ∈ st.appended ++ [⟨a.append, x, range.shrink x.range⟩], b.content.check k = true)
              ↔ (∃ b ∈ st.appended, b.content.check k = true) ∨ (range.shrink x.range).check k = true := by
          simp [or_and_right, exists_or]
        rw [hsplit, h.covered, hshrink k, x.range.check_iff, hproper.canonical.start, hproper.canonical.stop]
        constructor
        · rintro (⟨hk, hlt⟩ | ⟨hk, hlt⟩)
          · exact ⟨hk, hlt.trans hxhi⟩
          · exact ⟨hk, hlt.2⟩
        · rintro ⟨hk, hlt⟩
          rcases lt_or_ge k.pos st.curRange.start.pos with hcase | hcase
          · exact .inl ⟨hk, hcase⟩
          · exact .inr ⟨hk, hxlo.trans hcase, hlt⟩
      refine ⟨_, rfl, ⟨⟨hcons h.mem hmem, hcons h.valid (ha.append.isSegmentValid_of_mem hmem),
        hcons h.inside (shrink_inside _ _), hcons hmoment ⟨a, by simp, rfl⟩, ?_, .inr ?_⟩, rfl, ?_,
        hcovered⟩, ?_, .inr ⟨x, hx, ?_, rfl, by simp⟩⟩
      · intro hend k
        rw [hcovered k]
        refine ⟨fun hk => hk.1, fun hk => ⟨hk, ?_⟩⟩
        have hle : range.stop.value ≤ x.range.stop.value := by
          simpa [RowKeyRange.none] using hend
        exact ((range.check_iff k).1 hk).2.trans_le (pos_le_pos hle hxmax)
      · simp only [length_append, length_singleton]
        omega
      · rw [hproper.canonical.stop]
        exact hxmin.trans hproper.upward.le
      · exact hge.trans hcurx.le
      · rwa [hproper.canonical.stop]

theorem DeleteInv.run (h : DeleteInv n range env st)
    (hhi : range.stop.value ≤ (newAll c n).stop.value)
    (hge : range.start.value ≤ st.curRange.start.value) {later : List (Attempt c)}
    (hlater : ∀ a ∈ later, AttemptInv n a) :
    ∃ st', later.foldlM (deleteAttempt range) st = .ok st' ∧ DeleteInv n range (env ++ later) st' ∧
      range.start.value ≤ st'.curRange.start.value := by
  induction later generalizing env st with
  | nil => exact ⟨st, rfl, by simpa using h, hge⟩
  | cons a later ih =>
    obtain ⟨st₁, hst₁, hinv₁, hge₁, -⟩ := h.attempt (hlater a mem_cons_self) hhi hge
    obtain ⟨st₂, hst₂, hinv₂, hge₂⟩ := ih hinv₁ hge₁ fun b hb => hlater b (mem_cons_of_mem a hb)
    refine ⟨st₂, ?_, by simpa using hinv₂, hge₂⟩
    rw [foldlM_cons, hst₁]
    exact hst₂

end Attempt

/-! ## The end of the loop -/

/-- The segments that end behind the current start. -/
def DeleteState.ahead (s : DeltaMergeStore c) (st : DeleteState c) : Nat :=
  s.segmentList.countP fun x => st.curRange.start.pos < x.range.stop.pos

theorem DeleteState.Moves.ahead_le {s : DeltaMergeStore c} {st st' : DeleteState c} (h : st.Moves s st') :
    st'.appended.length + st'.ahead s ≤ st.appended.length + st.ahead s := by
  unfold DeleteState.ahead
  rcases h with ⟨hcur, happended⟩ | ⟨x, hx, hlt, hcur, hlen⟩
  · rw [hcur, happended]
  · obtain ⟨ls, rs, hlist⟩ := append_of_mem hx
    have hmono : ∀ l : List (Segment c), l.countP (fun y => decide (x.range.stop.pos < y.range.stop.pos))
          ≤ l.countP fun y => decide (st.curRange.start.pos < y.range.stop.pos) := by
      intro l
      refine countP_mono_left fun y _ hy => ?_
      rw [decide_eq_true_eq] at hy ⊢
      exact hlt.trans hy
    have hls := hmono ls
    have hrs := hmono rs
    rw [hcur, hlen, hlist, countP_append, countP_append, countP_cons_of_neg (by simp),
      countP_cons_of_pos (by simpa using hlt)]
    omega

/-- While the map stays as it is there are no more appends than segments. -/
theorem DeleteInv.appended_le {range : RowKeyRange c} {env : List (Attempt c)} {st : DeleteState c}
    (h : DeleteInv n range env st) (hhi : range.stop.value ≤ (newAll c n).stop.value)
    (hge : range.start.value ≤ st.curRange.start.value) {s : DeltaMergeStore c} {later : List (Attempt c)}
    (hlater : ∀ a ∈ later, AttemptInv n a) (hs : ∀ a ∈ later, a.lookup = s) :
    ∃ st', later.foldlM (deleteAttempt range) st = .ok st' ∧
      st'.appended.length + st'.ahead s ≤ st.appended.length + st.ahead s := by
  induction later generalizing env st with
  | nil => exact ⟨st, rfl, le_rfl⟩
  | cons a later ih =>
    obtain ⟨st₁, hst₁, hinv₁, hge₁, hmoves⟩ := h.attempt (hlater a mem_cons_self) hhi hge
    rw [hs a mem_cons_self] at hmoves
    obtain ⟨st₂, hst₂, hle⟩ := ih hinv₁ hge₁ (fun b hb => hlater b (mem_cons_of_mem a hb))
      fun b hb => hs b (mem_cons_of_mem a hb)
    refine ⟨st₂, ?_, hle.trans hmoves.ahead_le⟩
    rw [foldlM_cons, hst₁]
    exact hst₂

end TiFlash.DM
