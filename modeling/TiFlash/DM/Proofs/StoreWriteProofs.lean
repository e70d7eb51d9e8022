import TiFlash.DM.StoreWrite
import TiFlash.DM.Proofs.SegmentStepProofs
import TiFlash.Lib.ExceptBind

/-!
# Proofs: writing a block

An attempt finds the segment of the first row still to be written and cuts off the following rows that it
contains, at least one. If the instance is not abandoned when they are appended it is still in the map.
-/

namespace TiFlash.DM

open TiFlash.Lib List RowKeyRange DeltaMergeStore RowKeyValue SortedMap Except

variable {c : Bool} {D : Type*} {n : Nat}

/-! ## Looking for a segment -/

section Store

variable {s : DeltaMergeStore c} (h : StoreInv n s)

include h

theorem StoreInv.locate {key : RowKeyValueRef c} (hsound : key.Sound)
    (hlo : (newAll c n).start.value ≤ key.pos)
    (hhi : key.pos < (newAll c n).stop.value) :
    ∃ x ∈ s.segmentList, s.locate key = some x ∧ x.range.start.value ≤ key.pos ∧
      key.pos < x.range.stop.value := by
  obtain ⟨ls, x, rs, hlist, hstart, hstop, hls⟩ := h.ranges.exists_mem (v := value) hlo hhi
  have hlt : ∀ y ∈ s.segmentList, EndRef.lt ⟨none, key⟩ y.endRef = true ↔ key.pos < y.range.stop.value := by
    intro y hy
    unfold EndRef.lt Segment.endRef
    rw [decide_eq_true_eq, RowKeyValueRef.compare_neg_iff hsound y.range.stop.sound_toRowKeyValueRef,
      ← (h.proper y (h.mem y hy)).canonical.stop]
    rfl
  refine ⟨x, by simp [hlist], ?_, hstart, hstop⟩
  unfold DeltaMergeStore.locate
  have hupper : upperBound EndRef.lt ⟨none, key⟩ (ls.map Segment.entry ++ x.entry :: rs.map Segment.entry)
      = some x.entry := by
    refine upperBound_at ?_ ((hlt x (by simp [hlist])).2 hstop)
    intro e he
    obtain ⟨y, hy, rfl⟩ := mem_map.1 he
    rw [← Bool.not_eq_true, Segment.entry, hlt y (by simp [hlist, hy]), not_lt]
    exact hls y hy
  rw [h.segments, hlist, map_append, map_cons, hupper]
  rfl

theorem StoreInv.isSegmentValid_of_mem {x : Segment c} (hx : x ∈ s.segmentList) :
    s.isSegmentValid x = true := by
  obtain ⟨ls, rs, hlist⟩ := append_of_mem hx
  have hord : EndsOrdered (ls ++ x :: rs) := hlist ▸ h.ordered
  have hcx := hord.canonical x (by simp)
  have hself := (endRef_lt_eq_false_iff hcx hcx).2 le_rfl
  have hfind : find EndRef.lt x.endRef s.segments = some x.entry := by
    rw [h.segments, hlist, map_append, map_cons]
    exact find_at (fun e he => hord.lt_of_mem_left he) hself hself
  have hab : s.hasAbandoned x = false := by
    simpa [hasAbandoned] using (h.live x (h.mem x hx)).1 hx
  unfold isSegmentValid
  simp [hab, hfind, Segment.entry]

theorem StoreInv.newAll_check {x : Segment c} (hx : x ∈ s.segmentList) {k : RowKey c}
    (hk : x.range.check k = true) : (newAll c n).check k = true := by
  have hproper := h.proper x (h.mem x hx)
  obtain ⟨hlo, hhi⟩ := h.ranges.bounds (v := value)
    (fun y hy => (h.proper y (h.mem y hy)).upward) hx
  rw [check_iff, hproper.canonical.start, hproper.canonical.stop] at hk
  rw [check_iff, (canonical_newAll c n).start, (canonical_newAll c n).stop]
  exact ⟨hlo.trans hk.1, hk.2.trans_le hhi⟩

end Store

theorem StoreSystemInv.steps {s s' : StoreSystem c} (h : StoreSystemInv n s) (hsteps : s.Steps s') :
    StoreSystemInv n s' ∧ s.store.instances ⊆ s'.store.instances := by
  induction hsteps with
  | refl => exact ⟨h, List.Subset.refl _⟩
  | tail _ hstep ih =>
    obtain ⟨outcome, hstep⟩ := hstep
    have hspec := ih.1.step hstep
    exact ⟨hspec.inv, List.Subset.trans ih.2 hspec.instances⟩

/-- Both stores of an attempt meet the invariant. -/
structure AttemptInv (n : Nat) (a : Attempt c) : Prop where
  lookup : StoreInv n a.lookup
  append : StoreInv n a.append
  instances : a.lookup.instances ⊆ a.append.instances

theorem Attempt.Possible.inv (hn : 0 < n) {a : Attempt c} (h : a.Possible n) : AttemptInv n a := by
  obtain ⟨s, s', hreach, hsteps, hlookup, happend⟩ := h
  have hinv := storeSystemInv_of_reachable hn hreach
  obtain ⟨hinv', hsub⟩ := hinv.steps hsteps
  rw [← happend] at hsub
  exact ⟨hlookup ▸ hinv.store, happend ▸ hinv'.store, hlookup ▸ hsub⟩

theorem AttemptInv.mem_append {a : Attempt c} (h : AttemptInv n a) {x : Segment c}
    (hx : x ∈ a.lookup.segmentList) (hab : a.append.hasAbandoned x = false) :
    x ∈ a.append.segmentList := by
  have hmem := h.instances (h.lookup.mem x hx)
  refine (h.append.live x hmem).2 ?_
  simpa [hasAbandoned] using hab

/-! ## The piece for a segment -/

theorem handles_sorted {block : List (Row (RowKey c) D)} (h : SortedByPk block) :
    (block.map Row.handle).Pairwise (· ≤ ·) := by
  refine pairwise_map.2 (h.imp fun hab => ?_)
  rcases hab with hlt | ⟨heq, -⟩
  · exact hlt.le
  · exact heq.le

/-- If the range contains the first key, the limit counts the keys up to the last one that it contains. -/
theorem getPosRange_limit {range : RowKeyRange c} {k : RowKey c} {keys : List (RowKey c)}
    (hs : (k :: keys).Pairwise (· ≤ ·)) (hk : range.check k = true) :
    0 < (range.getPosRange (k :: keys)).2 ∧ (range.getPosRange (k :: keys)).2 ≤ (k :: keys).length ∧
      ∀ x ∈ (k :: keys).take (range.getPosRange (k :: keys)).2, range.check x = true := by
  obtain ⟨hkstart, hkstop⟩ : range.checkStart k = true ∧ range.checkEnd k = true := by
    simpa [check] using hk
  have hlimit : (range.getPosRange (k :: keys)).2 = ((k :: keys).takeWhile range.checkEnd).length := by
    rw [getPosRange_eq hs]
    simp [hkstart]
  rw [hlimit]
  refine ⟨by simp [hkstop], takeWhile_prefix _ |>.length_le, ?_⟩
  intro x hx
  rw [← prefix_iff_eq_take.1 <| takeWhile_prefix range.checkEnd] at hx
  have hmem : x ∈ k :: keys := takeWhile_prefix _ |>.subset hx
  have hkx : k ≤ x := by
    rcases mem_cons.1 hmem with rfl | hmem
    · exact le_rfl
    · exact (pairwise_cons.1 hs).1 x hmem
  simp [check, checkStart_mono hkx hkstart, mem_takeWhile_imp hx]

/-! ## Attempts -/

/-- What a block has become after the attempts `env`. -/
structure WriteOutcome (block : List (Row (RowKey c) D)) (env : List (Attempt c)) (st : WriteState c D) :
    Prop where
  offset_le : st.offset ≤ block.length
  /-- The rows before the offset have been appended, once each and in the order of the block. -/
  rows : st.appended.flatMap (·.content) = block.take st.offset
  nonempty : ∀ a ∈ st.appended, a.content ≠ []
  mem : ∀ a ∈ st.appended, a.segment ∈ a.store.segmentList
  valid : ∀ a ∈ st.appended, a.store.isSegmentValid a.segment = true
  inside : ∀ a ∈ st.appended, ∀ r ∈ a.content, a.segment.range.check r.handle = true
  moment : ∀ a ∈ st.appended, ∃ e ∈ env, a.store = e.append
  /-- Unless the block has been written, every attempt has appended something or has failed. -/
  progress : st.offset = block.length ∨ env.length = st.appended.length + st.failed

def pieceOf (block : List (Row (RowKey c) D)) (offset : Nat) (range : RowKeyRange c) :
    List (Row (RowKey c) D) :=
  (block.drop offset).take (range.getPosRange ((block.drop offset).map Row.handle)).2

/-- A pack on disk is the piece for the range that it was written for. -/
structure WriteInv (block : List (Row (RowKey c) D)) (env : List (Attempt c)) (st : WriteState c D) :
    Prop extends WriteOutcome block env st where
  pack : ∀ range written, st.pack = some (range, written) → written = pieceOf block st.offset range

theorem getPosRange_congr {a b : RowKeyRange c} (h : a.same b = true) (keys : List (RowKey c)) :
    a.getPosRange keys = b.getPosRange keys := by
  obtain ⟨as, ae, an⟩ := a
  obtain ⟨bs, be, bn⟩ := b
  simp only [same, Bool.and_eq_true, decide_eq_true_eq] at h
  obtain rfl : as = bs := value_injective h.1
  obtain rfl : ae = be := value_injective h.2
  rfl

section Attempt

variable {block : List (Row (RowKey c) D)} {env : List (Attempt c)} {st : WriteState c D}
  {a : Attempt c} {x : Segment c} {row : Row (RowKey c) D}

section

variable (h : WriteInv block env st)
include h

theorem WriteInv.finish (ha : AttemptInv n a) (hsorted : SortedByPk block)
    (hrow : block[st.offset]? = some row) (hx : x ∈ a.lookup.segmentList)
    (hcheck : x.range.check row.handle = true) {pack : Option (RowKeyRange c × List (Row (RowKey c) D))}
    (hpack : ∀ range written, pack = some (range, written) → written = pieceOf block st.offset range) :
    WriteInv block (env ++ [a]) (st.finish a.append x
      (x.range.getPosRange ((block.drop st.offset).map Row.handle)).2 pack
      (pieceOf block st.offset x.range)) := by
  obtain ⟨hlt, rfl⟩ := List.getElem?_eq_some_iff.1 hrow
  have hdrop : block.drop st.offset = block[st.offset] :: block.drop (st.offset + 1) :=
    drop_eq_getElem_cons hlt
  have hkeys : ((block.drop st.offset).map Row.handle).Pairwise (· ≤ ·) :=
    (handles_sorted hsorted).sublist (List.Sublist.map _ (drop_sublist _ _))
  obtain ⟨hpos, hle, hinside⟩ : 0 < (x.range.getPosRange ((block.drop st.offset).map Row.handle)).2 ∧
      (x.range.getPosRange ((block.drop st.offset).map Row.handle)).2
        ≤ ((block.drop st.offset).map Row.handle).length ∧
      ∀ k ∈ ((block.drop st.offset).map Row.handle).take
        (x.range.getPosRange ((block.drop st.offset).map Row.handle)).2, x.range.check k = true := by
    rw [hdrop, map_cons] at hkeys ⊢
    exact getPosRange_limit hkeys hcheck
  unfold pieceOf
  generalize (x.range.getPosRange ((block.drop st.offset).map Row.handle)).2 = limit at hpos hle hinside
  rw [length_map, length_drop] at hle
  have hprogress : env.length = st.appended.length + st.failed := by
    rcases h.progress with hp | hp
    · omega
    · exact hp
  unfold WriteState.finish
  cases hab : a.append.hasAbandoned x with
  | true =>
    refine ⟨⟨h.offset_le, h.rows, h.nonempty, h.mem, h.valid, h.inside, ?_, .inr ?_⟩, hpack⟩
    · intro b hb
      obtain ⟨e, he, heq⟩ := h.moment b hb
      exact ⟨e, mem_append_left _ he, heq⟩
    · simp only [if_true, length_append, length_singleton]
      omega
  | false =>
    have hmem := ha.mem_append hx hab
    have hcons : ∀ {P : Appended c (List (Row (RowKey c) D)) → Prop}, (∀ b ∈ st.appended, P b) →
        P ⟨a.append, x, (block.drop st.offset).take limit⟩ →
        ∀ b ∈ st.appended ++ [⟨a.append, x, (block.drop st.offset).take limit⟩], P b := by
      intro P hold hnew
      exact forall_mem_append.2 ⟨hold, forall_mem_singleton.2 hnew⟩
    refine ⟨⟨?_, ?_, hcons h.nonempty ?_, hcons h.mem hmem,
      hcons h.valid (ha.append.isSegmentValid_of_mem hmem), hcons h.inside ?_, hcons ?_ ?_, .inr ?_⟩, ?_⟩
    · show st.offset + limit ≤ block.length
      omega
    · show (st.appended ++ [_]).flatMap Appended.content = block.take (st.offset + limit)
      rw [flatMap_append, h.rows, take_add]
      simp
    · obtain ⟨m, rfl⟩ := Nat.exists_eq_succ_of_ne_zero hpos.ne'
      rw [hdrop, take_succ_cons]
      exact cons_ne_nil _ _
    · intro r hr
      refine hinside _ ?_
      rw [← map_take]
      exact mem_map_of_mem hr
    · intro b hb
      obtain ⟨e, he, heq⟩ := h.moment b hb
      exact ⟨e, mem_append_left _ he, heq⟩
    · exact ⟨a, by simp, rfl⟩
    · simp only [length_append, length_singleton]
      show env.length + 1 = (st.appended ++ [_]).length + st.failed
      simp only [length_append, length_singleton]
      omega
    · intro range written hp
      exact absurd hp (by simp)

/-- An attempt never fails to find a segment for a row of the key space. -/
theorem WriteInv.attempt (ha : AttemptInv n a) (hsorted : SortedByPk block)
    (hspace : ∀ r ∈ block, (newAll c n).check r.handle = true) (limitRows : Nat) :
    ∃ st', writeAttempt limitRows block st a = .ok st' ∧ WriteInv block (env ++ [a]) st' := by
  unfold writeAttempt
  cases hrow : block[st.offset]? with
  | none =>
    have hend : st.offset = block.length := le_antisymm h.offset_le (List.getElem?_eq_none_iff.1 hrow)
    refine ⟨st, rfl, ⟨h.offset_le, h.rows, h.nonempty, h.mem, h.valid, h.inside, ?_, .inl hend⟩, h.pack⟩
    intro b hb
    obtain ⟨e, he, heq⟩ := h.moment b hb
    exact ⟨e, mem_append_left _ he, heq⟩
  | some row =>
    have hcheck := hspace row (mem_of_getElem? hrow)
    rw [check_iff, (canonical_newAll c n).start, (canonical_newAll c n).stop] at hcheck
    obtain ⟨x, hx, hlocate, hlo, hhi⟩ := ha.lookup.locate row.handle.sound_toRef hcheck.1 hcheck.2
    have hproper := ha.lookup.proper x (ha.lookup.mem x hx)
    have hxcheck : x.range.check row.handle = true := by
      rw [check_iff, hproper.canonical.start, hproper.canonical.stop]
      exact ⟨hlo, hhi⟩
    have hpos : (x.range.getPosRange ((block.drop st.offset).map Row.handle)).2 ≠ 0 := by
      obtain ⟨hlt, rfl⟩ := List.getElem?_eq_some_iff.1 hrow
      have hkeys : ((block.drop st.offset).map Row.handle).Pairwise (· ≤ ·) :=
        (handles_sorted hsorted).sublist (List.Sublist.map _ (drop_sublist _ _))
      rw [drop_eq_getElem_cons hlt, map_cons] at hkeys ⊢
      exact (getPosRange_limit hkeys hxcheck).1.ne'
    simp only [hlocate, if_neg hpos]
    split_ifs with hcache
    · exact ⟨_, rfl, h.finish ha hsorted hrow hx hxcheck h.pack⟩
    · -- the pack is the piece for this segment, whether it is written now or was written before
      have hnew : ∀ range written, some (x.range, pieceOf block st.offset x.range) = some (range, written) →
          written = pieceOf block st.offset range := by
        intro range written heq
        obtain ⟨rfl, rfl⟩ := Prod.mk.inj (Option.some.inj heq)
        rfl
      cases hpack : st.pack with
      | none => exact ⟨_, rfl, h.finish ha hsorted hrow hx hxcheck hnew⟩
      | some p =>
        obtain ⟨range, written⟩ := p
        have hwritten := h.pack range written hpack
        by_cases hsame : range.same x.range = true
        · have hpiece : written = pieceOf block st.offset x.range := by
            rw [hwritten, pieceOf, getPosRange_congr hsame, pieceOf]
          simp only [hsame, if_true]
          rw [hpiece]
          refine ⟨_, rfl, h.finish ha hsorted hrow hx hxcheck ?_⟩
          intro range' written' heq
          obtain ⟨rfl, rfl⟩ := Prod.mk.inj (Option.some.inj heq)
          rw [← hpiece, hwritten]
        · simp only [hsame]
          exact ⟨_, rfl, h.finish ha hsorted hrow hx hxcheck hnew⟩

theorem WriteInv.run (hsorted : SortedByPk block)
    (hspace : ∀ r ∈ block, (newAll c n).check r.handle = true) (limitRows : Nat)
    {later : List (Attempt c)} (hlater : ∀ a ∈ later, AttemptInv n a) :
    ∃ st', later.foldlM (writeAttempt limitRows block) st = .ok st' ∧ WriteInv block (env ++ later) st' :=
  exists_foldlM_eq_ok (P := WriteInv block) h fun a ha _ _ h => h.attempt (hlater a ha) hsorted hspace limitRows

end

end Attempt

theorem writeInv_init (block : List (Row (RowKey c) D)) : WriteInv block [] WriteState.init := by
  refine ⟨⟨Nat.zero_le _, rfl, ?_, ?_, ?_, ?_, ?_, .inr rfl⟩, ?_⟩ <;> simp [WriteState.init]

end TiFlash.DM
