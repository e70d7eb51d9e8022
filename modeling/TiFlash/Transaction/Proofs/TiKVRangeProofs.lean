import TiFlash.Transaction.TiKVRange
import TiFlash.Transaction.Proofs.TiKVRecordFormatProofs

/-!
# Proofs: handle ranges of raw key ranges

The handles between two raw keys are those of the range of `Handle`s. The `RowKeyRange` drops what stands
behind the handle, so it differs at the handle of such a key, and it is not defined for an empty end.
-/

namespace TiFlash.Transaction.TiKVRange

open TiFlash.DM TiFlash.Lib RecordKVFormat List RowKeyValue

variable {tableId : RecordKVFormat.TableID}

/-! ## Raw keys -/

variable {v w : HandleID}

theorem encodeInt64_inj : encodeInt64 v = encodeInt64 w ↔ v = w := encodeInt64_injective.eq_iff

theorem length_genRawKey (tableId : RecordKVFormat.TableID) (h : HandleID) :
    (genRawKey tableId h).length = rawKeySize := rfl

variable {x y : Bytes}

theorem genRawKey_append_lt_iff :
    genRawKey tableId v ++ x < genRawKey tableId w ++ y ↔ v.val < w.val ∨ v = w ∧ x < y := by
  have hfront : (genRawKey tableId v).length = (genRawKey tableId w).length := rfl
  have hhandles : genRawKey tableId v < genRawKey tableId w ↔ v.val < w.val := by
    rw [genRawKey, genRawKey, append_lt_append_iff rfl, encodeInt64_lt_iff]
    simp
  rw [append_lt_append_iff hfront, hhandles, genRawKey, genRawKey, append_cancel_left_eq, encodeInt64_inj]

theorem genRawKey_lt_append_iff {y : Bytes} :
    genRawKey tableId v < genRawKey tableId w ++ y ↔ v.val < w.val ∨ v = w ∧ y ≠ [] := by
  have h : genRawKey tableId v ++ [] < genRawKey tableId w ++ y ↔ v.val < w.val ∨ v = w ∧ [] < y :=
    genRawKey_append_lt_iff
  have hnil : [] < y ↔ y ≠ [] := by cases y <;> simp
  rw [append_nil, hnil] at h
  exact h

variable {x : Bytes}

theorem append_le_genRawKey_iff :
    genRawKey tableId v ++ x ≤ genRawKey tableId w ↔ v.val < w.val ∨ v = w ∧ x = [] := by
  rw [← not_lt, genRawKey_lt_append_iff, not_or, not_and, not_not, not_lt, Subtype.ext_iff, Subtype.ext_iff]
  constructor
  · rintro ⟨hle, heq⟩
    rcases hle.lt_or_eq with hlt | hvw
    · exact .inl hlt
    · exact .inr ⟨hvw, heq hvw.symm⟩
  · rintro (hlt | ⟨hvw, hx⟩)
    · exact ⟨hlt.le, fun h => absurd h hlt.ne'⟩
    · exact ⟨hvw.le, fun _ => hx⟩

/-! ## Ranges of `Handle`s -/

theorem handleOfBytes_encodeInt64_append (v : HandleID) (x : Bytes) :
    handleOfBytes (encodeInt64 v ++ x) = v := by
  refine Subtype.ext ?_
  have hlen : 8 - (encodeInt64 v ++ x).length = 0 := by
    rw [length_append, length_encodeInt64]
    omega
  simp only [handleOfBytes]
  rw [hlen, take_left' (length_encodeInt64 v), replicate_zero, append_nil]
  exact foldl_encodeInt64 v

theorem isBehind_getRangeHandle (isStart : Bool) {v h : HandleID} :
    (getRangeHandle isStart (genRawKey tableId v ++ x) tableId).isBehind h = true ↔
      genRawKey tableId h < genRawKey tableId v ++ x := by
  have hmin := v.2.1
  have hempty : (genRawKey tableId v ++ x).isEmpty = false := rfl
  rw [genRawKey_lt_append_iff, getRangeHandle, hempty, if_neg (by decide)]
  by_cases hlow : genRawKey tableId v ++ x ≤ genRawKey tableId intHandleMin
  · rcases append_le_genRawKey_iff.1 hlow with hlt | ⟨rfl, rfl⟩
    · exact absurd hlt (not_lt.2 hmin)
    · simp [Handle.isBehind]
  rw [if_neg hlow]
  by_cases hhigh : genRawKey tableId intHandleMax < genRawKey tableId v ++ x
  · rw [if_pos hhigh]
    rcases genRawKey_lt_append_iff.1 hhigh with hlt | ⟨rfl, hx⟩
    · exact absurd hlt (not_lt.2 (le_intHandleMax v))
    · simp only [Handle.isBehind, true_iff]
      rcases (le_intHandleMax h).lt_or_eq with hlt | heq
      · exact .inl hlt
      · exact .inr ⟨heq, hx⟩
  rw [if_neg hhigh]
  have hdrop : (genRawKey tableId v ++ x).drop rawKeyNoHandleSize = encodeInt64 v ++ x := by
    rw [genRawKey, append_assoc]
    exact drop_left' rfl
  simp only [hdrop, handleOfBytes_encodeInt64_append, length_append, length_genRawKey]
  rcases eq_nil_or_concat x with rfl | ⟨x', b, rfl⟩
  · simp [Handle.isBehind]
  · have hnot : ¬ rawKeySize + (x' ++ [b]).length ≤ rawKeySize := by
      rw [length_append, length_singleton]
      omega
    -- `res + 1` does not overflow: the key would be behind that of the largest handle
    have hfit : v.val + 1 < 2 ^ 63 := by
      by_contra hover
      refine hhigh (genRawKey_lt_append_iff.2 (.inr ⟨Subtype.ext ?_, by simp⟩))
      simp only [intHandleMax]
      omega
    rw [concat_eq_append, if_neg hnot, HandleID.succ, dif_pos hfit]
    simp only [Handle.isBehind, decide_eq_true_eq, Subtype.ext_iff, ne_eq, append_eq_nil_iff,
      cons_ne_self, and_false, not_false_eq_true, and_true]
    omega

/-- An end of a range of raw keys of the table: empty, or a record key with any bytes behind it. -/
def IsRawBound (tableId : RecordKVFormat.TableID) (key : Bytes) : Prop :=
  key = [] ∨ ∃ v x, key = genRawKey tableId v ++ x

/-- Whether the raw key of a handle is between two raw keys. -/
def InRawRange (tableId : RecordKVFormat.TableID) (start stop : Bytes) (h : HandleID) : Prop :=
  start ≤ genRawKey tableId h ∧ (stop = [] ∨ genRawKey tableId h < stop)

theorem inHandleRange_iff {start stop : Bytes} (hstart : IsRawBound tableId start)
    (hstop : IsRawBound tableId stop) (h : HandleID) :
    inHandleRange (getHandleRangeByTable start stop tableId) h = true ↔ InRawRange tableId start stop h := by
  have hfirst : (getRangeHandle true start tableId).isBehind h = false ↔ start ≤ genRawKey tableId h := by
    rcases hstart with rfl | ⟨v, x, rfl⟩
    · have hmin : ¬ h.val < intHandleMin.val := not_lt.2 h.2.1
      have hnil : [] ≤ genRawKey tableId h := not_lt.1 (not_lt_nil _)
      simp [getRangeHandle, Handle.isBehind, hmin, hnil]
    · rw [← not_lt, ← isBehind_getRangeHandle true, Bool.not_eq_true]
  have hsecond : (getRangeHandle false stop tableId).isBehind h = true ↔
      stop = [] ∨ genRawKey tableId h < stop := by
    rcases hstop with rfl | ⟨v, x, rfl⟩
    · simp [getRangeHandle, Handle.isBehind]
    · rw [isBehind_getRangeHandle false, or_iff_right]
      exact append_ne_nil_of_left_ne_nil (cons_ne_nil _ _) x
  simp only [inHandleRange, getHandleRangeByTable, Bool.and_eq_true, Bool.not_eq_true']
  rw [hfirst, hsecond]
  rfl

/-! ## Row key ranges -/

/-- The end that a raw key becomes: what stands behind the handle is lost, unless it makes the key the
"+infinity" key. -/
theorem ofString_pos (v : HandleID) (x : Bytes) :
    ∃ value, ofString false (encodeInt64 v ++ x) = some value ∧
      value.pos = if v = intHandleMax ∧ x = [0] then intHandleMaxKeyValue else encodeInt64 v := by
  have hdecode : decodeInt64 (encodeInt64 v ++ x) = some v.val := by
    unfold decodeInt64
    rw [if_neg (by rw [length_append, length_encodeInt64]; omega),
      take_left' (length_encodeInt64 v), foldl_encodeInt64]
  have hvalue : ofString false (encodeInt64 v ++ x) = some (.int (encodeInt64 v ++ x) v hdecode) := by
    simp only [ofString]
    split
    · rename_i hnone
      cases hnone
    · rename_i w hsome
      have hw : v.val = w := Option.some.inj (hdecode.symm.trans hsome)
      subst hw
      rfl
  have hinf : encodeInt64 v ++ x = intHandleMaxKeyValue ↔ v = intHandleMax ∧ x = [0] := by
    rw [intHandleMaxKeyValue, ← encodeInt64_inj]
    exact ⟨fun h => append_inj h rfl, fun h => by rw [h.1, h.2]⟩
  refine ⟨_, hvalue, ?_⟩
  simp only [pos, toRowKeyValueRef, RowKeyValueRef.pos, isInfData_some, decide_eq_true_eq, hinf]

theorem valueOfRawKey_genRawKey (v : HandleID) (x : Bytes) :
    RowKeyRange.valueOfRawKey false (genRawKey tableId v ++ x) = ofString false (encodeInt64 v ++ x) := by
  have hlen : ¬ (genRawKey tableId v ++ x).length < rawKeyNoHandleSize := by
    rw [length_append, length_genRawKey, rawKeySize]
    omega
  rw [RowKeyRange.valueOfRawKey, if_neg hlen, genRawKey, append_assoc]
  exact congrArg _ (drop_left' rfl)

variable (tableId) (n : Nat)

theorem startOfRawKey_pos (v : HandleID) (x : Bytes) :
    ∃ value, RowKeyRange.startOfRawKey tableId false n (genRawKey tableId v ++ x) = some value ∧
      value.pos = if v = intHandleMax ∧ x = [0] then intHandleMaxKeyValue else encodeInt64 v := by
  unfold RowKeyRange.startOfRawKey
  by_cases hlow : genRawKey tableId v ++ x ≤ RowKeyRange.tableRangeMin tableId false n
  · rw [if_pos hlow]
    have hle : genRawKey tableId v ++ x ≤ genRawKey tableId intHandleMin := hlow
    rcases append_le_genRawKey_iff.1 hle with hlt | ⟨rfl, rfl⟩
    · exact absurd hlt (not_lt.2 v.2.1)
    · exact ⟨_, rfl, pos_of_encoded _ _⟩
  · rw [if_neg hlow, valueOfRawKey_genRawKey]
    exact ofString_pos v x

theorem endOfRawKey_pos (v : HandleID) (x : Bytes) :
    ∃ value, RowKeyRange.endOfRawKey tableId false n (genRawKey tableId v ++ x) = some value ∧
      value.pos = if v = intHandleMax ∧ x ≠ [] then intHandleMaxKeyValue else encodeInt64 v := by
  unfold RowKeyRange.endOfRawKey
  have hmax : RowKeyRange.tableRangeMax tableId false n = genRawKey tableId intHandleMax ++ [0] := by
    rfl
  have hiff : RowKeyRange.tableRangeMax tableId false n ≤ genRawKey tableId v ++ x ↔ v = intHandleMax ∧ x ≠ [] := by
    have hzero : ¬ x < [0] ↔ x ≠ [] := by
      cases x with
      | nil => simp
      | cons b x => simp [cons_lt_cons_iff]
    have hle : v.val ≤ intHandleMax.val := le_intHandleMax v
    rw [hmax, ← not_lt, genRawKey_append_lt_iff, not_or, not_and, hzero, not_lt, Subtype.ext_iff]
    exact ⟨fun ⟨h, hx⟩ => ⟨le_antisymm hle h, hx (le_antisymm hle h)⟩, fun ⟨h, hx⟩ => ⟨h.ge, fun _ => hx⟩⟩
  by_cases hhigh : RowKeyRange.tableRangeMax tableId false n ≤ genRawKey tableId v ++ x
  · rw [if_pos hhigh, if_pos (hiff.1 hhigh)]
    exact ⟨_, rfl, (RowKeyRange.canonical_newAll false n).stop⟩
  · rw [if_neg hhigh, if_neg (hiff.not.1 hhigh), valueOfRawKey_genRawKey]
    obtain ⟨value, hvalue, hpos⟩ := ofString_pos v x
    refine ⟨value, hvalue, ?_⟩
    rw [hpos, if_neg]
    rintro ⟨hv, rfl⟩
    exact hiff.not.1 hhigh ⟨hv, cons_ne_nil _ _⟩

variable {tableId}

theorem start_pos_le_iff {v h : HandleID} :
    (if v = intHandleMax ∧ x = [0] then intHandleMaxKeyValue else encodeInt64 v) ≤ encodeInt64 h ↔
      v.val ≤ h.val ∧ ¬ (v = intHandleMax ∧ x = [0]) := by
  split_ifs with hinf
  · simp only [hinf, and_self, not_true_eq_false, and_false, iff_false, not_le]
    exact encodeInt64_lt_intHandleMaxKeyValue h
  · rw [← not_lt, encodeInt64_lt_iff, not_lt, and_iff_left hinf]

theorem lt_stop_pos_iff {w h : HandleID} {y : Bytes} :
    encodeInt64 h < (if w = intHandleMax ∧ y ≠ [] then intHandleMaxKeyValue else encodeInt64 w) ↔
      h.val < w.val ∨ (w = intHandleMax ∧ y ≠ []) := by
  split_ifs with hinf
  · rw [or_iff_right_of_imp fun _ => hinf]
    exact iff_of_true (encodeInt64_lt_intHandleMaxKeyValue h) hinf
  · rw [encodeInt64_lt_iff, or_iff_left hinf]

/-- Where dropping what stands behind the handles `v` and `w` of two raw keys changes nothing. -/
theorem handles_agree_iff (hle : v.val < w.val ∨ v = w ∧ x ≤ y) :
    (∀ h : HandleID, (v.val ≤ h.val ∧ ¬ (v = intHandleMax ∧ x = [0])) ∧
          (h.val < w.val ∨ (w = intHandleMax ∧ y ≠ [])) ↔
        (v.val < h.val ∨ v = h ∧ x = []) ∧ (h.val < w.val ∨ h = w ∧ y ≠ [])) ↔
      (x = [] ∨ v = intHandleMax ∧ x = [0]) ∧ (y = [] ∨ w = intHandleMax) ∨
        x ≠ [] ∧ v = w ∧ w ≠ intHandleMax := by
  have hy : v = w → x ≠ [] → y ≠ [] := by
    rintro rfl hx rfl
    rcases hle with hlt | ⟨-, hxy⟩
    · exact lt_irrefl _ hlt
    · exact hx (le_antisymm hxy (not_lt.1 (not_lt_nil _)))
  have hvw : v.val ≤ w.val := hle.elim le_of_lt fun h => (congrArg Subtype.val h.1).le
  constructor
  · intro h
    have hatv := h v
    have hatw := h w
    simp only [le_refl, true_and, lt_irrefl, false_or, hvw] at hatv hatw
    by_cases hx : x = []
    · refine .inl ⟨.inl hx, ?_⟩
      by_contra hcon
      obtain ⟨hy', hw⟩ := not_or.1 hcon
      have hin : v.val < w.val ∨ v = w := hvw.lt_or_eq.imp_right Subtype.ext
      refine hw (hatw.2 ⟨?_, hy'⟩).2.1
      exact hin.imp_right fun h => ⟨h, hx⟩
    · by_cases hmax : w = intHandleMax
      · refine .inl ⟨.inr ?_, .inr hmax⟩
        by_contra hcon
        rcases hvw.lt_or_eq with hlt | heq
        · exact hx (hatv.1 ⟨hcon, .inl hlt⟩).1
        · exact hx (hatv.1 ⟨hcon, .inr ⟨hmax, hy (Subtype.ext heq) hx⟩⟩).1
      · rcases hvw.lt_or_eq with hlt | heq
        · refine absurd (hatv.1 ⟨?_, .inl hlt⟩).1 hx
          rintro ⟨rfl, -⟩
          exact absurd hlt (not_lt.2 (le_intHandleMax w))
        · exact .inr ⟨hx, Subtype.ext heq, hmax⟩
  · have hmaxle : ∀ h : HandleID, h.val ≤ intHandleMax.val := fun h => le_intHandleMax h
    rintro (⟨hstart, hstop⟩ | ⟨hx, rfl, hmax⟩) h
    · refine and_congr ?_ ?_
      · rcases hstart with rfl | ⟨rfl, rfl⟩
        · simp only [ne_cons_self, and_false, not_false_eq_true, and_true, Subtype.ext_iff]
          exact le_iff_lt_or_eq
        · simp only [and_self, not_true_eq_false, and_false, cons_ne_self, or_false, false_iff]
          exact not_lt.2 (hmaxle h)
      · rcases hstop with rfl | rfl
        · simp only [ne_eq, not_true_eq_false, and_false]
        · simp only [true_and, Subtype.ext_iff]
          refine ⟨fun hor => ?_, Or.imp_right And.right⟩
          exact (hmaxle h).lt_or_eq.imp_right fun heq => ⟨heq, hor.resolve_left heq.not_lt⟩
    · have hfirst : ¬ (v = intHandleMax ∧ y ≠ []) := fun hcon => hmax hcon.1
      simp only [hx, and_false, or_false, hfirst]
      constructor
      · rintro ⟨⟨hge, -⟩, hlt⟩
        exact absurd hlt (not_lt.2 hge)
      · rintro ⟨hgt, hlt | ⟨rfl, -⟩⟩
        · exact absurd hlt hgt.not_gt
        · exact absurd hgt (lt_irrefl _)

/-- The row key range of two raw keys is defined and holds the handles between them, which are also those of
the range of `Handle`s. -/
def SameRows (tableId : RecordKVFormat.TableID) (start stop : Bytes) (n : Nat) : Prop :=
  ∃ range, RowKeyRange.fromRegionRange start stop tableId tableId false n = some range ∧
    ∀ h, (range.check (.int h) = true ↔ InRawRange tableId start stop h) ∧ (range.check (.int h) = true ↔
        inHandleRange (getHandleRangeByTable start stop tableId) h = true)

/-- The end is not empty, and nothing stands behind the two handles, up to the key behind the largest; or the
keys have one handle, and neither holds a row. -/
def EndsAtHandles (tableId : RecordKVFormat.TableID) (start stop : Bytes) : Prop := stop ≠ [] ∧
    ((start = [] ∨ start.length = rawKeySize ∨ start = genRawKey tableId intHandleMax ++ [0]) ∧
        (stop.length = rawKeySize ∨ genRawKey tableId intHandleMax < stop) ∨
      rawKeySize < start.length ∧ start.take rawKeySize = stop.take rawKeySize ∧
        stop.take rawKeySize ≠ genRawKey tableId intHandleMax)

/-- The comparison of the two ways, for a start that stands for the handle `v` with `x` behind it. -/
theorem sameRows_iff_of_start {start : Bytes} (hstart : IsRawBound tableId start)
    (hvalue : ∃ value, RowKeyRange.startOfRawKey tableId false n start = some value ∧
      value.pos = if v = intHandleMax ∧ x = [0] then intHandleMaxKeyValue else encodeInt64 v)
    (hin : ∀ h, start ≤ genRawKey tableId h ↔ v.val < h.val ∨ v = h ∧ x = [])
    (hle : v.val < w.val ∨ v = w ∧ x ≤ y) :
    SameRows tableId start (genRawKey tableId w ++ y) n ↔
      (x = [] ∨ v = intHandleMax ∧ x = [0]) ∧ (y = [] ∨ w = intHandleMax) ∨
        x ≠ [] ∧ v = w ∧ w ≠ intHandleMax := by
  obtain ⟨startValue, hstartValue, hstartPos⟩ := hvalue
  obtain ⟨endValue, hendValue, hendPos⟩ := endOfRawKey_pos tableId n w y
  have hrange : RowKeyRange.fromRegionRange start (genRawKey tableId w ++ y) tableId tableId false n
      = some ⟨startValue, endValue, n⟩ := by
    rw [RowKeyRange.fromRegionRange, if_pos rfl, hstartValue, hendValue]
    rfl
  have hcheck : ∀ h : HandleID, (RowKeyRange.mk startValue endValue n).check (.int h) = true ↔
      (v.val ≤ h.val ∧ ¬ (v = intHandleMax ∧ x = [0])) ∧ (h.val < w.val ∨ (w = intHandleMax ∧ y ≠ [])) := by
    intro h
    have hpos : (RowKey.int h).pos = encodeInt64 h := rfl
    rw [RowKeyRange.check_iff, hstartPos, hendPos, hpos, start_pos_le_iff, lt_stop_pos_iff]
  have hstop : IsRawBound tableId (genRawKey tableId w ++ y) := .inr ⟨w, y, rfl⟩
  have hraw : ∀ h, InRawRange tableId start (genRawKey tableId w ++ y) h ↔
      (v.val < h.val ∨ v = h ∧ x = []) ∧ (h.val < w.val ∨ h = w ∧ y ≠ []) := by
    intro h
    have hne : genRawKey tableId w ++ y ≠ [] := append_ne_nil_of_left_ne_nil (cons_ne_nil _ _) y
    rw [InRawRange, hin, or_iff_right hne, genRawKey_lt_append_iff]
  rw [← handles_agree_iff hle]
  constructor
  · rintro ⟨range, hsome, hsame⟩ h
    obtain rfl : range = ⟨startValue, endValue, n⟩ := Option.some.inj (hsome.symm.trans hrange)
    rw [← hcheck, ← hraw]
    exact (hsame h).1
  · intro hagree
    refine ⟨_, hrange, fun h => ?_⟩
    have hfirst := hagree h
    rw [← hcheck, ← hraw] at hfirst
    exact ⟨hfirst, hfirst.trans (inHandleRange_iff hstart hstop h).symm⟩

theorem sameRows_iff {start stop : Bytes} (hstart : IsRawBound tableId start) (hstop : IsRawBound tableId stop)
    (hle : stop = [] ∨ start ≤ stop) : SameRows tableId start stop n ↔ EndsAtHandles tableId start stop := by
  rcases hstop with rfl | ⟨w, y, rfl⟩
  · refine iff_of_false ?_ fun h => h.1 rfl
    rintro ⟨range, hrange, -⟩
    have hhigh : ¬ RowKeyRange.tableRangeMax tableId false n ≤ [] := by
      rw [not_le]
      exact nil_lt_cons _ _
    have hend : RowKeyRange.endOfRawKey tableId false n [] = none := if_neg hhigh
    rw [RowKeyRange.fromRegionRange, if_pos rfl, hend] at hrange
    obtain ⟨startValue, -, hnone⟩ := Option.bind_eq_some_iff.1 hrange
    cases hnone
  · have hne : genRawKey tableId w ++ y ≠ [] := append_ne_nil_of_left_ne_nil (cons_ne_nil _ _) y
    have hsize : ∀ (v : HandleID) (x : Bytes), (genRawKey tableId v ++ x).length = rawKeySize + x.length :=
      fun v x => length_append
    have htake : ∀ (v : HandleID) (x : Bytes), (genRawKey tableId v ++ x).take rawKeySize = genRawKey tableId v :=
      fun v x => take_left' (length_genRawKey tableId v)
    have hkey : ∀ u v : HandleID, genRawKey tableId u = genRawKey tableId v ↔ u = v := by
      intro u v
      rw [genRawKey, genRawKey, append_cancel_left_eq, encodeInt64_inj]
    have hbehind : genRawKey tableId intHandleMax < genRawKey tableId w ++ y ↔ w = intHandleMax ∧ y ≠ [] := by
      have hmax : ¬ intHandleMax.val < w.val := not_lt.2 (le_intHandleMax w)
      rw [genRawKey_lt_append_iff, or_iff_right hmax, eq_comm]
    have hlast : (y = [] ∨ w = intHandleMax ∧ y ≠ []) ↔ (y = [] ∨ w = intHandleMax) := by tauto
    rcases hstart with rfl | ⟨v, x, rfl⟩
    · have hmin : intHandleMin.val < w.val ∨ intHandleMin = w ∧ [] ≤ y :=
        (lt_or_eq_of_le w.2.1).imp_right fun h => ⟨Subtype.ext h, not_lt.1 (not_lt_nil _)⟩
      have hin : ∀ h : HandleID, [] ≤ genRawKey tableId h ↔
          intHandleMin.val < h.val ∨ intHandleMin = h ∧ ([] : Bytes) = [] :=
        fun h => iff_of_true (not_lt.1 (not_lt_nil _))
          ((lt_or_eq_of_le h.2.1).imp_right fun h => ⟨Subtype.ext h, rfl⟩)
      have hvalue : ∃ value, RowKeyRange.startOfRawKey tableId false n [] = some value ∧
          value.pos = if intHandleMin = intHandleMax ∧ ([] : Bytes) = [0] then intHandleMaxKeyValue
            else encodeInt64 intHandleMin :=
        ⟨_, if_pos (not_lt.1 (not_lt_nil _)), pos_of_encoded _ _⟩
      rw [sameRows_iff_of_start n (.inl rfl) hvalue hin hmin, EndsAtHandles, hsize, hbehind]
      simp [hlast, hne, rawKeySize]
    · have hle' : v.val < w.val ∨ v = w ∧ x ≤ y := by
        have h := not_lt.2 (hle.resolve_left hne)
        rw [genRawKey_append_lt_iff, not_or, not_and, not_lt, not_lt] at h
        exact h.1.lt_or_eq.imp_right fun heq => ⟨Subtype.ext heq, h.2 (Subtype.ext heq.symm)⟩
      have hin : ∀ h : HandleID, genRawKey tableId v ++ x ≤ genRawKey tableId h ↔ v.val < h.val ∨ v = h ∧ x = [] :=
        fun h => append_le_genRawKey_iff
      have hnil : genRawKey tableId v ++ x ≠ [] := append_ne_nil_of_left_ne_nil (cons_ne_nil _ _) x
      have hinf : genRawKey tableId v ++ x = genRawKey tableId intHandleMax ++ [0] ↔ v = intHandleMax ∧ x = [0] := by
        rw [← hkey]
        exact ⟨fun h => append_inj h rfl, fun h => by rw [h.1, h.2]⟩
      rw [sameRows_iff_of_start n (.inr ⟨v, x, rfl⟩) (startOfRawKey_pos tableId n v x) hin hle', EndsAtHandles,
        hsize, hsize, hbehind, hinf, htake, htake, hkey]
      simp [hlast, hne, hnil, length_pos_iff, hkey]

/-! ## Ends behind the "+infinity" key -/

section PastInfinity

variable {u w : RowKeyValue false} {h : HandleID}

theorem pos_le_encodeInt64_max_iff : u.pos ≤ encodeInt64 intHandleMax ↔ u.value ≠ intHandleMaxKeyValue := by
  cases u with
  | int d v hd =>
    have hvalue : (int d v hd).value = d := rfl
    rw [hvalue, pos_int]
    split_ifs with hinf
    · exact iff_of_false (not_le.2 (encodeInt64_lt_intHandleMaxKeyValue _)) (not_not.2 hinf)
    · rw [(take_of_decodeInt64 hd).2, ← not_lt, encodeInt64_lt_iff]
      exact iff_of_true (not_lt.2 (le_intHandleMax v)) hinf

theorem pos_le_of_value_le (hval : u.value ≤ w.value) (hh : h.val < intHandleMax.val)
    (hpos : w.pos ≤ encodeInt64 h) : u.pos ≤ encodeInt64 h := by
  have hmax : encodeInt64 h < encodeInt64 intHandleMax := encodeInt64_lt_iff.2 hh
  by_cases hpast : w.value ≤ intHandleMaxKeyValue
  · exact (pos_le_pos (n := 1) hval hpast).trans hpos
  · -- an end behind "+infinity" has the position of the largest handle
    exfalso
    cases w with
    | int d v hd =>
      have hd' : intHandleMaxKeyValue < d := not_le.1 hpast
      rw [pos_int, if_neg hd'.ne'] at hpos
      have htake : intHandleMaxKeyValue.take 8 ≤ d.take 8 := by
        rcases (lt_iff_take_drop 8).1 hd' with hlt | ⟨heq, -⟩
        · exact hlt.le
        · exact heq.le
      exact absurd (hmax.trans_le (htake.trans hpos)) (lt_irrefl _)

theorem check_int_iff (range : RowKeyRange false) (h : HandleID) :
    range.check (.int h) = true ↔ range.start.pos ≤ encodeInt64 h ∧ encodeInt64 h < range.stop.pos :=
  range.check_iff (.int h)

theorem check_max_iff (range : RowKeyRange false) : range.check (.int intHandleMax) = true ↔
    range.start.value ≠ intHandleMaxKeyValue ∧ range.stop.value = intHandleMaxKeyValue := by
  rw [check_int_iff, pos_le_encodeInt64_max_iff, ← not_le, pos_le_encodeInt64_max_iff, not_not]

end PastInfinity

variable {a b : RowKeyRange false}

theorem value_start_shrink (a b : RowKeyRange false) :
    (a.shrink b).start.value = max a.start.value b.start.value := by
  show (if b.start.value ≤ a.start.value then a.start else b.start).value = _
  split_ifs with hcmp
  · exact (max_eq_left hcmp).symm
  · exact (max_eq_right (not_le.1 hcmp).le).symm

theorem value_stop_shrink (a b : RowKeyRange false) :
    (a.shrink b).stop.value = min a.stop.value b.stop.value := by
  show (if a.stop.value < b.stop.value then a.stop else b.stop).value = _
  split_ifs with hcmp
  · exact (min_eq_left hcmp.le).symm
  · exact (min_eq_right (not_lt.1 hcmp)).symm

theorem check_shrink_of_lt {h : HandleID} (hh : h.val < intHandleMax.val) :
    (a.shrink b).check (.int h) = true ↔ a.check (.int h) = true ∧ b.check (.int h) = true := by
  have hstart := value_start_shrink a b
  have hstop := value_stop_shrink a b
  simp only [check_int_iff]
  constructor
  · rintro ⟨hfrom, hto⟩
    have hfront : ∀ u : RowKeyValue false, u.value ≤ (a.shrink b).start.value → u.pos ≤ encodeInt64 h :=
      fun u hu => pos_le_of_value_le hu hh hfrom
    have hback : ∀ u : RowKeyValue false, (a.shrink b).stop.value ≤ u.value → encodeInt64 h < u.pos :=
      fun u hu => not_le.1 fun hle => absurd hto (not_lt.2 (pos_le_of_value_le hu hh hle))
    exact ⟨⟨hfront _ (hstart ▸ le_max_left _ _), hback _ (hstop ▸ min_le_left _ _)⟩,
      hfront _ (hstart ▸ le_max_right _ _), hback _ (hstop ▸ min_le_right _ _)⟩
  · rintro ⟨⟨hfa, hta⟩, hfb, htb⟩
    refine ⟨?_, ?_⟩
    · rw [RowKeyRange.shrink]
      split_ifs <;> assumption
    · rw [RowKeyRange.shrink]
      split_ifs <;> assumption

/-- The cut ends with "+infinity" and starts with another key, while a start is "+infinity" or an end is not,
which excludes the largest handle. -/
def ShrinkGap (a b : RowKeyRange false) : Prop := min a.stop.value b.stop.value = intHandleMaxKeyValue ∧
    max a.start.value b.start.value ≠ intHandleMaxKeyValue ∧
    ((a.start.value = intHandleMaxKeyValue ∨ b.start.value = intHandleMaxKeyValue) ∨
      (a.stop.value ≠ intHandleMaxKeyValue ∨ b.stop.value ≠ intHandleMaxKeyValue))

theorem check_shrink_iff :
    (∀ h, (a.shrink b).check (.int h) = true ↔ a.check (.int h) = true ∧ b.check (.int h) = true) ↔
      ¬ ShrinkGap a b := by
  have hmax : ((a.shrink b).check (.int intHandleMax) = true ↔
      a.check (.int intHandleMax) = true ∧ b.check (.int intHandleMax) = true) ↔ ¬ ShrinkGap a b := by
    have hboth : a.check (.int intHandleMax) = true ∧ b.check (.int intHandleMax) = true →
        (a.shrink b).check (.int intHandleMax) = true := by
      rintro ⟨ha, hb⟩
      rw [check_max_iff] at ha hb
      rw [check_max_iff, value_start_shrink, value_stop_shrink, ha.2, hb.2, min_self]
      refine ⟨?_, rfl⟩
      rcases max_choice a.start.value b.start.value with h | h
      · rw [h]
        exact ha.1
      · rw [h]
        exact hb.1
    rw [iff_iff_implies_and_implies (a := (a.shrink b).check _ = true), and_iff_left hboth, check_max_iff,
      check_max_iff, check_max_iff, value_start_shrink, value_stop_shrink, ShrinkGap]
    tauto
  rw [← hmax]
  refine ⟨fun hall => hall intHandleMax, fun hlast h => ?_⟩
  rcases (le_intHandleMax h).lt_or_eq with hlt | rfl
  · exact check_shrink_of_lt hlt
  · exact hlast

theorem none_iff (a : RowKeyRange false) : (a.none = true → ∀ h, a.check (.int h) = false) ↔
    ¬ (a.stop.value = intHandleMaxKeyValue ∧ intHandleMaxKeyValue < a.start.value) := by
  have hnone : a.none = true ↔ a.stop.value ≤ a.start.value := decide_eq_true_iff
  rw [hnone]
  constructor
  · rintro hempty ⟨hstop, hstart⟩
    have hout := hempty (hstop.le.trans hstart.le) intHandleMax
    have hin := (check_max_iff a).2 ⟨hstart.ne', hstop⟩
    rw [hin] at hout
    cases hout
  · intro hgap hle h
    rw [← Bool.not_eq_true]
    intro hcheck
    rcases (le_intHandleMax h).lt_or_eq with hlt | rfl
    · obtain ⟨hfrom, hto⟩ := (check_int_iff a h).1 hcheck
      exact absurd hto (not_lt.2 (pos_le_of_value_le hle hlt hfrom))
    · obtain ⟨hstart, hstop⟩ := (check_max_iff a).1 hcheck
      exact hgap ⟨hstop, lt_of_le_of_ne (hstop ▸ hle) hstart.symm⟩

/-! ## The two meanings of a raw key range -/

/-- A handle in front of a longer start key is in the row key range, one in front of a longer end key is not,
and an unbounded end has none. A range that starts behind "+infinity" holds the largest handle although it is
none, and cutting with it adds this handle. -/
theorem row_key_range_differs :
    let t : RecordKVFormat.TableID := ⟨1, by decide⟩
    let five : HandleID := ⟨5, by decide⟩
    let nine : HandleID := ⟨9, by decide⟩
    let range := fun start stop => RowKeyRange.fromRegionRange start stop t t false 1
    let infinity := genRawKey t intHandleMax ++ [0]
    let past := genRawKey t intHandleMax ++ [5]
    ((range (genRawKey t five ++ [1]) (genRawKey t nine)).map (·.check (.int five)) = some true ∧
        genRawKey t five < genRawKey t five ++ [1]) ∧
      ((range (genRawKey t five) (genRawKey t nine ++ [1])).map (·.check (.int nine)) = some false ∧
        genRawKey t nine < genRawKey t nine ++ [1]) ∧
      (range (genRawKey t five) []).isNone ∧
      (range past past).map (fun r => (r.none, r.check (.int intHandleMax))) = some (true, true) ∧
      (do
        let a ← range infinity infinity
        let b ← range past past
        return (a.check (.int intHandleMax), (a.shrink b).check (.int intHandleMax))) = some (false, true) := by
  decide

/-- The row key range of two raw keys holds the rows between them exactly if the keys end at handles. Cutting
ranges, and ranges that are none, are right unless an end lies behind "+infinity". -/
theorem raw_and_row_key_range_agree_iff (tableId : RecordKVFormat.TableID) (start stop : Bytes) (n : Nat)
    (a b : RowKeyRange false) :
    (IsRawBound tableId start → IsRawBound tableId stop → (stop = [] ∨ start ≤ stop) →
      (SameRows tableId start stop n ↔ EndsAtHandles tableId start stop)) ∧
    ((∀ h, (a.shrink b).check (.int h) = true ↔ a.check (.int h) = true ∧ b.check (.int h) = true) ↔
      ¬ ShrinkGap a b) ∧
    ((a.none = true → ∀ h, a.check (.int h) = false) ↔
      ¬ (a.stop.value = intHandleMaxKeyValue ∧ intHandleMaxKeyValue < a.start.value)) :=
  ⟨fun hstart hstop hle => sameRows_iff n hstart hstop hle, check_shrink_iff, none_iff a⟩

theorem rows_from_five_to_nine :
    let t : RecordKVFormat.TableID := ⟨1, by decide⟩
    SameRows t (genRawKey t ⟨5, by decide⟩) (genRawKey t ⟨9, by decide⟩) 1 := by
  intro t
  have hagree := raw_and_row_key_range_agree_iff t (genRawKey t ⟨5, by decide⟩) (genRawKey t ⟨9, by decide⟩) 1
    (RowKeyRange.newAll false 1) (RowKeyRange.newAll false 1)
  refine (hagree.1 (.inr ⟨_, [], (append_nil _).symm⟩) (.inr ⟨_, [], (append_nil _).symm⟩)
    (.inr (by decide))).2 ?_
  exact ⟨by decide, .inl ⟨.inr (.inl rfl), .inl rfl⟩⟩

end TiFlash.Transaction.TiKVRange
