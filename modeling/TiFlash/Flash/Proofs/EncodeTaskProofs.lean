import TiFlash.Flash.StreamingDAGResponseWriter
import TiFlash.Lib.ExceptBind

/-!
# Proofs: the tasks of the streaming response writer

What a receiver decodes from a task. A pass-through task writes each row once, unless its loop does not end.
A hash task writes the rows of a block with every response from that block on.
-/

namespace TiFlash.Flash

open TiFlash.Lib List Except

variable {Row : Type} {config : WriterConfig Row}

/-! ## Streams -/

def StreamHolds (codecs : ChunkCodecs Row) : EncodeType → ChunkCodecStream Row → List Row → Prop
  | .default, .default ss, rows => ss = rows.flatMap codecs.encodeRow
  | .chunk, .arrow encoded, rows => encoded = rows
  | .chBlock, .chBlock output, rows => output = [] ∧ rows = [] ∨ output = codecs.encodeBlock rows
  | _, _, _ => False

variable {codecs : ChunkCodecs Row} {encodeType : EncodeType} {stream : ChunkCodecStream Row} {rows : List Row}

theorem StreamHolds.new : StreamHolds codecs encodeType (newCodecStream encodeType) [] := by
  cases encodeType with
  | default => exact (flatMap_nil).symm
  | chunk => exact rfl
  | chBlock => exact .inl ⟨rfl, rfl⟩

section

variable (h : StreamHolds codecs encodeType stream rows)
include h

theorem StreamHolds.clear :
    stream.clear = newCodecStream encodeType := by
  cases encodeType <;> cases stream <;> first | rfl | exact h.elim

theorem StreamHolds.decode :
    decodeChunk codecs encodeType (stream.getString codecs) = rows := by
  cases encodeType <;> cases stream <;> try exact h.elim
  · exact (congrArg codecs.decodeDefault h).trans (codecs.decodeDefault_encode rows)
  · obtain rfl : _ = rows := h
    exact codecs.decodeArrow_encode _
  · rcases h with ⟨rfl, rfl⟩ | rfl
    · exact codecs.decodeBlock_nil
    · have hfirst := codecs.decodeBlock_encode rows []
      rw [append_nil] at hfirst
      exact hfirst

/-- Pieces of blocks are appended, except by the codec of whole blocks. -/
theorem StreamHolds.encode (htype : encodeType ≠ .chBlock) (block : Block Row) (start stop : Nat) :
    ∃ stream', stream.encode codecs block start stop = .ok stream' ∧
      StreamHolds codecs encodeType stream' (rows ++ (block.take stop).drop start) := by
  cases encodeType with
  | default =>
    cases stream <;> try exact h.elim
    obtain rfl : _ = rows.flatMap codecs.encodeRow := h
    exact ⟨_, rfl, flatMap_append.symm⟩
  | chunk =>
    cases stream <;> try exact h.elim
    obtain rfl : _ = rows := h
    exact ⟨_, rfl, rfl⟩
  | chBlock => exact absurd rfl htype

end

theorem encode_new (codecs : ChunkCodecs Row) (encodeType : EncodeType) (block : Block Row) :
    ∃ stream, (newCodecStream encodeType).encode codecs block 0 block.length = .ok stream ∧
      StreamHolds codecs encodeType stream block := by
  by_cases htype : encodeType = .chBlock
  · subst htype
    refine ⟨.chBlock (codecs.encodeBlock block), ?_, .inr rfl⟩
    simp [newCodecStream, ChunkCodecStream.encode]
  · have hnew : StreamHolds codecs encodeType (newCodecStream encodeType) [] := StreamHolds.new
    obtain ⟨stream, hencode, hholds⟩ := hnew.encode htype block 0 block.length
    rw [nil_append, drop_zero, take_length] at hholds
    exact ⟨stream, hencode, hholds⟩

/-! ## The task without partitions -/

/-- The rows encoded so far are those of the chunks and those in the stream, which are counted. -/
def EncodeState.Holds (config : WriterConfig Row) (st : EncodeState Row) (done : List Row) : Prop :=
  ∃ rows, StreamHolds config.codecs config.encodeType st.stream rows ∧ st.currentRecordsNum = rows.length ∧
    st.chunks.flatMap (decodeChunk config.codecs config.encodeType) ++ rows = done

variable {st : EncodeState Row} {done : List Row}

theorem EncodeState.Holds.addChunk (h : st.Holds config done) :
    (st.addChunk config).Holds config done ∧
      (st.addChunk config).chunks.flatMap (decodeChunk config.codecs config.encodeType) = done := by
  obtain ⟨rows, hstream, -, hdone⟩ := h
  have hchunks : (st.addChunk config).chunks.flatMap (decodeChunk config.codecs config.encodeType) = done := by
    simp only [EncodeState.addChunk, flatMap_append, flatMap_singleton]
    rw [hstream.decode, hdone]
  refine ⟨⟨[], ?_, rfl, ?_⟩, hchunks⟩
  · simp only [EncodeState.addChunk, hstream.clear]
    exact StreamHolds.new
  · rw [append_nil, hchunks]

section

variable (htype : config.encodeType ≠ .chBlock)
include htype

theorem encodeRows_spec (hchunk : config.recordsPerChunk ≠ 0) (block : Block Row) {fuel rowIndex : Nat}
    (hfuel : block.length ≤ rowIndex + fuel) (hst : st.Holds config (done ++ block.take rowIndex)) :
    ∃ st', encodeRows config block fuel rowIndex st = .ok st' ∧ st'.Holds config (done ++ block) := by
  induction fuel generalizing rowIndex st with
  | zero =>
    have hend : block.length ≤ rowIndex := hfuel
    refine ⟨st, if_pos hend, ?_⟩
    rwa [take_of_length_le hend] at hst
  | succ fuel ih =>
    rw [encodeRows]
    by_cases hend : block.length ≤ rowIndex
    · rw [if_pos hend]
      rw [take_of_length_le hend] at hst
      exact ⟨st, rfl, hst⟩
    rw [if_neg hend]
    -- the state behind the test for a full chunk
    obtain ⟨st₁, hst₁, hroom, hholds⟩ : ∃ st₁, (if config.recordsPerChunk ≤ st.currentRecordsNum
        then st.addChunk config else st) = st₁ ∧
        (config.recordsPerChunk - st₁.currentRecordsNum < 0 ∨ 0 < config.recordsPerChunk - st₁.currentRecordsNum) ∧
        st₁.Holds config (done ++ block.take rowIndex) := by
      by_cases hfull : config.recordsPerChunk ≤ st.currentRecordsNum
      · refine ⟨st.addChunk config, if_pos hfull, ?_, hst.addChunk.1⟩
        simp only [EncodeState.addChunk]
        omega
      · exact ⟨st, if_neg hfull, .inr (by omega), hst⟩
    simp only [hst₁]
    set upper := if config.recordsPerChunk - st₁.currentRecordsNum < 0 then block.length
      else min (rowIndex + (config.recordsPerChunk - st₁.currentRecordsNum).toNat) block.length with hupper
    have hprogress : rowIndex < upper ∧ upper ≤ block.length := by
      rw [hupper]
      split_ifs <;> omega
    obtain ⟨rows, hstream, hcount, hdone⟩ := hholds
    obtain ⟨stream, hencode, hholds⟩ := hstream.encode htype block rowIndex upper
    rw [hencode]
    refine ih (by omega) ⟨rows ++ (block.take upper).drop rowIndex, hholds, ?_, ?_⟩
    · simp only [hcount, length_append, length_drop, length_take]
      omega
    · rw [← append_assoc, hdone, append_assoc]
      congr 1
      have htake : block.take rowIndex = (block.take upper).take rowIndex := by
        rw [take_take, min_eq_left hprogress.1.le]
      rw [htake, take_append_drop]

theorem encodeRows_zero (hchunk : config.recordsPerChunk = 0) {block : Block Row} (hblock : block ≠ [])
    (fuel : Nat) (hst : st.Holds config done) :
    encodeRows config block fuel 0 st = .error .endless := by
  have hend : ¬ block.length ≤ 0 := by
    rw [Nat.le_zero, length_eq_zero_iff]
    exact hblock
  induction fuel generalizing st with
  | zero => exact if_neg hend
  | succ fuel ih =>
    obtain ⟨hholds, -⟩ := hst.addChunk
    have hfull : config.recordsPerChunk ≤ st.currentRecordsNum := by
      obtain ⟨rows, -, hcount, -⟩ := hst
      omega
    have hzero : config.recordsPerChunk - (st.addChunk config).currentRecordsNum = 0 := by
      simp only [EncodeState.addChunk]
      omega
    obtain ⟨rows, hstream, hcount, hdone⟩ := hholds
    obtain ⟨stream, hencode, hstream'⟩ := hstream.encode htype block 0 0
    rw [encodeRows, if_neg hend]
    simp only [if_pos hfull, hzero, lt_irrefl, if_false, Int.toNat_zero, Nat.add_zero, Nat.zero_min, hencode]
    refine ih ⟨rows, ?_, ?_, hdone⟩
    · rw [take_zero, drop_nil, append_nil] at hstream'
      exact hstream'
    · simp only [hcount]
      omega

theorem foldlM_encodeRows_spec (hchunk : config.recordsPerChunk ≠ 0) (blocks : List (Block Row))
    (hst : st.Holds config done) :
    ∃ st', blocks.foldlM (fun st block => encodeRows config block block.length 0 st) st = .ok st' ∧
      st'.Holds config (done ++ blocks.flatten) := by
  refine exists_foldlM_eq_ok (P := fun seen st => EncodeState.Holds config st (done ++ seen.flatten)) (p := []) (by simpa) ?_
  intro block _ seen st hst
  have hstart : st.Holds config (done ++ seen.flatten ++ block.take 0) := by rwa [take_zero, append_nil]
  rw [flatten_append, flatten_singleton, ← append_assoc]
  exact encodeRows_spec htype hchunk block (Nat.le_add_left _ _) hstart

end

theorem foldlM_encode_spec (htype : encodeType ≠ .chBlock) (blocks : List (Block Row))
    (hstream : StreamHolds codecs encodeType stream rows) :
    ∃ stream', blocks.foldlM (fun stream block => stream.encode codecs block 0 block.length) stream
        = .ok stream' ∧ StreamHolds codecs encodeType stream' (rows ++ blocks.flatten) := by
  refine exists_foldlM_eq_ok (P := fun seen stream => StreamHolds codecs encodeType stream (rows ++ seen.flatten))
    (p := []) (by simpa) ?_
  intro block _ seen stream hstream
  have hencode := hstream.encode htype block 0 block.length
  rwa [drop_zero, take_length, append_assoc, ← flatten_concat] at hencode

theorem recordsPerChunk_chBlock (htype : config.encodeType = .chBlock) : config.recordsPerChunk = -1 :=
  if_pos htype

theorem encodeState_new : (EncodeState.mk (newCodecStream config.encodeType) 0 []).Holds config [] :=
  ⟨[], StreamHolds.new, rfl, rfl⟩

variable {blocks : List (Block Row)}

/-- The chunks hold the rows of the blocks. Of the codec of whole blocks a receiver decodes the first
block only, so there must be one. -/
theorem encodeChunks_spec (hchunk : config.recordsPerChunk ≠ 0)
    (hone : config.encodeType = .chBlock → ∃ block, blocks = [block]) :
    ∃ chunks, encodeChunks config blocks = .ok chunks ∧
      chunks.flatMap (decodeChunk config.codecs config.encodeType) = blocks.flatten := by
  unfold encodeChunks
  by_cases hminus : config.recordsPerChunk = -1
  · obtain ⟨stream, hencode, hstream⟩ : ∃ stream, blocks.foldlM (fun stream block =>
        stream.encode config.codecs block 0 block.length) (newCodecStream config.encodeType) = .ok stream ∧
        StreamHolds config.codecs config.encodeType stream blocks.flatten := by
      by_cases htype : config.encodeType = .chBlock
      · obtain ⟨block, rfl⟩ := hone htype
        obtain ⟨stream, hencode, hstream⟩ := encode_new config.codecs config.encodeType block
        refine ⟨stream, ?_, by rwa [flatten_singleton]⟩
        rw [foldlM_cons, hencode]
        rfl
      · exact foldlM_encode_spec htype blocks StreamHolds.new
    refine ⟨[stream.getString config.codecs], ?_, ?_⟩
    · rw [if_pos hminus, hencode]
      rfl
    · rw [flatMap_singleton, hstream.decode]
  · have htype : config.encodeType ≠ .chBlock := fun htype => hminus (recordsPerChunk_chBlock htype)
    obtain ⟨st, hfold, hst⟩ := foldlM_encodeRows_spec htype hchunk blocks encodeState_new
    rw [if_neg hminus, hfold]
    by_cases hlast : st.currentRecordsNum > 0
    · exact ⟨_, congrArg Except.ok (if_pos hlast), hst.addChunk.2⟩
    · obtain ⟨rows, -, hcount, hdone⟩ := hst
      have hempty : rows = [] := eq_nil_of_length_eq_zero (by omega)
      rw [hempty, append_nil] at hdone
      exact ⟨_, congrArg Except.ok (if_neg hlast), hdone⟩

theorem encodeChunks_zero (hchunk : config.recordsPerChunk = 0) (hrows : blocks.flatten ≠ []) :
    encodeChunks config blocks = .error .endless := by
  have htype : config.encodeType ≠ .chBlock := by
    intro htype
    rw [recordsPerChunk_chBlock htype] at hchunk
    cases hchunk
  have hloop : ∀ st : EncodeState Row, st.Holds config [] →
      blocks.foldlM (fun st block => encodeRows config block block.length 0 st) st = .error .endless := by
    induction blocks with
    | nil => exact absurd rfl hrows
    | cons block blocks ih =>
      intro st hst
      by_cases hblock : block = []
      · subst hblock
        exact ih (by simpa using hrows) st hst
      · rw [foldlM_cons, encodeRows_zero htype hchunk hblock _ hst]
        rfl
  unfold encodeChunks
  rw [if_neg (by omega), hloop _ encodeState_new]
  rfl

/-! ## The task with partitions -/

theorem destChunk_spec (config : WriterConfig Row) (block : Block Row) (partId : Nat) :
    ∃ chunk, destChunk config block partId = .ok chunk ∧
      decodeChunk config.codecs config.encodeType chunk = destBlock config block partId := by
  obtain ⟨stream, hencode, hstream⟩ :=
    encode_new config.codecs config.encodeType (destBlock config block partId)
  refine ⟨stream.getString config.codecs, ?_, hstream.decode⟩
  rw [destChunk, hencode]
  rfl

def delivered (config : WriterConfig Row) (partition : Option Nat) (steps : List TaskStep) : List Row :=
  steps.flatMap fun
    | .write p response => if p = partition then response.decode config.codecs else []
    | .fail _ => []

theorem delivered_append (partition : Option Nat) (steps steps' : List TaskStep) :
    delivered config partition (steps ++ steps') =
      delivered config partition steps ++ delivered config partition steps' := flatMap_append

variable (responses : Nat → List Bytes)

theorem delivered_writePartition (hparts : config.partitionNum ≤ 2 ^ 15) (block : Block Row) (partId : Nat) :
    delivered config (some partId) ((List.range config.partitionNum).map (writePartition config responses block))
      = if partId < config.partitionNum then
          (addChunks config responses block partId).flatMap (decodeChunk config.codecs config.encodeType)
        else [] := by
  have hone : ∀ p < 2 ^ 15, delivered config (some partId) [writePartition config responses block p] =
      if p = partId then
        (addChunks config responses block p).flatMap (decodeChunk config.codecs config.encodeType) else [] := by
    intro p hp
    obtain ⟨chunk, hchunk, -⟩ := destChunk_spec config block p
    simp only [delivered, flatMap_singleton, writePartition, addChunks, hchunk, Option.some.injEq, if_pos hp]
    rfl
  generalize config.partitionNum = n at hparts
  induction n with
  | zero => rfl
  | succ n ih =>
    rw [range_succ, map_append, delivered_append, ih (Nat.le_of_succ_le hparts), map_singleton, hone n hparts]
    by_cases hn : n = partId
    · subst hn
      simp
    · have hiff : partId < n + 1 ↔ partId < n := by omega
      simp [hn, hiff]

/-- The rows that a partition gets more than once from the blocks of a task: those of a block once more
for each block behind it. -/
def repeated (config : WriterConfig Row) (partId : Nat) : List (Block Row) → Multiset Row
  | [] => 0
  | block :: blocks => blocks.length • (destBlock config block partId : Multiset Row) + repeated config partId blocks

theorem encodePartitions_cons (hparts : config.partitionNum ≠ 0) (responses : Nat → List Bytes)
    (block : Block Row) (blocks : List (Block Row)) :
    encodePartitions config responses (block :: blocks) =
      (List.range config.partitionNum).map (writePartition config responses block) ++
        encodePartitions config (addChunks config responses block) blocks :=
  if_neg fun h => hparts h.1

variable {partId : Nat}

theorem delivered_encodePartitions (hparts : config.partitionNum ≤ 2 ^ 15) (blocks : List (Block Row))
    (hpart : partId < config.partitionNum) :
    (delivered config (some partId) (encodePartitions config responses blocks) : Multiset Row) =
      blocks.length • ((responses partId).flatMap (decodeChunk config.codecs config.encodeType) : Multiset Row) +
        (destBlock config blocks.flatten partId : Multiset Row) + repeated config partId blocks := by
  induction blocks generalizing responses with
  | nil => simp [encodePartitions, delivered, destBlock, repeated]
  | cons block blocks ih =>
    obtain ⟨chunk, hchunk, hdecode⟩ := destChunk_spec config block partId
    have hadd : (addChunks config responses block partId).flatMap (decodeChunk config.codecs config.encodeType) =
        (responses partId).flatMap (decodeChunk config.codecs config.encodeType)
          ++ destBlock config block partId := by
      simp [addChunks, hchunk, hdecode]
    have hrows : destBlock config (block :: blocks).flatten partId =
        destBlock config block partId ++ destBlock config blocks.flatten partId := by
      exact filter_append ..
    rw [encodePartitions_cons (Nat.ne_of_gt (Nat.zero_lt_of_lt hpart)), delivered_append,
      delivered_writePartition _ hparts, if_pos hpart, hadd, ← Multiset.coe_add, ih, hadd, hrows]
    simp only [repeated, length_cons, ← Multiset.coe_add, succ_nsmul, nsmul_add]
    abel

theorem delivered_encodePartitions_of_le (hparts : config.partitionNum ≤ 2 ^ 15) (blocks : List (Block Row))
    (hpart : config.partitionNum ≤ partId) :
    delivered config (some partId) (encodePartitions config responses blocks) = [] := by
  induction blocks generalizing responses with
  | nil => rfl
  | cons block blocks ih =>
    rw [encodePartitions]
    split_ifs with hzero
    · rfl
    · rw [delivered_append, delivered_writePartition _ hparts, if_neg (not_lt.2 hpart), ih, append_nil]

theorem fail_mem_encodePartitions (hparts : config.partitionNum ≤ 2 ^ 15) (blocks : List (Block Row)) :
    (∃ e, TaskStep.fail e ∈ encodePartitions config responses blocks) ↔
      config.partitionNum = 0 ∧ blocks.flatten ≠ [] := by
  induction blocks generalizing responses with
  | nil => simp [encodePartitions]
  | cons block blocks ih =>
    rw [encodePartitions]
    split_ifs with hzero
    · simp [hzero.1, hzero.2]
    · have hwrites : ∀ e, TaskStep.fail e ∉
          (List.range config.partitionNum).map (writePartition config responses block) := by
        intro e hmem
        obtain ⟨p, hrange, hp⟩ := mem_map.1 hmem
        obtain ⟨chunk, hchunk, -⟩ := destChunk_spec config block p
        simp only [writePartition, hchunk, if_pos ((mem_range.1 hrange).trans_le hparts)] at hp
        cases hp
      simp only [mem_append, hwrites, false_or, ih, flatten_cons, ne_eq, append_eq_nil_iff, not_and_or]
      tauto

/-- A partition behind the largest `int16_t` is written to also for a block without rows. -/
theorem noSuchTunnel_mem_encodePartitions (hparts : 2 ^ 15 < config.partitionNum) (hblocks : blocks ≠ []) :
    .fail .noSuchTunnel ∈ encodePartitions config responses blocks := by
  obtain ⟨block, blocks, rfl⟩ := exists_cons_of_ne_nil hblocks
  rw [encodePartitions_cons (by omega)]
  obtain ⟨chunk, hchunk, -⟩ := destChunk_spec config block (2 ^ 15)
  have hstep : writePartition config responses block (2 ^ 15) = .fail .noSuchTunnel := by
    simp only [writePartition, hchunk, lt_irrefl, if_false]
  exact mem_append_left _ (mem_map.2 ⟨2 ^ 15, mem_range.2 hparts, hstep⟩)

theorem repeated_eq_zero_iff :
    repeated config partId blocks = 0 ↔ ∀ block ∈ blocks.dropLast, destBlock config block partId = [] := by
  induction blocks with
  | nil => simp [repeated]
  | cons block blocks ih =>
    cases blocks with
    | nil => simp [repeated]
    | cons block' blocks =>
      rw [repeated, add_eq_zero, ih, dropLast_cons_cons, forall_mem_cons, length_cons]
      refine and_congr_left fun _ => ?_
      constructor
      · intro h
        have hcard := congrArg Multiset.card h
        rw [Multiset.card_nsmul, Multiset.coe_card, Multiset.card_zero, Nat.mul_eq_zero] at hcard
        exact eq_nil_of_length_eq_zero (hcard.resolve_left (Nat.succ_ne_zero _))
      · intro h
        rw [h, Multiset.coe_nil, nsmul_zero]

end TiFlash.Flash
