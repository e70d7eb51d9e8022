import Mathlib.Data.Multiset.Filter
import Mathlib.Tactic

/-!
# The streaming response writer

Blocks are collected until they have more than `records_per_chunk` rows; then a task that encodes and writes
them goes to a thread pool. For a hash exchange it splits each block by the hash of the key columns and
writes to every partition; otherwise it writes one response for all its blocks.

A row is abstract and has the columns of the result, so the check of the number of columns does not fail.
The chunk codecs are abstract too, and invert each other.
-/

namespace TiFlash.Flash

/-- Encoded chunks -/
abbrev Bytes := List UInt8

/-- `tipb::EncodeType`, as far as the constructor of `DAGResponseWriter` accepts it. -/
inductive EncodeType where
  | default
  | chunk
  | chBlock
  deriving DecidableEq, Repr

/-- `tipb::ExchangeType` -/
inductive ExchangeType where
  | passThrough
  | broadcast
  | hash
  deriving DecidableEq, Repr

/-- The rows of a block; constant columns have been converted to full ones. -/
abbrev Block (Row : Type) := List Row

/-! ## Codecs of chunks -/

/-- The codecs, which invert each other -/
structure ChunkCodecs (Row : Type) where
  /-- `EncodeDatum` of the fields of a row. -/
  encodeRow : Row → Bytes
  /-- `DefaultChunkCodec::decode` -/
  decodeDefault : Bytes → List Row
  decodeDefault_encode : ∀ rows, decodeDefault (rows.flatMap encodeRow) = rows
  /-- `TiDBChunk::encodeChunk` -/
  encodeChunk : List Row → Bytes
  /-- `ArrowChunkCodec::decode` -/
  decodeArrow : Bytes → List Row
  decodeArrow_encode : ∀ rows, decodeArrow (encodeChunk rows) = rows
  /-- `CHBlockChunkCodecStream::encode` of a whole block. -/
  encodeBlock : Block Row → Bytes
  /-- `CHBlockChunkCodec::decode`, which reads one block. -/
  decodeBlock : Bytes → List Row
  decodeBlock_nil : decodeBlock [] = []
  decodeBlock_encode : ∀ rows rest, decodeBlock (encodeBlock rows ++ rest) = rows

/-- What has been encoded since the last `clear`. -/
inductive ChunkCodecStream (Row : Type) where
  | default (ss : Bytes)
  | arrow (rows : List Row)
  | chBlock (output : Bytes)

/-- How an encode task fails -/
inductive TaskError where
  /-- "CHBlock encode only support encode whole block" -/
  | notWholeBlock
  /-- The loop over the rows of a block does not end. -/
  | endless
  | divisionByZero
  /-- `tunnels[partition_id]` for a negative `partition_id` -/
  | noSuchTunnel
  deriving DecidableEq, Repr

section Codec

variable {Row : Type} (codecs : ChunkCodecs Row)

def newCodecStream : EncodeType → ChunkCodecStream Row
  | .default => .default []
  | .chunk => .arrow []
  | .chBlock => .chBlock []

namespace ChunkCodecStream

/-- `encode(block, start, end)` -/
def encode (block : Block Row) (start stop : Nat) :
    ChunkCodecStream Row → Except TaskError (ChunkCodecStream Row)
  | .default ss => .ok (.default (ss ++ ((block.take stop).drop start).flatMap codecs.encodeRow))
  | .arrow rows => .ok (.arrow (rows ++ (block.take stop).drop start))
  | .chBlock output =>
    if start ≠ 0 ∨ stop ≠ block.length then .error .notWholeBlock
    else .ok (.chBlock (output ++ codecs.encodeBlock block))

def getString : ChunkCodecStream Row → Bytes
  | .default ss => ss
  | .arrow rows => codecs.encodeChunk rows
  | .chBlock output => output

def clear : ChunkCodecStream Row → ChunkCodecStream Row
  | .default _ => .default []
  | .arrow _ => .arrow []
  | .chBlock _ => .chBlock []

end ChunkCodecStream

/-- `tipb::SelectResponse`: the encode type and the `rows_data` of its chunks. -/
structure SelectResponse where
  encodeType : EncodeType
  chunks : List Bytes := []
  deriving DecidableEq, Repr

def decodeChunk : EncodeType → Bytes → List Row
  | .default => codecs.decodeDefault
  | .chunk => codecs.decodeArrow
  | .chBlock => codecs.decodeBlock

/-- The rows of all chunks -/
def SelectResponse.decode (response : SelectResponse) : List Row :=
  response.chunks.flatMap (decodeChunk codecs response.encodeType)

end Codec

/-! ## Tasks -/

/-- The parameters of the constructor -/
structure WriterConfig (Row : Type) where
  codecs : ChunkCodecs Row
  exchangeType : ExchangeType
  encodeType : EncodeType
  /-- The constructor's argument `records_per_chunk_`. -/
  recordsPerChunkArg : Int
  partitions : Nat
  /-- `hash128(..).low` of the key columns of a row. -/
  keyHash : Row → Nat

namespace WriterConfig

variable {Row : Type} (config : WriterConfig Row)

/-- `records_per_chunk` after the constructor of `DAGResponseWriter`. -/
def recordsPerChunk : Int :=
  if config.encodeType = .chBlock then -1 else config.recordsPerChunkArg

/-- `partition_num`, a `uint16_t`. -/
def partitionNum : Nat := config.partitions % 2 ^ 16

end WriterConfig

/-- The next thing that a task does to the world: a call of `writer->write`, for a hash exchange with
a partition, or to fail. -/
inductive TaskStep where
  | write (partition : Option Nat) (response : SelectResponse)
  | fail (error : TaskError)
  deriving DecidableEq, Repr

section Tasks

variable {Row : Type} (config : WriterConfig Row)

/-- The variables of `getEncodeTask` -/
structure EncodeState (Row : Type) where
  stream : ChunkCodecStream Row
  currentRecordsNum : Int := 0
  chunks : List Bytes := []

/-- `add_chunks`, `set_rows_data`, `clear`. -/
def EncodeState.addChunk (st : EncodeState Row) : EncodeState Row where
  stream := st.stream.clear
  currentRecordsNum := 0
  chunks := st.chunks ++ [st.stream.getString config.codecs]

/-- Every turn goes on in the block unless `records_per_chunk` is zero, so the number of rows is enough fuel
for a loop that ends. The sum for `upper` is unsigned: with a negative summand, at `row_index = 0` only, it is
larger than the block. -/
def encodeRows (block : Block Row) : (fuel : Nat) → (rowIndex : Nat) → EncodeState Row →
    Except TaskError (EncodeState Row)
  | 0, rowIndex, st => if block.length ≤ rowIndex then .ok st else .error .endless
  | fuel + 1, rowIndex, st =>
    if block.length ≤ rowIndex then .ok st
    else do
      let st := if config.recordsPerChunk ≤ st.currentRecordsNum then st.addChunk config else st
      let room := config.recordsPerChunk - st.currentRecordsNum
      let upper := if room < 0 then block.length else min (rowIndex + room.toNat) block.length
      let stream ← st.stream.encode config.codecs block rowIndex upper
      encodeRows block fuel upper
        { st with stream := stream, currentRecordsNum := st.currentRecordsNum + (upper - rowIndex) }

variable (blocks : List (Block Row))

/-- The chunks that the task of `getEncodeTask` builds for its blocks. -/
def encodeChunks : Except TaskError (List Bytes) := do
  let start : EncodeState Row := { stream := newCodecStream config.encodeType }
  if config.recordsPerChunk = -1 then
    let stream ← blocks.foldlM (fun stream block => stream.encode config.codecs block 0 block.length)
      start.stream
    return [stream.getString config.codecs]
  else
    let st ← blocks.foldlM (fun st block => encodeRows config block block.length 0 st) start
    return if st.currentRecordsNum > 0 then (st.addChunk config).chunks else st.chunks

def getEncodeTask : List TaskStep :=
  match encodeChunks config blocks with
  | .ok chunks => [.write none { encodeType := config.encodeType, chunks := chunks }]
  | .error e => [.fail e]

/-- The rows of a partition -/
def destBlock (block : Block Row) (partId : Nat) : Block Row :=
  block.filter fun row => config.keyHash row % config.partitionNum = partId

/-- The chunk of a partition's rows: the stream is new or has been cleared, and gets the whole block. -/
def destChunk (block : Block Row) (partId : Nat) : Except TaskError Bytes := do
  let dest := destBlock config block partId
  let stream ← (newCodecStream config.encodeType).encode config.codecs dest 0 dest.length
  return stream.getString config.codecs

variable (responses : Nat → List Bytes)

/-- The writes of `getEncodePartitionTask` for one block. The response of a partition keeps the chunks
of the blocks before. `MPPTunnelSet::write` takes the partition as an `int16_t`. -/
def writePartition (block : Block Row) (partId : Nat) : TaskStep :=
  match destChunk config block partId with
  | .ok chunk =>
    if partId < 2 ^ 15 then .write (some partId) ⟨config.encodeType, responses partId ++ [chunk]⟩
    else .fail .noSuchTunnel
  | .error e => .fail e

def addChunks (block : Block Row) (partId : Nat) : List Bytes :=
  match destChunk config block partId with
  | .ok chunk => responses partId ++ [chunk]
  | .error _ => responses partId

/-- The loop over the blocks -/
def encodePartitions (responses : Nat → List Bytes) : List (Block Row) → List TaskStep
  | [] => []
  | block :: blocks =>
    if config.partitionNum = 0 ∧ block ≠ [] then [.fail .divisionByZero]
    else (List.range config.partitionNum).map (writePartition config responses block) ++
      encodePartitions (addChunks config responses block) blocks

def getEncodePartitionTask : List TaskStep := encodePartitions config (fun _ => []) blocks

/-- The task of a batch -/
def encodeTask : List TaskStep :=
  if config.exchangeType = .hash then getEncodePartitionTask config blocks else getEncodeTask config blocks

end Tasks

/-! ## The writer -/

/-- With what is left to do of the tasks in its thread pool, and the
calls of `writer->write` so far. -/
structure StreamingDAGResponseWriter (Row : Type) where
  blocks : List (Block Row) := []
  rowsInBlocks : Nat := 0
  tasks : List (List TaskStep) := []
  written : List (Option Nat × SelectResponse) := []

namespace StreamingDAGResponseWriter

variable {Row : Type} (config : WriterConfig Row) (w : StreamingDAGResponseWriter Row)

def scheduleEncodeTask : StreamingDAGResponseWriter Row :=
  { w with blocks := [], rowsInBlocks := 0, tasks := w.tasks ++ [encodeTask config w.blocks] }

def write (block : Block Row) : StreamingDAGResponseWriter Row :=
  let w := { w with blocks := w.blocks ++ [block], rowsInBlocks := w.rowsInBlocks + block.length }
  if (w.rowsInBlocks : Int) > config.recordsPerChunk then w.scheduleEncodeTask config else w

/-- `StreamingDAGResponseWriter::finishWrite`, up to the wait for the tasks. -/
def finishWrite : StreamingDAGResponseWriter Row :=
  if w.rowsInBlocks > 0 then w.scheduleEncodeTask config else w

/-- The next step of the task `i`. A task that fails does nothing more. -/
def runTask (i : Nat) : StreamingDAGResponseWriter Row :=
  match w.tasks[i]? with
  | some (.write partition response :: rest) =>
    { w with tasks := w.tasks.set i rest, written := w.written ++ [(partition, response)] }
  | _ => w

/-- A call of the writer, or a step of a task in the thread pool. -/
inductive Action (Row : Type) where
  | write (block : Block Row)
  | finishWrite
  | runTask (i : Nat)

/-- One action -/
def step : Action Row → StreamingDAGResponseWriter Row
  | .write block => w.write config block
  | .finishWrite => w.finishWrite config
  | .runTask i => w.runTask i

variable (actions : List (Action Row))

/-- Any interleaving of actions -/
def run : StreamingDAGResponseWriter Row := actions.foldl (step config) w

/-- The calls among the actions: the blocks that are written, and `none` for `finishWrite`. -/
def calls : List (Option (Block Row)) := actions.filterMap fun
    | .write block => some (some block)
    | .finishWrite => some none
    | .runTask _ => none

def received (partition : Option Nat) : List Row :=
  (w.written.filter (·.1 = partition)).flatMap fun write => write.2.decode config.codecs

end StreamingDAGResponseWriter

end TiFlash.Flash
