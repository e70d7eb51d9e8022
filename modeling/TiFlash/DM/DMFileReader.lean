import TiFlash.DM.RoughSet
import TiFlash.DM.VersionFilter

/-!
# Writing and reading a DMFile

`writeIntoNewDMFile` writes one pack for each block. `DMFileReader` reads groups of consecutive packs; for a
group that needs no filtering (a clean read) it fills the handle, the version and the tag column with the
values of the first row.
-/

namespace TiFlash.DM

variable {K D : Type*}

/-! ## Reorganizing block boundaries -/

section Reorganize

variable [DecidableEq K]

/-- How many rows at the front of the next block have the last key of the current one. On sorted input the
order check never throws. -/
def findCutOffsetInNextBlock (cur next : List (Row K D)) : Nat :=
  match cur.getLast? with
  | none => 0
  | some last => (next.takeWhile fun r => decide (r.handle = last.handle)).length

/-- The loop of `ReorganizeBlockInputStream::read`: the current block, what is left of the next one
and the stream behind it. -/
def mergeNextBlocks (cur : List (Row K D)) :
    List (Block K D) → List (Row K D) × Option (Block K D) × List (Block K D)
  | [] => (cur, none, [])
  | next :: stream =>
    if next.rows.length = 0 then mergeNextBlocks cur stream
    else
      let cutOffset := findCutOffsetInNextBlock cur next.rows
      if cutOffset = 0 then (cur, some next, stream)
      else if cutOffset ≠ next.rows.length then
        (cur ++ next.rows.take cutOffset, some (.ofRows (next.rows.drop cutOffset)), stream)
      else mergeNextBlocks (cur ++ next.rows) stream

theorem length_mergeNextBlocks (cur : List (Row K D)) (stream : List (Block K D)) :
    (mergeNextBlocks cur stream).2.2.length + (mergeNextBlocks cur stream).2.1.toList.length
      ≤ stream.length := by
  induction stream generalizing cur with
  | nil => simp [mergeNextBlocks]
  | cons next stream ih =>
    rw [mergeNextBlocks]
    simp only
    split_ifs
    · exact (ih cur).trans (by simp)
    · simp
    · simp
    · exact (ih _).trans (by simp)

/-- The blocks that `ReorganizeBlockInputStream::read` returns from a fetched block on. -/
def reorganizeFrom (next : Option (Block K D)) (stream : List (Block K D)) : List (Block K D) :=
  match next with
  | none => []
  | some cur =>
    .ofRows (mergeNextBlocks cur.rows stream).1 ::
      reorganizeFrom (mergeNextBlocks cur.rows stream).2.1 (mergeNextBlocks cur.rows stream).2.2
termination_by stream.length + next.toList.length
decreasing_by
  have := length_mergeNextBlocks cur.rows stream
  simp only [Option.toList_some, List.length_singleton]
  omega

/-- `ReorganizeBlockInputStream` -/
def reorganize (blocks : List (Block K D)) : List (Block K D) :=
  reorganizeFrom (readNextBlock blocks).1 (readNextBlock blocks).2

end Reorganize

/-- `ReorganizeBlockInputStream` between two calls of `read` -/
structure ReorganizeBlockInputStream (K D : Type*) where
  sortedInputStream : List (Block K D)
  nextBlock : Option (Block K D)
  firstRead : Bool

/-- "InputStream is not sorted, pk in next block is smaller than current block: " with the two keys -/
structure NotSorted (K : Type*) where
  nextPk : K
  lastCurrPk : K

namespace ReorganizeBlockInputStream

variable [LinearOrder K]

/-- Before the first read -/
def new (blocks : List (Block K D)) : ReorganizeBlockInputStream K D := ⟨blocks, none, true⟩

/-- `findCutOffsetInNextBlock` with its check of the key behind the cut -/
def checkedCutOffset (cur next : List (Row K D)) : Except (NotSorted K) Nat :=
  let cutOffset := findCutOffsetInNextBlock cur next
  match cur.getLast?, next[cutOffset]? with
  | some last, some row =>
    if row.handle < last.handle then .error ⟨row.handle, last.handle⟩ else .ok cutOffset
  | _, _ => .ok cutOffset

/-- The loop of `read` -/
def readLoop (cur : List (Row K D)) : List (Block K D) →
    Except (NotSorted K) (List (Row K D) × Option (Block K D) × List (Block K D))
  | [] => .ok (cur, none, [])
  | next :: stream =>
    if next.rows.length = 0 then readLoop cur stream
    else match checkedCutOffset cur next.rows with
    | .error e => .error e
    | .ok cutOffset =>
      if cutOffset = 0 then .ok (cur, some next, stream)
      else if cutOffset ≠ next.rows.length then
        .ok (cur ++ next.rows.take cutOffset, some (.ofRows (next.rows.drop cutOffset)), stream)
      else readLoop (cur ++ next.rows) stream

/-- The next block, up to the end of its last handle -/
def read (s : ReorganizeBlockInputStream K D) :
    Except (NotSorted K) (Option (Block K D) × ReorganizeBlockInputStream K D) := do
  let fetched := if s.firstRead then readNextBlock s.sortedInputStream else (s.nextBlock, s.sortedInputStream)
  match fetched.1 with
  | none => .ok (none, ⟨fetched.2, none, false⟩)
  | some cur =>
    let merged ← readLoop cur.rows fetched.2
    .ok (some (.ofRows merged.1), ⟨merged.2.2, merged.2.1, false⟩)

end ReorganizeBlockInputStream

/-! ## Writing -/

/-- `DMFile::PackStat`, without the size in bytes. -/
structure PackStat where
  rows : Nat
  notClean : Nat
  firstVersion : Nat
  firstTag : Bool
  deriving DecidableEq, Repr

/-- A pack of a DMFile: the columns on disk and the entry in the pack stats. -/
structure DMFilePack (K D : Type*) where
  rows : List (Row K D)
  stat : PackStat

def writePack (block : Block K D) (notCleanRows : Nat) : DMFilePack K D where
  rows := block.rows
  stat :=
    { rows := block.rows.length
      notClean := notCleanRows
      firstVersion := (block.rows.head?.map Row.version).getD 0
      firstTag := (block.rows.head?.map Row.tag).getD false }

/-- `writeIntoNewDMFile` of a `COMPACT` version filter: every pack gets what its block added to
`not_clean_rows`. -/
def writeIntoNewDMFile [DecidableEq K] (limit : Nat) (s : VersionFilterStream K D) :
    List (DMFilePack K D) :=
  match _hread : s.read .compact limit with
  | (none, _) => []
  | (some block, s') =>
    if block.rows.length = 0 then writeIntoNewDMFile limit s'
    else writePack block (s'.notCleanRows - s.notCleanRows) :: writeIntoNewDMFile limit s'
termination_by s.size
decreasing_by all_goals exact VersionFilterStream.size_read_lt _hread

/-! ## Reading -/

/-- What a reader knows of a pack: its data, the answer of the pack filter and whether to read it. -/
structure ReaderPack (K D : Type*) where
  pack : DMFilePack K D
  handleRes : RSResult
  usePack : Bool

/-- The parameters of a `DMFileReader` that decide how packs are grouped and read. -/
structure ReaderConfig where
  enableCleanRead : Bool
  maxReadVersion : Nat
  singleFileMode : Bool
  rowsThresholdPerRead : Nat

/-- The loop of `DMFileReader::read` that finds how many packs to read together. -/
def takePacks (cfg : ReaderConfig) (expected : RSResult) (readRows readPacks : Nat) :
    List (ReaderPack K D) → List (ReaderPack K D) × List (ReaderPack K D)
  | [] => ([], [])
  | p :: ps =>
    if p.usePack && readRows < cfg.rowsThresholdPerRead && !(cfg.singleFileMode && readPacks ≥ 1)
        && !(cfg.enableCleanRead && p.handleRes ≠ expected) then
      let (group, rest) := takePacks cfg expected (readRows + p.pack.stat.rows) (readPacks + 1) ps
      (p :: group, rest)
    else ([], p :: ps)

theorem length_takePacks (cfg : ReaderConfig) (expected : RSResult) (readRows n : Nat)
    (ps : List (ReaderPack K D)) :
    (takePacks cfg expected readRows n ps).1.length + (takePacks cfg expected readRows n ps).2.length
      = ps.length := by
  induction ps generalizing readRows n with
  | nil => rfl
  | cons p ps ih =>
    rw [takePacks]
    split_ifs
    · have := ih (readRows + p.pack.stat.rows) (n + 1)
      simp only [List.length_cons]
      omega
    · simp

section Read

variable [LinearOrder K] [Inhabited K]

/-- `DMFilePackFilter::getMinHandle`, `getMinStringHandle` -/
def DMFilePack.minHandle (p : DMFilePack K D) : K :=
  (addPack (p.rows.map fun r => ⟨false, r.handle, r.tag⟩)).min

/-- `DMFilePackFilter::getMaxVersion` -/
def DMFilePack.maxVersion (p : DMFilePack K D) : Nat :=
  (addPack (p.rows.map fun r => ⟨false, r.version, r.tag⟩)).max

def doCleanRead (cfg : ReaderConfig) (expected : RSResult) (group : List (ReaderPack K D)) : Bool :=
  cfg.enableCleanRead && expected = .all && (group.map fun p => p.pack.stat.notClean).sum = 0 &&
    group.foldl (fun maxVersion p => max p.pack.maxVersion maxVersion) 0 ≤ cfg.maxReadVersion

def readPacks (cfg : ReaderConfig) (p : ReaderPack K D) (group : List (ReaderPack K D)) : Block K D :=
  let rows := group.flatMap fun q => q.pack.rows
  if doCleanRead cfg p.handleRes group then
    -- placeholder columns with the first row's handle, version and tag
    ⟨rows.map fun r =>
      ⟨p.pack.minHandle, p.pack.stat.firstVersion, p.pack.stat.firstTag, r.data⟩, true⟩
  else .ofRows rows

/-- The blocks that `DMFileReader::read` returns until the end, from the packs still to be read. -/
def readFile (cfg : ReaderConfig) : List (ReaderPack K D) → List (Block K D)
  | [] => []
  | p :: ps =>
    -- go to the next pack to be used
    if !p.usePack then readFile cfg ps
    else
      let group := (takePacks cfg p.handleRes 0 0 (p :: ps)).1
      let rest := (takePacks cfg p.handleRes 0 0 (p :: ps)).2
      if _h : (group.map fun q => q.pack.stat.rows).sum = 0 then []
      else readPacks cfg p group :: readFile cfg rest
termination_by ps => ps.length
decreasing_by
  · simp
  · have hlen := length_takePacks cfg p.handleRes 0 0 (p :: ps)
    have hne : group ≠ [] := fun hnil => _h (by simp [hnil])
    have hpos : 0 < (takePacks cfg p.handleRes 0 0 (p :: ps)).1.length := List.length_pos_iff.2 hne
    show (takePacks cfg p.handleRes 0 0 (p :: ps)).2.length < (p :: ps).length
    omega

end Read

end TiFlash.DM
