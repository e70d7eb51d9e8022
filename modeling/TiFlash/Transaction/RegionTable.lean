import TiFlash.Transaction.RegionRangeKeys

/-!
# The regions of the tables

`RegionTable` keeps, for each table, its regions and their ranges. `KVStore` extends a range before the
region gets more keys and shrinks it afterwards, so the table never knows less than the region has.
-/

namespace TiFlash.Transaction.RegionTable

open TiFlash.DM TiFlash.Lib Function

/-- The exceptions of the handlers; the process ends with them. -/
inductive Exception where
  /-- "Illegal region range, should not happen" -/
  | illegalRange
  /-- "insert duplicate internal region" -/
  | duplicateInternalRegion (regionID : RegionID)
  /-- "table id ... not match previous one" -/
  | tableNotMatch (regionID : RegionID)
  /-- "got no new region", "duplicate region index", "region index not found" -/
  | noNewRegion
  | duplicateRegionIndex
  | regionIndexNotFound
  /-- "peer with store_id ... not found" -/
  | peerNotFound
  /-- "region not found" -/
  | sourceNotFound (regionID : RegionID)
  /-- "unexpected state of source region" -/
  | unexpectedSourceState
  /-- "source_region not match exist region" -/
  | sourceNotMatch
  /-- A region that is merged into itself locks its mutex twice. -/
  | deadlock
  /-- "current region: ... should not happen" -/
  | mergeResultNotMatch
  /-- "already has newer index" -/
  | newerIndex (regionID : RegionID)
  /-- "is overlapped with region" -/
  | overlapped (regionID : RegionID)
  | undefined
deriving DecidableEq, Repr

/-! ## `RegionTable` -/

/-- `regions` and `tables`; a table without regions is not in the map. -/
structure Tables where
  regions : RegionID → Option RecordKVFormat.TableID
  rangeInTable : RecordKVFormat.TableID → RegionID → Option RawRange

namespace Tables

/-- No tables -/
def empty : Tables := ⟨fun _ => none, fun _ _ => none⟩

variable (t : Tables) (tableID : RecordKVFormat.TableID)

/-- `internal_region.range_in_table = range` -/
def setRange (id : RegionID) (range : RawRange) : Tables :=
  { t with
    rangeInTable := update t.rangeInTable tableID
      (update (t.rangeInTable tableID) id (some range)) }

/-- `insertRegion`, when the table does not have the region. -/
def insertNew (id : RegionID) (range : RawRange) : Tables :=
  { t.setRange tableID id range with regions := update t.regions id (some tableID) }

variable (id : RegionID)

def insertRegion (range : RegionRangeKeys) : Except Exception Tables :=
  if (t.rangeInTable range.mappedTableID id).isSome then .error (.duplicateInternalRegion id)
  else .ok (t.insertNew range.mappedTableID id range.raw)

/-- The table after it, and the range of the internal region; `tableID` is `region.getMappedTableID()`. -/
def getOrInsertRegion (range : RawRange) : Tables × RawRange :=
  match t.rangeInTable tableID id with
  | some recorded => (t, recorded)
  | none => (t.insertNew tableID id range, range)

/-- A region that is there keeps its range. -/
def updateRegion (range : RawRange) : Tables :=
  (t.getOrInsertRegion tableID id range).1

/-- The recorded range becomes that of the region, whatever it was. -/
def shrinkRegionRange (range : RawRange) : Tables :=
  (t.getOrInsertRegion tableID id range).1.setRange tableID id range

/-- The range `extendRegionRange` leaves: the ends are compared as strings. -/
def extended (recorded given : RawRange) : RawRange :=
  if recorded.start ≤ given.start ∧ given.stop ≤ recorded.stop then recorded
  else
    ⟨if given.start < recorded.start then given.start else recorded.start,
      if recorded.stop < given.stop then given.stop else recorded.stop⟩

def extendRegionRange (range : RegionRangeKeys) : Except Exception Tables :=
  match t.regions id with
  | some tableID =>
    if range.mappedTableID ≠ tableID then .error (.tableNotMatch id)
    else
      match t.rangeInTable tableID id with
      | none => .error .undefined
      | some recorded => .ok (t.setRange tableID id (extended recorded range.raw))
  | none => t.insertRegion id range

def removeRegion : Tables :=
  match t.regions id with
  | none => t
  | some tableID =>
    { regions := update t.regions id none
      rangeInTable := update t.rangeInTable tableID
        (update (t.rangeInTable tableID) id none) }

end Tables

/-! ## Regions -/

/-- `metapb::Region`, with raw keys; `peers` are the stores of the peers. -/
structure MetaRegion where
  id : RegionID
  range : RawRange
  version : Nat
  confVer : Nat
  peers : List Nat
deriving DecidableEq, Repr

/-- A region of the store, without its data. -/
structure Region where
  id : RegionID
  range : RegionRangeKeys
  /-- The constant `mapped_table_id`: the table of the range with which the object was constructed. -/
  mappedTableID : RecordKVFormat.TableID
  version : Nat
  confVer : Nat
  peers : List Nat
  peerState : PeerState
  appliedIndex : Nat
deriving DecidableEq

/-- `regionState().getRegion()` -/
def Region.toMeta (region : Region) : MetaRegion :=
  ⟨region.id, region.range.raw, region.version, region.confVer, region.peers⟩

/-- `RegionRangeKeys(start_key, end_key)` -/
def rangeKeys (raw : RawRange) : Except Exception RegionRangeKeys :=
  match RegionRangeKeys.ofRaw? raw with
  | none => .error .illegalRange
  | some range => .ok range

/-- `Region(RegionMeta(peer, region, apply_state))` -/
def Region.ofMeta (info : MetaRegion) (appliedIndex : Nat) : Except Exception Region := do
  let range ← rangeKeys info.range
  return ⟨info.id, range, range.mappedTableID, info.version, info.confVer, info.peers, .normal, appliedIndex⟩

/-- `raft_serverpb::RaftApplyState` of a region that a split creates. -/
def initialAppliedIndex : Nat := 5

/-! ## `KVStore` -/

/-- A call of `RegionTable` that changes the range of an internal region. -/
inductive Call where
  | extend (recorded given left : RawRange)
  | shrink (recorded range : RawRange)
deriving DecidableEq

/-- The store: its regions, the region table, and as a ghost every call that changed a range. -/
structure Store where
  storeID : Nat
  regions : HashMap RegionID Region
  table : Tables
  calls : List Call

namespace Store

variable (s : Store) (region : Region)

/-- `RegionTable::updateRegion` for a region of the store. -/
def updateRegion : Store :=
  { s with table := s.table.updateRegion region.mappedTableID region.id region.range.raw }

/-- `RegionTable::shrinkRegionRange` for a region of the store. -/
def shrinkRegionRange : Store :=
  { s with
    table := s.table.shrinkRegionRange region.mappedTableID region.id region.range.raw
    calls := .shrink (s.table.getOrInsertRegion region.mappedTableID region.id region.range.raw).2
      region.range.raw :: s.calls }

/-- The call that extends a range; a region that is not there is inserted. -/
def extendCall (t : Tables) (id : RegionID) (range : RegionRangeKeys) : List Call :=
  match t.rangeInTable range.mappedTableID id with
  | none => []
  | some recorded => [.extend recorded range.raw (Tables.extended recorded range.raw)]

variable (id : RegionID)

/-- The call is recorded. -/
def extendRegionRange (range : RegionRangeKeys) : Except Exception Store := do
  let table ← s.table.extendRegionRange id range
  return { s with table := table, calls := extendCall s.table id range ++ s.calls }

def removeRegion : Store :=
  { s with regions := s.regions.erase id, table := s.table.removeRegion id }

/-! ## Batch split -/

def newRegion (storeID : Nat) (info : MetaRegion) : Except Exception Region :=
  if storeID ∈ info.peers then Region.ofMeta info initialAppliedIndex else .error .peerNotFound

/-- The region that keeps its id gets a new `RegionMeta`; its object and `mapped_table_id` stay. -/
def derivedRegion (curr : Region) (infos : List MetaRegion) (index : Nat) : Except Exception Region :=
  match infos.filter (·.id = curr.id) with
  | [] => .error .regionIndexNotFound
  | [info] => do
    let derived ← Region.ofMeta info index
    return { derived with mappedTableID := curr.mappedTableID }
  | _ => .error .duplicateRegionIndex

/-- `RegionRaftCommandDelegate::execBatchSplit`: the derived region and the new ones. -/
def execBatchSplit (storeID : Nat) (curr : Region) (infos : List MetaRegion) (index : Nat) :
    Except Exception (Region × List Region) :=
  if infos.isEmpty then .error .noNewRegion
  else do
    let newRegions ← (infos.filter (·.id ≠ curr.id)).mapM (newRegion storeID)
    let derived ← derivedRegion curr infos index
    return (derived, newRegions)

/-- `regionsMut().emplace`: a region that is there already stays. -/
def emplace : Store :=
  if region.id ∈ s.regions then s else { s with regions := s.regions.insert region.id region }

/-- The region that is in the store under the id of a new region. -/
def stored : Region := (s.regions.lookup region.id).getD region

def handleBatchSplit (curr : Region) (newRegions : List Region) : Store :=
  let s := newRegions.foldl emplace { s with regions := s.regions.insert curr.id curr }
  let s := newRegions.foldl (fun s' region => s'.updateRegion (s.stored region)) s
  s.shrinkRegionRange curr

/-- The whole command -/
def batchSplit (infos : List MetaRegion) (index : Nat) :
    Except Exception Store :=
  match s.regions.lookup id with
  | none => .ok s
  | some curr =>
    if index ≤ curr.appliedIndex then .ok s
    else do
      let (curr, newRegions) ← execBatchSplit s.storeID curr infos index
      return s.handleBatchSplit curr newRegions

/-! ## Commit merge -/

def checkBeforeCommitMerge (target source : Region) (sourceInfo : MetaRegion) :
    Except Exception RawRange :=
  if source.peerState ≠ .merging ∧ source.peerState ≠ .normal then .error .unexpectedSourceState
  else if sourceInfo ≠ source.toMeta then .error .sourceNotMatch
  else if source.range.raw.start = [] ∨ source.range.raw.stop = target.range.raw.start then
    .ok ⟨source.range.raw.start, target.range.raw.stop⟩
  else .ok ⟨target.range.raw.start, source.range.raw.stop⟩

/-- The target with its new range -/
def mergedRegion (target : Region) (range : RegionRangeKeys) (sourceInfo : MetaRegion) (index : Nat) :
    Region :=
  { target with
    range := range
    version := max sourceInfo.version target.version + 1
    peerState := .normal
    appliedIndex := index }

/-- The locks of the two regions, and `CheckRegionForMergeCmd` if the response has the region
`response.split().left()`. -/
def checkMerged (merged : Region) (sourceID : RegionID) (left : Option MetaRegion) :
    Except Exception Unit :=
  if sourceID = merged.id then .error .deadlock
  else if left.any (· ≠ merged.toMeta) then .error .mergeResultNotMatch
  else .ok ()

def execCommitMerge (target : Region) (sourceInfo : MetaRegion) (left : Option MetaRegion)
    (index : Nat) : Except Exception (Store × Region) :=
  match s.regions.lookup sourceInfo.id with
  | none => .error (.sourceNotFound sourceInfo.id)
  | some source => do
    let raw ← checkBeforeCommitMerge target source sourceInfo
    let range ← rangeKeys raw
    let s ← s.extendRegionRange target.id range
    checkMerged (mergedRegion target range sourceInfo index) sourceInfo.id left
    return (s, mergedRegion target range sourceInfo index)

def handleCommitMerge (merged : Region) (sourceID : RegionID) : Store :=
  let s := { s with regions := s.regions.insert merged.id merged }
  (s.shrinkRegionRange merged).removeRegion sourceID

/-- A merge that was applied before only removes the source. -/
def commitMerge (sourceInfo : MetaRegion) (left : Option MetaRegion)
    (index : Nat) : Except Exception Store :=
  match s.regions.lookup id with
  | none => .ok s
  | some target =>
    if index ≤ target.appliedIndex then
      .ok (if sourceInfo.id ∈ s.regions then s.removeRegion sourceInfo.id else s)
    else do
      let (s, merged) ← s.execCommitMerge target sourceInfo left index
      return s.handleCommitMerge merged sourceInfo.id

/-! ## Snapshots and removals -/

def onSnapshot (new : Region) : Except Exception Store := do
  let s ← s.extendRegionRange new.id new.range
  return { s with regions := s.regions.insert new.id new }.shrinkRegionRange new

/-- The regions whose range overlaps with that of a snapshot. -/
def overlapping (new : Region) : List RegionID :=
  (s.regions.entries.filter fun e => e.2.range.overlaps new.range).map (·.1)

def tryApplySnapshot (new : Region) : Except Exception Store :=
  let oldIndex := (s.regions.lookup new.id).map (·.appliedIndex)
  if oldIndex.any (new.appliedIndex < ·) then .error (.newerIndex new.id)
  else if oldIndex = some new.appliedIndex then .ok s
  else
    match (s.overlapping new).find? (· ≠ new.id) with
    | some other => .error (.overlapped other)
    | none => s.onSnapshot new

def applySnapshot (info : MetaRegion) (index : Nat) : Except Exception Store := do
  s.tryApplySnapshot (← Region.ofMeta info index)

def destroy : Store :=
  if id ∈ s.regions then s.removeRegion id else s

end Store

/-! ## Runs -/

/-- What raft asks for -/
inductive Command where
  | batchSplit (id : RegionID) (infos : List MetaRegion) (index : Nat)
  | commitMerge (id : RegionID) (source : MetaRegion) (left : Option MetaRegion) (index : Nat)
  | applySnapshot (info : MetaRegion) (index : Nat)
  | destroy (id : RegionID)

variable (s : Store)

/-- One command -/
def Store.step : Command → Except Exception Store
  | .batchSplit id infos index => s.batchSplit id infos index
  | .commitMerge id source left index => s.commitMerge id source left index
  | .applySnapshot info index => s.applySnapshot info index
  | .destroy id => .ok (s.destroy id)

/-- The handlers run one after another; an exception ends the run. -/
def Store.run (commands : List Command) : Except Exception Store :=
  commands.foldlM Store.step s

/-- `Region::deserialize`: `mapped_table_id` is not persisted but computed from the range. -/
def Region.deserialize (region : Region) : Region := { region with mappedTableID := region.range.mappedTableID }

/-- `KVStore::restore` from the persisted regions, and `RegionTable::restore`. -/
def Store.restore (storeID : Nat) (persisted : List Region) : Store :=
  let s := (persisted.map Region.deserialize).foldl Store.emplace ⟨storeID, ∅, Tables.empty, []⟩
  s.regions.entries.foldl (fun s e => s.updateRegion e.2) s

/-! ## What should hold -/

/-- The region is registered under its table id, with a range that covers it. -/
def Store.Covered (region : Region) : Prop :=
  s.table.regions region.id = some region.mappedTableID ∧
    ∃ recorded, s.table.rangeInTable region.mappedTableID region.id = some recorded ∧
      recorded.Contains region.range.raw

/-- An extended range covers what it was and what it was given; a range only shrinks. -/
def Call.Ok : Call → Prop
  | .extend recorded given left => left.Contains recorded ∧ left.Contains given
  | .shrink recorded range => recorded.Contains range

/-- "The range in RegionTable is always >= range in KVStore." -/
structure Store.CoreRule (s : Store) : Prop where
  covered : ∀ id region, s.regions.lookup id = some region → region.id = id ∧ s.Covered region
  calls : ∀ call ∈ s.calls, call.Ok

/-- A split leaves the region that keeps the id in its range; no merge or snapshot changes whether a region
ends at a key. -/
def Command.KeepsBounds : Command → Prop
  | .batchSplit id infos index => ∀ curr, s.regions.lookup id = some curr → curr.appliedIndex < index →
    ∀ info ∈ infos, info.id = id → curr.range.raw.Contains info.range
  | .commitMerge id source _ index => ∀ target, s.regions.lookup id = some target →
    target.appliedIndex < index → source.range.stop = target.range.raw.start ∨
      (target.range.raw.stop = [] ↔ source.range.stop = [])
  | .applySnapshot info index => ∀ old, s.regions.lookup info.id = some old → old.appliedIndex < index →
    (old.range.raw.stop = [] ↔ info.range.stop = [])
  | .destroy _ => True

/-- Every command of a run meets a condition in the state it is handled in. -/
def Along (P : Store → Command → Prop) : Store → List Command → Prop
  | _, [] => True
  | s, command :: commands => P s command ∧ ∀ s', s.step command = .ok s' → Along P s' commands

end TiFlash.Transaction.RegionTable
