import TiFlash.Lib.HashMap
import Mathlib.Data.Finset.Card

/-!
# Page entries

One version of the page directory: the ref pairs (`page_ref`, from an id to its normal page), the entries of
the normal pages, and for a delta the ids it deletes. A base is changed in place; a delta is merged when
versions are compacted.
-/

namespace TiFlash.Page

open TiFlash.Lib

abbrev PageId := Nat

/-- Where the data of a page lies in its page file. `ref` is the reference count of the normal page. -/
structure PageEntry where
  fileId : Nat := 0
  size : Nat := 0
  offset : Nat := 0
  tag : Nat := 0
  checksum : Nat := 0
  level : Nat := 0
  ref : UInt32 := 1
  fieldOffsets : List (Nat × Nat) := []
deriving DecidableEq, Repr

namespace PageEntry

def isTombstone (entry : PageEntry) : Bool := entry.ref == 0

end PageEntry

/-- A record of an edit -/
inductive EditRecord
  | put (pageId : PageId) (entry : PageEntry)
  | del (pageId : PageId)
  | ref (pageId oriPageId : PageId)
  | upsert (pageId : PageId) (entry : PageEntry)
deriving DecidableEq, Repr

/-- `PageEntriesForDelta` without its link to the version before it. -/
structure PageEntries where
  normalPages : HashMap PageId PageEntry := ∅
  pageRef : HashMap PageId PageId := ∅
  refDeletions : HashSet PageId := ∅
  maxPageId : PageId := 0
  isBase : Bool

namespace PageEntries

/-- A base without pages -/
def createBase : PageEntries := { isBase := true }

/-- A delta without changes -/
def createDelta : PageEntries := { isBase := false }

variable (v : PageEntries) (pageId : PageId)

/-- The pair of the source is an `Option`. -/
def isRefId : Option PageId := v.pageRef.lookup pageId

def resolveRefId : PageId := (v.isRefId pageId).getD pageId

def isRefDeleted : Bool := decide (pageId ∈ v.refDeletions)

/-! ### Changing a base in place -/

def put (entry : PageEntry) : PageEntries :=
  let normalPageId := v.resolveRefId pageId
  let isNewRefPairInserted := !decide (pageId ∈ v.pageRef)
  { v with
    pageRef := if isNewRefPairInserted then v.pageRef.insert pageId normalPageId else v.pageRef
    normalPages := v.normalPages.insert normalPageId <| match v.normalPages.lookup normalPageId with
      | none => { entry with ref := 1 }
      | some ori => { entry with ref := ori.ref + if isNewRefPairInserted then 1 else 0 }
    maxPageId := max v.maxPageId pageId }

def upsertPage (normalPageId : PageId) (entry : PageEntry) : PageEntries := { v with
    normalPages := v.normalPages.insert normalPageId <| match v.normalPages.lookup normalPageId with
      | some ori => { entry with ref := ori.ref }
      | none => { entry with ref := 0 }
    maxPageId := max v.maxPageId normalPageId }

/-- `decreasePageRef<false>`: a missing page is ignored. The count is a `UInt32` and wraps. -/
def decreasePageRef : PageEntries :=
  match v.normalPages.lookup pageId with
  | none => v
  | some entry =>
    let entry := { entry with ref := entry.ref - 1 }
    if entry.ref = 0 then { v with normalPages := v.normalPages.erase pageId }
    else { v with normalPages := v.normalPages.insert pageId entry }

def decreasePageRefMustExist : Except String PageEntries :=
  if pageId ∈ v.normalPages then .ok (v.decreasePageRef pageId)
  else .error ("Decreasing non-exist normal page[" ++ toString pageId ++ "] ref-count")

def del : PageEntries :=
  let normalPageId := v.resolveRefId pageId
  if pageId ∈ v.pageRef then
    ({ v with pageRef := v.pageRef.erase pageId }).decreasePageRef normalPageId
  else v

/-- The end of `ref`: bind `ref_id` to the normal page, whose entry is `entry`. -/
def buildRef (refId pageId normalPageId : PageId) (entry : PageEntry) : PageEntries := { v with
    pageRef := v.pageRef.insert refId normalPageId
    normalPages := v.normalPages.insert normalPageId { entry with ref := entry.ref + 1 }
    maxPageId := max v.maxPageId (max refId pageId) }

def ref (refId pageId : PageId) : Except String PageEntries :=
  let normalPageId := v.resolveRefId pageId
  match v.normalPages.lookup normalPageId with
  | none => .error ("Adding RefPage" ++ toString refId ++ " to non-exist Page" ++ toString pageId)
  | some entry =>
    match v.pageRef.lookup refId with
    | none => .ok (v.buildRef refId pageId normalPageId entry)
    | some oriRef =>
      if oriRef = normalPageId then .ok v
      else do
        -- the entry of `normalPageId` is not the one that is decreased
        let v ← v.decreasePageRefMustExist oriRef
        .ok (v.buildRef refId pageId normalPageId entry)

variable (current : PageEntries)

/-- One record of `DeltaVersionEditAcceptor::applyInplace`; an invalid ref is logged and ignored. -/
def applyInplaceRecord : EditRecord → PageEntries
  | .put pageId entry => current.put pageId entry
  | .del pageId => current.del pageId
  | .ref pageId oriPageId =>
    match current.ref pageId oriPageId with
    | .ok v => v
    | .error _ => current
  | .upsert pageId entry => current.upsertPage pageId entry

def applyInplace (edit : List EditRecord) : PageEntries := edit.foldl applyInplaceRecord current

/-! ### Compaction -/

def numDeletions : Nat := v.refDeletions.keys.length

def numRefEntries : Nat := v.pageRef.keys.length

def numNormalEntries : Nat := v.normalPages.keys.length

/-- The body of the first loop of `merge`. -/
def mergeDeletion (pageId : PageId) : PageEntries :=
  let v := { v with
    pageRef := v.pageRef.erase pageId
    refDeletions := if v.isBase then v.refDeletions else v.refDeletions.insert pageId () }
  v.decreasePageRef pageId

/-- The body of the second loop of `merge`. -/
def mergeRef (refId pageId : PageId) : PageEntries := { v with pageRef := v.pageRef.insert refId pageId }

/-- The body of the third loop of `merge`. -/
def mergePage (pageId : PageId) (entry : PageEntry) : PageEntries := { v with
    normalPages :=
      if entry.isTombstone && v.isBase then v.normalPages.erase pageId
      else v.normalPages.insert pageId entry }

variable (v rhs : PageEntries)

/-- Replay the delta `rhs` on `v`. -/
def merge : PageEntries :=
  let v := rhs.refDeletions.foldl (fun v pageId _ => v.mergeDeletion pageId) v
  let v := rhs.pageRef.foldl mergeRef v
  let v := rhs.normalPages.foldl mergePage v
  { v with maxPageId := max v.maxPageId rhs.maxPageId }

def copyEntries : PageEntries := { rhs with isBase := v.isBase }

/-- A new base -/
def compactDeltaAndBase (oldBase delta : PageEntries) : PageEntries :=
  (createBase.copyEntries oldBase).merge delta

/-- `compactDeltas` of a version list that is given from its tail to its base: nothing for a list with
only one delta. -/
def compactDeltas : List PageEntries → Option PageEntries
  | [] => none
  | [_] => none
  | tail :: prev :: nodes =>
    if prev.isBase then none
    else
      let deltas := (tail :: prev :: nodes).filter fun node => !node.isBase
      -- merge delta forward
      some (deltas.foldr (fun node tmp => tmp.merge node) createDelta)

end PageEntries

/-- The thresholds of a compaction -/
structure VersionSetConfig where
  compactHintDeltaDeletions : Nat := 5000
  compactHintDeltaEntries : Nat := 200 * 1000

def PageEntries.shouldCompactToBase (v : PageEntries) (config : VersionSetConfig) : Bool :=
  decide (config.compactHintDeltaDeletions ≤ v.numDeletions)
    || decide (config.compactHintDeltaEntries ≤ v.numRefEntries)
    || decide (config.compactHintDeltaEntries ≤ v.numNormalEntries)

end TiFlash.Page
