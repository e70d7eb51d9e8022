import TiFlash.Page.PageEntries
import Mathlib.Data.Finset.Union

/-!
# Views of a version list

`PageEntriesView` reads a list of versions, from its tail (the newest delta) to its base, as one directory.
`DeltaVersionEditAcceptor` applies an edit to the tail; what the records mean is looked up in the whole
list.
-/

namespace TiFlash.Page

open TiFlash.Lib

/-- The version list of a view, the tail first. -/
abbrev PageEntriesView := List PageEntries

namespace PageEntriesView

/-- The first loop of `find`: the normal page a page id stands for. -/
def findRef : PageEntriesView → PageId → Option PageId
  | [], _ => none
  | node :: prev, pageId =>
    if node.isRefDeleted pageId then none
    else
      match node.pageRef.lookup pageId with
      | some normalPageId => some normalPageId
      | none => findRef prev pageId

def findNormalPageEntry : PageEntriesView → PageId → Option PageEntry
  | [], _ => none
  | node :: prev, pageId =>
    match node.normalPages.lookup pageId with
    | some entry => some entry
    | none => findNormalPageEntry prev pageId

variable (view : PageEntriesView)

def find (pageId : PageId) : Except String (Option PageEntry) :=
  match findRef view pageId with
  | none => .ok none
  | some normalPageId =>
    match findNormalPageEntry view normalPageId with
    | some entry => .ok (some entry)
    | none => .error
        ("Accessing RefPage" ++ toString pageId ++ " to non-exist Page" ++ toString normalPageId)

/-- The deltas are asked for deletions, the base is not. -/
def isRefId : PageEntriesView → PageId → Option PageId
  | [], _ => none
  | node :: prev, pageId =>
    if node.isBase then node.isRefId pageId
    else if node.isRefDeleted pageId then none
    else
      match node.pageRef.lookup pageId with
      | some normalPageId => some normalPageId
      | none => isRefId prev pageId

def resolveRefId (pageId : PageId) : PageId := (view.isRefId pageId).getD pageId

/-- From the base to the tail: each version erases what it deletes, then inserts what it
binds. -/
def validPageIds : Finset PageId :=
  view.foldr (fun node validPages =>
    let validPages :=
      if node.isBase then validPages
      else node.refDeletions.foldl (fun pages deletedId _ => pages.erase deletedId) validPages
    node.pageRef.foldl (fun pages refId _ => insert refId pages) validPages) ∅

def validNormalPageIds : Finset PageId :=
  view.foldr (fun node validNormalPages =>
    node.normalPages.foldl (fun pages pageId entry =>
      if entry.isTombstone then pages.erase pageId else insert pageId pages) validNormalPages) ∅

/-- Here each version inserts what it binds, then erases what it deletes. -/
def numPages : Nat :=
  (view.foldr (fun node pageIds =>
    let pageIds := node.pageRef.foldl (fun pages refId _ => insert refId pages) pageIds
    node.refDeletions.foldl (fun pages pageIdToDel _ => pages.erase pageIdToDel) pageIds)
    (∅ : Finset PageId)).card

end PageEntriesView

/-! ### Applying an edit to the delta at the tail

The delta is `current`, the versions before it are `prev`, and the view of the acceptor is
`current :: prev`. -/

namespace DeltaVersionEditAcceptor

open PageEntriesView

variable (prev : PageEntriesView) (current : PageEntries)

/-- A page without references stays as a tombstone. -/
def decreasePageRef (pageId : PageId) : PageEntries :=
  match findNormalPageEntry (current :: prev) pageId with
  | none => current
  | some oldEntry =>
    let entry := { oldEntry with ref := if oldEntry.ref ≤ 1 then 0 else oldEntry.ref - 1 }
    { current with normalPages := current.normalPages.insert pageId entry }

def applyPut (pageId : PageId) (entry : PageEntry) :
    Except String PageEntries :=
  let refId := isRefId (current :: prev) pageId
  let normalPageId := refId.getD pageId
  let oldEntry := findNormalPageEntry (current :: prev) normalPageId
  if refId.isSome && oldEntry.isNone then
    .error ("Accessing RefPage" ++ toString pageId ++ " to non-exist Page" ++ toString normalPageId)
  else
    let entry :=
      match oldEntry with
      | none => { entry with ref := 1 }
      | some oldEntry => { entry with ref := oldEntry.ref + if refId.isSome then 0 else 1 }
    .ok { current with
      normalPages := current.normalPages.insert normalPageId entry
      -- `emplace` keeps a pair that is there
      pageRef :=
        if refId.isSome || decide (pageId ∈ current.pageRef) then current.pageRef
        else current.pageRef.insert pageId normalPageId
      refDeletions := current.refDeletions.erase pageId
      maxPageId := max current.maxPageId pageId }

def applyDel (pageId : PageId) : PageEntries :=
  let refId := isRefId (current :: prev) pageId
  let current := { current with
    refDeletions := current.refDeletions.insert pageId ()
    pageRef := current.pageRef.erase pageId }
  match refId with
  | some normalPageId => decreasePageRef prev current normalPageId
  | none => current

/-- The end of `applyRef`: bind `page_id` to the normal page, whose entry is `oldEntry`. -/
def bindRef (pageId normalPageId : PageId) (oldEntry : PageEntry) : PageEntries :=
  { current with
    pageRef := current.pageRef.insert pageId normalPageId
    normalPages := current.normalPages.insert normalPageId { oldEntry with ref := oldEntry.ref + 1 }
    refDeletions := current.refDeletions.erase pageId
    maxPageId := max current.maxPageId pageId }

variable (ignoreInvalidRef : Bool)

def applyRef (prev : PageEntriesView) (current : PageEntries)
    (pageId oriPageId : PageId) : Except String PageEntries :=
  let normalPageId := resolveRefId (current :: prev) oriPageId
  match findNormalPageEntry (current :: prev) normalPageId with
  | none =>
    if ignoreInvalidRef then .ok current
    else .error ("Try to add RefPage" ++ toString pageId ++ " to non-exist Page" ++ toString oriPageId)
  | some oldEntry =>
    match isRefId (current :: prev) pageId with
    | none => .ok (bindRef current pageId normalPageId oldEntry)
    | some oldNormalId =>
      if oldNormalId = normalPageId then .ok current
      else .ok (bindRef (decreasePageRef prev current oldNormalId) pageId normalPageId oldEntry)

/-- One record of an edit -/
def applyRecord (prev : PageEntriesView) (current : PageEntries) :
    EditRecord → Except String PageEntries
  | .put pageId entry => applyPut prev current pageId entry
  | .del pageId => .ok (applyDel prev current pageId)
  | .ref pageId oriPageId => applyRef ignoreInvalidRef prev current pageId oriPageId
  | .upsert _ _ => .error "WriteType::UPSERT should only write by gcApply!"

/-- The delta after the edit, and the exception if a record raises one. The records before it
stay applied. -/
def apply (ignoreInvalidRef : Bool) (prev : PageEntriesView) (current : PageEntries) :
    List EditRecord → PageEntries × Option String
  | [] => (current, none)
  | rec :: recs =>
    match applyRecord ignoreInvalidRef prev current rec with
    | .ok current => apply ignoreInvalidRef prev current recs
    | .error e => (current, some e)

end DeltaVersionEditAcceptor

end TiFlash.Page
