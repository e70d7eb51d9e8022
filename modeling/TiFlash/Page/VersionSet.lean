import TiFlash.Page.PageEntriesView
import TiFlash.Lib.BackList

/-!
# The version list of the page directory

`VersionSetWithDelta`: a list from `current` back to a base. Edits change `current` in place as long as
nobody else holds it, and otherwise a new delta behind it. A thread that releases a snapshot compacts the
part of the list it was reading and puts the result in the place of what it merged.

Versions live at addresses and are never taken out of the heap, since nothing refers to those that nobody
holds. Between the steps of a release other threads run.
-/

namespace TiFlash.Page

open TiFlash.Lib PageEntries

/-- A version and the one before it -/
structure VersionNode where
  entries : PageEntries
  prev : Option Nat

/-- Where the release of a snapshot stands -/
inductive Release
  /-- `tail` was found in the version list; its deltas are to be merged. -/
  | compactDeltas (tail : Nat)
  /-- The deltas up to `tail` are merged into `tmp`, whose `prev` is `base`. -/
  | rebaseDelta (tail : Nat) (tmp : PageEntries) (base : Option Nat)
  /-- The list up to `tail` is compacted; it may have to be merged into its base. -/
  | compactToBase (tail : Nat)
  /-- `tail` is merged into its base as `newBase`. -/
  | rebaseBase (tail : Nat) (newBase : PageEntries)

/-- The version of the snapshot -/
def Release.tail : Release → Nat
  | compactDeltas tail | rebaseDelta tail _ _ | compactToBase tail | rebaseBase tail _ => tail

/-- The versions that a release holds; `tmp` holds its base. -/
def Release.held : Release → List Nat
  | rebaseDelta tail _ base => tail :: base.toList
  | r => [r.tail]

/-- `VersionSetWithDelta`; `snapshots` has the tails of the live snapshots, `releases` the releases that
are under way. -/
structure VersionSet where
  config : VersionSetConfig
  heap : List VersionNode
  current : Nat
  snapshots : List Nat
  releases : List Release

namespace VersionSet

/-- One base without pages -/
def new (config : VersionSetConfig) : VersionSet where
  config := config
  heap := [{ entries := createBase, prev := none }]
  current := 0
  snapshots := []
  releases := []

variable (s : VersionSet) (tail : Nat)

/-- The addresses from `tail` on -/
def versions : List Nat := BackList.walk VersionNode.prev s.heap s.heap.length (some tail)

/-- `PageEntriesView` at a version -/
def view : PageEntriesView :=
  (s.versions tail).filterMap fun address => (s.heap[address]?).map VersionNode.entries

/-- `current.use_count()`: the version set itself, the snapshots, the releases and the versions that
refer to `current`. -/
def useCount : Nat := 1 + s.snapshots.count s.current + (s.releases.flatMap Release.held).count s.current
    + s.heap.countP fun node => node.prev == some s.current

def setEntries (address : Nat) (entries : PageEntries) : VersionSet :=
  { s with heap := s.heap.modify address fun node => { node with entries := entries } }

def appendVersion (v : PageEntries) : VersionSet := { s with
    heap := s.heap ++ [{ entries := v, prev := some s.current }]
    current := s.heap.length }

def applyDelta (edit : List EditRecord) : VersionSet × Option String :=
  match s.view s.current with
  | [] => (s, none)
  | current :: prev =>
    let (current, e) := DeltaVersionEditAcceptor.apply true prev current edit
    (s.setEntries s.current current, e)

def apply (edit : List EditRecord) : VersionSet × Option String :=
  match s.heap[s.current]? with
  | none => (s, none)
  | some node =>
    if s.useCount = 1 ∧ node.entries.isBase then
      (s.setEntries s.current (node.entries.applyInplace edit), none)
    else if s.useCount ≠ 1 then (s.appendVersion createDelta).applyDelta edit
    else s.applyDelta edit

def getSnapshot : VersionSet := { s with snapshots := s.snapshots ++ [s.current] }

/-- `isValidVersion`: `tail` is in the current version list. -/
def isValidVersion : Bool := decide (tail ∈ s.versions s.current)

/-- Put a new version in the place of the list up to `oldBase`, if `oldBase` is still in the
current version list. -/
def rebase (oldBase : Nat) (newBase : VersionNode) : Option VersionSet :=
  if s.isValidVersion oldBase then
    let s' := { s with heap := s.heap ++ [newBase] }
    if oldBase = s.current then some { s' with current := s.heap.length }
    else
      -- `q` is the version of the list whose `prev` is `oldBase`
      let q := (s.versions s.current).find? fun address =>
        (s.heap[address]?).bind VersionNode.prev == some oldBase
      match q with
      | none => some s'
      | some q =>
        some { s' with heap := s'.heap.modify q fun node => { node with prev := some s.heap.length } }
  else none

/-- The snapshot at index `i` goes away. Its thread looks for `tail` in the version list and starts to
compact if it is a delta there. -/
def release (i : Nat) : VersionSet :=
  match s.snapshots[i]? with
  | none => s
  | some tail =>
    let s' := { s with snapshots := s.snapshots.eraseIdx i }
    match s.heap[tail]? with
    | none => s'
    | some node =>
      if node.entries.isBase then s'
      else if s.isValidVersion tail then { s' with releases := s.releases ++ [.compactDeltas tail] }
      else s'

/-- The version `tmp` is linked to by `compactDeltas`: the base of the list. -/
def baseOf : Option Nat :=
  (s.versions tail).find? fun address => (s.heap[address]?).any fun node => node.entries.isBase

/-- The next step of a release: the state after it, and the release unless it has ended. -/
def releaseStep : Release → VersionSet × Option Release
  | .compactDeltas tail =>
    match compactDeltas (s.view tail) with
    | none => (s, some (.compactToBase tail))
    | some tmp => (s, some (.rebaseDelta tail tmp (s.baseOf tail)))
  | .rebaseDelta tail tmp base =>
    match s.rebase tail { entries := tmp, prev := base } with
    | none => (s, none)
    -- the new version is the last one on the heap
    | some s' => (s', some (.compactToBase s.heap.length))
  | .compactToBase tail =>
    match s.view tail with
    | delta :: oldBase :: _ =>
      if delta.shouldCompactToBase s.config then
        (s, some (.rebaseBase tail (compactDeltaAndBase oldBase delta)))
      else (s, none)
    | _ => (s, none)
  | .rebaseBase tail newBase =>
    match s.rebase tail { entries := newBase, prev := none } with
    | none => (s, none)
    | some s' => (s', none)

/-- A release does its next step. -/
def advance (j : Nat) : VersionSet :=
  match s.releases[j]? with
  | none => s
  | some r =>
    let (s', r') := s.releaseStep r
    { s' with
      releases := match r' with
        | none => s.releases.eraseIdx j
        | some r' => s.releases.set j r' }

/-- What threads do -/
inductive Action
  | apply (edit : List EditRecord)
  | getSnapshot
  | release (i : Nat)
  | advance (j : Nat)

/-- One action -/
def step : Action → VersionSet
  | .apply edit => (s.apply edit).1
  | .getSnapshot => s.getSnapshot
  | .release i => s.release i
  | .advance j => s.advance j

/-- Any interleaving of actions -/
def run (actions : List Action) : VersionSet := actions.foldl step s

end VersionSet

end TiFlash.Page
