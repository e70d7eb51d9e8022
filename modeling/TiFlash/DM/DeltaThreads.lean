import TiFlash.DM.FlushCompact

/-!
# Threads on a delta value space

Threads append to, flush, compact and abandon one delta value space. A step is one critical section, or what
`flush` or `compact` do between two of them. Everything appended is recorded.
-/

namespace TiFlash.DM

variable {c : Bool} {D : Type*}

/-- A new instance counts the rows and delete ranges of its packs. -/
def DeltaValueSpace.setUp (s : DeltaValueSpace c D) : DeltaValueSpace c D :=
  let unsaved := s.packs.filter fun p => !(s.packAt p).saved
  { s with
    rows := s.rowsOfPacks s.packs
    deletes := s.deletesOfPacks s.packs
    unsavedRows := s.rowsOfPacks unsaved
    unsavedDeletes := s.deletesOfPacks unsaved
    abandoned := false
    isUpdating := false }

/-- Where a thread stands in its operation -/
inductive Thread (c : Bool) (D : Type*)
  | idle
  /-- `flush` has collected its tasks. -/
  | flushPrepared (f : FlushTasks c D)
  /-- `flush` has written the pages of its tasks. -/
  | flushWritten (f : FlushTasks c D)
  /-- `compact` has set `is_updating`. -/
  | compactStarted
  /-- `compact` writes its tasks one by one. -/
  | compactWriting (pending : List (List PackPtr)) (tasks : List CompactTask)
      (writtenLog removedLog : List PageId)
  /-- `compact` has only to remove pages and to reset `is_updating`. -/
  | compactFinished (removedLog : List PageId)
  /-- Somebody holds a snapshot that was created for an update. -/
  | updateSnapshot

/-- A delta, the threads that work on it, and what was appended -/
structure DeltaSystem (c : Bool) (D : Type*) where
  delta : DeltaValueSpace c D
  threads : Nat → Thread c D
  appended : List (DeltaItem c D)

namespace DeltaSystem

/-- One thread moves on. -/
def update (s : DeltaSystem c D) (t : Nat) (thread : Thread c D) (delta : DeltaValueSpace c D) :
    DeltaSystem c D :=
  { s with delta := delta, threads := Function.update s.threads t thread }

/-- A thread ends an append: what it appended is recorded when it succeeded. -/
def append (s : DeltaSystem c D) (items : List (DeltaItem c D)) (res : Bool × DeltaValueSpace c D) :
    DeltaSystem c D :=
  { s with delta := res.2, appended := if res.1 then s.appended ++ items else s.appended }

/-- One step of one thread. A written block has the columns of the table, and a delete range is not empty
(`deleteRange` cuts it to the segment of its start). -/
inductive Step : DeltaSystem c D → DeltaSystem c D → Prop
  | appendToCache (s : DeltaSystem c D) (cacheLimitRows : Nat) (block : DataBlock c D)
      (offset limit bytes : Nat) (res : Bool × DeltaValueSpace c D) (hcolumns : block.columns ≠ [])
      (hlimit : offset + limit ≤ block.rows.length)
      (hres : s.delta.appendToCache cacheLimitRows block offset limit bytes = some res) :
      Step s (s.append (((block.rows.drop offset).take limit).map .row) res)
  /-- The pack was written before to an object and a page that no other thread knows. -/
  | appendToDisk (s : DeltaSystem c D) (block : DataBlock c D) (bytes : Nat)
      (hcolumns : block.columns ≠ []) :
      Step s (s.append (block.rows.map .row) ((s.delta.writePack block bytes).appendToDisk s.delta.nextPack))
  | appendDeleteRange (s : DeltaSystem c D) (range : RowKeyRange c) (hrange : range.none = false) :
      Step s (s.append [.delete range] (s.delta.appendDeleteRange range))
  | abandon (s : DeltaSystem c D) (delta : DeltaValueSpace c D) (h : s.delta.abandon = some delta) :
      Step s { s with delta := delta }
  | flushPrepare (s : DeltaSystem c D) (t : Nat) (f : Option (FlushTasks c D))
      (delta : DeltaValueSpace c D) (ht : s.threads t = .idle)
      (h : s.delta.flushPrepare = some (f, delta)) :
      Step s (s.update t (f.elim .idle .flushPrepared) delta)
  | flushWrite (s : DeltaSystem c D) (t : Nat) (f : FlushTasks c D)
      (ht : s.threads t = .flushPrepared f) :
      Step s (s.update t (.flushWritten (s.delta.flushWrite f).1) (s.delta.flushWrite f).2)
  | flushCommit (s : DeltaSystem c D) (t : Nat) (f : FlushTasks c D) (smallPackRows : Nat)
      (res : Bool × DeltaValueSpace c D) (ht : s.threads t = .flushWritten f)
      (h : s.delta.flushCommit f smallPackRows = some res) :
      Step s (s.update t .idle res.2)
  | compactStart (s : DeltaSystem c D) (t : Nat) (ht : s.threads t = .idle) :
      Step s (s.update t (if s.delta.startUpdating.1 then .compactStarted else .idle) s.delta.startUpdating.2)
  | compactPrepare (s : DeltaSystem c D) (t : Nat) (smallPackRows : Nat) (tasks : List (List PackPtr))
      (delta : DeltaValueSpace c D) (ht : s.threads t = .compactStarted)
      (h : s.delta.compactPrepare smallPackRows = some (tasks, delta)) :
      Step s (s.update t (if tasks.isEmpty then .compactFinished [] else .compactWriting tasks [] [] [])
        delta)
  | compactWrite (s : DeltaSystem c D) (t : Nat) (bytes : Nat) (toCompact : List PackPtr)
      (pending : List (List PackPtr)) (tasks : List CompactTask) (writtenLog removedLog : List PageId)
      (delta : DeltaValueSpace c D)
      (ht : s.threads t = .compactWriting (toCompact :: pending) tasks writtenLog removedLog)
      (h : s.delta.compactWrite toCompact bytes = some delta) :
      Step s (s.update t (.compactWriting pending (tasks ++ [⟨toCompact, s.delta.nextPack⟩])
          (writtenLog ++ [s.delta.nextPage])
          (removedLog ++ toCompact.map fun p => (s.delta.packAt p).dataPage)) delta)
  | compactCommit (s : DeltaSystem c D) (t : Nat) (tasks : List CompactTask)
      (writtenLog removedLog : List PageId) (res : Bool × DeltaValueSpace c D)
      (ht : s.threads t = .compactWriting [] tasks writtenLog removedLog)
      (h : s.delta.compactCommit tasks writtenLog = some res) :
      Step s (s.update t (.compactFinished (if res.1 then removedLog else [])) res.2)
  /-- `writeRemoves` and the end of the scope. -/
  | compactFinish (s : DeltaSystem c D) (t : Nat) (removedLog : List PageId)
      (ht : s.threads t = .compactFinished removedLog) :
      Step s (s.update t .idle { s.delta.delPages removedLog with isUpdating := false })
  /-- `createSnapshot` for an update; when the instance is abandoned nobody resets the flag. -/
  | createSnapshot (s : DeltaSystem c D) (t : Nat) (ht : s.threads t = .idle) :
      Step s (s.update t (if s.delta.startUpdating.1 && !s.delta.abandoned then .updateSnapshot else .idle)
        s.delta.startUpdating.2)
  | releaseSnapshot (s : DeltaSystem c D) (t : Nat) (ht : s.threads t = .updateSnapshot) :
      Step s (s.update t .idle { s.delta with isUpdating := false })

end DeltaSystem

end TiFlash.DM
