import TiFlash.DM.DeltaValueSpace

/-!
# Flush and compact of a delta value space

`flush` and `compact` hold the mutex while they prepare and while they commit their tasks, and write pages
in between. Each part is one function here. `none` stands for an exception.
-/

namespace TiFlash.DM

variable {c : Bool} {D : Type*}

/-! ## Reading and sorting the rows of a pack -/

/-- `isAlreadySorted` of the primary key. The quick attempt on ten positions can only find that a block is not
sorted. -/
def pkLe (a b : Row (RowKey c) D) : Bool :=
  a.handle < b.handle || (a.handle = b.handle && a.version ≤ b.version)

def isAlreadySorted : List (Row (RowKey c) D) → Bool
  | [] => true
  | [_] => true
  | a :: b :: rows => pkLe a b && isAlreadySorted (b :: rows)

/-- Whether the block had to be sorted, and the rows. -/
def sortBlockByPk (rows : List (Row (RowKey c) D)) : Bool × List (Row (RowKey c) D) :=
  if isAlreadySorted rows then (false, rows) else (true, rows.mergeSort pkLe)

namespace DeltaValueSpace

variable (s : DeltaValueSpace c D) (pack : Pack c D)

def readPackFromCache (cp : CachePtr) : DataBlock c D :=
  ⟨(s.cacheAt cp).columns, (s.cacheAt cp).rows.take pack.rows⟩

/-- Throws when there is no such page. -/
def readPackFromDisk : Option (List (Row (RowKey c) D)) :=
  (s.logPages pack.dataPage).map (List.take pack.rows)

def readPack : Option (List (Row (RowKey c) D)) :=
  if pack.isCached then pack.cache.map fun cp => (s.readPackFromCache pack cp).rows
  else s.readPackFromDisk pack

end DeltaValueSpace

/-! ## Flush -/

/-- Without the offsets of the delta index updates. -/
structure FlushPackTask (c : Bool) (D : Type*) where
  pack : PackPtr
  blockData : Option (DataBlock c D) := none
  dataPage : PageId := 0
  sorted : Bool := false

/-- The local variables of `flush` between its critical sections. -/
structure FlushTasks (c : Bool) (D : Type*) where
  tasks : List (FlushPackTask c D)
  flushRows : Nat
  flushDeletes : Nat
  /-- `WriteBatches::writtenLog` -/
  writtenLog : List PageId := []

namespace DeltaValueSpace

variable (s : DeltaValueSpace c D)

/-- Rows of all packs -/
def rowsOfPacks (ps : List PackPtr) : Nat :=
  (ps.map fun p => (s.packAt p).rows).sum

/-- Delete ranges among the packs -/
def deletesOfPacks (ps : List PackPtr) : Nat :=
  (ps.map fun p => (s.packAt p).isDeleteRange.toNat).sum

/-- The tasks of the unsaved packs. Throws at a saved pack behind an unsaved one, and at a pack of rows
without page and cache. -/
def flushPackTasks (s : DeltaValueSpace c D) (tasks : List (FlushPackTask c D)) :
    List PackPtr → Option (List (FlushPackTask c D))
  | [] => some tasks
  | p :: ps =>
    if !tasks.isEmpty && (s.packAt p).saved then none
    else if (s.packAt p).saved then s.flushPackTasks tasks ps
    else if (s.packAt p).dataFlushable then
      match (s.packAt p).cache with
      | none => none
      | some cp =>
        s.flushPackTasks
          (tasks ++ [{ pack := p, blockData := some (s.readPackFromCache (s.packAt p) cp) }]) ps
    else s.flushPackTasks (tasks ++ [{ pack := p }]) ps

/-- `flush`, the first critical section: `none` as inner result when it returns without tasks. -/
def flushPrepare :
    Option (Option (FlushTasks c D) × DeltaValueSpace c D) :=
  if s.abandoned then some (none, s)
  else
    match s.flushPackTasks [] s.packs with
    | none => none
    | some tasks =>
      let flushRows := s.rowsOfPacks (tasks.map FlushPackTask.pack)
      let flushDeletes := s.deletesOfPacks (tasks.map FlushPackTask.pack)
      -- Stop other threads appending to these packs.
      let s' := { s with
        packAt := fun p =>
          if p ∈ s.packs then { s.packAt p with appendable := false } else s.packAt p }
      if flushRows ≠ s.unsavedRows ∨ flushDeletes ≠ s.unsavedDeletes ∨ s.rowsOfPacks s.packs ≠ s.rows ∨
          s.deletesOfPacks s.packs ≠ s.deletes then none
      else if tasks.isEmpty then some (none, s')
      else some (some { tasks, flushRows, flushDeletes }, s')

def writeTasks (s : DeltaValueSpace c D) :
    List (FlushPackTask c D) → List (FlushPackTask c D) × DeltaValueSpace c D
  | [] => ([], s)
  | task :: tasks =>
    match task.blockData with
    | none =>
      let (tasks', s') := s.writeTasks tasks
      (task :: tasks', s')
    | some block =>
      let (sorted, rows) := sortBlockByPk block.rows
      let (tasks', s') := (s.writePackData rows).writeTasks tasks
      ({ task with blockData := some ⟨block.columns, rows⟩, dataPage := s.nextPage, sorted } :: tasks', s')

/-- `flush` between its critical sections. -/
def flushWrite (f : FlushTasks c D) : FlushTasks c D × DeltaValueSpace c D :=
  let (tasks, s') := s.writeTasks f.tasks
  ({ f with tasks, writtenLog := (tasks.map FlushPackTask.dataPage).filter (· ≠ 0) }, s')

/-- The packs behind those of the tasks, when the packs start with those of the tasks and none of them
has been saved. -/
def matchTasks (s : DeltaValueSpace c D) : List (FlushPackTask c D) → List PackPtr → Option (List PackPtr)
  | [], ps => some ps
  | _ :: _, [] => none
  | task :: tasks, p :: ps =>
    if p ≠ task.pack ∨ (s.packAt p).saved then none else s.matchTasks tasks ps

/-- The saved copy of the pack of a task; its pointer is `s.nextPack`. -/
def makeSavedPack (task : FlushPackTask c D) : DeltaValueSpace c D :=
  let pack := { s.packAt task.pack with
    -- Set saved to true, otherwise it cannot be serialized.
    saved := true
    -- If it's data have been updated, use the new pages info.
    dataPage := if task.dataPage ≠ 0 then task.dataPage else (s.packAt task.pack).dataPage }
  match task.sorted, task.blockData with
  -- Task pack was sorted, update it's cache data.
  | true, some block => (s.makeCache block).makePack { pack with cache := some s.nextCache }
  | _, _ => s.makePack pack

/-- The saved copies of the packs of the tasks: their pointers and the state with the objects. -/
def makeSavedPacks (s : DeltaValueSpace c D) :
    List (FlushPackTask c D) → List PackPtr × DeltaValueSpace c D
  | [] => ([], s)
  | task :: tasks =>
    let (ps, s') := (s.makeSavedPack task).makeSavedPacks tasks
    (s.nextPack :: ps, s')

def dropLargeCaches (smallPackRows : Nat) : DeltaValueSpace c D :=
  { s with
    packAt := fun p =>
      if p ∈ s.packs ∧ (s.packAt p).dataPage ≠ 0 ∧ smallPackRows ≤ (s.packAt p).rows then
        { s.packAt p with cache := none }
      else s.packAt p }

/-- `flush`, the second critical section. -/
def flushCommit (f : FlushTasks c D) (smallPackRows : Nat) :
    Option (Bool × DeltaValueSpace c D) :=
  if s.abandoned then some (false, s.delPages f.writtenLog)
  else
    let start := s.packs.takeWhile fun p => some p ≠ f.tasks.head?.map FlushPackTask.pack
    match s.matchTasks f.tasks (s.packs.drop start.length) with
    | none => some (false, s.delPages f.writtenLog)
    | some rest =>
      let (saved, s') := s.makeSavedPacks f.tasks
      let packs := start ++ saved ++ rest
      let unsaved := packs.filter fun p => !(s'.packAt p).saved
      if s'.rowsOfPacks unsaved + f.flushRows ≠ s.unsavedRows ∨
          s'.deletesOfPacks unsaved + f.flushDeletes ≠ s.unsavedDeletes ∨
          s'.rowsOfPacks packs ≠ s.rows ∨ s'.deletesOfPacks packs ≠ s.deletes then none
      else
        match serializeSavedPacks (packs.map s'.packAt) with
        | none => none
        | some page =>
          some (true, dropLargeCaches
            { s' with
              metaPage := page
              packs := packs
              unsavedRows := s.unsavedRows - f.flushRows
              unsavedDeletes := s.unsavedDeletes - f.flushDeletes } smallPackRows)

end DeltaValueSpace

/-! ## Compact -/

/-- Small packs and the pack that takes their place -/
structure CompactTask where
  toCompact : List PackPtr
  result : PackPtr

namespace DeltaValueSpace

variable (s : DeltaValueSpace c D)

/-- `is_updating.compare_exchange_strong(false, true)`: whether it was exchanged. -/
def startUpdating : Bool × DeltaValueSpace c D :=
  if s.isUpdating then (false, s) else (true, { s with isUpdating := true })

/-- Collects runs of small saved packs with one schema: the task at hand, the tasks and the packs whose caches
are dropped. Throws at a saved pack of rows without a page. -/
def compactTasks (s : DeltaValueSpace c D) (smallPackRows : Nat) (task : List PackPtr)
    (tasks : List (List PackPtr)) (dropped : List PackPtr) :
    List PackPtr → Option (List (List PackPtr) × List PackPtr)
  | [] => some (if task.length ≥ 2 then tasks ++ [task] else tasks, dropped)
  | p :: ps =>
    if !(s.packAt p).saved then
      some (if task.length ≥ 2 then tasks ++ [task] else tasks, dropped)
    else if (s.packAt p).dataFlushable then none
    else
      let smallPack := !(s.packAt p).isDeleteRange && (s.packAt p).rows < smallPackRows
      let schemaOk := task.isEmpty ||
        (s.packAt p).schema = task.getLast?.bind fun q => (s.packAt q).schema
      if !smallPack || !schemaOk then
        if smallPack then
          if task.length ≥ 2 then s.compactTasks smallPackRows [p] (tasks ++ [task]) dropped ps
          else s.compactTasks smallPackRows [p] tasks (dropped ++ task) ps
        else
          if task.length ≥ 2 then
            s.compactTasks smallPackRows [] (tasks ++ [task]) (dropped ++ [p]) ps
          else s.compactTasks smallPackRows [] tasks (dropped ++ task ++ [p]) ps
      else s.compactTasks smallPackRows (task ++ [p]) tasks dropped ps

/-- The packs lose their caches. -/
def dropCaches (ps : List PackPtr) : DeltaValueSpace c D :=
  { s with
    packAt := fun p => if p ∈ ps then { s.packAt p with cache := none } else s.packAt p }

/-- `compact`, the first critical section: the tasks; none when it returns. -/
def compactPrepare (smallPackRows : Nat) :
    Option (List (List PackPtr) × DeltaValueSpace c D) :=
  if s.abandoned then some ([], s)
  else
    match s.compactTasks smallPackRows [] [] [] s.packs with
    | none => none
    | some (tasks, dropped) => some (tasks, s.dropCaches dropped)

/-- Writes the rows of a task into one new pack, `s.nextPack`. Throws at a delete range and when a page is
missing. -/
def compactWrite (toCompact : List PackPtr) (bytes : Nat) :
    Option (DeltaValueSpace c D) :=
  if toCompact.any fun p => (s.packAt p).isDeleteRange then none
  else
    match toCompact.mapM fun p => s.readPack (s.packAt p) with
    | none => none
    | some blocks =>
      some ((s.writePackData blocks.flatten).makePack
        { rows := blocks.flatten.length
          bytes := bytes
          schema := toCompact.head?.bind fun p => (s.packAt p).schema
          dataPage := s.nextPage
          saved := true
          appendable := false
          origin := toCompact.flatMap fun p => (s.packAt p).origin })

/-- Puts the result of every task in place of the packs from its first to its last one; `none` when one
of them is not there. -/
def replaceTasks : List CompactTask → List PackPtr → Option (List PackPtr)
  | [], ps => some ps
  | task :: tasks, ps =>
    let before := ps.takeWhile fun p => some p ≠ task.toCompact.head?
    let fromBack := (ps.drop before.length).dropWhile fun p => some p ≠ task.toCompact.getLast?
    match fromBack with
    | [] => none
    | _ :: ps' => (before ++ task.result :: ·) <$> replaceTasks tasks ps'

def checkNewPacks (packs : List PackPtr) : Bool :=
  ((packs.dropWhile fun p => (s.packAt p).saved).all fun p => !(s.packAt p).saved) &&
    s.rowsOfPacks packs = s.rows && s.deletesOfPacks packs = s.deletes

/-- `compact`, the second critical section. The flag tells whether the old pages are to be removed. -/
def compactCommit (tasks : List CompactTask) (writtenLog : List PageId) :
    Option (Bool × DeltaValueSpace c D) :=
  if s.abandoned then some (false, s.delPages writtenLog)
  else
    match replaceTasks tasks s.packs with
    | none => some (false, s.delPages writtenLog)
    | some packs =>
      if !s.checkNewPacks packs then none
      else
        match serializeSavedPacks (packs.map s.packAt) with
        | none => none
        | some page => some (true, { s with metaPage := page, packs := packs })

end DeltaValueSpace

end TiFlash.DM
