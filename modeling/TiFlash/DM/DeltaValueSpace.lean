import TiFlash.DM.Block
import TiFlash.DM.RowKeyRange

/-!
# The delta value space of a segment

The delta of a segment is a list of packs in the order of the writes. Threads share packs, so packs, caches
and log pages are kept in stores indexed by pointers and page ids. Every operation is one critical section
of `DeltaValueSpace::mutex`.
-/

namespace TiFlash.DM

open Function

/-- `PackPtr`, by its number -/
abbrev PackPtr := Nat
/-- `CachePtr`, by its number -/
abbrev CachePtr := Nat
/-- Pages of the log storage -/
abbrev PageId := Nat

/-- A column of a schema -/
structure ColumnHeader where
  columnId : Int
  name : String
  typeName : String
  deriving DecidableEq, Repr

/-- A `BlockPtr` to a block without rows. Packs share schemas: `compact` and the serializer compare pointers,
`checkSchema` columns. -/
structure SchemaPtr where
  ptr : Nat
  columns : List ColumnHeader
  deriving DecidableEq, Repr

/-- A block with its header; `Cache` holds one. -/
structure DataBlock (c : Bool) (D : Type*) where
  columns : List ColumnHeader
  rows : List (Row (RowKey c) D)

/-- Without the id, which only `checkHeadAndCloneTail` looks at. The last field is no member of the source: it
records what was appended into the packs behind this one. -/
structure Pack (c : Bool) (D : Type*) where
  rows : Nat := 0
  bytes : Nat := 0
  schema : Option SchemaPtr := none
  deleteRange : Option (RowKeyRange c) := none
  dataPage : PageId := 0
  cache : Option CachePtr := none
  saved : Bool := false
  appendable : Bool := true
  origin : List (List (Row (RowKey c) D)) := []

namespace Pack

variable {c : Bool} {D : Type*} (p : Pack c D)

/-- The range of a pack of rows is the default one, which is empty. -/
def isDeleteRange : Bool :=
  match p.deleteRange with
  | some range => !range.none
  | none => false

def isCached : Bool := !p.isDeleteRange && p.cache.isSome

def dataFlushable : Bool := !p.isDeleteRange && p.dataPage = 0

/-- Rows may still be added. -/
def isAppendable : Bool := !p.isDeleteRange && p.dataPage = 0 && p.appendable && p.cache.isSome

end Pack

/-- What was appended: a row, or a range whose rows are deleted. -/
inductive DeltaItem (c : Bool) (D : Type*)
  | row (r : Row (RowKey c) D)
  | delete (range : RowKeyRange c)

/-! ## The meta page -/

/-- `serializePack`: an empty list of columns stands for "the schema of the pack before". -/
structure SerializedPack (c : Bool) where
  rows : Nat
  bytes : Nat
  deleteRange : Option (RowKeyRange c)
  dataPage : PageId
  columns : List ColumnHeader

/-- The page that `saveMeta` writes -/
structure MetaPage (c : Bool) where
  version : Nat
  savedPacks : Nat
  packs : List (SerializedPack c)

/-- A pack as it is restored -/
structure StoredPack (c : Bool) where
  rows : Nat
  bytes : Nat
  schema : Option (List ColumnHeader)
  deleteRange : Option (RowKeyRange c)
  dataPage : PageId

section Meta

variable {c : Bool} {D : Type*}

def currentVersion : Nat := 2

def serializePack (pack : Pack c D) (schema : Option SchemaPtr) : SerializedPack c :=
  ⟨pack.rows, pack.bytes, pack.deleteRange, pack.dataPage, (schema.map SchemaPtr.columns).getD []⟩

/-- The loop of `serializeSavedPacks`, which throws on a pack of rows without a schema. -/
def serializePacks (lastSchema : Option SchemaPtr) : List (Pack c D) → Option (List (SerializedPack c))
  | [] => some []
  | pack :: packs =>
    if !pack.saved then some []
    else if pack.isDeleteRange then
      (serializePack pack none :: ·) <$> serializePacks lastSchema packs
    else
      match pack.schema with
      | none => none
      | some schema =>
        -- Do not encode the schema if it is the same as previous one.
        if some schema ≠ lastSchema then
          (serializePack pack (some schema) :: ·) <$> serializePacks (some schema) packs
        else (serializePack pack none :: ·) <$> serializePacks lastSchema packs

/-- The saved packs at the front -/
def serializeSavedPacks (packs : List (Pack c D)) : Option (MetaPage c) :=
  (⟨currentVersion, (packs.takeWhile Pack.saved).length, ·⟩) <$> serializePacks none packs

def deserializePack (p : SerializedPack c) : StoredPack c :=
  ⟨p.rows, p.bytes, if p.columns = [] then none else some p.columns, p.deleteRange, p.dataPage⟩

/-- As for a pack -/
def StoredPack.isDeleteRange (p : StoredPack c) : Bool :=
  match p.deleteRange with
  | some range => !range.none
  | none => false

/-- The loop of `deserializePacks`; a pack of rows without a schema and none before it fails. -/
def deserializeLoop (lastSchema : Option (List ColumnHeader)) :
    Nat → List (SerializedPack c) → Option (List (StoredPack c))
  | 0, _ => some []
  | _ + 1, [] => none
  | n + 1, p :: ps =>
    let pack := deserializePack p
    if pack.isDeleteRange then (pack :: ·) <$> deserializeLoop lastSchema n ps
    else
      match pack.schema, lastSchema with
      | some schema, _ => (pack :: ·) <$> deserializeLoop (some schema) n ps
      | none, some schema =>
        ({ pack with schema := some schema } :: ·) <$> deserializeLoop (some schema) n ps
      | none, none => none

/-- Refuses a later version. -/
def deserializePacks (page : MetaPage c) : Option (List (StoredPack c)) :=
  if page.version > currentVersion then none else deserializeLoop none page.savedPacks page.packs

end Meta

/-! ## The state and the appends -/

/-- `DeltaValueSpace` with the objects and pages it points to. `bytes`, which nothing checks, and the
`last_try` counters are left out. -/
structure DeltaValueSpace (c : Bool) (D : Type*) where
  packAt : PackPtr → Pack c D
  cacheAt : CachePtr → DataBlock c D
  logPages : PageId → Option (List (Row (RowKey c) D))
  metaPage : MetaPage c
  nextPack : PackPtr
  nextCache : CachePtr
  nextSchema : Nat
  nextPage : PageId
  packs : List PackPtr
  rows : Nat
  deletes : Nat
  unsavedRows : Nat
  unsavedDeletes : Nat
  abandoned : Bool
  isUpdating : Bool

namespace DeltaValueSpace

variable {c : Bool} {D : Type*} (s : DeltaValueSpace c D)

/-- Changes one pack on the heap. -/
def modifyPack (p : PackPtr) (f : Pack c D → Pack c D) :
    DeltaValueSpace c D :=
  { s with packAt := update s.packAt p (f (s.packAt p)) }

/-- `std::make_shared<Pack>`; the pointer is `s.nextPack`. -/
def makePack (pack : Pack c D) : DeltaValueSpace c D :=
  { s with packAt := update s.packAt s.nextPack pack, nextPack := s.nextPack + 1 }

variable (block : DataBlock c D)

/-- `std::make_shared<Cache>`; the pointer is `s.nextCache`. -/
def makeCache : DeltaValueSpace c D :=
  { s with cacheAt := update s.cacheAt s.nextCache block, nextCache := s.nextCache + 1 }

/-- A new page with the rows -/
def writePackData (rows : List (Row (RowKey c) D)) : DeltaValueSpace c D :=
  { s with logPages := update s.logPages s.nextPage (some rows), nextPage := s.nextPage + 1 }

/-- Removes pages from the log. -/
def delPages (pages : List PageId) : DeltaValueSpace c D :=
  { s with logPages := fun page => if page ∈ pages then none else s.logPages page }

/-- Of the last pack that has one -/
def lastSchema : Option SchemaPtr :=
  s.packs.reverse.findSome? fun p => (s.packAt p).schema

def shareSchema (schema : SchemaPtr) : SchemaPtr :=
  match s.lastSchema with
  | some last => if schema.columns = last.columns then last else schema
  | none => schema

/-- `DeltaValueSpace::writePack`: a pack whose rows are in a page; the pointer is `s.nextPack`. -/
def writePack (bytes : Nat) :
    DeltaValueSpace c D :=
  { (s.writePackData block.rows).makePack
      { rows := block.rows.length
        bytes := bytes
        schema := some ⟨s.nextSchema, block.columns⟩
        dataPage := s.nextPage
        appendable := false
        origin := [block.rows] } with
    nextSchema := s.nextSchema + 1 }

/-- `packs.back()->appendable = false`, if there is a pack. -/
def closeLastPack : DeltaValueSpace c D :=
  match s.packs.getLast? with
  | some last => s.modifyPack last fun pack => { pack with appendable := false }
  | none => s

def appendToDisk (p : PackPtr) : Bool × DeltaValueSpace c D :=
  if s.abandoned then (false, s)
  else
    let s' := (s.modifyPack p fun pack =>
      { pack with schema := pack.schema.map s.shareSchema }).closeLastPack
    (true, { s' with
      packs := s.packs ++ [p]
      rows := s.rows + (s.packAt p).rows
      unsavedRows := s.unsavedRows + (s.packAt p).rows })

/-- The pack and the cache that `appendToCache` may add rows to. A last pack that is full or has another
schema is closed. Throws if pack and cache differ in schema. -/
def mutablePack (cacheLimitRows : Nat) (columns : List ColumnHeader) :
    Option (Option (PackPtr × CachePtr) × DeltaValueSpace c D) :=
  match s.packs.getLast? with
  | none => some (none, s)
  | some last =>
    match (s.packAt last).cache with
    | none => some (none, s)
    | some cp =>
      if !(s.packAt last).isAppendable then some (none, s)
      else if (s.packAt last).schema.map SchemaPtr.columns ≠ some (s.cacheAt cp).columns then none
      else if (s.cacheAt cp).rows.length < cacheLimitRows ∧ columns = (s.cacheAt cp).columns then
        some (some (last, cp), s)
      else some (none, s.modifyPack last fun pack => { pack with appendable := false })

/-- Adds rows to the cache of a pack and to its row count. -/
def appendToPack (p : PackPtr) (cp : CachePtr)
    (rows : List (Row (RowKey c) D)) (bytes : Nat) : DeltaValueSpace c D :=
  { s.modifyPack p fun pack =>
      { pack with
        rows := pack.rows + rows.length
        bytes := pack.bytes + bytes
        origin := [pack.origin.flatten ++ rows] } with
    cacheAt := update s.cacheAt cp
      { s.cacheAt cp with rows := (s.cacheAt cp).rows ++ rows } }

/-- Creates a pack with a cache of its own and appends it. -/
def appendNewPack (bytes : Nat) :
    DeltaValueSpace c D :=
  { (s.makeCache block).makePack
      { rows := block.rows.length
        bytes := bytes
        schema := some (s.shareSchema ⟨s.nextSchema, block.columns⟩)
        cache := some s.nextCache
        origin := [block.rows] } with
    nextSchema := s.nextSchema + 1
    packs := s.packs ++ [s.nextPack] }

/-- `DeltaValueSpace::appendToCache` of the rows `[offset, offset + limit)` of a block. -/
def appendToCache (cacheLimitRows : Nat) (block : DataBlock c D)
    (offset limit bytes : Nat) : Option (Bool × DeltaValueSpace c D) :=
  if s.abandoned then some (false, s)
  else
    let rows := (block.rows.drop offset).take limit
    match s.mutablePack cacheLimitRows block.columns with
    | none => none
    | some (target, s') =>
      let s'' :=
        match target with
        | some (p, cp) => s'.appendToPack p cp rows bytes
        | none => s'.appendNewPack ⟨block.columns, rows⟩ bytes
      some (true, { s'' with
        rows := s.rows + limit
        unsavedRows := s.unsavedRows + limit })

/-- A pack that is a delete range -/
def appendDeleteRange (range : RowKeyRange c) : Bool × DeltaValueSpace c D :=
  if s.abandoned then (false, s)
  else
    (true, { s.makePack { deleteRange := some range, appendable := false } with
      packs := s.packs ++ [s.nextPack]
      deletes := s.deletes + 1
      unsavedDeletes := s.unsavedDeletes + 1 })

/-- `DeltaValueSpace::abandon`; throws when it was abandoned before. -/
def abandon : Option (DeltaValueSpace c D) :=
  if s.abandoned then none else some { s with abandoned := true }

end DeltaValueSpace

end TiFlash.DM
