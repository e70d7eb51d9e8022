import TiFlash.Lib.Offsets

/-!
# Hash joins

The build side puts the right rows into a hash table; `joinBlock` probes it with every left row and applies
the other condition to the candidates.

A condition column holds `NULL` or a `UInt8` that is true when it is not zero. A comparison gives 0 or 1,
but any `UInt8` expression is taken as it is, and a constant expression gives a constant column.
-/

namespace TiFlash.Interpreters

open TiFlash.Lib

/-- `ASTTableJoin::Kind`, as far as joins of TiDB probe the left block only. -/
inductive Kind
  | inner
  | left
  | anti
  deriving DecidableEq, Repr

/-- With `any` a left row is returned once, with `all` with every match. -/
inductive Strictness
  | any
  | all
  deriving DecidableEq, Repr

/-- How a column is kept: a constant column has its value once. -/
inductive ColumnForm
  | full
  | const
  | constNullable
  deriving DecidableEq, Repr

/-- How a join fails -/
inductive JoinError
  /-- "Method getInt is not supported for Nullable(…)" -/
  | getIntNotSupported
  /-- `filter_column` is the null pointer that `checkAndGetColumn` returns for a constant column. -/
  | nullFilterColumn
  deriving DecidableEq, Repr

/-- The columns a row of the right table adds to the block. -/
abbrev Cells (w : Nat) (V : Type*) := Fin w → Option V

/-- `NULL` in every column of the right table. -/
def nulls {w : Nat} {V : Type*} : Cells w V := fun _ => none

/-- The value of a condition is neither `NULL` nor 0. -/
def isTrue : Option UInt8 → Bool
  | none => false
  | some b => b != 0

/-- A row of the left block; the table compares keys by the bytes that `K` stands for. -/
structure LeftRow (K L : Type*) where
  keys : List (Option K)
  filter : Option UInt8
  row : L

/-- A row of the right table -/
structure RightRow (w : Nat) (K V : Type*) where
  keys : List (Option K)
  filter : Option UInt8
  columns : Cells w V

/-- A join as `DAGQueryBlockInterpreter::executeJoin` makes it; `defaults` is what `insertDefault` adds to
right columns that are not nullable. -/
structure Join (w : Nat) (V L : Type*) where
  kind : Kind
  originalStrictness : Strictness
  leftFilterColumn : Bool
  rightFilterColumn : Bool
  otherCondition : Option (L → Cells w V → Option UInt8)
  defaults : Cells w V
  leftFilterForm : ColumnForm
  rightFilterForm : ColumnForm
  conditionForm : ColumnForm

variable {w : Nat} {K V L : Type*}

namespace Join

/-- The constructor: with an other condition every candidate is needed. -/
def strictness (j : Join w V L) : Strictness :=
  if j.otherCondition.isSome then .all else j.originalStrictness

/-- What `insertDefault` adds: a left join makes the right columns nullable. -/
def placeholder (j : Join w V L) : Cells w V :=
  if j.kind = .left then nulls else j.defaults

end Join

/-! ## Rows that join to nothing -/

/-- One row of the null map after `extractNestedColumnsAndNullMap` and `recordFilteredRows`. -/
def nullMap (filterColumn : Bool) (keys : List (Option K)) (filter : Option UInt8) : Bool :=
  keys.any Option.isNone || (filterColumn && !isTrue filter)

/-- The nested key columns of one row, read only where the null map is not set. -/
def nestedKeys (keys : List (Option K)) : List K := keys.filterMap id

/-! ## The build side -/

/-- `Join::RowRefList`: the first row of a key is in the table, the others hang behind it. -/
structure RowRefList (w : Nat) (V : Type*) where
  row : Cells w V
  next : List (Cells w V)

/-- The rows of a key -/
def RowRefList.toList (r : RowRefList w V) : List (Cells w V) := r.row :: r.next

/-- The hash table, by key. -/
abbrev Map (w : Nat) (K V : Type*) := List K → Option (RowRefList w V)

/-- With strictness `Any` a key keeps its first row; with `All` a further row is put in the second place of
the list. -/
def insert (strictness : Strictness) (row : Cells w V) : Option (RowRefList w V) → RowRefList w V
  | none => ⟨row, []⟩
  | some it =>
    match strictness with
    | .any => it
    | .all => ⟨it.row, row :: it.next⟩

/-- One row of `insertFromBlockImplTypeCase`. -/
def insertRow [DecidableEq K] (j : Join w V L) (map : Map w K V) (r : RightRow w K V) : Map w K V :=
  if nullMap j.rightFilterColumn r.keys r.filter then map
  else Function.update map (nestedKeys r.keys)
    (some (insert j.strictness r.columns (map (nestedKeys r.keys))))

/-- `Join::insertFromBlock` for all blocks of the right side. -/
def buildMap [DecidableEq K] (j : Join w V L) (rights : List (RightRow w K V)) : Map w K V :=
  rights.foldl (insertRow j) fun _ => none

/-! ## The probe -/

/-- What the probe builds up row by row -/
structure Probe (w : Nat) (V : Type*) where
  addedColumns : List (Cells w V)
  filter : List UInt8
  offsetsToReplicate : List Nat
  currentOffset : Nat

variable (j : Join w V L)

/-- `Adder::addFound`, by kind and strictness -/
def addFound (it : RowRefList w V) (p : Probe w V) : Probe w V :=
  match j.strictness, j.kind with
  | .any, .left => { p with addedColumns := p.addedColumns ++ [it.row] }
  | .any, .inner => { p with addedColumns := p.addedColumns ++ [it.row], filter := p.filter ++ [1] }
  | .any, .anti => { p with filter := p.filter ++ [0] }
  | .all, kind =>
    { addedColumns := p.addedColumns ++ it.toList
      currentOffset := p.currentOffset + it.toList.length
      offsetsToReplicate := p.offsetsToReplicate ++ [p.currentOffset + it.toList.length]
      -- the row may still fail the other condition: only say that the probe found it
      filter := if kind = .anti then p.filter ++ [0] else p.filter }

/-- `Adder::addNotFound`, by kind and strictness -/
def addNotFound (p : Probe w V) : Probe w V :=
  match j.strictness, j.kind with
  | .any, .left => { p with addedColumns := p.addedColumns ++ [j.placeholder] }
  | .any, .inner => { p with filter := p.filter ++ [0] }
  | .any, .anti =>
    { p with addedColumns := p.addedColumns ++ [j.placeholder], filter := p.filter ++ [1] }
  | .all, .inner => { p with offsetsToReplicate := p.offsetsToReplicate ++ [p.currentOffset] }
  | .all, kind =>
    { addedColumns := p.addedColumns ++ [j.placeholder]
      currentOffset := p.currentOffset + 1
      offsetsToReplicate := p.offsetsToReplicate ++ [p.currentOffset + 1]
      filter := if kind = .anti then p.filter ++ [1] else p.filter }

variable (map : Map w K V)

/-- The rows the table has for a left row, which has none if its null map is set -/
def find (l : LeftRow K L) : Option (RowRefList w V) :=
  if nullMap j.leftFilterColumn l.keys l.filter then none else map (nestedKeys l.keys)

/-- One row of `joinBlockImplTypeCase` -/
def probeRow (p : Probe w V) (l : LeftRow K L) : Probe w V :=
  match find j map l with
  | some it => addFound j it p
  | none => addNotFound j p

/-- `joinBlockImplTypeCase` -/
def probe (lefts : List (LeftRow K L)) : Probe w V :=
  lefts.foldl (probeRow j map) ⟨[], [], [], 0⟩

/-! ## Filtering a column -/

/-- `_mm_cmpgt_epi8` against zero: the bytes are compared as signed numbers. -/
def cmpgtZero (b : UInt8) : Bool := b != 0 && b < 128

variable {α : Type*} (filt : List UInt8)

/-- The values whose byte is not zero -/
def keep (xs : List α) : List α :=
  (List.zipWith (fun b x => if b = 0 then none else some x) filt xs).filterMap id

/-- Sixteen values at once: all or nothing where the mask says so, else one by one. -/
def filterChunk (xs : List α) : List α :=
  if filt.all (!cmpgtZero ·) then []
  else if filt.all cmpgtZero then xs
  else keep filt xs

/-- So many times sixteen values, and the rest one by one -/
def filterChunks : Nat → List UInt8 → List α → List α
  | 0, filt, xs => keep filt xs
  | n + 1, filt, xs =>
    filterChunk (filt.take 16) (xs.take 16) ++ filterChunks n (filt.drop 16) (xs.drop 16)

/-- `ColumnVector::filter`. The columns that look at one byte at a time agree with it as long as no
byte is 128 or more. -/
def filterColumn (xs : List α) : List α :=
  filterChunks (filt.length / 16) filt xs

/-! ## The other condition -/

/-- `row_filter[x] = !has_row_kept && filter[x]` along a group: its first true row. -/
def keepFirst : Bool → List UInt8 → List UInt8
  | _, [] => []
  | hasRowKept, b :: bs =>
    (if !hasRowKept && b != 0 then 1 else 0) :: keepFirst (hasRowKept || b != 0) bs

/-- `row_filter[start] = 1`. -/
def setStart : List UInt8 → List UInt8
  | [] => []
  | _ :: bs => 1 :: bs

/-- The loop over the rows of one group: for a semi or anti join at most one row is kept. -/
def keptRows (filter : List UInt8) : List UInt8 :=
  match j.originalStrictness with
  | .any => keepFirst false filter
  | .all => filter

/-- The row filter of the candidates of one left row -/
def rowFilterGroup (antiFilter : UInt8) (filter : List UInt8) : List UInt8 :=
  let rowFilter := keptRows j filter
  let hasRowKept := rowFilter.any (· != 0)
  match j.kind with
  | .inner => rowFilter
  | .left => if hasRowKept then rowFilter else setStart rowFilter
  | .anti =>
    if antiFilter ≠ 0 then setStart rowFilter
    else if hasRowKept then rowFilter.map fun _ => 0
    else setStart rowFilter

/-- The loop over the groups; the probe sets an anti filter for anti joins only. -/
def rowFilter (j : Join w V L) : List UInt8 → List (List UInt8) → List UInt8
  | antiFilter, group :: groups =>
    rowFilterGroup j (antiFilter.headD 0) group ++ rowFilter j antiFilter.tail groups
  | _, [] => []

/-- `ColumnNullable::applyNegatedNullMap` on the right columns of one row: `null |= 1 ^ filter`. -/
def applyNegatedNullMap (filter : UInt8) (cells : Cells w V) : Cells w V :=
  if 1 ^^^ filter = 0 then cells else nulls

/-- The byte of the condition for a row of the block; a `NULL` becomes 0. -/
def value (condition : L → Cells w V → Option UInt8) (l : L) (cells : Cells w V) : UInt8 :=
  (condition l cells).getD 0

variable (condition : L → Cells w V → Option UInt8) (antiFilter : List UInt8) (offsets : List Nat)
  (block : List (L × Cells w V))

/-- The filter for all columns of the block -/
def conditionFilter : List UInt8 :=
  let filter := block.map fun x => value condition x.1 x.2
  if j.kind = .inner ∧ j.originalStrictness = .all then filter
  else rowFilter j antiFilter (cutAt 0 offsets filter)

/-- `Join::handleOtherConditions`, for a condition column that is not constant -/
def handleOtherConditions : List (L × Cells w V) :=
  filterColumn (conditionFilter j condition antiFilter offsets block)
    (if j.kind = .left then
      List.zipWith (fun f x => (x.1, applyNegatedNullMap f x.2)) (block.map fun x => value condition x.1 x.2) block
    else block)

/-! ## Joining a block -/

/-- `Join::joinBlockImpl`: the columns of the left block after the probe. -/
def leftColumns (p : Probe w V) (lefts : List (LeftRow K L)) : List L :=
  match j.strictness, j.kind with
  | .any, .left => lefts.map (·.row)
  | .any, _ => filterColumn p.filter (lefts.map (·.row))
  | .all, _ => repeatBy 0 p.offsetsToReplicate (lefts.map (·.row))

/-- The block after the probe -/
def expandedBlock (p : Probe w V) (lefts : List (LeftRow K L)) : List (L × Cells w V) :=
  (leftColumns j p lefts).zip p.addedColumns

/-- The rows of the joined block, if all columns can be read -/
def joinRows [DecidableEq K] (j : Join w V L) (rights : List (RightRow w K V))
    (lefts : List (LeftRow K L)) : List (L × Cells w V) :=
  let p := probe j (buildMap j rights) lefts
  let block := expandedBlock j p lefts
  match j.otherCondition with
  | none => block
  | some condition => handleOtherConditions j condition p.filter p.offsetsToReplicate block

/-- The loop of `recordFilteredRows` asks a constant column of `Nullable` for a number. -/
def recordFails (filterColumn : Bool) (form : ColumnForm) (rows : Nat) : Bool :=
  filterColumn && form = .constNullable && rows != 0

/-- `Join::joinBlock` on one left block, after all right rows were inserted. -/
def joinBlock [DecidableEq K] (j : Join w V L) (rights : List (RightRow w K V))
    (lefts : List (LeftRow K L)) : Except JoinError (List (L × Cells w V)) :=
  if recordFails j.rightFilterColumn j.rightFilterForm rights.length then .error .getIntNotSupported
  else if recordFails j.leftFilterColumn j.leftFilterForm lefts.length then .error .getIntNotSupported
  else if j.otherCondition.isSome ∧ j.conditionForm ≠ .full then .error .nullFilterColumn
  else .ok (joinRows j rights lefts)

end TiFlash.Interpreters
