import TiFlash.DM.Block
import TiFlash.DM.RowKeyRange
import TiFlash.Lib.BinarySearch

/-!
# Filtering by a row key range

`DMRowKeyFilterBlockInputStream<true>` passes on the rows of sorted blocks in a range, found by bisection; a
block of a clean read, whose handle column is constant, is passed on or dropped as a whole. `DMFilePackFilter`
decides which packs a read looks at: unless the range claims to be `all()`, it checks
`start <= handle AND handle < end` against the min-max index of the handle column.
-/

namespace TiFlash.DM

open TiFlash.Lib

section

variable {c : Bool} {D : Type*}

/-- `lowerBound(rowkey_column, 0, size, value)` -/
def lowerBound (keys : List (RowKey c)) (value : RowKeyValueRef c) : Nat :=
  bisect (fun index => value.compare (keys.getD index default).toRef > 0) 0 keys.length

/-- Offset and limit of the rows in the range. The subtraction does not wrap around: no reader has a range
that ends before its start. -/
def RowKeyRange.getPosRange (range : RowKeyRange c) (keys : List (RowKey c)) : Nat × Nat :=
  let startIndex :=
    if range.check (keys.getD 0 default) then 0
    else lowerBound keys range.start.toRowKeyValueRef
  let endIndex :=
    if range.check (keys.getD (keys.length - 1) default) then keys.length
    else lowerBound keys range.stop.toRowKeyValueRef
  (startIndex, endIndex - startIndex)

/-- `RowKeyFilter::cutBlock`; the empty `Block` has no rows. -/
def cutBlock (rows : List (Row (RowKey c) D)) (offset limit : Nat) : List (Row (RowKey c) D) :=
  if limit = 0 then []
  else if offset = 0 ∧ limit = rows.length then rows
  else if offset = 0 then rows.take (rows.length - (rows.length - limit))
  else (rows.drop offset).take limit

def filterSorted (range : RowKeyRange c) (rows : List (Row (RowKey c) D)) : List (Row (RowKey c) D) :=
  let (offset, limit) := range.getPosRange (rows.map Row.handle)
  cutBlock rows offset limit

/-- The blocks that `DMRowKeyFilterBlockInputStream<true>::read` returns. A constant block out of the range
ends the stream. -/
def rowKeyFilter (range : RowKeyRange c) : List (Block (RowKey c) D) → List (Block (RowKey c) D)
  | [] => []
  | b :: bs =>
    match b.rows with
    | [] => rowKeyFilter range bs
    | r :: _ =>
      if b.isColumnConst then
        if range.check r.handle then b :: rowKeyFilter range bs else []
      else
        let res := filterSorted range b.rows
        if res.length = 0 then rowKeyFilter range bs else .ofRows res :: rowKeyFilter range bs

end

/-! ## Pack selection -/

def extraHandleColumnId : ColId := -1

/-- `EXTRA_HANDLE_COLUMN_STRING_TYPE` and `EXTRA_HANDLE_COLUMN_INT_TYPE` -/
def handleType : Bool → DataType
  | true => .string
  | false => .int 64

def handleValue : {c : Bool} → RowKey c → (handleType c).Carrier
  | _, .int v => v.val
  | _, .common bytes => bytes

variable {c : Bool} {D : Type*}

/-- A row as the index of the handle column sees it. -/
def handleCell (r : Row (RowKey c) D) : Cell (handleType c).Carrier := ⟨false, handleValue r.handle, r.tag⟩

variable (packs : List (List (Row (RowKey c) D)))

/-- The index of the handle column after every pack has been written. -/
def handleIndex : RSIndex := ⟨handleType c, packs.map fun rows => addPack (rows.map handleCell)⟩

/-- `loadIndex(EXTRA_HANDLE_COLUMN_ID)` -/
def handleParam : RSCheckParam :=
  fun col => if col = extraHandleColumnId then some (handleIndex packs) else none

/-- The end of a range as the literal of a comparison: `int_value`, or the bytes of `value`. -/
def keyField : {c : Bool} → RowKey c → Field
  | _, .int v => .int64 v.val
  | _, .common bytes => .string bytes

variable (range : RowKeyRange c)

/-- The range as a filter -/
def toFilter : RSOperator :=
  let attr : Attr := ⟨extraHandleColumnId, handleType c⟩
  .and (.greaterEqual attr (keyField range.start.key)) [.less attr (keyField range.stop.key)]

/-- `DMFilePackFilter::handle_res[i]` -/
def handleRes (packs : List (List (Row (RowKey c) D))) (i : Nat) : RSResult :=
  if range.all then .all else (toFilter range).roughCheck (handleParam packs) i

end TiFlash.DM
