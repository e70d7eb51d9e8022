import TiFlash.DM.RoughSet
import TiFlash.Lib.ThreeValued

/-!
# From a DAG condition to a rough set filter

`FilterParser::parseDAGQuery` turns `tipb::Expr` trees into an `RSOperator`; what it cannot use becomes
`Unsupported`, which answers `Some`. The second half says what the conditions mean for a row, in SQL's
three-valued logic; a function unknown to the parser may evaluate to anything.
-/

namespace TiFlash.DM

open TiFlash.Lib

/-- The type codes of `TiDB::TP`. -/
inductive TiDBType where
  | tiny | short | long | longLong | int24 | year
  | newDate | date | time | datetime
  | timestamp
  | varchar | json | tinyBlob | mediumBlob | longBlob | blob | varString | string
  | decimal | newDecimal | float | double | null | bit | enum | set | geometry
  deriving DecidableEq, Repr

/-- The argument kinds a comparison signature exists for. -/
inductive ArgKind where
  | int | real | string | decimal | time | duration | json
  deriving DecidableEq, Repr

/-- `tipb::ScalarFuncSig`: the signatures of `scalar_func_rs_filter_map` by name, any other by
number. -/
inductive ScalarFuncSig where
  | lt (kind : ArgKind)
  | le (kind : ArgKind)
  | gt (kind : ArgKind)
  | ge (kind : ArgKind)
  | eq (kind : ArgKind)
  | ne (kind : ArgKind)
  | logicalAnd
  | logicalOr
  | unaryNotDecimal
  | unaryNotInt
  | unaryNotReal
  | other (code : Nat)
  deriving DecidableEq, Repr

/-- `tipb::Expr`. -/
inductive Expr where
  /-- A column of the table scan, by position, with its field type if it was sent. -/
  | columnRef (index : Int) (fieldType : Option TiDBType)
  /-- A literal with what `decodeLiteral` makes of it; it throws on the kinds it does not know. -/
  | literal (value : Except String Field)
  | scalarFunc (sig : ScalarFuncSig) (children : List Expr)
  | aggFunc (children : List Expr)

namespace FilterParser

/-- The comparisons among `FilterParser::RSFilterType`. -/
inductive Comparison where
  | equal | notEqual | greater | greaterEqual | less | lessEqual
  deriving DecidableEq, Repr

/-- The other entries of `FilterParser::RSFilterType` that the map uses. -/
inductive RSFilterType where
  | not
  | and
  | or
  | compare (op : Comparison)
  deriving DecidableEq, Repr

/-- The functions that a rough check knows -/
def scalarFuncRsFilterMap : ScalarFuncSig → Option RSFilterType
  | .lt _ => some (.compare .less)
  | .le _ => some (.compare .lessEqual)
  | .gt _ => some (.compare .greater)
  | .ge _ => some (.compare .greaterEqual)
  | .eq _ => some (.compare .equal)
  | .ne _ => some (.compare .notEqual)
  | .logicalAnd => some .and
  | .logicalOr => some .or
  | .unaryNotDecimal | .unaryNotInt | .unaryNotReal => some .not
  | .other _ => none

/-- Scalar and aggregate functions -/
def isFunctionExpr : Expr → Bool
  | .scalarFunc .. | .aggFunc _ => true
  | _ => false

/-- Integers, dates and times -/
def isRoughSetFilterSupportType : TiDBType → Bool
  | .tiny | .short | .long | .longLong | .int24 | .year => true
  | .newDate | .date | .time | .datetime => true
  | _ => false

/-- The id of a column by its index -/
def getColumnIDForColumnExpr (columnsToRead : List ColId) (index : Int) : Except String ColId :=
  if index < 0 ∨ index ≥ columnsToRead.length then
    throw s!"Column index out of bound: {index}, should in [0,{columnsToRead.length})"
  else match columnsToRead[index.toNat]? with
    | some id => pure id
    | none => throw "Column index out of bound"

/-- The column and the literal met so far in the children of a comparison. -/
structure CompareState where
  attr : Option Attr
  value : Option Field

variable (columnsToRead : List ColId) (creator : ColId → DataType)

/-- One child of a comparison; the outer `none` stands for `return createUnsupported(..)`. -/
def parseCompareChild (state : CompareState) : Expr → Except String (Option CompareState)
  | .columnRef _ none => pure none
  | .columnRef index (some fieldType) =>
    if !isRoughSetFilterSupportType fieldType then pure none
    else do
      let id ← getColumnIDForColumnExpr columnsToRead index
      pure (some { state with attr := some ⟨id, creator id⟩ })
  | .literal value => do
    let v ← value
    pure (some { state with value := some v })
  | _ => pure (some state)

/-- The operator of a comparison -/
def createCompare : Comparison → Attr → Field → RSOperator
  | .equal => .equal
  | .notEqual => .notEqual
  | .greater => .greater
  | .greaterEqual => .greaterEqual
  | .less => .less
  | .lessEqual => .lessEqual

def parseTiCompareExpr (op : Comparison) : List Expr → Except String RSOperator
  | [a, b] => do
    match ← parseCompareChild columnsToRead creator ⟨none, none⟩ a with
    | none => pure .unsupported
    | some state =>
      match ← parseCompareChild columnsToRead creator state b with
      | some ⟨some attr, some value⟩ => pure (createCompare op attr value)
      | _ => pure .unsupported
  | _ => pure .unsupported

/-- `createAnd` and `createOr`, whose constructors reject an empty list of children. -/
def createLogical (mk : RSOperator → List RSOperator → RSOperator) :
    List RSOperator → Except String RSOperator
  | [] => throw "Unexpected empty children"
  | c :: cs => pure (mk c cs)

mutual

def parseTiExpr : Expr → Except String RSOperator
  | .scalarFunc sig children =>
    match scalarFuncRsFilterMap sig with
    | some .not =>
      if children.length ≠ 1 then pure .unsupported
      else do
        let ops ← parseChildren children
        match children, ops with
        | [child], [op] => pure (if isFunctionExpr child then .not op else .unsupported)
        | _, _ => pure .unsupported
    | some .and => do createLogical .and (← parseChildren children)
    | some .or => do createLogical .or (← parseChildren children)
    | some (.compare op) => parseTiCompareExpr columnsToRead creator op children
    | none => pure .unsupported
  | _ => pure .unsupported

/-- The children of a logical operator; one that is not a function is not supported. -/
def parseChildren : List Expr → Except String (List RSOperator)
  | [] => pure []
  | child :: children => do
    let op ← if isFunctionExpr child then parseTiExpr child else pure .unsupported
    let ops ← parseChildren children
    pure (op :: ops)

end

/-- Only functions are parsed. -/
def tryParse (filter : Expr) : Except String RSOperator :=
  if isFunctionExpr filter then parseTiExpr columnsToRead creator filter else pure .unsupported

/-- `FilterParser::parseDAGQuery`; `none` is the empty filter. -/
def parseDAGQuery : List Expr → Except String (Option RSOperator)
  | [] => pure none
  | [filter] => do pure (some (← tryParse columnsToRead creator filter))
  | filters => do
    let children ← filters.mapM (tryParse columnsToRead creator)
    pure (some (← createLogical .and children))

end FilterParser

/-! ## What a condition means for a row -/

/-- A row of a pack whose columns have the types that `schema` gives. -/
structure PackRow (schema : ColId → DataType) where
  isNull : ColId → Bool
  value : (c : ColId) → (schema c).Carrier
  delMark : Bool

variable {schema : ColId → DataType}

/-- The column `c` of a pack, as `addPack` gets it. -/
def packColumn (rows : List (PackRow schema)) (c : ColId) : List (Cell (schema c).Carrier) :=
  rows.map fun r => ⟨r.isNull c, r.value c, r.delMark⟩

/-- The indexes of a file, of which those of the columns in `loaded` are at hand. -/
def fileIndexes (loaded : ColId → Bool) (packs : List (List (PackRow schema))) : RSCheckParam :=
  fun c => if loaded c then some ⟨schema c, packs.map fun rows => addPack (packColumn rows c)⟩ else none

/-- The number that a value is compared as -/
def DataType.toNumber : (t : DataType) → t.Carrier → Option Int
  | .string, _ => none
  | .nullable t, v => t.toNumber v
  | .uint _, v | .int _, v | .myDate, v | .myDateTime, v | .other _, v => some v

/-- Integer and date/datetime types, nullable or not. -/
def DataType.isNumeric : DataType → Bool
  | .uint _ | .int _ | .myDate | .myDateTime => true
  | .nullable t => t.isNumeric
  | .string | .other _ => false

/-- The value of an operand of a comparison: `some none` is `NULL`, `none` is no number at all. -/
def operandValue (columnsToRead : List ColId) (row : PackRow schema) : Expr → Option (Option Int)
  | .columnRef index _ =>
    match FilterParser.getColumnIDForColumnExpr columnsToRead index with
    | .error _ => none
    | .ok c => if row.isNull c then some none else ((schema c).toNumber (row.value c)).map some
  | .literal (.ok .null) => some none
  | .literal (.ok v) => v.asNumber.map some
  | _ => none

/-- What the comparison means -/
def FilterParser.Comparison.holds : FilterParser.Comparison → Int → Int → Bool
  | .equal, a, b => a = b
  | .notEqual, a, b => a ≠ b
  | .greater, a, b => a > b
  | .greaterEqual, a, b => a ≥ b
  | .less, a, b => a < b
  | .lessEqual, a, b => a ≤ b

section Eval

open FilterParser

variable (columnsToRead : List ColId) (row : PackRow schema) (unknown : Expr → Option Bool)

/-- A comparison of two operands; `unknown` decides what is no comparison of numbers. -/
def evalCompare (op : Comparison) (e : Expr) : List Expr → Option Bool
  | [a, b] =>
    match operandValue columnsToRead row a, operandValue columnsToRead row b with
    | some x, some y => rel3 op.holds x y
    | _, _ => unknown e
  | _ => unknown e

mutual

/-- The value of a condition; `unknown` gives the values of the functions the parser does not know. -/
def evalExpr : Expr → Option Bool
  | .scalarFunc sig children =>
    match scalarFuncRsFilterMap sig with
    | some .not =>
      match evalChildren children with
      | [v] => not3 v
      | _ => unknown (.scalarFunc sig children)
    | some .and => (evalChildren children).foldl and3 (some true)
    | some .or => (evalChildren children).foldl or3 (some false)
    | some (.compare op) =>
      evalCompare columnsToRead row unknown op (.scalarFunc sig children) children
    | none => unknown (.scalarFunc sig children)
  | e => unknown e

/-- The values of the children of a logical operator. -/
def evalChildren : List Expr → List (Option Bool)
  | [] => []
  | e :: es => evalExpr e :: evalChildren es

end

/-- The value of the conditions of a request, which are joined by "and". -/
def evalFilters (filters : List Expr) : Option Bool :=
  (filters.map (evalExpr columnsToRead row unknown)).foldl and3 (some true)

end Eval

end TiFlash.DM
