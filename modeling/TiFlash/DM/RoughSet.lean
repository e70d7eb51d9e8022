import TiFlash.Lib.ByteReader

/-!
# The rough set index

`MinMaxIndex` holds the bounds of every indexed column over the rows of a pack without a delete mark. A
filter (`RSOperator`) is checked against them and answers `None` (no row matches), `All` (every row does) or
`Some`.
-/

namespace TiFlash.DM

open Option

/-- A byte; `char` values are compared as `unsigned char` throughout. -/
abbrev Byte := Fin 256

/-- The contents of a `String`, ordered as `memcmp` and then the length order them. -/
abbrev Bytes := List Byte

/-- `Unknown` ("not checked yet") is left out: no check returns it and every operator on results throws on it.
-/
inductive RSResult where
  | some
  | none
  | all
  deriving DecidableEq, Repr

namespace RSResult

/-- `operator!` -/
def not : RSResult → RSResult
  | all => none
  | none => all
  | some => some

variable (v₀ v₁ : RSResult)

/-- `operator||` -/
def or : RSResult :=
  if v₀ = all ∨ v₁ = all then all
  else if v₀ = some ∨ v₁ = some then some
  else none

/-- `operator&&` -/
def and : RSResult :=
  if v₀ = none ∨ v₁ = none then none
  else if v₀ = all ∧ v₁ = all then all
  else some

end RSResult

/-- As far as a literal or a range end can produce it. Literals of floating point type (`Float64`) are left out. -/
inductive Field where
  | null
  | uint64 (n : Nat)
  | int64 (i : Int)
  | string (s : Bytes)
  /-- A decimal of any width: `ValueComparision` does not compare them. -/
  | decimal
  deriving DecidableEq, Repr

namespace Field

/-- The `Number` group of `ValueComparision`. Comparisons across signedness are accurate, that is,
they are comparisons of the integers. -/
def asNumber : Field → Option Int
  | uint64 n => some n
  | int64 i => some i
  | _ => none

/-- The `String` group of `ValueComparision`. -/
def asString : Field → Option Bytes
  | string s => some s
  | _ => none

end Field

/-- The data types of TiDB columns that the checks tell apart. -/
inductive DataType where
  | uint (bits : Nat)
  | int (bits : Nat)
  | myDate
  | myDateTime
  | string
  | nullable (nested : DataType)
  | other (id : Nat)
  deriving DecidableEq, Repr

/-- The values a column stores; of a nullable column, those of the nested one. Dates and times are the
`UInt64` they are packed into. -/
def DataType.Carrier : DataType → Type
  | string => Bytes
  | nullable t => t.Carrier
  | _ => Int

instance DataType.linearOrderCarrier : (t : DataType) → LinearOrder t.Carrier
  | .string => inferInstanceAs (LinearOrder Bytes)
  | .nullable t => linearOrderCarrier t
  | .uint _ | .int _ | .myDate | .myDateTime | .other _ => inferInstanceAs (LinearOrder Int)

/-- `IDataType::createColumn()->insertDefault()`. -/
instance DataType.inhabitedCarrier : (t : DataType) → Inhabited t.Carrier
  | .string => inferInstanceAs (Inhabited Bytes)
  | .nullable t => inhabitedCarrier t
  | .uint _ | .int _ | .myDate | .myDateTime | .other _ => inferInstanceAs (Inhabited Int)

/-! ## Building the index -/

/-- One entry of a column as the index sees it. -/
structure Cell (T : Type*) where
  /-- The null map; false throughout a column that is not nullable. -/
  isNull : Bool
  value : T
  delMark : Bool

/-- What a `MinMaxIndex` holds for one pack. -/
structure PackMinMax (T : Type*) where
  hasNull : Bool
  hasValue : Bool
  min : T
  max : T

section Build

variable {T : Type*} [LinearOrder T]

/-- One turn of the loop in `details::minmax`. -/
def minmaxStep (batch : Option (T × T)) (c : Cell T) : Option (T × T) :=
  if c.delMark then batch
  else match batch with
    | none => some (c.value, c.value)
    | some (mn, mx) => some (if c.value < mn then c.value else mn, if mx < c.value then c.value else mx)

/-- `details::minmax`: the bounds of the rows without a delete mark, if there are any. -/
def minmax (column : List (Cell T)) : Option (T × T) := column.foldl minmaxStep none

def addPack [Inhabited T] (column : List (Cell T)) : PackMinMax T :=
  let hasNull := column.any fun c => !c.delMark && c.isNull
  match minmax column with
  | some (mn, mx) => ⟨hasNull, true, mn, mx⟩
  | none => ⟨hasNull, false, default, default⟩

end Build

/-! ## Checking against the bounds -/

namespace RoughCheck

variable {T : Type*} [LinearOrder T] (v : Option T)

/-- `RoughCheck::checkEqual`; `v` is `none` when the literal cannot be compared (`!IS_LEGAL`). -/
def checkEqual (min max : T) : RSResult :=
  match v with
  | none => .some
  | some v =>
    if min = max ∧ v = min then .all
    else if v ≥ min ∧ v ≤ max then .some
    else .none

/-- `RoughCheck::checkGreater`: is the column greater than `v`? -/
def checkGreater (min max : T) : RSResult :=
  match v with
  | none => .some
  | some v => if v ≥ max then .none else if v < min then .all else .some

def checkGreaterEqual (min max : T) : RSResult :=
  match v with
  | none => .some
  | some v => if v > max then .none else if v ≤ min then .all else .some

end RoughCheck

/-- `String(chars[prev_offset], size)` repeats a character: the first byte (the terminating zero, if empty) is
the number of characters, the size the character. -/
def stringFromFirstByte (s : Bytes) : Bytes := List.replicate (s.headD 0).val (Fin.ofNat 256 s.length)

namespace MinMaxIndex

/-- The common body of the three checks: the answers for nulls and for packs without a value, and the dispatch
on the column type. -/
def check (num : Option Int → Int → Int → RSResult) (str : Option Bytes → Bytes → Bytes → RSResult) :
    (t : DataType) → PackMinMax t.Carrier → Field → RSResult := fun t pack value =>
  if pack.hasNull || value = .null then .some
  else if !pack.hasValue then .none
  else match t, pack with
    | .uint _, p | .int _, p | .myDate, p | .myDateTime, p => num value.asNumber p.min p.max
    | .string, p => str value.asString p.min p.max
    | .nullable _, _ | .other _, _ => .some

def checkEqual : (t : DataType) → PackMinMax t.Carrier → Field → RSResult :=
  check RoughCheck.checkEqual fun v min max =>
    RoughCheck.checkEqual v (stringFromFirstByte min) (stringFromFirstByte max)

def checkGreater : (t : DataType) → PackMinMax t.Carrier → Field → RSResult :=
  check RoughCheck.checkGreater fun v min max =>
    RoughCheck.checkGreater v (stringFromFirstByte min) (stringFromFirstByte max)

/-- Without `stringFromFirstByte` -/
def checkGreaterEqual : (t : DataType) → PackMinMax t.Carrier → Field → RSResult :=
  check RoughCheck.checkGreaterEqual RoughCheck.checkGreaterEqual

end MinMaxIndex

/-! ## Operators -/

abbrev ColId := Int

/-- The column a comparison is about. -/
structure Attr where
  colId : ColId
  type : DataType
  deriving DecidableEq, Repr

/-- The index of one column, one entry for each pack. -/
structure RSIndex where
  type : DataType
  minmax : List (PackMinMax type.Carrier)

/-- The indexes that are loaded -/
abbrev RSCheckParam := ColId → Option RSIndex

/-- The children of `And` and `Or` are never empty (their constructors throw), nor are
the values of `In` and `NotIn`. -/
inductive RSOperator where
  | equal (attr : Attr) (value : Field)
  | notEqual (attr : Attr) (value : Field)
  | greater (attr : Attr) (value : Field)
  | greaterEqual (attr : Attr) (value : Field)
  | less (attr : Attr) (value : Field)
  | lessEqual (attr : Attr) (value : Field)
  | isIn (attr : Attr) (value : Field) (values : List Field)
  | notIn (attr : Attr) (value : Field) (values : List Field)
  | like (attr : Attr) (value : Field)
  | notLike (attr : Attr) (value : Field)
  | and (child : RSOperator) (children : List RSOperator)
  | or (child : RSOperator) (children : List RSOperator)
  | not (child : RSOperator)
  | unsupported

/-- `GET_RSINDEX_FROM_PARAM_NOT_FOUND_RETURN_SOME`: run a check on the index of `attr` for a pack. -/
def withIndex (param : RSCheckParam) (packId : Nat) (attr : Attr)
    (check : (t : DataType) → PackMinMax t.Carrier → RSResult) : RSResult :=
  match param attr.colId with
  | none => .some
  | some rsindex =>
    if rsindex.type ≠ attr.type then .some
    else match rsindex.minmax[packId]? with
      | some pack => check rsindex.type pack
      | none => .some

namespace RSOperator

mutual

/-- `roughCheck` of every class -/
def roughCheck (param : RSCheckParam) (packId : Nat) : RSOperator → RSResult
  | equal attr v => withIndex param packId attr fun t p => MinMaxIndex.checkEqual t p v
  | notEqual attr v => withIndex param packId attr fun t p => (MinMaxIndex.checkEqual t p v).not
  | greater attr v => withIndex param packId attr fun t p => MinMaxIndex.checkGreater t p v
  | greaterEqual attr v =>
    withIndex param packId attr fun t p => MinMaxIndex.checkGreaterEqual t p v
  | less attr v => withIndex param packId attr fun t p => (MinMaxIndex.checkGreaterEqual t p v).not
  | lessEqual attr v => withIndex param packId attr fun t p => (MinMaxIndex.checkGreater t p v).not
  | isIn attr v vs => withIndex param packId attr fun t p =>
      vs.foldl (fun res v => res.or (MinMaxIndex.checkEqual t p v)) (MinMaxIndex.checkEqual t p v)
  | notIn attr v vs => withIndex param packId attr fun t p =>
      vs.foldl (fun res v => res.and (MinMaxIndex.checkEqual t p v).not)
        (MinMaxIndex.checkEqual t p v).not
  | like _ _ => .some
  | notLike _ _ => .some
  | and c cs =>
    let res := roughCheck param packId c
    if res = .none then res else andChildren param packId res cs
  | or c cs => orChildren param packId (roughCheck param packId c) cs
  | not c => (roughCheck param packId c).not
  | unsupported => .some

/-- The loop of `And::roughCheck` over the remaining children; it returns on the first `None`. -/
def andChildren (param : RSCheckParam) (packId : Nat) (res : RSResult) : List RSOperator → RSResult
  | [] => res
  | c :: cs =>
    let res := res.and (roughCheck param packId c)
    if res = .none then res else andChildren param packId res cs

/-- The loop of `Or::roughCheck` over the remaining children. -/
def orChildren (param : RSCheckParam) (packId : Nat) (res : RSResult) : List RSOperator → RSResult
  | [] => res
  | c :: cs => orChildren param packId (res.or (roughCheck param packId c)) cs

end

mutual

/-- `RSOperator::applyNot`. The negation of `NotIn` is a `NotIn` again. What an `Unsupported` prints, with
its `is_not`, is left out. -/
def applyNot : RSOperator → RSOperator
  | equal attr v => notEqual attr v
  | notEqual attr v => equal attr v
  | greater attr v => lessEqual attr v
  | greaterEqual attr v => less attr v
  | less attr v => greaterEqual attr v
  | lessEqual attr v => greater attr v
  | isIn attr v vs => notIn attr v vs
  | notIn attr v vs => notIn attr v vs
  | like attr v => notLike attr v
  | notLike attr v => like attr v
  | and c cs => or c.applyNot (applyNotChildren cs)
  | or c cs => and c.applyNot (applyNotChildren cs)
  | not c => c
  | unsupported => unsupported

/-- The loop of `And::applyNot` and `Or::applyNot` -/
def applyNotChildren : List RSOperator → List RSOperator
  | [] => []
  | c :: cs => c.applyNot :: applyNotChildren cs

end

end RSOperator

/-! ## The min-max index of a String column -/

/-- Every string is followed by a zero; an offset is where a string ends. -/
structure ColumnString where
  chars : Bytes
  offsets : List Nat
deriving DecidableEq, Repr

namespace ColumnString

variable (column : ColumnString) (pos : Nat)

/-- `insertData`, which `insertFrom` comes down to -/
def insertData (s : Bytes) : ColumnString :=
  ⟨column.chars ++ (s ++ [0]), column.offsets ++ [column.chars.length + (s ++ [0]).length]⟩

/-- Where the string starts -/
def prevOffset : Nat := if pos = 0 then 0 else column.offsets.getD (pos - 1) 0

/-- `offsets[pos] - prev_offset - 1` -/
def sizeAt : Nat := column.offsets.getD pos 0 - column.prevOffset pos - 1

/-- `String(reinterpret_cast<const char *>(&chars[prev_offset]), size)` -/
def stringAt : Bytes := (column.chars.drop (column.prevOffset pos)).take (column.sizeAt pos)

/-- `String(chars[prev_offset], size)` repeats a character: the first one is their number, the size the
character. -/
def repeatedAt : Bytes :=
  List.replicate (column.chars.getD (column.prevOffset pos) 0).val (Fin.ofNat 256 (column.sizeAt pos))

end ColumnString

/-- The index of a string column -/
structure StringMinMaxIndex where
  hasNullMarks : List Bool
  hasValueMarks : List Bool
  minmaxes : ColumnString

namespace StringMinMaxIndex

def addPack (index : StringMinMaxIndex) (column : List (Cell Bytes)) : StringMinMaxIndex where
  hasNullMarks := index.hasNullMarks ++ [(DM.addPack column).hasNull]
  hasValueMarks := index.hasValueMarks ++ [(DM.addPack column).hasValue]
  minmaxes := (index.minmaxes.insertData (DM.addPack column).min).insertData (DM.addPack column).max

/-- The index of a file -/
def ofPacks (packs : List (List (Cell Bytes))) : StringMinMaxIndex := packs.foldl addPack ⟨[], [], [], []⟩

/-- What the three checks share, given how they take a bound out of the column -/
def check (bound : ColumnString → Nat → Bytes) (rough : Option Bytes → Bytes → Bytes → RSResult)
    (index : StringMinMaxIndex) (packId : Nat) (value : Field) : RSResult :=
  if index.hasNullMarks.getD packId false || value = .null then .some
  else if !index.hasValueMarks.getD packId false then .none
  else rough value.asString (bound index.minmaxes (packId * 2)) (bound index.minmaxes (packId * 2 + 1))

/-- `checkEqual` of a string column -/
def checkEqual : StringMinMaxIndex → Nat → Field → RSResult :=
  check ColumnString.repeatedAt RoughCheck.checkEqual

/-- `checkGreater` of a string column -/
def checkGreater : StringMinMaxIndex → Nat → Field → RSResult :=
  check ColumnString.repeatedAt RoughCheck.checkGreater

/-- `checkGreaterEqual` of a string column -/
def checkGreaterEqual : StringMinMaxIndex → Nat → Field → RSResult :=
  check ColumnString.stringAt RoughCheck.checkGreaterEqual

end StringMinMaxIndex

end TiFlash.DM
