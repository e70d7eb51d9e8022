import TiFlash.Transaction.RegionData

/-!
# Reading a region's records into a block (`RegionBlockReader`)

For tables with an integer handle. What a record's value contributes to the other columns is a parameter.
-/

namespace TiFlash.Transaction

/-- `RegionDataReadInfo` with the handle as the 64 bits that the key holds. -/
structure HandleReadInfo where
  pk : BitVec 64
  writeType : CFModifyFlag
  commitTs : Timestamp
  value : Value
deriving DecidableEq, Repr

def signMask : BitVec 64 := BitVec.twoPow 64 63

/-- The handle is negative as an `Int64`. -/
def HandleReadInfo.signed (info : HandleReadInfo) : Bool := info.pk &&& signMask ≠ 0

/-- The three calls of `std::reverse`. -/
def reorderRegionDataReadList (dataList : List HandleReadInfo) : List HandleReadInfo :=
  if dataList.length > 2 then
    if dataList.head?.any (·.signed) && !dataList.getLast?.any (·.signed) then
      let it := (dataList.takeWhile (·.signed)).length
      let dataList := dataList.take it ++ (dataList.drop it).reverse
      let dataList := (dataList.take it).reverse ++ dataList.drop it
      dataList.reverse
    else dataList
  else dataList

/-- `TMTPKType` -/
inductive TMTPKType where
  | int64
  | uint64
  | unspecified
deriving DecidableEq, Repr

/-- The handle as the column has it -/
def TMTPKType.handle (pkType : TMTPKType) (pk : BitVec 64) : Int :=
  if pkType = .uint64 then pk.toNat else pk.toInt

/-- A row of the block: the handle, the hidden columns and what the value gives. -/
structure BlockRow (V : Type) where
  handle : Int
  version : Timestamp
  delmark : Bool
  values : V
deriving DecidableEq, Repr

section

variable {ε V : Type} (pkType : TMTPKType) (tso : Timestamp) (scanFilter : Int → Bool)
  (decodeValue : HandleReadInfo → Except ε (Option V))

/-- `setColumnValues`; a value that needs a newer schema ends the read with `false`. -/
def setColumnValues : List HandleReadInfo → Except ε (Option (List (BlockRow V)))
  | [] => pure (some [])
  | info :: dataList =>
    if info.commitTs > tso || scanFilter (pkType.handle info.pk) then setColumnValues dataList
    else do
      match ← decodeValue info with
      | none => pure none
      | some values =>
        let rows ← setColumnValues dataList
        pure (rows.map (⟨pkType.handle info.pk, info.commitTs, info.writeType = .delFlag, values⟩ :: ·))

def readRegionBlock (dataList : List HandleReadInfo) : Except ε (Option (List (BlockRow V))) :=
  setColumnValues pkType tso scanFilter decodeValue
    (if pkType = .uint64 then reorderRegionDataReadList dataList else dataList)

end

end TiFlash.Transaction
