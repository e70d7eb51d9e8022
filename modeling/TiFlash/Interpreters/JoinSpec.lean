import TiFlash.Interpreters.Join

/-!
# What a join should return

Rows of the two sides are matched pair by pair, without a hash table.
-/

namespace TiFlash.Interpreters

namespace Join

variable {w : Nat} {K V L : Type*} [DecidableEq K] (j : Join w V L)

/-- The pair agrees on its keys, none of which is `NULL`, and both rows pass their filters. -/
def Candidate (l : LeftRow K L) (r : RightRow w K V) : Prop :=
  (∀ k ∈ l.keys, k.isSome) ∧ (∀ k ∈ r.keys, k.isSome) ∧ l.keys = r.keys ∧
    (j.leftFilterColumn → isTrue l.filter) ∧ (j.rightFilterColumn → isTrue r.filter)

instance (j : Join w V L) (l : LeftRow K L) (r : RightRow w K V) : Decidable (j.Candidate l r) := by
  unfold Candidate
  infer_instance

/-- The other condition is true of the pair, or the join has none. -/
def conditionTrue (l : L) (cells : Cells w V) : Bool :=
  match j.otherCondition with
  | none => true
  | some condition => isTrue (condition l cells)

/-- A pair that belongs to the result of the join -/
def Matching (l : LeftRow K L) (r : RightRow w K V) : Prop :=
  j.Candidate l r ∧ j.conditionTrue l.row r.columns

instance (j : Join w V L) (l : LeftRow K L) (r : RightRow w K V) : Decidable (j.Matching l r) := by
  unfold Matching
  infer_instance

variable (rights : List (RightRow w K V))

/-- The right rows that match a left row -/
def matchRows (l : LeftRow K L) : List (Cells w V) := (rights.filter fun r => j.Matching l r).map (·.columns)

/-- What an outer join returns for a left row: its matches, or `NULL`s -/
def outerRows (l : LeftRow K L) : List (Cells w V) :=
  if (j.matchRows rights l).isEmpty then [nulls] else j.matchRows rights l

/-- The result of a join, up to the order of the rows. A semi join and an anti join are about the left
rows only. -/
def IsSqlResult (lefts : List (LeftRow K L))
    (out : List (L × Cells w V)) : Prop :=
  match j.kind, j.originalStrictness with
  | .inner, .all => out.Perm (lefts.flatMap fun l => (j.matchRows rights l).map (l.row, ·))
  | .left, .all => out.Perm (lefts.flatMap fun l => (j.outerRows rights l).map (l.row, ·))
  | .inner, .any =>
    (out.map (·.1)).Perm ((lefts.filter fun l => !(j.matchRows rights l).isEmpty).map (·.row))
  | .anti, _ =>
    (out.map (·.1)).Perm ((lefts.filter fun l => (j.matchRows rights l).isEmpty).map (·.row))
  | .left, .any => (out.map (·.1)).Perm (lefts.map (·.row))

/-- The joins TiDB asks for: inner, semi, left outer and anti semi joins. -/
def Planned : Prop := j.kind = .inner ∨ (j.kind = .left ∧ j.originalStrictness = .all) ∨
    (j.kind = .anti ∧ j.originalStrictness = .any)

/-- So many chunks of sixteen bytes each have a byte that is true as a signed number, or none that is true. -/
def keptChunks : Nat → List UInt8 → Bool
  | 0, _ => true
  | n + 1, filt => ((filt.take 16).all (· == 0) || (filt.take 16).any cmpgtZero) && keptChunks n (filt.drop 16)

/-- `filter` drops no chunk of the block in which the condition is true. -/
def ChunksKept (lefts : List (LeftRow K L)) : Prop :=
  let p := probe j (buildMap j rights) lefts
  ∀ condition ∈ j.otherCondition,
    let filt := conditionFilter j condition p.filter p.offsetsToReplicate (expandedBlock j p lefts)
    keptChunks (filt.length / 16) filt = true

/-- Every matching pair has the condition value 1, or nothing but `NULL`s in the right columns. -/
def TrueIsOne (lefts : List (LeftRow K L)) : Prop :=
  ∀ condition ∈ j.otherCondition, ∀ l ∈ lefts, ∀ r ∈ rights, j.Matching l r →
    condition l.row r.columns = some 1 ∨ r.columns = nulls

/-- The condition column is not constant, and no filter column with rows is a constant `Nullable`. -/
structure ColumnsRead (lefts : List (LeftRow K L)) : Prop where
  right : j.rightFilterColumn → j.rightFilterForm = .constNullable → rights = []
  left : j.leftFilterColumn → j.leftFilterForm = .constNullable → lefts = []
  condition : j.otherCondition.isSome → j.conditionForm = .full

end Join

/-! ## Keys as SQL compares them -/

variable {w : Nat} {K K' V L : Type*}

/-- The row with other keys -/
def LeftRow.mapKeys (f : K → K') (l : LeftRow K L) : LeftRow K' L :=
  ⟨l.keys.map (Option.map f), l.filter, l.row⟩

/-- The row with other keys -/
def RightRow.mapKeys (f : K → K') (r : RightRow w K V) : RightRow w K' V :=
  ⟨r.keys.map (Option.map f), r.filter, r.columns⟩

/-- Keys of the two sides that are equal in SQL have the same bytes. -/
def KeysAgree (sqlKey : K → K') (rights : List (RightRow w K V)) (lefts : List (LeftRow K L)) : Prop :=
  ∀ l ∈ lefts, ∀ r ∈ rights, (∀ k ∈ l.keys, k.isSome) →
    l.keys.map (Option.map sqlKey) = r.keys.map (Option.map sqlKey) → l.keys = r.keys

/-- `joinBlock` returns the result of SQL, which compares keys by what `sqlKey` makes of their bytes. -/
def Join.ReturnsSqlResult [DecidableEq K] [DecidableEq K'] (sqlKey : K → K') (j : Join w V L)
    (rights : List (RightRow w K V)) (lefts : List (LeftRow K L)) : Prop :=
  ∃ out, joinBlock j rights lefts = .ok out ∧
    j.IsSqlResult (rights.map (·.mapKeys sqlKey)) (lefts.map (·.mapKeys sqlKey)) out

end TiFlash.Interpreters
