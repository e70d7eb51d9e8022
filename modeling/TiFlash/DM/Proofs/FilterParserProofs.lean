import TiFlash.DM.FilterParser
import TiFlash.DM.Proofs.RoughSetProofs
import TiFlash.Lib.ExceptBind

/-!
# Proofs: rough filters of DAG conditions

A parsed condition answers rightly about every pack unless a comparison by order has its literal in front of
the column: `parseTiCompareExpr` forgets in which order the operands came.
-/

namespace TiFlash.DM

open TiFlash.Lib FilterParser List Except MinMaxIndex RoughCheck

/-! ## One comparison -/

/-- A check of the bounds is right about a relation between the column and the literal. -/
structure ChecksRel (num : Option Int → Int → Int → RSResult) (r : Int → Int → Bool) : Prop where
  illegal : ∀ mn mx, num none mn mx = .some
  none : ∀ n mn mx x, mn ≤ x → x ≤ mx → num (some n) mn mx = .none → r x n = false
  all : ∀ n mn mx x, mn ≤ x → x ≤ mx → num (some n) mn mx = .all → r x n = true

theorem checkEqual_checksRel : ChecksRel checkEqual Comparison.equal.holds := by
  refine ⟨fun _ _ => rfl, ?_, ?_⟩ <;> intro n mn mx x hmn hmx h <;>
    simp only [RoughCheck.checkEqual] at h <;> split_ifs at h <;>
    simp only [Comparison.holds, decide_eq_true_eq, decide_eq_false_iff_not] <;> omega

theorem checkGreater_checksRel : ChecksRel checkGreater Comparison.greater.holds := by
  refine ⟨fun _ _ => rfl, ?_, ?_⟩ <;> intro n mn mx x hmn hmx h <;>
    simp only [RoughCheck.checkGreater] at h <;> split_ifs at h <;>
    simp only [Comparison.holds, decide_eq_true_eq, decide_eq_false_iff_not] <;> omega

theorem checkGreaterEqual_checksRel :
    ChecksRel checkGreaterEqual Comparison.greaterEqual.holds := by
  refine ⟨fun _ _ => rfl, ?_, ?_⟩ <;> intro n mn mx x hmn hmx h <;>
    simp only [RoughCheck.checkGreaterEqual] at h <;> split_ifs at h <;>
    simp only [Comparison.holds, decide_eq_true_eq, decide_eq_false_iff_not] <;> omega

/-- The value of a cell as an operand: `none` is `NULL`. -/
def cellNumber (t : DataType) (c : Cell t.Carrier) : Option Int :=
  if c.isNull then none else t.toNumber c.value

/-- A check of a numeric column is right about the rows of the pack; a literal that is no number gives no
answer, unless there is no row. -/
theorem check_answers {num : Option Int → Int → Int → RSResult}
    (str : Option Bytes → Bytes → Bytes → RSResult) {r : Int → Int → Bool} (hnum : ChecksRel num r)
    {t : DataType} (ht : t.isNumeric) {ρ : Type*} (rows : List ρ) (cell : ρ → Cell t.Carrier)
    (v : Field) (truth : ρ → Option Bool)
    (htruth : ∀ n, v.asNumber = some n → ∀ a, truth a = rel3 r (cellNumber t (cell a)) (some n)) :
    Answers (check num str t (addPack (rows.map cell)) v)
      (rows.filter fun a => !(cell a).delMark) truth := by
  obtain ⟨hnull, hempty, hbounds⟩ := addPack_describes (rows.map cell)
  have hmem : ∀ a ∈ rows.filter (fun a => !(cell a).delMark), cell a ∈ liveCells (rows.map cell) := by
    intro a ha
    obtain ⟨hm, hd⟩ := mem_filter.1 ha
    exact mem_liveCells.2 ⟨mem_map_of_mem hm, by simpa using hd⟩
  unfold check
  split
  · exact Answers.of_some
  next hnn =>
  simp only [Bool.or_eq_true, not_or, Bool.not_eq_true, decide_eq_true_eq] at hnn
  split
  next hv =>
    have hnil := hempty (by simpa using hv)
    have hrows : rows.filter (fun a => !(cell a).delMark) = [] :=
      eq_nil_iff_forall_not_mem.2 fun a ha => by simpa [hnil] using hmem a ha
    rw [hrows]
    exact Answers.of_nil
  next hv =>
  have hb := hbounds (by simpa using hv)
  have hlive := hnull hnn.1
  -- the four types whose values are numbers share one argument
  have key : ∀ mn mx : Int,
      (∀ c ∈ liveCells (rows.map cell), ∃ x, t.toNumber c.value = some x ∧ mn ≤ x ∧ x ≤ mx) →
      Answers (num v.asNumber mn mx) (rows.filter fun a => !(cell a).delMark) truth := by
    intro mn mx hmm
    cases hvn : v.asNumber with
    | none => rw [hnum.illegal]; exact Answers.of_some
    | some n =>
      constructor <;> intro hres a ha <;> obtain ⟨x, hx, hle, hge⟩ := hmm _ (hmem a ha) <;>
        rw [htruth n hvn a, cellNumber, hlive _ (hmem a ha)] <;>
        simp [hx, rel3]
      · rw [hnum.none n mn mx x hle hge hres]
      · rw [hnum.all n mn mx x hle hge hres]
  cases t with
  | uint b | int b | myDate | myDateTime => exact key _ _ fun c hc => ⟨c.value, rfl, hb.le c hc, hb.ge c hc⟩
  | nullable t => exact Answers.of_some
  | string | other id => simp [DataType.isNumeric] at ht

section Pack

variable {schema : ColId → DataType}

def liveRows (rows : List (PackRow schema)) : List (PackRow schema) := rows.filter fun r => !r.delMark

/-- The value of a column in a row as an operand: `none` is `NULL`. -/
def rowNumber (r : PackRow schema) (c : ColId) : Option Int :=
  if r.isNull c then none else (schema c).toNumber (r.value c)

variable (loaded : ColId → Bool) {packs : List (List (PackRow schema))} {i : Nat}
  {rows : List (PackRow schema)} (hi : packs[i]? = some rows)

include hi

theorem withIndex_answers (attr : Attr) (check : (t : DataType) → PackMinMax t.Carrier → RSResult)
    (truth : PackRow schema → Option Bool)
    (h : Answers (check (schema attr.colId) (addPack (packColumn rows attr.colId))) (liveRows rows) truth) :
    Answers (withIndex (fileIndexes loaded packs) i attr check) (liveRows rows) truth := by
  unfold withIndex fileIndexes
  cases hl : loaded attr.colId with
  | false => simpa using Answers.of_some
  | true =>
    simp only [if_true]
    split_ifs
    · exact Answers.of_some
    · simpa [hi] using h

theorem createCompare_answers (op : Comparison) (attr : Attr) (v : Field)
    (hnum : (schema attr.colId).isNumeric) (truth : PackRow schema → Option Bool)
    (htruth : ∀ n, v.asNumber = some n → ∀ r, truth r = rel3 op.holds (rowNumber r attr.colId) (some n)) :
    Answers ((createCompare op attr v).roughCheck (fileIndexes loaded packs) i) (liveRows rows) truth := by
  have direct : ∀ num str, ChecksRel num op.holds →
      Answers (withIndex (fileIndexes loaded packs) i attr fun t p => check num str t p v)
        (liveRows rows) truth := fun num str hrel =>
    withIndex_answers loaded hi attr _ truth (check_answers str hrel hnum rows _ v truth htruth)
  have negated : ∀ num str (r : Int → Int → Bool), ChecksRel num r → (∀ x y, op.holds x y = !r x y) →
      Answers (withIndex (fileIndexes loaded packs) i attr
        fun t p => (check num str t p v).not) (liveRows rows) truth := by
    intro num str r hrel hneg
    refine withIndex_answers loaded hi attr _ truth ?_
    have hop : op.holds = fun x y => !r x y := funext fun x => funext fun y => hneg x y
    have hnot := check_answers str hrel hnum rows
      (fun a => ⟨a.isNull attr.colId, a.value attr.colId, a.delMark⟩) v (fun a => not3 (truth a))
      fun n hn a => by rw [htruth n hn a, hop, ← not3_rel3, not3_not3]; rfl
    exact hnot.not.congr fun a _ => not3_not3 _
  cases op with
  | equal => exact direct _ _ checkEqual_checksRel
  | greater => exact direct _ _ checkGreater_checksRel
  | greaterEqual => exact direct _ _ checkGreaterEqual_checksRel
  | notEqual =>
    refine negated _ _ _ checkEqual_checksRel fun x y => ?_
    simp [Comparison.holds]
  | less =>
    refine negated _ _ _ checkGreaterEqual_checksRel fun x y => ?_
    simp only [Comparison.holds, ← decide_not, not_le, ge_iff_le]
  | lessEqual =>
    refine negated _ _ _ checkGreater_checksRel fun x y => ?_
    simp only [Comparison.holds, ← decide_not, not_lt, gt_iff_lt]

end Pack

/-! ## Parsing a comparison -/

section Parse

variable {columnsToRead : List ColId} {creator : ColId → DataType}

/-- What one operand of a comparison can contribute. -/
theorem parseCompareChild_cases {state : CompareState} {child : Expr} {res : Option CompareState}
    (h : parseCompareChild columnsToRead creator state child = .ok res) :
    res = none ∨ (res = some state ∧ isFunctionExpr child = true) ∨
    (∃ v, child = .literal (.ok v) ∧ res = some { state with value := some v }) ∨
    (∃ index ft c, child = .columnRef index (some ft) ∧ isRoughSetFilterSupportType ft = true ∧
      getColumnIDForColumnExpr columnsToRead index = .ok c ∧
      res = some { state with attr := some ⟨c, creator c⟩ }) := by
  cases child with
  | columnRef index ft =>
    cases ft with
    | none => exact .inl (ok.inj h).symm
    | some ft =>
      cases hs : isRoughSetFilterSupportType ft with
      | false =>
        simp only [parseCompareChild, hs] at h
        exact .inl (ok.inj h).symm
      | true =>
        simp only [parseCompareChild, hs] at h
        cases hc : getColumnIDForColumnExpr columnsToRead index with
        | error e => rw [hc] at h; cases h
        | ok c =>
          rw [hc] at h
          exact .inr (.inr (.inr ⟨index, ft, c, rfl, hs, hc, (ok.inj h).symm⟩))
  | literal value =>
    cases value with
    | error e => cases h
    | ok v => exact .inr (.inr (.inl ⟨v, rfl, (ok.inj h).symm⟩))
  | scalarFunc sig children | aggFunc children => exact .inr (.inl ⟨(ok.inj h).symm, rfl⟩)

/-- The two forms of a comparison that become an operator other than `Unsupported`. -/
theorem parseTiCompareExpr_cases {op : Comparison} {children : List Expr} {rsop : RSOperator}
    (h : parseTiCompareExpr columnsToRead creator op children = .ok rsop) :
    rsop = .unsupported ∨ ∃ index ft c v, isRoughSetFilterSupportType ft = true ∧
      getColumnIDForColumnExpr columnsToRead index = .ok c ∧
      rsop = createCompare op ⟨c, creator c⟩ v ∧
      (children = [.columnRef index (some ft), .literal (.ok v)] ∨
        children = [.literal (.ok v), .columnRef index (some ft)]) := by
  rcases children with _ | ⟨a, _ | ⟨b, _ | ⟨_, _⟩⟩⟩
  · exact .inl (ok.inj h).symm
  · exact .inl (ok.inj h).symm
  · obtain ⟨resA, ha, h⟩ := bind_eq_ok_iff.1 h
    cases resA with
    | none => exact .inl (ok.inj h).symm
    | some stateA =>
      obtain ⟨resB, hb, h⟩ := bind_eq_ok_iff.1 h
      -- only a column and a literal, in either order, fill both halves of the state
      rcases parseCompareChild_cases ha with hA | ⟨hA, -⟩ | ⟨v, rfl, hA⟩ | ⟨index, ft, c, rfl, hs, hc, hA⟩ <;>
        cases hA <;>
      rcases parseCompareChild_cases hb with hB | ⟨hB, -⟩ | ⟨w, rfl, hB⟩ | ⟨index', ft', c', rfl, hs', hc', hB⟩ <;>
        cases hB <;>
        first
          | exact .inl (ok.inj h).symm
          | exact .inr ⟨_, _, _, _, ‹_›, ‹_›, (ok.inj h).symm, .inl rfl⟩
          | exact .inr ⟨_, _, _, _, ‹_›, ‹_›, (ok.inj h).symm, .inr rfl⟩
  · exact .inl (ok.inj h).symm

end Parse

/-! ## The whole condition -/

section Sound

variable {schema : ColId → DataType}

mutual

/-- Every comparison below the logical operators satisfies `p`, also below a `NOT` with other than one child, into
which the parser does not go. -/
def AllComparisons (p : Comparison → List Expr → Prop) : Expr → Prop
  | .scalarFunc sig children =>
    match scalarFuncRsFilterMap sig with
    | some (.compare op) => p op children
    | some .not | some .and | some .or => AllComparisonsIn p children
    | none => True
  | _ => True

/-- Every comparison in the children of a logical operator satisfies `p`. -/
def AllComparisonsIn (p : Comparison → List Expr → Prop) : List Expr → Prop
  | [] => True
  | e :: es => AllComparisons p e ∧ AllComparisonsIn p es

end

/-- The columns that are compared have integer or date/datetime types. -/
def NumericColumns (schema : ColId → DataType) (columnsToRead : List ColId) (_ : Comparison)
    (children : List Expr) : Prop :=
  ∀ index ft c, Expr.columnRef index (some ft) ∈ children → isRoughSetFilterSupportType ft = true →
    getColumnIDForColumnExpr columnsToRead index = .ok c → (schema c).isNumeric = true

/-- A comparison by order whose literal, a number, stands in front of the column. -/
def LiteralFirst (op : Comparison) : List Expr → Prop
  | [.literal (.ok v), .columnRef _ (some ft)] =>
    op ≠ .equal ∧ op ≠ .notEqual ∧ v.asNumber.isSome = true ∧ isRoughSetFilterSupportType ft = true
  | _ => False

variable {columnsToRead : List ColId} {creator : ColId → DataType} {loaded : ColId → Bool}
  {packs : List (List (PackRow schema))} {i : Nat} {rows : List (PackRow schema)}
  {unknown : PackRow schema → Expr → Option Bool} {row : PackRow schema}

variable {v : Field} {n : Int}

theorem operandValue_literal (h : v.asNumber = some n) :
    operandValue columnsToRead row (.literal (.ok v)) = some (some n) := by
  cases v <;> simp_all [operandValue, Field.asNumber]

variable {c : ColId}

theorem operandValue_columnRef {index : Int} {ft : Option TiDBType}
    (hc : getColumnIDForColumnExpr columnsToRead index = .ok c) (ht : (schema c).isNumeric = true) :
    operandValue columnsToRead row (.columnRef index ft) = some (rowNumber row c) := by
  have htotal : ∀ (t : DataType), t.isNumeric = true → ∀ v : t.Carrier, ∃ x, t.toNumber v = some x := by
    intro t
    induction t with
    | nullable t ih => exact fun h v => ih h v
    | string | other id => intro h; simp [DataType.isNumeric] at h
    | _ => exact fun _ v => ⟨v, rfl⟩
  obtain ⟨x, hx⟩ := htotal _ ht (row.value c)
  simp only [operandValue, hc, rowNumber, hx]
  split <;> rfl

variable {op : Comparison}

theorem Comparison_holds_comm (h : op = .equal ∨ op = .notEqual) (a b : Option Int) :
    rel3 op.holds a b = rel3 op.holds b a := by
  rcases h with rfl | rfl <;> cases a <;> cases b <;> simp [rel3, Comparison.holds, eq_comm]

variable {rsop : RSOperator}

theorem parseTiCompareExpr_answers (hi : packs[i]? = some rows) {e : Expr}
    {children : List Expr} (h : parseTiCompareExpr columnsToRead creator op children = .ok rsop)
    (hnum : NumericColumns schema columnsToRead op children) (hfirst : ¬ LiteralFirst op children) :
    Answers (rsop.roughCheck (fileIndexes loaded packs) i) (liveRows rows)
      fun r => evalCompare columnsToRead r (unknown r) op e children := by
  rcases parseTiCompareExpr_cases h with rfl | ⟨index, ft, c, v, hs, hc, rfl, rfl | rfl⟩
  · exact Answers.of_some
  · have ht : (schema c).isNumeric = true := hnum index ft c (by simp) hs hc
    refine createCompare_answers loaded hi op ⟨c, creator c⟩ v ht _ fun n hn r => ?_
    simp only [evalCompare, operandValue_columnRef hc ht, operandValue_literal hn]
  · have ht : (schema c).isNumeric = true := hnum index ft c (by simp) hs hc
    refine createCompare_answers loaded hi op ⟨c, creator c⟩ v ht _ fun n hn r => ?_
    have hop : op = .equal ∨ op = .notEqual := by
      by_contra hne
      exact hfirst ⟨fun h => hne (.inl h), fun h => hne (.inr h), by simp [hn], hs⟩
    simp only [evalCompare, operandValue_columnRef hc ht, operandValue_literal hn]
    exact Comparison_holds_comm hop _ _

variable {param : RSCheckParam} {live : List (PackRow schema)} {eval : PackRow schema → Expr → Option Bool}
  {ops : List RSOperator} {es : List Expr}

section

variable (hops : List.Forall₂ (fun op e => Answers (op.roughCheck param i) live fun r => eval r e) ops es)
include hops

variable {truth : PackRow schema → Option Bool} {res : RSResult}

theorem andChildren_answers (h : Answers res live truth) :
    Answers (RSOperator.andChildren param i res ops) live
      fun r => (es.map (eval r)).foldl and3 (truth r) := by
  induction hops generalizing res truth with
  | nil => exact h
  | @cons op e ops es hop _ ih =>
    rw [RSOperator.andChildren_cons]
    exact ih (h.and hop)

theorem orChildren_answers (h : Answers res live truth) :
    Answers (RSOperator.orChildren param i res ops) live
      fun r => (es.map (eval r)).foldl or3 (truth r) := by
  induction hops generalizing res truth with
  | nil => exact h
  | @cons op e ops es hop _ ih =>
    exact ih (h.or hop)

theorem createAnd_answers (h : createLogical .and ops = .ok rsop) :
    Answers (rsop.roughCheck param i) live fun r => (es.map (eval r)).foldl and3 (some true) := by
  cases hops with
  | nil => cases h
  | @cons op e ops es hop hops =>
    obtain rfl : RSOperator.and op ops = rsop := ok.inj h
    rw [RSOperator.roughCheck_and]
    exact andChildren_answers hops (hop.congr fun r _ => by rcases eval r e with _ | _ | _ <;> rfl)

theorem createOr_answers (h : createLogical .or ops = .ok rsop) :
    Answers (rsop.roughCheck param i) live fun r => (es.map (eval r)).foldl or3 (some false) := by
  cases hops with
  | nil => cases h
  | @cons op e ops es hop hops =>
    obtain rfl : RSOperator.or op ops = rsop := ok.inj h
    exact orChildren_answers hops (hop.congr fun r _ => by rcases eval r e with _ | _ | _ <;> rfl)

end

theorem evalChildren_eq_map (columnsToRead : List ColId) (row : PackRow schema)
    (unknown : Expr → Option Bool) (es : List Expr) :
    evalChildren columnsToRead row unknown es = es.map (evalExpr columnsToRead row unknown) := by
  induction es with
  | nil => rw [evalChildren, map_nil]
  | cons e es ih => rw [evalChildren, map_cons, ih]

/-- The hypotheses on the comparisons of a condition: numeric columns, none behind its literal. -/
def GoodComparison (schema : ColId → DataType) (columnsToRead : List ColId) (op : Comparison)
    (children : List Expr) : Prop :=
  NumericColumns schema columnsToRead op children ∧ ¬ LiteralFirst op children

mutual

theorem parseTiExpr_answers (hi : packs[i]? = some rows) : ∀ (e : Expr) (rsop : RSOperator),
    parseTiExpr columnsToRead creator e = .ok rsop →
    AllComparisons (GoodComparison schema columnsToRead) e →
    Answers (rsop.roughCheck (fileIndexes loaded packs) i) (liveRows rows)
      fun r => evalExpr columnsToRead r (unknown r) e
  | .scalarFunc sig children, rsop, h, hgood => by
    have hch := parseChildren_answers hi children
    rw [parseTiExpr] at h
    rw [AllComparisons] at hgood
    simp only [evalExpr, evalChildren_eq_map]
    cases hsig : scalarFuncRsFilterMap sig with
    | none => simp only [hsig] at h; cases h; exact Answers.of_some
    | some ft =>
      simp only [hsig] at h hgood
      cases ft with
      | compare op => exact parseTiCompareExpr_answers hi h hgood.1 hgood.2
      | and =>
        obtain ⟨ops, hops, hmk⟩ := bind_eq_ok_iff.1 h
        exact createAnd_answers (hch ops hops hgood) hmk
      | or =>
        obtain ⟨ops, hops, hmk⟩ := bind_eq_ok_iff.1 h
        exact createOr_answers (hch ops hops hgood) hmk
      | not =>
        split_ifs at h with hlen
        · cases h; exact Answers.of_some
        obtain ⟨ops, hops, hmk⟩ := bind_eq_ok_iff.1 h
        have hall := hch ops hops hgood
        cases hall with
        | nil => simp at hlen
        | @cons op e ops es hop hrest =>
          cases hrest with
          | cons _ _ => simp at hlen
          | nil =>
            obtain rfl := pure_eq_ok_iff.1 hmk
            split_ifs
            · exact hop.not
            · exact Answers.of_some
  | .columnRef _ _, rsop, h, _ => by cases h; exact Answers.of_some
  | .literal _, rsop, h, _ => by cases h; exact Answers.of_some
  | .aggFunc _, rsop, h, _ => by cases h; exact Answers.of_some

theorem parseChildren_answers (hi : packs[i]? = some rows) : ∀ (es : List Expr) (ops : List RSOperator),
    parseChildren columnsToRead creator es = .ok ops →
    AllComparisonsIn (GoodComparison schema columnsToRead) es →
    List.Forall₂ (fun op e => Answers (op.roughCheck (fileIndexes loaded packs) i) (liveRows rows)
      fun r => evalExpr columnsToRead r (unknown r) e) ops es
  | [], ops, h, _ => by cases h; exact .nil
  | e :: es, ops, h, hgood => by
    rw [parseChildren] at h
    split_ifs at h
    · obtain ⟨op, hop, h⟩ := bind_eq_ok_iff.1 h
      obtain ⟨ops', hops', h⟩ := bind_eq_ok_iff.1 h
      obtain rfl := pure_eq_ok_iff.1 h
      exact .cons (parseTiExpr_answers hi e op hop hgood.1)
        (parseChildren_answers hi es ops' hops' hgood.2)
    · obtain ⟨op, hop, h⟩ := bind_eq_ok_iff.1 h
      obtain ⟨ops', hops', h⟩ := bind_eq_ok_iff.1 h
      obtain rfl := pure_eq_ok_iff.1 hop
      obtain rfl := pure_eq_ok_iff.1 h
      exact .cons Answers.of_some (parseChildren_answers hi es ops' hops' hgood.2)

end

section

variable (hi : packs[i]? = some rows)
include hi

theorem tryParse_answers {e : Expr} {rsop : RSOperator} (h : tryParse columnsToRead creator e = .ok rsop)
    (hgood : AllComparisons (GoodComparison schema columnsToRead) e) :
    Answers (rsop.roughCheck (fileIndexes loaded packs) i) (liveRows rows)
      fun r => evalExpr columnsToRead r (unknown r) e := by
  unfold tryParse at h
  split_ifs at h
  · exact parseTiExpr_answers hi e rsop h hgood
  · cases h; exact Answers.of_some

variable {filters : List Expr}

theorem mapM_tryParse_answers {ops : List RSOperator}
    (h : filters.mapM (tryParse columnsToRead creator) = .ok ops)
    (hgood : ∀ f ∈ filters, AllComparisons (GoodComparison schema columnsToRead) f) :
    List.Forall₂ (fun op e => Answers (op.roughCheck (fileIndexes loaded packs) i) (liveRows rows)
      fun r => evalExpr columnsToRead r (unknown r) e) ops filters := by
  induction filters generalizing ops with
  | nil => cases h; exact .nil
  | cons f filters ih =>
    rw [mapM_cons] at h
    obtain ⟨op, hop, h⟩ := bind_eq_ok_iff.1 h
    obtain ⟨ops', hops', h⟩ := bind_eq_ok_iff.1 h
    obtain rfl := pure_eq_ok_iff.1 h
    exact .cons (tryParse_answers hi hop (hgood f mem_cons_self))
      (ih hops' fun g hg => hgood g (mem_cons_of_mem f hg))

theorem parseDAGQuery_answers {rsop : RSOperator}
    (h : parseDAGQuery columnsToRead creator filters = .ok (some rsop))
    (hgood : ∀ f ∈ filters, AllComparisons (GoodComparison schema columnsToRead) f) :
    Answers (rsop.roughCheck (fileIndexes loaded packs) i) (liveRows rows)
      fun r => evalFilters columnsToRead r (unknown r) filters := by
  match filters, h with
  | [], h => cases h
  | [f], h =>
    obtain ⟨op, hop, h⟩ := bind_eq_ok_iff.1 h
    obtain rfl := Option.some.inj (pure_eq_ok_iff.1 h)
    have hf : Answers (op.roughCheck (fileIndexes loaded packs) i) (liveRows rows)
        fun r => evalExpr columnsToRead r (unknown r) f :=
      tryParse_answers hi hop (hgood f mem_cons_self)
    refine hf.congr fun r _ => ?_
    rcases hv : evalExpr columnsToRead r (unknown r) f with _ | _ | _ <;> simp [evalFilters, hv, and3]
  | f :: g :: filters, h =>
    obtain ⟨ops, hops, h⟩ := bind_eq_ok_iff.1 h
    obtain ⟨op, hop, h⟩ := bind_eq_ok_iff.1 h
    obtain rfl := Option.some.inj (pure_eq_ok_iff.1 h)
    exact createAnd_answers (mapM_tryParse_answers hi hops hgood) hop

end

mutual

theorem AllComparisons.and {p q : Comparison → List Expr → Prop} : ∀ e : Expr,
    AllComparisons p e → AllComparisons q e → AllComparisons (fun op cs => p op cs ∧ q op cs) e
  | .scalarFunc sig children, hp, hq => by
    rw [AllComparisons] at hp hq ⊢
    have hch := AllComparisonsIn.and (p := p) (q := q) children
    cases hsig : scalarFuncRsFilterMap sig with
    | none => trivial
    | some ft =>
      simp only [hsig] at hp hq
      cases ft with
      | compare op => exact ⟨hp, hq⟩
      | not | and | or => exact hch hp hq
  | .columnRef _ _, _, _ => trivial
  | .literal _, _, _ => trivial
  | .aggFunc _, _, _ => trivial

theorem AllComparisonsIn.and {p q : Comparison → List Expr → Prop} : ∀ es : List Expr,
    AllComparisonsIn p es → AllComparisonsIn q es →
    AllComparisonsIn (fun op cs => p op cs ∧ q op cs) es
  | [], _, _ => trivial
  | e :: es, hp, hq => ⟨AllComparisons.and e hp.1 hq.1, AllComparisonsIn.and es hp.2 hq.2⟩

end

/-- Rough filtering hides no row: the answers are right about the rows of a pack that are not delete-marked.
-/
def RoughFilterSound (columnsToRead : List ColId) (creator : ColId → DataType) (filters : List Expr)
    (loaded : ColId → Bool) (packs : List (List (PackRow schema))) (i : Nat)
    (unknown : PackRow schema → Expr → Option Bool) : Prop :=
  ∀ rsop rows, parseDAGQuery columnsToRead creator filters = .ok (some rsop) → packs[i]? = some rows →
    (rsop.roughCheck (fileIndexes loaded packs) i = .none → ∀ r ∈ rows, r.delMark = false →
      evalFilters columnsToRead r (unknown r) filters ≠ some true) ∧
    (rsop.roughCheck (fileIndexes loaded packs) i = .all → ∀ r ∈ rows, r.delMark = false →
      evalFilters columnsToRead r (unknown r) filters = some true)

theorem check_single {num : Option Int → Int → Int → RSResult}
    {str : Option Bytes → Bytes → Bytes → RSResult} {t : DataType} (ht : t.isNumeric)
    (hnn : ∀ u, t ≠ .nullable u) {val : t.Carrier} {x : Int} (hx : t.toNumber val = some x)
    (hv : v.asNumber = some n) :
    check num str t (addPack [⟨false, val, false⟩]) v = num (some n) x x := by
  have hnull : v ≠ .null := by rintro rfl; simp [Field.asNumber] at hv
  cases t with
  | string | other id => simp [DataType.isNumeric] at ht
  | nullable u => exact absurd rfl (hnn u)
  | _ =>
    obtain rfl : val = x := Option.some.inj hx
    simp [check, addPack, minmax, minmaxStep, hnull, hv]

/-- For "literal op column" the operator of "column op literal" is built, which is wrong about every pack of
one row with another value. -/
theorem createCompare_literalFirst (heq : op ≠ .equal) (hne : op ≠ .notEqual) {x : Int} (hv : v.asNumber = some n) (ht : (schema c).isNumeric)
    (hnn : ∀ u, schema c ≠ .nullable u) {row : PackRow schema} (hdel : row.delMark = false)
    (hnull : row.isNull c = false) (hx : (schema c).toNumber (row.value c) = some x) (hxn : x ≠ n)
    (hl : loaded c = true) :
    (createCompare op ⟨c, schema c⟩ v).roughCheck (fileIndexes loaded [[row]]) 0
      = if op.holds n x then .none else .all := by
  have hindex : ∀ check : (t : DataType) → PackMinMax t.Carrier → RSResult,
      withIndex (fileIndexes loaded [[row]]) 0 ⟨c, schema c⟩ check
        = check (schema c) (addPack [⟨false, row.value c, false⟩]) := by
    intro check
    simp [withIndex, fileIndexes, hl, packColumn, hnull, hdel]
  cases op with
  | equal => exact absurd rfl heq
  | notEqual => exact absurd rfl hne
  | _ =>
    simp only [createCompare, RSOperator.roughCheck, hindex, MinMaxIndex.checkGreater,
      MinMaxIndex.checkGreaterEqual, check_single ht hnn hx hv, RoughCheck.checkGreater,
      RoughCheck.checkGreaterEqual, Comparison.holds, decide_eq_true_eq]
    rcases lt_or_gt_of_ne hxn with hlt | hgt <;> split_ifs <;> first | rfl | omega

/-- Rough filtering hides no row as long as no comparison by order has its literal first. A single comparison
that has goes wrong on every pack of one row with another value. -/
theorem rough_filter_sound_of_column_first (schema : ColId → DataType) (columnsToRead : List ColId)
    (loaded : ColId → Bool) (unknown : PackRow schema → Expr → Option Bool) :
    (∀ (creator : ColId → DataType) (filters : List Expr) (packs : List (List (PackRow schema))) (i : Nat),
      (∀ f ∈ filters, AllComparisons (NumericColumns schema columnsToRead) f) →
      (∀ f ∈ filters, AllComparisons (fun op cs => ¬ LiteralFirst op cs) f) →
      RoughFilterSound columnsToRead creator filters loaded packs i unknown) ∧
    (∀ (sig : ScalarFuncSig) (op : Comparison) (v : Field) (index : Int) (ft : TiDBType) (c : ColId)
      (n x : Int) (row : PackRow schema),
      scalarFuncRsFilterMap sig = some (.compare op) →
      LiteralFirst op [.literal (.ok v), .columnRef index (some ft)] → v.asNumber = some n →
      getColumnIDForColumnExpr columnsToRead index = .ok c → (schema c).isNumeric →
      (∀ u, schema c ≠ .nullable u) → loaded c = true → row.delMark = false → row.isNull c = false →
      (schema c).toNumber (row.value c) = some x → x ≠ n →
      ¬ RoughFilterSound columnsToRead schema
        [.scalarFunc sig [.literal (.ok v), .columnRef index (some ft)]] loaded [[row]] 0 unknown) := by
  constructor
  · intro creator filters packs i hnum hfirst rsop rows hparse hi
    have hans : Answers (rsop.roughCheck (fileIndexes loaded packs) i) (liveRows rows)
        fun r => evalFilters columnsToRead r (unknown r) filters :=
      parseDAGQuery_answers hi hparse fun f hf => AllComparisons.and f (hnum f hf) (hfirst f hf)
    have hlive : ∀ r ∈ rows, r.delMark = false → r ∈ liveRows rows := fun r hr hd =>
      mem_filter.2 ⟨hr, by simp [hd]⟩
    exact ⟨fun hn r hr hd => by simp [hans.none hn r (hlive r hr hd)],
      fun ha r hr hd => hans.all ha r (hlive r hr hd)⟩
  · intro sig op v index ft c n x row hsig hlit hv hc ht hnn hl hdel hnull hx hxn hsound
    obtain ⟨heq, hne, -, hft⟩ := hlit
    have hcmp : parseTiCompareExpr columnsToRead schema op
        [.literal (.ok v), .columnRef index (some ft)] = .ok (createCompare op ⟨c, schema c⟩ v) := by
      simp [parseTiCompareExpr, parseCompareChild, hft, hc, bind, Except.bind, pure, Except.pure]
    have hparse : parseDAGQuery columnsToRead schema
        [.scalarFunc sig [.literal (.ok v), .columnRef index (some ft)]]
          = .ok (some (createCompare op ⟨c, schema c⟩ v)) := by
      simp [parseDAGQuery, tryParse, isFunctionExpr, parseTiExpr, hsig, hcmp, bind, Except.bind, pure,
        Except.pure]
    have heval : evalFilters columnsToRead row (unknown row)
        [.scalarFunc sig [.literal (.ok v), .columnRef index (some ft)]] = some (op.holds n x) := by
      have hrow : rowNumber row c = some x := by simp [rowNumber, hnull, hx]
      simp only [evalFilters, map_cons, map_nil, foldl_cons, foldl_nil, evalExpr, hsig,
        evalCompare, operandValue_literal hv, operandValue_columnRef hc ht, hrow, rel3]
      cases op.holds n x <;> rfl
    obtain ⟨hnone, hall⟩ := hsound _ [row] hparse rfl
    rw [createCompare_literalFirst heq hne hv ht hnn hdel hnull hx hxn hl] at hnone hall
    cases hop : op.holds n x with
    | true => exact hnone (by simp [hop]) row mem_cons_self hdel (by rw [heval, hop])
    | false => simpa [heval, hop] using hall (by simp [hop]) row mem_cons_self hdel

/-- `5 > a` is parsed as `a > 5`: the pack that holds only `a = 3` is skipped. -/
theorem rough_filter_hides_row_of_literal_first :
    ¬ RoughFilterSound [1] (fun _ => .int 64)
      [.scalarFunc (.gt .int) [.literal (.ok (.int64 5)), .columnRef 0 (some .longLong)]] (fun _ => true)
      ([[⟨fun _ => false, fun _ => (3 : Int), false⟩]] : List (List (PackRow fun _ => .int 64))) 0
      (fun _ _ => none) := by
  intro h
  obtain ⟨hnone, -⟩ := h (.greater ⟨1, .int 64⟩ (.int64 5)) _ rfl rfl
  exact hnone rfl _ mem_cons_self rfl (by decide)

/-- `NOT (a > 5) AND 7 = a`, on a file of one pack. -/
theorem rough_filter_sound_of_column_first_example :
    let filters : List Expr :=
      [.scalarFunc .unaryNotInt [.scalarFunc (.gt .int) [.columnRef 0 (some .longLong), .literal (.ok (.int64 5))]],
        .scalarFunc (.eq .int) [.literal (.ok (.int64 7)), .columnRef 0 (some .longLong)]]
    RoughFilterSound [1] (fun _ => .int 64) filters (fun _ => true)
        ([[⟨fun _ => false, fun _ => (7 : Int), false⟩]] : List (List (PackRow fun _ => .int 64))) 0
        (fun _ _ => none) ∧
      ¬ RoughFilterSound [1] (fun _ => .int 64)
        [.scalarFunc (.lt .int) [.literal (.ok (.int64 5)), .columnRef 0 (some .longLong)]] (fun _ => true)
        ([[⟨fun _ => false, fun _ => (3 : Int), false⟩]] : List (List (PackRow fun _ => .int 64))) 0
        (fun _ _ => none) := by
  refine ⟨(rough_filter_sound_of_column_first _ _ _ _).1 _ _ _ _ ?_ ?_, ?_⟩
  · intro f hf
    fin_cases hf <;> simp [AllComparisons, AllComparisonsIn, scalarFuncRsFilterMap, NumericColumns,
      DataType.isNumeric]
  · intro f hf
    fin_cases hf <;> simp [AllComparisons, AllComparisonsIn, scalarFuncRsFilterMap, LiteralFirst]
  · exact (rough_filter_sound_of_column_first _ _ _ _).2 _ .less _ _ _ 1 5 3 _ rfl
      ⟨by decide, by decide, rfl, rfl⟩ rfl rfl rfl (by simp) rfl rfl rfl rfl (by decide)

end Sound

end TiFlash.DM
