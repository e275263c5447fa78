import EBTree.Sql.Expr

/-!
# The value and the truth of an expression

`evalNode` gives a node's value and its truth, as `EvalValue` and `EvalTruth` do. They agree
(`Agrees`) where the truth is unknown for NULL, false for a number that is zero, and true otherwise.
`agrees_iff` says at which nodes they do: a comparison needs both of its operands, a NOT anywhere
but on a comparison, an AND or an OR is seen by the truth alone, and a literal or a column must be
spelled so that its number is zero exactly if its text is taken to be false.
-/

set_option autoImplicit false

namespace EBTree.Sql

open Lib

variable {rt : Runtime}

/-- A number, by its kind or its spelling, that equals zero. -/
def SqlValue.numericallyZero : SqlValue rt → Bool
  | .null => false
  | .integer i => i = 0
  | .real r => rt.eq r (rt.ofInt 0)
  | .text t => isRealText rt t && rt.eq (rt.strtod t).1 (rt.ofInt 0)

/-- What the truth of a value is. -/
def SqlValue.meaning (v : SqlValue rt) : TruthValue :=
  if v.isNull then .kUnknown else truthOf !v.numericallyZero

/-- The two evaluators agree on a node. -/
def Agrees (table : TableSchema) (row : Fields) (e : ExprNode rt) : Prop :=
  (evalNode table row e).2 = (evalNode table row e).1.meaning

/-- Every call of a function is one: its truth is that of its value. -/
def CallsFunctions : ExprNode rt → Prop
  | .literal _ _ | .column _ _ _ => True
  | .binary _ left right _ => CallsFunctions left ∧ CallsFunctions right
  | .isNull child _ _ => CallsFunctions child
  | .inLiterals lhs _ _ _ => CallsFunctions lhs
  | .foreign value truth _ => ∀ row, truth row = valueTruth (value row)

/-- A literal that the truth of an expression takes to be false. -/
def falseLiteral (lit : Bytes) : Bool :=
  lit = ascii "0" ∨ lit = ascii "false" ∨ lit = ascii "FALSE"

/-- A value read off a text: its number is zero exactly if its text is "0", or, under a NOT, exactly
if it is not. -/
def SpeltAlike (v : SqlValue rt) (isNot : Bool) : Prop :=
  v.isNull ∨ v.numericallyZero = (decide (v.toBytes = ascii "0") != isNot)

/-- An arithmetic operation without a result: an operand is NULL, or the divisor is zero. -/
def noResult (op : BinaryOp) (l r : SqlValue rt) : Bool :=
  l.isNull || r.isNull || (op = .kDiv && rt.eq r.asDouble (rt.ofInt 0))

/-- A list of literals decides whether the value is in it. -/
def listDecides (lhs : SqlValue rt) (literals : List Bytes) : Bool :=
  literals = [] || !lhs.isNull && (!literals.contains [] || literals.any fun lit =>
    lit ≠ [] && compareSqlValues lhs (.ofBytes lit) .kEq .kText = .kTrue)

/-- The nodes at which the two evaluators agree, by what their operands are. -/
def AgreesAt (table : TableSchema) (row : Fields) : ExprNode rt → Prop
  | .literal lit isNot => lit = [] ∨
      lit ≠ ascii "NULL" ∧ (@SqlValue.ofBytes rt lit).numericallyZero =
        (falseLiteral lit != isNot)
  | .column t col isNot => @SpeltAlike rt (.ofBytes (lookupColumn t col row)) isNot
  | .foreign value _ isNot => SpeltAlike (value row) isNot
  | .isNull _ _ isNot => isNot = false
  | .inLiterals lhs literals _ isNot =>
    isNot = false ∧ listDecides (evalNode table row lhs).1 literals
  | .binary op left right isNot =>
    let l := evalNode table row left
    let r := evalNode table row right
    match op with
    | .kAdd | .kSub | .kMul | .kDiv => isNot = false ∨ noResult op l.1 r.1
    | .kAnd => l.2 = .kFalse ∨ r.2 = .kFalse ∨ l.2 = .kTrue ∧ r.2 = .kTrue
    | .kOr => l.2 = .kTrue ∨ r.2 = .kTrue ∨ l.2 = .kFalse ∧ r.2 = .kFalse
    | _ => l.1.isNull = false ∧ r.1.isNull = false

/-! ## Truth values -/

@[simp] theorem negate_truthOf (isNot b : Bool) :
    negate isNot (truthOf b) = truthOf (b != isNot) := by
  cases isNot <;> cases b <;> rfl

@[simp] theorem truthOf_inj (a b : Bool) : truthOf a = truthOf b ↔ a = b := by
  cases a <;> cases b <;> decide

@[simp] theorem truthOf_ne_unknown (b : Bool) : truthOf b ≠ .kUnknown := by
  cases b <;> decide

@[simp] theorem unknown_ne_truthOf (b : Bool) : .kUnknown ≠ truthOf b :=
  (truthOf_ne_unknown b).symm

@[simp] theorem negate_unknown (isNot : Bool) : negate isNot .kUnknown = .kUnknown := by
  cases isNot <;> rfl

@[simp] theorem negate_eq_unknown (isNot : Bool) (tv : TruthValue) :
    negate isNot tv = .kUnknown ↔ tv = .kUnknown := by
  cases isNot <;> cases tv <;> decide

/-- Unless it is unknown, a truth is what its number says. -/
theorem eq_meaning_truthValue (tv : TruthValue) :
    tv = (@truthValue rt tv).meaning ↔ tv ≠ .kUnknown := by
  cases tv <;> simp [truthValue, SqlValue.meaning, SqlValue.isNull, SqlValue.numericallyZero,
    truthOf]

theorem and3_ne_unknown (a b : TruthValue) :
    and3 a b ≠ .kUnknown ↔ a = .kFalse ∨ b = .kFalse ∨ a = .kTrue ∧ b = .kTrue := by
  cases a <;> cases b <;> decide

theorem or3_ne_unknown (a b : TruthValue) :
    or3 a b ≠ .kUnknown ↔ a = .kTrue ∨ b = .kTrue ∨ a = .kFalse ∧ b = .kFalse := by
  cases a <;> cases b <;> decide

/-! ## Nodes -/

theorem valueTruth_agrees (v : SqlValue rt) (isNot : Bool) :
    negate isNot (valueTruth v) = v.meaning ↔ SpeltAlike v isNot := by
  cases hv : v.isNull
  · simp only [valueTruth, SqlValue.meaning, SpeltAlike, hv, Bool.false_eq_true, if_false,
      false_or, negate_truthOf, truthOf_inj]
    cases v.numericallyZero <;> cases isNot <;> simp
  · simp [valueTruth, SqlValue.meaning, SpeltAlike, hv]

theorem ofBytes_isNull (s : Bytes) :
    (@SqlValue.ofBytes rt s).isNull = decide (s = []) := by
  unfold SqlValue.ofBytes
  split
  · simp [SqlValue.isNull, *]
  · split
    · split <;> simp [SqlValue.isNull, *]
    · split <;> simp [SqlValue.isNull, *]

theorem literal_agrees (lit : Bytes) (isNot : Bool) :
    negate isNot (literalTruth lit) = (@SqlValue.ofBytes rt lit).meaning ↔
      lit = [] ∨ lit ≠ ascii "NULL" ∧ (@SqlValue.ofBytes rt lit).numericallyZero =
        (falseLiteral lit != isNot) := by
  have htruth : lit ≠ [] → lit ≠ ascii "NULL" →
      literalTruth lit = truthOf !falseLiteral lit := by
    intro h0 h1
    simp only [literalTruth, falseLiteral, h0, h1, or_self, if_false]
    congr 1
    simp [Bool.and_assoc]
  by_cases h0 : lit = []
  · simp [h0, literalTruth, SqlValue.meaning, ofBytes_isNull]
  by_cases h1 : lit = ascii "NULL"
  · simp [h1, literalTruth, SqlValue.meaning, ofBytes_isNull, h1 ▸ h0]
  · rw [htruth h0 h1, negate_truthOf]
    simp only [SqlValue.meaning, ofBytes_isNull, h0, h1, decide_false, Bool.false_eq_true,
      if_false, truthOf_inj, false_or, ne_eq, not_false_eq_true, true_and]
    generalize falseLiteral lit = spelt
    cases (@SqlValue.ofBytes rt lit).numericallyZero <;> cases spelt <;> cases isNot <;>
      decide

theorem orderTruth_ne_unknown (op : BinaryOp) (lt le gt ge : Bool) :
    orderTruth op lt le gt ge ≠ .kUnknown := by
  cases op <;> simp [orderTruth]

/-- A comparison of two values is decided unless one of them is NULL. -/
theorem compareSqlValues_ne_unknown (l r : SqlValue rt) (op : BinaryOp) (hint : TypeAffinity)
    (hop : op ≠ .kAnd ∧ op ≠ .kOr ∧ op ≠ .kAdd ∧ op ≠ .kSub ∧ op ≠ .kMul ∧ op ≠ .kDiv) :
    compareSqlValues l r op hint ≠ .kUnknown ↔ l.isNull = false ∧ r.isNull = false := by
  obtain ⟨h1, h2, h3, h4, h5, h6⟩ := hop
  unfold compareSqlValues
  cases hnull : l.isNull || r.isNull
  · have hboth : l.isNull = false ∧ r.isNull = false := by simpa using hnull
    simp only [hboth, and_self, iff_true]
    cases op <;> simp only [ne_eq, reduceCtorEq, not_true_eq_false] at h1 h2 h3 h4 h5 h6 ⊢ <;>
      first
      | exact truthOf_ne_unknown _
      | (simp only [if_false]
         split <;> [skip; split] <;> exact orderTruth_ne_unknown _ _ _ _ _)
  · have hone : ¬ (l.isNull = false ∧ r.isNull = false) := by
      rintro ⟨hl, hr⟩
      simp [hl, hr] at hnull
    simp only [hone, iff_false, not_not]
    cases op <;> simp_all

theorem evalInLiterals_ne_unknown (lhs : SqlValue rt) (literals : List Bytes) (notOp : Bool) :
    evalInLiterals lhs literals notOp ≠ .kUnknown ↔ listDecides lhs literals := by
  unfold evalInLiterals listDecides
  by_cases h0 : literals = []
  · simp [h0]
  cases lhs.isNull
  · simp only [h0, if_false, Bool.false_eq_true, decide_false, Bool.not_false, Bool.true_and,
      Bool.false_or]
    split
    · simp_all
    · split <;> simp_all
  · simp [h0]

/-- The arithmetic of a node: it gives NULL or a real number. -/
theorem evalArithmetic_cases (op : BinaryOp) (l r : SqlValue rt)
    (hop : op = .kAdd ∨ op = .kSub ∨ op = .kMul ∨ op = .kDiv) :
    noResult op l r = true ∧ evalArithmetic op l r = .null ∨
      noResult op l r = false ∧ ∃ x, evalArithmetic op l r = .real x := by
  unfold evalArithmetic noResult
  cases l.isNull || r.isNull
  · obtain rfl | rfl | rfl | rfl := hop <;> simp
    cases rt.eq r.asDouble (rt.ofInt 0) <;> simp
  · simp

/-- The two evaluators agree exactly at the nodes that `AgreesAt` describes. -/
theorem agrees_iff (rt : Runtime) (table : TableSchema) (row : Fields) (e : ExprNode rt)
    (hcalls : CallsFunctions e) : Agrees table row e ↔ AgreesAt table row e := by
  cases e with
  | literal lit isNot => exact literal_agrees lit isNot
  | column t col isNot => exact valueTruth_agrees _ isNot
  | foreign value truth isNot =>
    unfold Agrees AgreesAt
    simp only [evalNode, hcalls row]
    exact valueTruth_agrees _ isNot
  | isNull child isNullCheck isNot =>
    unfold Agrees AgreesAt
    simp only [evalNode]
    generalize ((evalNode table row child).1.isNull == isNullCheck) = result
    cases result <;> cases isNot <;>
      simp [SqlValue.meaning, SqlValue.isNull, SqlValue.numericallyZero]
  | inLiterals lhs literals notOp isNot =>
    unfold Agrees AgreesAt
    simp only [evalNode]
    rw [← evalInLiterals_ne_unknown _ _ notOp]
    cases evalInLiterals (evalNode table row lhs).1 literals notOp <;> cases isNot <;>
      simp [negate, not3, truthValue, SqlValue.meaning, SqlValue.isNull,
        SqlValue.numericallyZero, truthOf]
  | binary op left right isNot =>
    have hlogic (tv : TruthValue) :
        negate isNot tv = (@truthValue rt (negate isNot tv)).meaning ↔ tv ≠ .kUnknown := by
      rw [eq_meaning_truthValue, ne_eq, negate_eq_unknown]
    have harith (hop : op = .kAdd ∨ op = .kSub ∨ op = .kMul ∨ op = .kDiv) (l r : SqlValue rt) :
        negate isNot (if (evalArithmetic op l r).isNull then .kUnknown
            else truthOf !(rt.eq (evalArithmetic op l r).asDouble (rt.ofInt 0))) =
          (evalArithmetic op l r).meaning ↔ isNot = false ∨ noResult op l r := by
      obtain ⟨h, hv⟩ | ⟨h, x, hv⟩ := evalArithmetic_cases op l r hop
      · simp [h, hv, SqlValue.meaning, SqlValue.isNull]
      · simp only [h, hv, SqlValue.meaning, SqlValue.isNull, SqlValue.numericallyZero,
          SqlValue.asDouble, Bool.false_eq_true, if_false, negate_truthOf, truthOf_inj, or_false]
        cases rt.eq x (rt.ofInt 0) <;> cases isNot <;> simp
    unfold Agrees AgreesAt
    cases op <;> simp only [evalNode, hlogic, harith, reduceCtorEq, true_or, or_true, and3_ne_unknown,
      or3_ne_unknown]
    all_goals exact compareSqlValues_ne_unknown _ _ _ _ (by decide)

/-! ## A comparison with NULL -/

/-- A table that declares no columns. -/
def bareTable : TableSchema := ⟨1, ascii "t", ascii "k", ascii "v", [], 2, false, 1⟩

/-- `a = 1`. -/
def nullComparison : ExprNode wholeNumbers :=
  .binary .kEq (.column [] (ascii "a") false) (.literal (ascii "1") false) false

/-- On a row without `a` the comparison is unknown, and its value is the number 0. -/
theorem agrees_null : ¬ ∀ (rt : Runtime) (table : TableSchema) (row : Fields) (e : ExprNode rt),
    CallsFunctions e → Agrees table row e := by
  intro h
  have hcalls : CallsFunctions nullComparison := ⟨trivial, trivial⟩
  have hagree := h wholeNumbers bareTable .empty nullComparison hcalls
  have htruth : (evalNode bareTable .empty nullComparison).2 = .kUnknown := by decide +kernel
  have hvalue : (evalNode bareTable .empty nullComparison).1.meaning = .kFalse := by
    decide +kernel
  rw [Agrees, htruth, hvalue] at hagree
  cases hagree

/-- With a value for `a` the two agree. -/
theorem agrees_present :
    Agrees bareTable (SortedMap.empty.insert (ascii "a") (ascii "2")) nullComparison :=
  (agrees_iff wholeNumbers bareTable _ nullComparison ⟨trivial, trivial⟩).2
    ⟨by decide +kernel, by decide +kernel⟩

end EBTree.Sql
