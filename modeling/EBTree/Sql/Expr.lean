import EBTree.Lib.JsonLine
import EBTree.Sql.SetOps

/-!
# Expressions

The syntax of expressions (`expr_ast.h`) and their evaluation on a row (`expr_eval.cc`,
`sql_value.cc`, `type_affinity.cc`). A value is stored as text and read as an integer, a real
number or text by its spelling; a comparison is numeric or textual by the spelling of both sides and
the type of the column.

A node keeps `is_not`, which only the evaluation of truth looks at. What a function or a subquery
gives on a row is part of its node (`foreign`). The machine's floating point and the matching of
LIKE and GLOB are taken from `Runtime`.
-/

set_option autoImplicit false

namespace EBTree.Sql

open Lib

/-- Floating point numbers of the C library, and pattern matching. -/
structure Runtime where
  Real : Type
  ofInt : Int64 → Real
  toInt : Real → Int64
  /-- `strtod`: the number, and how many characters it took; none where there is no number. -/
  strtod : Bytes → Real × Nat
  add : Real → Real → Real
  sub : Real → Real → Real
  mul : Real → Real → Real
  div : Real → Real → Real
  lt : Real → Real → Bool
  le : Real → Real → Bool
  eq : Real → Real → Bool
  /-- `printf("%g")`. -/
  print : Real → Bytes
  like : Bytes → Bytes → Bool
  glob : Bytes → Bytes → Bool

inductive TruthValue
  | kTrue | kFalse | kUnknown
  deriving DecidableEq, Repr

def and3 (a b : TruthValue) : TruthValue :=
  if a = .kFalse ∨ b = .kFalse then .kFalse
  else if a = .kUnknown ∨ b = .kUnknown then .kUnknown
  else .kTrue

def or3 (a b : TruthValue) : TruthValue :=
  if a = .kTrue ∨ b = .kTrue then .kTrue
  else if a = .kUnknown ∨ b = .kUnknown then .kUnknown
  else .kFalse

def not3 : TruthValue → TruthValue
  | .kTrue => .kFalse
  | .kFalse => .kTrue
  | .kUnknown => .kUnknown

def truthOf (b : Bool) : TruthValue := if b then .kTrue else .kFalse

inductive BinaryOp
  | kAnd | kOr | kEq | kNe | kLt | kLe | kGt | kGe | kLike | kGlob | kAdd | kSub | kMul | kDiv
  deriving DecidableEq, Repr

inductive TypeAffinity
  | kNull | kInteger | kReal | kText
  deriving DecidableEq, Repr

section

variable (rt : Runtime)

/-! ## Values -/

inductive SqlValue
  | null
  | integer (i : Int64)
  | real (r : rt.Real)
  | text (t : Bytes)

/-- `IsIntegerText`. -/
def isIntegerText (s : Bytes) : Bool :=
  match s with
  | [] => false
  | c :: rest =>
    if c = 45 ∨ c = 43 then rest ≠ [] && rest.all fun b => decide (IsDigit b)
    else s.all fun b => decide (IsDigit b)

/-- `IsRealText`: the number goes to the end of the C string. -/
def isRealText (s : Bytes) : Bool := (rt.strtod s).2 ≠ 0 && s.getD (rt.strtod s).2 0 = 0

/-- Whether `std::stoll` throws for an integer text. -/
def outOfRange (s : Bytes) : Bool :=
  let (neg, digits) := signOf s
  if neg then 2 ^ 63 < leadingNumber digits else 2 ^ 63 ≤ leadingNumber digits

variable {rt}

namespace SqlValue

/-- `FromLegacyString`. -/
def ofBytes (s : Bytes) : SqlValue rt :=
  if s = [] then .null
  else if isIntegerText s then (if outOfRange s then .text s else .integer (strtoll s))
  else if isRealText rt s then .real (rt.strtod s).1
  else .text s

def isNull : SqlValue rt → Bool
  | .null => true
  | _ => false

/-- `ToLegacyString`. -/
def toBytes : SqlValue rt → Bytes
  | .null => []
  | .integer i => signedDecimal i
  | .real r => rt.print r
  | .text t => t

/-- `SqlValueAsReal`, of comparisons. -/
def asReal : SqlValue rt → rt.Real
  | .null => rt.ofInt 0
  | .integer i => rt.ofInt i
  | .real r => r
  | .text t => (rt.strtod t).1

/-- `AsDouble`, of arithmetic: text that is not all a number counts as zero. -/
def asDouble : SqlValue rt → rt.Real
  | .null => rt.ofInt 0
  | .integer i => rt.ofInt i
  | .real r => r
  | .text t => if isRealText rt t then (rt.strtod t).1 else rt.ofInt 0

/-- `AffinityOfValue`. -/
def affinity : SqlValue rt → TypeAffinity
  | .null => .kNull
  | .integer _ => .kInteger
  | .real _ => .kReal
  | .text t =>
    if t = [] then .kNull
    else if isIntegerText t then .kInteger
    else if isRealText rt t then .kReal
    else .kText

end SqlValue

def combinedAffinity (a b : TypeAffinity) : TypeAffinity :=
  if a = .kNull then b
  else if b = .kNull then a
  else if a = .kReal ∨ b = .kReal then .kReal
  else if a = .kInteger ∧ b = .kInteger then .kInteger
  else .kText

/-- The order that `<`, `<=`, `>` and `>=` ask for. -/
def orderTruth (op : BinaryOp) (lt le gt ge : Bool) : TruthValue :=
  match op with
  | .kLt => truthOf lt
  | .kLe => truthOf le
  | .kGt => truthOf gt
  | .kGe => truthOf ge
  | _ => .kFalse

/-- `CompareSqlValues`. -/
def compareSqlValues (lhs rhs : SqlValue rt) (op : BinaryOp) (hint : TypeAffinity) :
    TruthValue :=
  let orderReals (l r : rt.Real) : TruthValue :=
    orderTruth op (rt.lt l r) (rt.le l r) (rt.lt r l) (rt.le r l)
  match op with
  | .kAnd | .kOr | .kAdd | .kSub | .kMul | .kDiv => .kFalse
  | _ =>
    if lhs.isNull || rhs.isNull then .kUnknown
    else
      match op with
      | .kLike => truthOf (rt.like lhs.toBytes rhs.toBytes)
      | .kGlob => truthOf (rt.glob lhs.toBytes rhs.toBytes)
      | .kEq | .kNe =>
        let equal : Bool :=
          match combinedAffinity hint (combinedAffinity lhs.affinity rhs.affinity) with
          | .kInteger => rt.toInt lhs.asReal = rt.toInt rhs.asReal
          | .kReal => rt.eq lhs.asReal rhs.asReal
          | _ => lhs.toBytes = rhs.toBytes
        truthOf (if op = .kEq then equal else !equal)
      | _ =>
        let numeric (a : TypeAffinity) : Bool := a = .kInteger ∨ a = .kReal
        if numeric lhs.affinity && numeric rhs.affinity then orderReals lhs.asReal rhs.asReal
        else
          let l := lhs.toBytes
          let r := rhs.toBytes
          if l.getD (rt.strtod l).2 0 = 0 ∧ r.getD (rt.strtod r).2 0 = 0 then
            orderReals (rt.strtod l).1 (rt.strtod r).1
          else orderTruth op (decide (l < r)) (decide (l ≤ r)) (decide (r < l)) (decide (r ≤ l))

/-! ## Syntax -/

variable (rt)

/-- `ExprNode`, by kind; each keeps its `is_not`. -/
inductive ExprNode
  | literal (literal : Bytes) (isNot : Bool)
  | column (table column : Bytes) (isNot : Bool)
  | binary (op : BinaryOp) (left right : ExprNode) (isNot : Bool)
  | isNull (child : ExprNode) (isNullCheck isNot : Bool)
  | inLiterals (lhs : ExprNode) (literals : List Bytes) (notOp isNot : Bool)
  /-- A function or a subquery, by what it gives on a row. -/
  | foreign (value : Fields → SqlValue rt) (truth : Fields → TruthValue) (isNot : Bool)

variable {rt}

def ExprNode.isNot : ExprNode rt → Bool
  | .literal _ b | .column _ _ b | .binary _ _ _ b | .isNull _ _ b | .inLiterals _ _ _ b
  | .foreign _ _ b => b

/-! ## Evaluation -/

/-- `SchemaContext::ColumnAffinity`. -/
def columnAffinity (table : TableSchema) (col : Bytes) : TypeAffinity :=
  match table.columns.find? (·.name = col) with
  | none => .kText
  | some c =>
    if c.type = ascii "INTEGER" then .kInteger
    else if c.type = ascii "REAL" ∨ c.type = ascii "FLOAT" then .kReal
    else .kText

/-- `ColumnAffinityFor`. -/
def columnAffinityFor (table : TableSchema) : ExprNode rt → TypeAffinity
  | .column _ col _ => columnAffinity table ((bareColumn col).getD col)
  | _ => .kText

/-- `LookupColumn`. -/
def lookupColumn (tableName col : Bytes) (row : Fields) : Bytes :=
  let qualified := if tableName = [] then none else row.find? (tableName ++ 46 :: col)
  (qualified <|> row.find? col <|> (bareColumn col).bind row.find?).getD []

/-- `EvalInLiterals`. -/
def evalInLiterals (lhs : SqlValue rt) (literals : List Bytes) (notOp : Bool) : TruthValue :=
  if literals = [] then truthOf notOp
  else if lhs.isNull then .kUnknown
  else if literals.any fun lit => lit ≠ [] &&
      compareSqlValues lhs (.ofBytes lit) .kEq .kText = .kTrue then truthOf !notOp
  else if literals.contains [] then .kUnknown
  else truthOf notOp

/-- The arithmetic of `EvalBinaryValue`. -/
def evalArithmetic (op : BinaryOp) (l r : SqlValue rt) : SqlValue rt :=
  if l.isNull || r.isNull then .null
  else
    match op with
    | .kAdd => .real (rt.add l.asDouble r.asDouble)
    | .kSub => .real (rt.sub l.asDouble r.asDouble)
    | .kMul => .real (rt.mul l.asDouble r.asDouble)
    | .kDiv =>
      if rt.eq r.asDouble (rt.ofInt 0) then .null else .real (rt.div l.asDouble r.asDouble)
    | _ => .null

/-- Truth as a number, and under a NOT. -/
def truthValue (tv : TruthValue) : SqlValue rt := .integer (if tv = .kTrue then 1 else 0)

def negate (isNot : Bool) (tv : TruthValue) : TruthValue := if isNot then not3 tv else tv

/-- The truth of a value, for the kinds that `EvalTruth` does not name. -/
def valueTruth (v : SqlValue rt) : TruthValue :=
  if v.isNull then .kUnknown else truthOf (v.toBytes ≠ ascii "0")

/-- The truth of a literal. -/
def literalTruth (lit : Bytes) : TruthValue :=
  if lit = [] ∨ lit = ascii "NULL" then .kUnknown
  else truthOf (lit ≠ ascii "0" && lit ≠ ascii "false" && lit ≠ ascii "FALSE")

/-- `EvalValue` and `EvalTruth` of a node. -/
def evalNode (table : TableSchema) (row : Fields) : ExprNode rt → SqlValue rt × TruthValue
  | .literal lit isNot => (.ofBytes lit, negate isNot (literalTruth lit))
  | .column t col isNot =>
    let v := .ofBytes (lookupColumn t col row)
    (v, negate isNot (valueTruth v))
  | .isNull child isNullCheck isNot =>
    let result := (evalNode table row child).1.isNull == isNullCheck
    (.integer (if result then 1 else 0), negate isNot (truthOf result))
  | .inLiterals lhs literals notOp isNot =>
    let tv := evalInLiterals (evalNode table row lhs).1 literals notOp
    (truthValue tv, negate isNot tv)
  | .foreign value truth isNot => (value row, negate isNot (truth row))
  | .binary op left right isNot =>
    let l := evalNode table row left
    let r := evalNode table row right
    let comparison :=
      let aff := columnAffinityFor table left
      compareSqlValues l.1 r.1 op (if aff = .kText then columnAffinityFor table right else aff)
    match op with
    | .kAdd | .kSub | .kMul | .kDiv =>
      let v := evalArithmetic op l.1 r.1
      (v, negate isNot
        (if v.isNull then .kUnknown else truthOf !(rt.eq v.asDouble (rt.ofInt 0))))
    | .kAnd =>
      let tv := negate isNot (and3 l.2 r.2)
      (truthValue tv, tv)
    | .kOr =>
      let tv := negate isNot (or3 l.2 r.2)
      (truthValue tv, tv)
    | _ =>
      let tv := negate isNot comparison
      (truthValue tv, tv)

def evalBool (table : TableSchema) (row : Fields) (e : ExprNode rt) : Bool :=
  (evalNode table row e).2 = .kTrue

/-- `EvalScalar`. -/
def evalScalar (table : TableSchema) (row : Fields) (e : ExprNode rt) : Bytes :=
  (evalNode table row e).1.toBytes

end

/-- Whole numbers in place of floating point ones. -/
def wholeNumbers : Runtime where
  Real := Int
  ofInt i := i.toInt
  toInt i := Int64.ofInt i
  strtod s :=
    let digits := s.takeWhile fun b => decide (IsDigit b)
    (ofDecimal digits, digits.length)
  add a b := a + b
  sub a b := a - b
  mul a b := a * b
  div a b := a / b
  lt a b := decide (a < b)
  le a b := decide (a ≤ b)
  eq a b := decide (a = b)
  print i := signedDecimal (Int64.ofInt i)
  like s pattern := decide (s = pattern)
  glob s pattern := decide (s = pattern)

end EBTree.Sql
