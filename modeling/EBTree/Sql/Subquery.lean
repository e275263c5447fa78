import EBTree.Sql.Select

/-!
# Subqueries

`SubqueryRunner` (`subquery_runner.cc`): the rows of the table of an inner SELECT, with the fields
it gives them, its clause on a row together with the qualified columns of the outer one, and EXISTS
with its shortcut.

A clause is given for each level of nesting: the subqueries in it are `foreign` nodes, by what
`EvalSubqueryTruth` gives of them under that level. The copy of the fields under their qualified
names, which the source makes while it walks the map, is taken to visit each field once.
-/

set_option autoImplicit false

namespace EBTree.Sql

open Lib Engine

def kMaxSubqueryDepth : Nat := 3

def kDefaultMaxSubqueryRows : Nat := 4096

/-- The table that an evaluator without a schema looks columns up in: it declares none. -/
def noSchema : TableSchema := ⟨0, [], [], [], [], 1, false, 0⟩

/-- The part of an inner SELECT that the runner looks at. -/
structure InnerQuery (rt : Runtime) where
  projectCols : List Bytes
  fromTable : Bytes
  whereExpr : Option (Nat → ExprNode rt)

/-- What a runner works on: the stored tables, the tables of a WITH, and the budget of rows. -/
structure RunnerContext where
  engine : ShardEngine
  store : SqlStore
  cte : Bytes → Option (List Fields)
  maxPages : Option Nat

/-! ## Rows -/

/-- `CheckRowBudget`. -/
def checkRowBudget (count : Nat) (maxPages : Option Nat) : Except Status Unit :=
  match maxPages with
  | some n =>
    if n < count then
      .error (.invalidArgument s!"MicContractViolation: row count {count} exceeds max_pages {n}")
    else .ok ()
  | none =>
    if kDefaultMaxSubqueryRows < count then
      .error (.invalidArgument "subquery scan too large")
    else .ok ()

/-- `SubqueryRunner::PopulateFields`. -/
def populateFields (table : TableSchema) (userKey raw : Bytes) : Fields :=
  let decoded := if 2 ≤ table.schemaVersion then (decodeRowFields raw).1 else SortedMap.empty
  let valued :=
    if table.schemaVersion < 2 ∧
        (decoded.isEmpty = true ∨ decoded.contains table.valueColumn = false) then
      let own : Fields :=
        if table.implicitRowid = false then SortedMap.empty.insert table.keyColumn userKey
        else SortedMap.empty
      own.insert table.valueColumn raw
    else decoded
  let named := valued.insert (ascii "key") userKey
  named.insertAll (named.entries.map fun e => (table.name ++ 46 :: e.1, e.2))

def innerFields (table : TableSchema) (kv : Key × Bytes) : Fields :=
  populateFields table ((decodeRowKey kv.1).getD kv.1) kv.2

/-- The rows of a table that the runner finds, whatever their number. -/
def RunnerContext.listRows (ctx : RunnerContext) (fromTable : Bytes) :
    Except Status (List Fields) :=
  match ctx.store.catalog.findTable fromTable with
  | some table =>
    match ctx.store.scanTable ctx.engine table.id with
    | .error e => .error e
    | .ok encoded => .ok (encoded.map (innerFields table))
  | none =>
    match ctx.cte fromTable with
    | some rows => .ok rows
    | none => .error (.invalidArgument ("unknown table: " ++ text fromTable))

/-- The rows that the runner goes through: none if they are more than the budget. -/
def RunnerContext.innerRows (ctx : RunnerContext) (fromTable : Bytes) :
    Except Status (List Fields) :=
  match ctx.listRows fromTable with
  | .error e => .error e
  | .ok rows =>
    match checkRowBudget rows.length ctx.maxPages with
    | .error e => .error e
    | .ok _ => .ok rows

/-- `eval_fields`: an inner row with the qualified columns of the outer one. -/
def scopeFields (fields outerRow : Fields) : Fields :=
  fields.insertAll (outerRow.entries.filter fun o => o.1.contains 46)

/-! ## Clauses -/

variable {rt : Runtime}

/-- `SubqueryRunner::EvalWhere`. -/
def evalWhere (level : Nat) (row : Fields) (e : ExprNode rt) : Bool :=
  decide (level < kMaxSubqueryDepth) && evalBool noSchema row e

/-- An inner row is one that the clause takes. -/
def InnerQuery.takes (q : InnerQuery rt) (level : Nat) (outerRow fields : Fields) : Bool :=
  q.whereExpr.all fun w => evalWhere level (scopeFields fields outerRow) (w level)

/-- `IsSimpleCorrelatedEq`: the two columns of an equality. -/
def simpleCorrelatedEq : ExprNode rt → Option (ExprNode rt × ExprNode rt)
  | .binary .kEq (.column t c b) (.column t' c' b') _ => some (.column t c b, .column t' c' b')
  | _ => none

/-- `EvalCorrelatedEq`. -/
def evalCorrelatedEq (sides : ExprNode rt × ExprNode rt) (row : Fields) : Bool :=
  let l := evalScalar noSchema row sides.1
  l ≠ [] && l = evalScalar noSchema row sides.2

/-- The equality that `ExistsMatch` evaluates without the inner table. -/
def InnerQuery.shortcut (q : InnerQuery rt) (level : Nat) :
    Option (ExprNode rt × ExprNode rt) :=
  if 2 ≤ level then q.whereExpr.bind fun w => simpleCorrelatedEq (w level) else none

/-! ## EXISTS -/

/-- `SubqueryRunner::ExistsMatch`. -/
def existsMatch (ctx : RunnerContext) (q : InnerQuery rt) (outerRow : Fields) (level : Nat) :
    Bool :=
  if kMaxSubqueryDepth ≤ level then false
  else
    match q.shortcut level with
    | some sides => evalCorrelatedEq sides outerRow
    | none =>
      match ctx.innerRows q.fromTable with
      | .error _ => false
      | .ok rows => rows.any (q.takes level outerRow)

/-- An EXISTS in a clause, as a node of it. -/
def existsNode (ctx : RunnerContext) (q : InnerQuery rt) (notOp isNot : Bool)
    (parentDepth : Nat) : ExprNode rt :=
  let truth (row : Fields) : TruthValue :=
    negate notOp (if kMaxSubqueryDepth ≤ parentDepth then .kFalse
      else truthOf (existsMatch ctx q row (parentDepth + 1)))
  .foreign (fun row => truthValue (truth row)) truth isNot

end EBTree.Sql
