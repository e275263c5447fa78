import EBTree.Sql.Aggregate
import EBTree.Sql.IndexScan
import EBTree.Sql.Subquery

/-!
# An inner SELECT, run twice

A SELECT as `SqlExecutorV3::ExecSelectRich` runs it as a statement (`InnerSelect.topLevel`), and as
`SubqueryRunner::Run` and `EvalSubqueryTruth` run it inside parentheses (`runSubquery`, `evalIn`).
The runner scans, filters and projects; all other clauses are the executor's alone.

A statement has no budget of its own here, and its rows are grouped and ordered in the order that
`groupRows` and `orderRows` leave. Queries without FROM are left out.
-/

set_option autoImplicit false

namespace EBTree.Sql

open Lib Engine

/-- A SELECT, with the parts that the runner does not look at. -/
structure InnerSelect (rt : Runtime) extends InnerQuery rt where
  scalarProjects : List (ExprNode rt)
  joins : List JoinSpec
  distinct : Bool
  aggregates : List AggregateSpec
  groupBy : List Bytes
  having : Option (ExprNode rt)
  orderBy : Option OrderSpec
  limit : Option Nat

namespace InnerSelect

variable {rt : Runtime} (q : InnerSelect rt)

/-! ## As a statement -/

/-- A row is one that the clause of the statement takes. -/
def holds (table : TableSchema) (r : Fields) : Bool :=
  q.whereExpr.all fun w => evalBool table r (w 0)

/-- The rows that are scanned and filtered. -/
def filteredRows (ctx : RunnerContext) (table : TableSchema) : Except Status (List Fields) :=
  match ctx.cte q.fromTable with
  | some rows => .ok (rows.filter (q.holds table))
  | none =>
    match ctx.store.selectScan ctx.engine table q.fromTable (q.whereExpr.map (· 0)) with
    | .error e => .error e
    | .ok encoded => .ok ((encoded.map (storedFields table)).filter (q.holds table))

/-- The joins, one after the other. -/
def joinedRows (ctx : RunnerContext) (table : TableSchema) :
    List JoinSpec → List Fields → Except Status (List Fields)
  | [], rows => .ok rows
  | j :: rest, rows =>
    match ctx.store.catalog.findTable j.table with
    | none => .error (.invalidArgument ("unknown join table: " ++ text j.table))
    | some right =>
      match ctx.store.scanTable ctx.engine right.id with
      | .error e => .error e
      | .ok encoded =>
        joinedRows ctx table rest (joinRows table j rows (encoded.map (storedFields right)))

/-- DISTINCT, or aggregates and groups. -/
def collectedRows (table : TableSchema) (rows : List Fields) : Except Status (List Fields) :=
  if q.groupBy = [] ∧ q.aggregates = [] then
    .ok (if q.distinct then distinctRows table q.projectCols rows else rows)
  else
    match q.aggregates.findSome? fun agg => (match agg.validate with
      | .error e => some e
      | .ok _ => none) with
    | some e => .error e
    | none => .ok ((aggregateRows q.aggregates q.groupBy rows).filter fun g =>
        q.having.all fun h => evalBool table g h)

/-- ORDER BY, and LIMIT after it. -/
def orderedRows (rows : List Fields) : List Fields :=
  match q.orderBy with
  | some o => orderRows o rows
  | none => rows

def returnedRows (rows : List Fields) : List Fields :=
  match q.limit with
  | some n => limitRows n (q.orderedRows rows)
  | none => q.orderedRows rows

/-- The first column of a row of the result. -/
def firstColumn (table : TableSchema) (r : Fields) : Bytes :=
  match q.aggregates with
  | agg :: _ => fieldVal r agg.aliasName
  | [] =>
    match q.scalarProjects with
    | e :: _ => evalScalar table r e
    | [] =>
      if q.projectCols ≠ [] ∧ q.projectCols.head? ≠ some (ascii "*") then
        fieldVal r (q.projectCols.headD [])
      else fieldVal r (q.groupBy.headD table.keyColumn)

/-- `ExecSelectRich`: the first column of its result. -/
def topLevel (ctx : RunnerContext) (table : TableSchema) : Except Status (List Bytes) :=
  match q.filteredRows ctx table with
  | .error e => .error e
  | .ok rows =>
    match joinedRows ctx table q.joins rows with
    | .error e => .error e
    | .ok rows =>
      match q.collectedRows table rows with
      | .error e => .error e
      | .ok rows => .ok ((q.returnedRows rows).map (q.firstColumn table))

/-! ## Inside parentheses -/

/-- `SubqueryResultColumnCount`. -/
def columnCount (ctx : RunnerContext) : Nat :=
  if q.scalarProjects ≠ [] then q.scalarProjects.length
  else if q.aggregates ≠ [] then q.aggregates.length
  else if q.projectCols.head? = some (ascii "*") then
    match ctx.store.catalog.findTable q.fromTable with
    | some table => table.columns.length
    | none => 1
  else if q.projectCols ≠ [] then q.projectCols.length
  else 1

/-- `SubqueryRowProjectValue`. Of the fields of a `*` the source takes the first that its hash map
comes to. -/
def projectValue (r : Fields) : Bytes :=
  if q.projectCols ≠ [] ∧ q.projectCols.head? ≠ some (ascii "*") then
    fieldVal r (q.projectCols.headD [])
  else
    match r.entries.find? fun e => e.1 ≠ ascii "key" && e.1 ≠ ascii "value" && !e.1.contains 46 with
    | some e => e.2
    | none => fieldVal r (ascii "key")

/-- `SubqueryRunner::Run`. The budget of the rows taken is that of all rows, which are no fewer. -/
def runSubquery (ctx : RunnerContext) (outerRow : Fields) (level : Nat) :
    Except Status (List Fields) :=
  if kMaxSubqueryDepth ≤ level then .error (.invalidArgument "subquery depth exceeded")
  else
    match ctx.innerRows q.fromTable with
    | .error e => .error e
    | .ok rows => .ok (rows.filter (q.takes level outerRow))

end InnerSelect

variable {rt : Runtime}

/-- A value is equal to one of a result. -/
def equalsValue (lhs : SqlValue rt) (v : Bytes) : Bool :=
  !(@SqlValue.ofBytes rt v).isNull &&
    decide (compareSqlValues lhs (.ofBytes v) .kEq .kText = .kTrue)

/-- The loop over the results of an IN. -/
def inResults (lhs : SqlValue rt) (values : List Bytes) : TruthValue :=
  if values.any (equalsValue lhs) then .kTrue
  else if values.any fun v => (@SqlValue.ofBytes rt v).isNull then .kUnknown
  else .kFalse

/-- `EvalSubqueryTruth` of an IN, or NOT IN, of a value. -/
def evalIn (ctx : RunnerContext) (q : InnerSelect rt) (lhs : SqlValue rt) (notOp : Bool)
    (outerRow : Fields) (parentDepth : Nat) : TruthValue :=
  if kMaxSubqueryDepth ≤ parentDepth then .kFalse
  else if 1 < q.columnCount ctx then .kFalse
  else
    match q.runSubquery ctx outerRow (parentDepth + 1) with
    | .error _ => .kFalse
    | .ok results =>
      if results = [] then truthOf notOp
      else if lhs.isNull then .kUnknown
      else negate notOp (inResults lhs (results.map q.projectValue))

end EBTree.Sql
