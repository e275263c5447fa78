import EBTree.Sql.CatalogStore
import EBTree.Sql.Dml

/-!
# INSERT ... SELECT

`SqlExecutorV2::ExecInsertSelect`: of the text of the SELECT it takes the name behind FROM, scans
the keys of that table, and makes an INSERT of each pair that the scan gives. `SelectQuery` is the
query that the text stands for: the rows of a table that a clause holds of, and the columns of them
that are asked for.
-/

set_option autoImplicit false

namespace EBTree.Sql

open Lib Engine

variable {rt : Runtime}

/-! ## The text of the SELECT -/

/-- `parse::Upper`. -/
def upper (s : Bytes) : Bytes := s.map fun b => if 97 ≤ b ∧ b ≤ 122 then b - 32 else b

/-- What `>>` takes from a stream, one after the other. -/
def splitWords (s : Bytes) : List Bytes := (s.splitOnP CatalogStore.isSpace).filter (· ≠ [])

/-- The table that is copied from: the fourth word, behind one word that stands for the columns. -/
def sourceName (selectSql : Bytes) : Option Bytes :=
  match splitWords selectSql with
  | sel :: _ :: fromWord :: srcName :: _ =>
    if upper sel = ascii "SELECT" ∧ upper fromWord = ascii "FROM" then some srcName else none
  | _ => none

structure InsertSelectStmt where
  table : Bytes
  columnNames : List Bytes
  selectSql : Bytes

/-! ## The copies -/

/-- The fields of a pair that the scan gives. -/
def copiedFields (src : TableSchema) (kv : Key × Bytes) : Fields :=
  let fields := (decodeRowFields kv.2).1
  if fields.isEmpty then
    (SortedMap.empty.insert src.keyColumn ((decodeRowKey kv.1).getD kv.1)).insert
      src.valueColumn kv.2
  else fields

/-- The columns that an INSERT writes. -/
def targetColumns (stmt : InsertSelectStmt) (dest : TableSchema) : List Bytes :=
  if stmt.columnNames = [] then dest.columns.map (·.name) else stmt.columnNames

/-- An INSERT of some values. -/
def InsertSelectStmt.insertOf (stmt : InsertSelectStmt) (values : List Bytes) : InsertStmt where
  table := stmt.table
  columnNames := stmt.columnNames
  values := values
  key := []
  value := []
  conflictAction := []

/-- The values of a copy: each column is looked up under its name in the target. -/
def copiedValues (src dest : TableSchema) (stmt : InsertSelectStmt) (kv : Key × Bytes) :
    List Bytes :=
  (targetColumns stmt dest).map fun col => ((copiedFields src kv).find? col).getD []

/-- One INSERT after the other, up to the first that fails. -/
def runInserts (codec : RowCodec) (d : SqlStore) :
    List InsertStmt → SqlStore × Except Status Unit
  | [] => (d, .ok ())
  | stmt :: rest =>
    match d.execInsert codec stmt with
    | (d, .error e) => (d, .error e)
    | (d, .ok _) => runInserts codec d rest

/-- `ExecInsertSelect`. -/
def execInsertSelect (s : ShardEngine) (codec : RowCodec) (d : SqlStore)
    (stmt : InsertSelectStmt) : SqlStore × Except Status Unit :=
  match d.catalog.findTable stmt.table with
  | none => (d, .error (.invalidArgument ("unknown table: " ++ text stmt.table)))
  | some dest =>
    match sourceName stmt.selectSql with
    | none => (d, .error (.invalidArgument ("unsupported INSERT SELECT: " ++ text stmt.selectSql)))
    | some name =>
      match d.catalog.findTable name with
      | none => (d, .error (.invalidArgument ("unknown source table: " ++ text name)))
      | some src =>
        match d.scanRange s src.id with
        | .error e => (d, .error e)
        | .ok rows =>
          runInserts codec d (rows.map fun kv => stmt.insertOf (copiedValues src dest stmt kv))

/-! ## The query -/

/-- A query on one table, and the text that it is read from: the words of its columns stand between
SELECT and FROM, and the name of the table behind. -/
structure SelectQuery (rt : Runtime) where
  sql : Bytes
  /-- The columns that are asked for; none of them for `*`. -/
  projectCols : List Bytes
  table : Bytes
  whereExpr : Option (ExprNode rt)
  limit : Option Nat
  spelt : ∃ sel columns fromWord rest,
    splitWords sql = sel :: (columns ++ fromWord :: table :: rest) ∧
      upper sel = ascii "SELECT" ∧ upper fromWord = ascii "FROM" ∧ columns ≠ [] ∧
      ∀ word ∈ columns, upper word ≠ ascii "FROM"

/-- The rows of the source that are in the result. -/
def SelectQuery.rows (q : SelectQuery rt) (d : SqlStore) (src : TableSchema) :
    List (Key × Bytes) :=
  let rows := (d.tableRows src.id).filter fun kv => satisfies src q.whereExpr kv
  match q.limit with
  | some n => rows.take n
  | none => rows

/-- The values of a row of the result, in the order of its columns. -/
def SelectQuery.values (q : SelectQuery rt) (src : TableSchema) (kv : Key × Bytes) : List Bytes :=
  (if q.projectCols = [] then src.columns.map (·.name) else q.projectCols).map fun col =>
    lookupColumn [] col (storedFields src kv)

/-- The result of the query. -/
def SelectQuery.result (q : SelectQuery rt) (d : SqlStore) (src : TableSchema) :
    List (List Bytes) :=
  (q.rows d src).map (q.values src)

end EBTree.Sql
