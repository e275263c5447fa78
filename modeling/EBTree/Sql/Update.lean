import EBTree.Sql.Dml

/-!
# UPDATE

The assignments that an UPDATE keeps of its text (`ParseUpdate`) and its execution
(`DmlExecutor::ExecUpdate`) on its two paths: by the literal of a clause on the key column, and by a
scan of the table. Outside a transaction; what the constraints of a table ask of a row is a
parameter, and so are the answers of the engine and the operation log.
-/

set_option autoImplicit false

namespace EBTree.Sql

open Lib Engine

section

variable {rt : Runtime}

/-! ## The statement -/

structure UpdateStmt (rt : Runtime) where
  table : Bytes
  assignments : List (Bytes × ExprNode rt)
  whereColumn : Option (Bytes × Bytes)
  whereExpr : Option (ExprNode rt)

/-- A column assigned twice keeps its place and takes the later expression. -/
def addAssignment : List (Bytes × ExprNode rt) → Bytes × ExprNode rt → List (Bytes × ExprNode rt)
  | [], a => [a]
  | b :: rest, a => if b.1 = a.1 then a :: rest else b :: addAssignment rest a

/-- The column and the literal of a `column = literal`. -/
def whereColumnLiteral : ExprNode rt → Option (Bytes × Bytes)
  | .binary .kEq (.column _ col _) (.literal lit _) _ => some (col, lit)
  | _ => none

/-- The end of `ParseUpdate`; without an assignment it fails. -/
def parseUpdate (table : Bytes) (first : Bytes × ExprNode rt) (more : List (Bytes × ExprNode rt))
    (whereExpr : Option (ExprNode rt)) : UpdateStmt rt where
  table := table
  assignments := more.foldl addAssignment [first]
  whereColumn := whereExpr.bind whereColumnLiteral
  whereExpr := whereExpr

/-! ## Rows -/

/-- The fields that the scan evaluates on: a value column without a value has the stored bytes. -/
def updateFields (table : TableSchema) (kv : Key × Bytes) : Fields :=
  let decoded := if 2 ≤ table.schemaVersion then (decodeRowFields kv.2).1 else SortedMap.empty
  let keyed :=
    if decoded.contains table.keyColumn then decoded
    else decoded.insert table.keyColumn ((decodeRowKey kv.1).getD kv.1)
  if keyed.contains table.valueColumn then keyed else keyed.insert table.valueColumn kv.2

/-- The assignments of the scan, one after the other, each on what those before it left. -/
def assignScanned (table : TableSchema) :
    List (Bytes × ExprNode rt) → Bytes → Fields → Except Status (Bytes × Fields)
  | [], stored, working => .ok (stored, working)
  | (col, expr) :: rest, stored, working =>
    let val := evalScalar table working expr
    if 2 ≤ table.schemaVersion then
      match updateRowFields stored col val with
      | .error e => .error e
      | .ok stored => assignScanned table rest stored (working.insert col val)
    else
      assignScanned table rest (if col = table.valueColumn then val else stored)
        (working.insert col val)

/-- The assignments of the path by key: a row that is missing is made. -/
def assignPoint (table : TableSchema) (key : Bytes) :
    List (Bytes × ExprNode rt) → Bytes → Fields → Except Status (Bytes × Fields)
  | [], stored, working => .ok (stored, working)
  | (col, expr) :: rest, stored, working =>
    let val := evalScalar table working expr
    if 2 ≤ table.schemaVersion then
      if stored = [] then
        assignPoint table key rest
          (encodeRow table.columns table.schemaVersion
            ((SortedMap.empty.insert table.keyColumn key).insert col val))
          (working.insert col val)
      else
        match updateRowFields stored col val with
        | .error e => .error e
        | .ok stored => assignPoint table key rest stored (working.insert col val)
    else if col ≠ table.valueColumn then
      .error (.invalidArgument "legacy table supports value column only")
    else assignPoint table key rest val (working.insert col val)

/-! ## Execution -/

/-- What the engine, the operation log and the constraints answer. -/
structure UpdateAnswers where
  put : Key → Except Status Unit
  appendPut : Key → Except Status Unit
  validate : TableSchema → Fields → Except Status Unit

namespace SqlStore

/-- `SyncIndexEntries` without `remove`. -/
def putIndexEntries (a : UpdateAnswers) (table : TableSchema) (pk : Bytes) (fields : Fields) :
    SqlStore → List IndexDef → SqlStore × Except Status Unit
  | d, [] => (d, .ok ())
  | d, idx :: rest =>
    match idx.columns.head?.bind fields.find? with
    | none => putIndexEntries a table pk fields d rest
    | some value =>
      let ikey := encodeIndexKey table.id idx.id value pk
      match a.put ikey with
      | .error e => (d, .error e)
      | .ok _ => putIndexEntries a table pk fields (d.put ikey pk) rest

/-- A row is written, then its index entries, then the operation log. -/
def writeUpdated (a : UpdateAnswers) (table : TableSchema) (pk : Bytes) (d : SqlStore)
    (encoded : Key) (stored : Bytes) (indexFields : Fields) : SqlStore × Except Status Unit :=
  match a.put encoded with
  | .error e => (d, .error e)
  | .ok _ =>
    match putIndexEntries a table pk indexFields (d.put encoded stored)
        (d.catalog.indexesForTable table.name) with
    | (d, .error e) => (d, .error e)
    | (d, .ok _) => (d, a.appendPut encoded)

/-- One row of the scan that satisfies the clause. -/
def updateScanned (a : UpdateAnswers) (table : TableSchema) (assignments : List (Bytes × ExprNode rt))
    (d : SqlStore) (kv : Key × Bytes) : SqlStore × Except Status Unit :=
  match assignScanned table assignments kv.2 (updateFields table kv) with
  | .error e => (d, .error e)
  | .ok (stored, working) =>
    match a.validate table working with
    | .error e => (d, .error e)
    | .ok _ =>
      let decoded := (decodeRowFields stored).1
      writeUpdated a table ((decodeRowKey kv.1).getD kv.1) d kv.1 stored
        (if decoded.isEmpty then working else decoded)

/-- The scan takes the row for one that satisfies the clause. -/
def matched (table : TableSchema) (stmt : UpdateStmt rt) (kv : Key × Bytes) : Bool :=
  stmt.whereExpr.all (evalBool table (updateFields table kv))

/-- The loop over the scanned rows. -/
def updateRows (a : UpdateAnswers) (table : TableSchema) (stmt : UpdateStmt rt) :
    SqlStore → List (Key × Bytes) → SqlStore × Except Status Unit
  | d, [] => (d, .ok ())
  | d, kv :: rest =>
    if matched table stmt kv then
      match updateScanned a table stmt.assignments d kv with
      | (d, .error e) => (d, .error e)
      | (d, .ok _) => updateRows a table stmt d rest
    else updateRows a table stmt d rest

/-- The path by key. -/
def updatePoint (a : UpdateAnswers) (table : TableSchema) (assignments : List (Bytes × ExprNode rt))
    (d : SqlStore) (key : Bytes) : SqlStore × Except Status Unit :=
  let encoded := encodeRowKey table.id key
  let stored := if 2 ≤ table.schemaVersion then (d.rows.find? encoded).getD [] else []
  match assignPoint table key assignments stored (SortedMap.empty.insert table.keyColumn key) with
  | .error e => (d, .error e)
  | .ok (stored, working) =>
    match a.validate table working with
    | .error e => (d, .error e)
    | .ok _ =>
      writeUpdated a table key d encoded stored
        (if 2 ≤ table.schemaVersion then (decodeRowFields stored).1 else working)

/-- The key that the path by key is taken for. -/
def pointKey (table : TableSchema) (stmt : UpdateStmt rt) : Option Bytes :=
  if table.implicitRowid then none
  else stmt.whereColumn.bind fun w => if w.1 = table.keyColumn then some w.2 else none

/-- `ExecUpdate`: what is not updated by key is scanned for. -/
def execUpdate (s : ShardEngine) (a : UpdateAnswers) (findView : Bytes → Bool) (d : SqlStore)
    (stmt : UpdateStmt rt) : SqlStore × Except Status Unit :=
  if findView stmt.table then (d, .error (.invalidArgument "cannot modify view"))
  else
    match d.catalog.findTable stmt.table with
    | none => (d, .error (.invalidArgument ("unknown table: " ++ text stmt.table)))
    | some table =>
      match stmt.assignments.find? fun x => !table.columns.any (·.name = x.1) with
      | some x => (d, .error (.invalidArgument ("unknown column: " ++ text x.1)))
      | none =>
        match pointKey table stmt with
        | some key => updatePoint a table stmt.assignments d key
        | none =>
          match d.scanTable s table.id with
          | .error e => (d, .error e)
          | .ok rows => updateRows a table stmt d rows

end SqlStore

end

end EBTree.Sql
