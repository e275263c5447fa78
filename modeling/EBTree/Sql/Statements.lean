import EBTree.Sql.InsertSelect
import EBTree.Sql.IndexScan
import EBTree.Sql.Update

/-!
# One statement after the other

A database under CREATE TABLE, DROP TABLE, CREATE INDEX, DROP INDEX, INSERT, INSERT ... SELECT,
UPDATE and DELETE (`SqlExecutor`, `SqlExecutorV2`, `DmlExecutor`), outside a transaction.
`execDropIndex` is `SqlExecutorV2::ExecDropIndex` (`executor_v2.cc`). `Statement.run`: a statement
on what those before it left.
-/

set_option autoImplicit false

namespace EBTree.Sql

open Lib Engine
open BTree (TypedPlan)

/-! ## DROP INDEX -/

/-- The plan of `ExecDropIndex`: what starts like an entry of the index. -/
def indexDropPlan (tableId indexId : UInt32) : TypedPlan where
  op := .kRange
  key := indexKeyFront tableId indexId
  rangeEnd := indexKeyFront tableId indexId ++ [255]
  snapshotLsn := 0

namespace SqlStore

/-- The loop of `ExecDropIndex`: a key that is not found is passed over. -/
def removeKeys (a : Answers) : SqlStore → List Key → SqlStore × Except Status Unit
  | d, [] => (d, .ok ())
  | d, k :: rest =>
    match a.delete k with
    | .ok _ => removeKeys a (d.remove k) rest
    | .error e => if e.code = .kNotFound then removeKeys a d rest else (d, .error e)

/-- `ExecDropIndex`; where an entry cannot be deleted the index stays, without those before it. -/
def execDropIndex (s : ShardEngine) (a : Answers) (d : SqlStore) (name : Bytes) :
    SqlStore × Except Status Unit :=
  match d.catalog.findIndex name with
  | none => (d, .error (.invalidArgument ("unknown index: " ++ text name)))
  | some idx =>
    match d.catalog.findTable idx.table with
    | none => (d, .error (.invalidArgument "unknown table for index"))
    | some table =>
      match s.prepare (indexDropPlan table.id idx.id) with
      | .error e => (d, .error e)
      | .ok _ =>
        match removeKeys a d ((d.engineScan (indexDropPlan table.id idx.id)).map (·.1)) with
        | (d, .error e) => (d, .error e)
        | (d, .ok _) =>
          match d.catalog.dropIndex name with
          | .error e => (d, .error e)
          | .ok c => ({ d with catalog := c }, .ok ())

end SqlStore

/-! ## Statements -/

/-- What a database is run with: the shard its plans are prepared on, the views, the constraints of
the tables, and the element a hash map starts with. -/
structure Surroundings where
  shard : ShardEngine
  findView : Bytes → Bool
  validateRowConstraints : TableSchema → Fields → Except Status Unit
  begin : Fields → Bytes

/-- Rows as `row_codec.cc` writes and reads them. -/
def Surroundings.codec (w : Surroundings) : RowCodec where
  encodeRow cols schemaVersion values := .ok (encodeRow cols schemaVersion values)
  decodeRowFields raw := (decodeRowFields raw).1
  validateRowConstraints := w.validateRowConstraints
  begin := w.begin

/-- What the engine and the operation log answer to a statement. -/
structure StatementAnswers where
  put : Key → Except Status Unit
  appendPut : Key → Except Status Unit
  delete : Key → Except Status Unit
  appendDelete : Key → Except Status Unit

inductive Statement (rt : Runtime)
  | createTable (name : Bytes) (columns : List ColumnDef)
  | dropTable (name : Bytes)
  | createIndex (name table : Bytes) (columns : List Bytes) (unique : Bool)
  | dropIndex (name : Bytes)
  | insert (stmt : InsertStmt)
  | insertSelect (stmt : InsertSelectStmt)
  | update (stmt : UpdateStmt rt)
  | delete (stmt : DeleteStmt rt)

/-- The database after a statement, and the status. -/
def Statement.run {rt : Runtime} (w : Surroundings) (a : StatementAnswers) (d : SqlStore) :
    Statement rt → SqlStore × Except Status Unit
  | .createTable name columns => d.execCreateTable name columns
  | .dropTable name => d.execDropTable name
  | .createIndex name table columns unique =>
    d.execCreateIndex w.codec w.shard name table columns unique
  | .dropIndex name => d.execDropIndex w.shard ⟨a.delete, a.appendDelete⟩ name
  | .insert stmt => d.execInsert w.codec stmt
  | .insertSelect stmt => execInsertSelect w.shard w.codec d stmt
  | .update stmt =>
    d.execUpdate w.shard ⟨a.put, a.appendPut, w.validateRowConstraints⟩ w.findView stmt
  | .delete stmt => d.execDelete ⟨a.delete, a.appendDelete⟩ w.findView stmt

/-- The databases that statements satisfying `ok` reach from a new one. -/
inductive StatementRun {rt : Runtime} (w : Surroundings)
    (ok : SqlStore → StatementAnswers → Statement rt → Prop) : SqlStore → Prop
  | empty : StatementRun w ok .empty
  | step {d : SqlStore} {a : StatementAnswers} {stmt : Statement rt} :
      StatementRun w ok d → ok d a stmt → StatementRun w ok (stmt.run w a d).1

end EBTree.Sql
