import EBTree.Engine.Read
import EBTree.Sql.CatalogStore

/-!
# Statements on tables

The executors' CREATE TABLE, INSERT, CREATE INDEX and DROP TABLE and the scan of a table
(`executor.cc`, `executor_v2.cc`, `index_maintenance.h`), outside a transaction, and the catalog
saved and loaded (`Database::Close`, `Database::Database`).

The engine is taken as the map it stores, `rows`: `Put` enters a key, `Scan` lists the keys its
plan matches in their order; plans are prepared on a shard. What decides which bytes a row is
stored as, and which columns of it are valid, is a parameter, `RowCodec`.
-/

set_option autoImplicit false

namespace EBTree.Sql

open Lib Engine
open BTree (TypedPlan planMatches)

/-- A hash map from column names to values. -/
abbrev Fields := SortedMap Bytes Bytes

/-- The parts of a statement that decide what is stored under a key, but not the key. -/
structure RowCodec where
  encodeRow : List ColumnDef → Nat → Fields → Except Status Bytes
  decodeRowFields : Bytes → Fields
  validateRowConstraints : TableSchema → Fields → Except Status Unit
  /-- The element a hash map starts with. -/
  begin : Fields → Bytes

structure InsertStmt where
  table : Bytes
  columnNames : List Bytes
  values : List Bytes
  key : Bytes
  value : Bytes
  conflictAction : Bytes

structure SqlStore where
  catalog : Catalog
  rows : SortedMap Key Bytes

namespace SqlStore

/-- A new database. -/
def empty : SqlStore := ⟨.empty, SortedMap.empty⟩

/-- What `Engine::Scan` gives for a plan. -/
def engineScan (d : SqlStore) (plan : TypedPlan) : List (Key × Bytes) :=
  d.rows.entries.filter fun e => planMatches plan e.1

def put (d : SqlStore) (key : Key) (value : Bytes) : SqlStore :=
  { d with rows := d.rows.insert key value }

/-! ## Scanning a table -/

section
variable (s : ShardEngine)

/-- The scan that CREATE INDEX makes: whatever the range holds. -/
def scanRange (d : SqlStore) (tableId : UInt32) : Except Status (List (Key × Bytes)) :=
  match s.prepare (tableScanPlan tableId) with
  | .error e => .error e
  | .ok _ => .ok (d.engineScan (tableScanPlan tableId))

/-- `PhysicalScan::ScanTable` and the scan of `ExecSelect`: index keys are passed over. -/
def scanTable (d : SqlStore) (tableId : UInt32) : Except Status (List (Key × Bytes)) :=
  match d.scanRange s tableId with
  | .error e => .error e
  | .ok raw => .ok (raw.filter fun kv => !isIndexEncodedKey kv.1)

end

/-! ## Writing rows -/

section
variable (codec : RowCodec)

/-- The fields of an INSERT by column. -/
def insertFields (table : TableSchema) (stmt : InsertStmt) : Except Status Fields :=
  if stmt.values ≠ [] then
    let names := if stmt.columnNames = [] then table.columns.map (·.name) else stmt.columnNames
    if stmt.values.length ≠ names.length then
      .error (.invalidArgument "INSERT value count mismatch")
    else .ok (SortedMap.empty.insertAll (names.zip stmt.values))
  else
    .ok ((SortedMap.empty.insert table.keyColumn stmt.key).insert table.valueColumn stmt.value)

/-- The key of an inserted row: that of the first primary key column it has a value for, a row
number, the value of the key column, or any. -/
def insertRowKey (c : Catalog) (table : TableSchema) (fields : Fields) :
    Except Status (Catalog × Bytes) :=
  match (table.columns.filter (·.primaryKey)).findSome? fun col => fields.find? col.name with
  | some key => .ok (c, key)
  | none =>
    if table.implicitRowid then c.allocateRowKey table.name
    else
      match fields.find? table.keyColumn with
      | some key => .ok (c, key)
      | none =>
        if fields.isEmpty then .error (.invalidArgument "INSERT missing row key")
        else .ok (c, codec.begin fields)

/-- `SyncIndexEntries` for a row that is written: one entry for each index of the table whose
first column has a value. -/
def syncIndexEntries (d : SqlStore) (table : TableSchema) (pk : Bytes) (fields : Fields) :
    SqlStore :=
  (d.catalog.indexesForTable table.name).foldl (fun d idx =>
    match idx.columns.head?.bind fields.find? with
    | none => d
    | some value => d.put (encodeIndexKey table.id idx.id value pk) pk) d

/-- The bytes a row is stored as. -/
def insertStored (table : TableSchema) (stmt : InsertStmt) (fields : Fields) :
    Except Status Bytes :=
  if 2 ≤ table.schemaVersion then
    match codec.validateRowConstraints table fields with
    | .error e => .error e
    | .ok _ => codec.encodeRow table.columns table.schemaVersion fields
  else .ok ((fields.find? table.valueColumn).getD stmt.value)

/-- `ExecInsert`; a row number that was taken stays taken when the statement fails after it. -/
def execInsert (d : SqlStore) (stmt : InsertStmt) : SqlStore × Except Status Unit :=
  match d.catalog.findTable stmt.table with
  | none => (d, .error (.invalidArgument ("unknown table: " ++ text stmt.table)))
  | some table =>
    match insertFields table stmt with
    | .error e => (d, .error e)
    | .ok fields =>
      match insertRowKey codec d.catalog table fields with
      | .error e => (d, .error e)
      | .ok (c, rowKey) =>
        let d := { d with catalog := c }
        let encoded := encodeRowKey table.id rowKey
        if stmt.conflictAction ≠ [] ∧ d.rows.contains encoded = true then
          if stmt.conflictAction = ascii "IGNORE" then (d, .ok ())
          else (d, .error (.invalidArgument ("UNIQUE constraint failed: " ++ text stmt.table)))
        else
          match insertStored codec table stmt fields with
          | .error e => (d, .error e)
          | .ok stored =>
            let indexFields :=
              if 2 ≤ table.schemaVersion then codec.decodeRowFields stored else fields
            ((d.put encoded stored).syncIndexEntries table rowKey indexFields, .ok ())

/-! ## Tables and indexes -/

/-- `ExecCreateTable`. -/
def execCreateTable (d : SqlStore) (name : Bytes) (columns : List ColumnDef) :
    SqlStore × Except Status Unit :=
  match d.catalog.createTable name columns with
  | .error e => (d, .error e)
  | .ok c => ({ d with catalog := c }, .ok ())

/-- `ExecDropTable`: what the table's rows and entries are stored under stays. -/
def execDropTable (d : SqlStore) (name : Bytes) : SqlStore × Except Status Unit :=
  match d.catalog.dropTable name with
  | .error e => (d, .error e)
  | .ok c => ({ d with catalog := c }, .ok ())

/-- One key of the scan of CREATE INDEX: the entries of the row it takes it for. -/
def indexRow (table : TableSchema) (d : SqlStore) (kv : Key × Bytes) : SqlStore :=
  match decodeRowKey kv.1 with
  | none => d
  | some pk =>
    let decoded := codec.decodeRowFields kv.2
    let fields :=
      if decoded.isEmpty then
        (SortedMap.empty.insert table.keyColumn pk).insert table.valueColumn kv.2
      else decoded
    d.syncIndexEntries table pk fields

/-- `ExecCreateIndex`; the index stays when the plan of the scan is refused. -/
def execCreateIndex (s : ShardEngine) (d : SqlStore) (name tableName : Bytes)
    (columns : List Bytes) (unique : Bool) : SqlStore × Except Status Unit :=
  match d.catalog.findTable tableName with
  | none => (d, .error (.invalidArgument ("unknown table: " ++ text tableName)))
  | some table =>
    match d.catalog.createIndex name tableName columns unique with
    | .error e => (d, .error e)
    | .ok c =>
      let d := { d with catalog := c }
      match d.scanRange s table.id with
      | .error e => (d, .error e)
      | .ok rows => (rows.foldl (indexRow codec table) d, .ok ())

end

/-- The database closed and opened again; `none` when the load throws. -/
def reopen (d : SqlStore) : Option SqlStore :=
  (CatalogStore.load (CatalogStore.save d.catalog)).map fun c => { d with catalog := c }

end SqlStore

end EBTree.Sql
