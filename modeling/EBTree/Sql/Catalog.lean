import EBTree.Lib.Decimal
import EBTree.Sql.TransactionState

/-!
# The catalog

`Catalog` (`catalog.cc`) with the calls that create and drop tables and indexes, and the keys that
rows and index entries are stored under. Tables and indexes are kept twice, by name and in a list;
the list is what is saved.
-/

set_option autoImplicit false

namespace EBTree.Sql

open Lib Engine
open BTree (TypedPlan)

/-- Bytes as the text of a message. -/
def text (b : Bytes) : String := String.ofList (b.map fun x => Char.ofNat x.toNat)

structure ColumnDef where
  name : Bytes
  type : Bytes
  notNull : Bool
  primaryKey : Bool
  checkExpr : Bytes
  deriving DecidableEq, Repr

/-- `"TEXT"`, the type of a column that names none. -/
def textType : Bytes := [84, 69, 88, 84]

/-- A column of a name and nothing else. -/
def ColumnDef.plain (name : Bytes) : ColumnDef := ⟨name, textType, false, false, []⟩

structure TableSchema where
  id : UInt32
  name : Bytes
  keyColumn : Bytes
  valueColumn : Bytes
  columns : List ColumnDef
  schemaVersion : Nat
  implicitRowid : Bool
  nextRowid : UInt64
  deriving DecidableEq, Repr

structure IndexDef where
  id : UInt32
  name : Bytes
  table : Bytes
  columns : List Bytes
  unique : Bool
  deriving DecidableEq, Repr

structure Catalog where
  nextId : UInt32
  nextIndexId : UInt32
  tables : SortedMap Bytes TableSchema
  tableList : List TableSchema
  indexes : SortedMap Bytes IndexDef
  indexList : List IndexDef

namespace Catalog

/-- `Clear`. -/
def empty : Catalog where
  nextId := 1
  nextIndexId := 1
  tables := SortedMap.empty
  tableList := []
  indexes := SortedMap.empty
  indexList := []

def findTable (c : Catalog) (name : Bytes) : Option TableSchema := c.tables.find? name

def findIndex (c : Catalog) (name : Bytes) : Option IndexDef := c.indexes.find? name

def indexesForTable (c : Catalog) (table : Bytes) : List IndexDef :=
  c.indexList.filter (·.table = table)

/-! ## Tables -/

/-- The table that `CreateTable` makes of its columns. -/
def newSchema (id : UInt32) (name : Bytes) (columns : List ColumnDef) (first : ColumnDef) :
    TableSchema where
  id := id
  name := name
  keyColumn := match columns.find? (·.primaryKey) with
    | some c => c.name
    | none => first.name
  valueColumn := match columns[1]? with
    | some c => c.name
    | none => first.name
  columns := columns
  schemaVersion := 3
  implicitRowid := !columns.any (·.primaryKey)
  nextRowid := 1

/-- A table under its name and at the end of the list. -/
def addTable (c : Catalog) (t : TableSchema) : Catalog :=
  { c with tables := c.tables.insert t.name t, tableList := c.tableList ++ [t] }

def createTable (c : Catalog) (name : Bytes) (columns : List ColumnDef) :
    Except Status Catalog :=
  if name = [] then .error (.invalidArgument "empty table name")
  else if (c.findTable name).isSome then
    .error (.invalidArgument ("table already exists: " ++ text name))
  else
    match columns with
    | [] => .error (.invalidArgument "empty columns")
    | first :: _ =>
      .ok ({ c with nextId := c.nextId + 1 }.addTable (newSchema c.nextId name columns first))

/-- The table that `RestoreTableV2` makes of its columns. -/
def restoredSchema (id : UInt32) (name : Bytes) (columns : List ColumnDef) : TableSchema :=
  let keyColumn := match columns with
    | [] => [107, 101, 121]
    | first :: _ => first.name
  { id := id
    name := name
    keyColumn := keyColumn
    valueColumn := match columns[1]? with
      | some c => c.name
      | none => keyColumn
    columns := columns
    schemaVersion := 2
    implicitRowid := false
    nextRowid := 1 }

def restoreTableV2 (c : Catalog) (id : UInt32) (name : Bytes) (columns : List ColumnDef) :
    Except Status Catalog :=
  if name = [] then .error (.invalidArgument "empty table name")
  else if (c.findTable name).isSome then
    .error (.invalidArgument ("duplicate table in catalog sidecar: " ++ text name))
  else
    .ok ({ c with nextId := max c.nextId (id + 1) }.addTable (restoredSchema id name columns))

/-- `DropTable`; from the list every table of that id goes. -/
def dropTable (c : Catalog) (name : Bytes) : Except Status Catalog :=
  match c.findTable name with
  | none => .error (.invalidArgument ("unknown table: " ++ text name))
  | some t =>
    .ok { c with
      tables := c.tables.erase name
      tableList := c.tableList.filter (·.id ≠ t.id) }

/-- A change to the first element that `p` holds of. -/
def updateFirst {α : Type} (p : α → Bool) (f : α → α) : List α → List α
  | [] => []
  | x :: xs => if p x then f x :: xs else x :: updateFirst p f xs

/-- `AllocateRowKey`: the catalog after it and the key. -/
def allocateRowKey (c : Catalog) (tableName : Bytes) : Except Status (Catalog × Bytes) :=
  match c.findTable tableName with
  | none => .error (.invalidArgument ("unknown table: " ++ text tableName))
  | some t =>
    if t.implicitRowid = false then
      .error (.invalidArgument ("table has no implicit rowid: " ++ text tableName))
    else
      let t' := { t with nextRowid := t.nextRowid + 1 }
      .ok ({ c with
        tables := c.tables.insert tableName t'
        tableList := updateFirst (·.id = t.id) ({ · with nextRowid := t'.nextRowid }) c.tableList },
        decimal t.nextRowid.toNat)

/-! ## Indexes -/

/-- An index under its name and at the end of the list. -/
def addIndex (c : Catalog) (x : IndexDef) : Catalog :=
  { c with indexes := c.indexes.insert x.name x, indexList := c.indexList ++ [x] }

def createIndex (c : Catalog) (name table : Bytes) (columns : List Bytes) (unique : Bool) :
    Except Status Catalog :=
  if name = [] ∨ table = [] ∨ columns = [] then .error (.invalidArgument "invalid index")
  else if (c.findTable table).isNone then .error (.invalidArgument "unknown table")
  else if (c.findIndex name).isSome then .error (.invalidArgument "index exists")
  else
    .ok ({ c with nextIndexId := c.nextIndexId + 1 }.addIndex
      ⟨c.nextIndexId, name, table, columns, unique⟩)

def restoreIndex (c : Catalog) (id : UInt32) (name table : Bytes) (columns : List Bytes)
    (unique : Bool) : Except Status Catalog :=
  if name = [] ∨ table = [] ∨ columns = [] then .error (.invalidArgument "invalid index restore")
  else if (c.findIndex name).isSome then
    .error (.invalidArgument ("duplicate index in catalog sidecar: " ++ text name))
  else
    .ok ({ c with nextIndexId := max c.nextIndexId (id + 1) }.addIndex
      ⟨id, name, table, columns, unique⟩)

def dropIndex (c : Catalog) (name : Bytes) : Except Status Catalog :=
  match c.findIndex name with
  | none => .error (.invalidArgument "unknown index")
  | some x =>
    .ok { c with
      indexes := c.indexes.erase name
      indexList := c.indexList.filter (·.id ≠ x.id) }

end Catalog

/-! ## Keys -/

/-- What every key of a table starts with. -/
def tableKeyFront (tableId : UInt32) : Bytes := decimal tableId.toNat ++ [58]

/-- `EncodeRowKey`. -/
def encodeRowKey (tableId : UInt32) (key : Bytes) : Key := tableKeyFront tableId ++ key

/-- `EncodeIndexKey`. -/
def encodeIndexKey (tableId indexId : UInt32) (colValue pk : Bytes) : Key :=
  tableKeyFront tableId ++ (105 :: (decimal indexId.toNat ++ (58 :: (colValue ++ 58 :: pk))))

/-- `DecodeRowKey` without the table id, which no scan asks for. What it takes for the mark of an
index key is the second byte of the table id. -/
def decodeRowKey (encoded : Key) : Option Bytes :=
  let front := encoded.takeWhile (· ≠ 58)
  match encoded.dropWhile (· ≠ 58) with
  | [] => none
  | _ :: key => if front = [] ∨ front[1]? = some 105 then none else some key

/-- The plan of a table scan: from the table's keys to the next id's. -/
def tableScanPlan (tableId : UInt32) : TypedPlan where
  op := .kRange
  key := tableKeyFront tableId
  rangeEnd := tableKeyFront (tableId + 1)
  snapshotLsn := 0

end EBTree.Sql
