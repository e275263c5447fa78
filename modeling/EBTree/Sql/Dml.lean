import EBTree.Sql.Expr
import EBTree.Sql.RowCodec

/-!
# DELETE

The clause that a DELETE keeps of its text (`ParseDelete`), its execution
(`SqlExecutorV2::ExecDelete`, `SyncIndexEntries`), and the rows of a table with the fields that a
clause is evaluated on (`PopulateRowFields`), outside a transaction.

What the engine answers to a `Delete` and the operation log to an append are parameters; a `Delete`
that answers well takes the key out, whether it was there or not.
-/

set_option autoImplicit false

namespace EBTree.Sql

open Lib Engine

/-! ## Rows -/

/-- `PopulateRowFields`, with the qualified names. -/
def populateRowFields (table : TableSchema) (userKey raw : Bytes) : Fields :=
  let decoded := if 2 ≤ table.schemaVersion then (decodeRowFields raw).1 else SortedMap.empty
  let keyed :=
    if table.implicitRowid = false ∧ decoded.contains table.keyColumn = false then
      decoded.insert table.keyColumn userKey
    else decoded
  let valued :=
    if table.schemaVersion < 2 ∧
        (keyed.isEmpty = true ∨ keyed.contains table.valueColumn = false) then
      let own : Fields :=
        if table.implicitRowid = false then SortedMap.empty.insert table.keyColumn userKey
        else SortedMap.empty
      own.insert table.valueColumn raw
    else keyed
  let named := valued.insert (ascii "key") userKey
  named.insertAll (named.entries.map fun e => (table.name ++ 46 :: e.1, e.2))

/-- The fields of a stored row: what is not a row key counts as the key itself. -/
def storedFields (table : TableSchema) (kv : Key × Bytes) : Fields :=
  populateRowFields table ((decodeRowKey kv.1).getD kv.1) kv.2

/-- A key of the table that is not an index entry. -/
def isTableRow (tableId : UInt32) (k : Key) : Bool :=
  (tableKeyFront tableId).isPrefixOf k && !isIndexEncodedKey k

/-- The rows that are stored in a table. -/
def SqlStore.tableRows (d : SqlStore) (tableId : UInt32) : List (Key × Bytes) :=
  d.rows.entries.filter fun kv => isTableRow tableId kv.1

/-- Whether a row satisfies a clause: every row does where there is none. -/
def satisfies {rt : Runtime} (table : TableSchema) (w : Option (ExprNode rt))
    (kv : Key × Bytes) : Bool :=
  w.all fun e => evalBool table (storedFields table kv) e

/-! ## The statement -/

structure DeleteStmt (rt : Runtime) where
  table : Bytes
  whereValue : Option Bytes
  whereExpr : Option (ExprNode rt)

/-- What `ParseDelete` takes out of a clause: the literal of a `column = literal`. -/
def whereLiteral {rt : Runtime} : ExprNode rt → Option Bytes
  | .binary .kEq (.column _ _ _) (.literal lit _) _ => some lit
  | _ => none

/-- The end of `ParseDelete`. -/
def parseDelete {rt : Runtime} (table : Bytes) (whereExpr : Option (ExprNode rt)) :
    DeleteStmt rt where
  table := table
  whereValue := whereExpr.bind whereLiteral
  whereExpr := whereExpr

/-! ## Execution -/

/-- What the engine and the operation log answer. -/
structure Answers where
  delete : Key → Except Status Unit
  appendDelete : Key → Except Status Unit

namespace SqlStore

def remove (d : SqlStore) (key : Key) : SqlStore := { d with rows := d.rows.erase key }

/-- `SyncIndexEntries` with `remove`: an entry that is not found is passed over. -/
def removeIndexEntries (a : Answers) (table : TableSchema) (pk : Bytes) (fields : Fields) :
    SqlStore → List IndexDef → SqlStore × Except Status Unit
  | d, [] => (d, .ok ())
  | d, idx :: rest =>
    match idx.columns.head?.bind fields.find? with
    | none => removeIndexEntries a table pk fields d rest
    | some value =>
      let ikey := encodeIndexKey table.id idx.id value pk
      match a.delete ikey with
      | .ok _ => removeIndexEntries a table pk fields (d.remove ikey) rest
      | .error e =>
        if e.code = .kNotFound then removeIndexEntries a table pk fields d rest
        else (d, .error e)

/-- The fields that the row under a key is found with: none where there is no row. -/
def existingFields (d : SqlStore) (encoded : Key) : Fields :=
  match d.rows.find? encoded with
  | none => SortedMap.empty
  | some existing => (decodeRowFields existing).1

/-- `ExecDelete`. -/
def execDelete {rt : Runtime} (a : Answers) (findView : Bytes → Bool) (d : SqlStore)
    (stmt : DeleteStmt rt) : SqlStore × Except Status Unit :=
  if findView stmt.table then (d, .error (.invalidArgument "cannot modify view"))
  else
    match d.catalog.findTable stmt.table with
    | none => (d, .error (.invalidArgument ("unknown table: " ++ text stmt.table)))
    | some table =>
      match stmt.whereValue with
      | none => (d, .error (.invalidArgument "DELETE requires WHERE"))
      | some value =>
        let encoded := encodeRowKey table.id value
        let fields := d.existingFields encoded
        match a.delete encoded with
        | .error e => (d, .error e)
        | .ok _ =>
          let d := d.remove encoded
          let synced :=
            if fields.isEmpty then (d, .ok ())
            else removeIndexEntries a table value fields d (d.catalog.indexesForTable table.name)
          match synced with
          | (d, .error e) => (d, .error e)
          | (d, .ok _) => (d, a.appendDelete encoded)

end SqlStore

end EBTree.Sql
