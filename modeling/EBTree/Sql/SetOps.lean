import EBTree.Lib.Find
import EBTree.Sql.Executor

/-!
# Set operations

`FieldVal`, `RowsFromExecuteResult`, `RowSignature` and `ExecSetOp` (`executor_v3.cc`). A SELECT
returns a record of two fields for each row, `key` and `value`; the set operations make rows of
these two fields again and look the projected columns up in them by name.

What a SELECT scans, joins, filters and sorts is left out: a side of a set operation is the list of
rows it returns, each with the columns it projects (`ResultRow`). `selectColumns` is the record of
a row whose columns are projected by name.
-/

set_option autoImplicit false

namespace EBTree.Sql

open Lib

structure SqlRow where
  key : Bytes
  value : Bytes
  deriving DecidableEq, Repr

/-- What stands behind the first dot of a name. -/
def bareColumn (col : Bytes) : Option Bytes := (indexOf? [46] col).map fun i => col.drop (i + 1)

/-- `FieldVal`: the column, then what the name says behind its dot, then `value`, then `key`. -/
def fieldVal (r : Fields) (col : Bytes) : Bytes :=
  match r.find? col with
  | some v => v
  | none =>
    match (bareColumn col).bind r.find? with
    | some v => v
    | none =>
      match r.find? (ascii "value") with
      | some v => v
      | none => (r.find? (ascii "key")).getD []

/-! ## The rows of a SELECT -/

/-- A projected row, with all its columns, and the record the SELECT returns for it. -/
structure ResultRow where
  columns : List Bytes
  row : SqlRow
  deriving DecidableEq, Repr

/-- The record that two fields have room for. -/
def shownRow (columns : List Bytes) : SqlRow :=
  ⟨columns.headD [], if 1 < columns.length then columns.getD 1 [] else columns.headD []⟩

/-- The end of `ExecSelectRich` for columns projected by name. -/
def selectColumns (projectCols : List Bytes) (r : Fields) : ResultRow :=
  { columns := projectCols.map (fieldVal r)
    row := shownRow (projectCols.map (fieldVal r)) }

/-- `RowsFromExecuteResult`, for one record. -/
def rowFields (sr : SqlRow) : Fields :=
  (SortedMap.empty.insert (ascii "key") sr.key).insert (ascii "value") sr.value

/-! ## The operations -/

inductive SetOpKind
  | kUnion | kIntersect | kExcept
  deriving DecidableEq, Repr

def rowSignature (row : Fields) (cols : List Bytes) : Bytes :=
  cols.flatMap fun c => 124 :: fieldVal row c

/-- The columns the rows are compared by: those of the left side, or its key. -/
def comparedCols (leftCols : List Bytes) : List Bytes :=
  if leftCols = [] then [ascii "key"] else leftCols

/-- The rows that `ExecSetOp` keeps. A hash map is walked in the order of its keys. -/
def mergeRows (op : SetOpKind) (all : Bool) (proj : List Bytes) (left right : List Fields) :
    List Fields :=
  match op with
  | .kUnion =>
    if all then left ++ right
    else (SortedMap.empty.insertAll ((left ++ right).map fun r =>
      (rowSignature r proj, r))).entries.map (·.2)
  | .kIntersect =>
    left.filter fun r => (right.map (rowSignature · proj)).contains (rowSignature r proj)
  | .kExcept =>
    left.filter fun r => !(right.map (rowSignature · proj)).contains (rowSignature r proj)

/-- The record that is returned for a row that was kept. -/
def setOpRow (proj : List Bytes) (r : Fields) : SqlRow :=
  let key := fieldVal r (proj.headD [])
  ⟨key, if 1 < proj.length then fieldVal r (proj.getD 1 []) else key⟩

/-- `ExecSetOp`, on what the two SELECTs return. -/
def execSetOp (op : SetOpKind) (all : Bool) (leftCols : List Bytes) (left right : List SqlRow) :
    List SqlRow :=
  let proj := comparedCols leftCols
  (mergeRows op all proj (left.map rowFields) (right.map rowFields)).map (setOpRow proj)

end EBTree.Sql
