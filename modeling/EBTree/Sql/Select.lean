import EBTree.Lib.Partition
import EBTree.Lib.SortOutcome
import EBTree.Sql.Dml

/-!
# SELECT

What `SqlExecutorV3::ExecSelectRich` does with the rows of a table once they are scanned and
filtered: it joins them with the rows of other tables, takes out repeated rows, collects groups,
sorts, and cuts the result off. A row is a map from names to texts; a table's own row has each
column under its bare and its qualified name, and its key under `key`.

`std::sort` leaves rows that compare equal in any order, so that what it does is a relation
(`SortedBy`); `orderRows` is one of the outcomes.
-/

set_option autoImplicit false

namespace EBTree.Sql

open Lib

/-! ## Joins -/

inductive JoinType
  | kInner | kLeft | kRight | kFull | kCross
  deriving DecidableEq, Repr

structure JoinSpec where
  type : JoinType
  table : Bytes
  leftTable : Bytes
  leftCol : Bytes
  rightTable : Bytes
  rightCol : Bytes
  deriving DecidableEq, Repr

/-- One side of an ON: a column, with what stands before its dot. -/
structure ColumnRef where
  table : Option Bytes
  column : Bytes
  deriving DecidableEq, Repr

/-- `ParseJoinOn`: the sides as they are written. -/
def parseJoinOn (type : JoinType) (table baseTable : Bytes) (left right : ColumnRef) : JoinSpec where
  type := type
  table := table
  leftTable :=
    match left.table with
    | none => baseTable
    | some t => if t.contains 46 then t.takeWhile (· ≠ 46) else t
  leftCol :=
    match left.table with
    | some t => if t.contains 46 then (t.dropWhile (· ≠ 46)).drop 1 else left.column
    | none => left.column
  rightTable := right.table.getD table
  rightCol := right.column

/-- `merged`: the fields of the right row over those of the left. -/
def mergeFields (l rf : Fields) : Fields := l.insertAll rf.entries

/-- A join column of a row: under its bare name, else under the name of a table. -/
def joinValue (tableName col : Bytes) (r : Fields) : Bytes :=
  (r.find? col <|> r.find? (tableName ++ 46 :: col)).getD []

/-- Whether two rows meet the ON of a join. -/
def joinMatches (table : TableSchema) (j : JoinSpec) (l rf : Fields) : Bool :=
  let lk := joinValue table.name j.leftCol l
  lk ≠ [] && lk = joinValue j.table j.rightCol rf

/-- One join of `ExecSelectRich`. -/
def joinRows (table : TableSchema) (j : JoinSpec) (rows rightRows : List Fields) : List Fields :=
  let onRow := joinMatches table j
  match j.type with
  | .kCross => rows.flatMap fun l => rightRows.map (mergeFields l)
  | .kRight | .kFull =>
    (rightRows.flatMap fun rf =>
      let merged := (rows.filter (onRow · rf)).map (mergeFields · rf)
      if merged = [] then [rf] else merged) ++
      (if j.type = .kFull then rows.filter fun l => !rightRows.any (onRow l) else [])
  | .kInner | .kLeft =>
    rows.flatMap fun l =>
      let merged := (rightRows.filter (onRow l)).map (mergeFields l)
      if j.type = .kLeft ∧ merged = [] then [l] else merged

/-- The joins of a query, each with the rows of its table. -/
def joinAll (table : TableSchema) (joins : List (JoinSpec × List Fields)) (rows : List Fields) :
    List Fields :=
  joins.foldl (fun rows j => joinRows table j.1 rows j.2) rows

/-! ## DISTINCT and GROUP BY -/

/-- The text that DISTINCT takes a row for. -/
def distinctKey (table : TableSchema) (projectCols : List Bytes) (r : Fields) : Bytes :=
  if projectCols ≠ [] ∧ projectCols.head? ≠ some (ascii "*") then
    [124].intercalate (projectCols.map (fieldVal r))
  else
    let key := fieldVal r table.keyColumn
    let val := fieldVal r table.valueColumn
    if val ≠ [] ∧ val ≠ key then key ++ 124 :: val else key

/-- DISTINCT, in a query without groups and aggregates. -/
def distinctRows (table : TableSchema) (projectCols : List Bytes) (rows : List Fields) :
    List Fields :=
  firstsBy (distinctKey table projectCols) [] rows

/-- The text that a row is grouped by: that of the first column. -/
def groupKey (groupBy : List Bytes) (r : Fields) : Bytes := fieldVal r (groupBy.headD [])

/-- The groups of a query, each with its rows in their order. -/
def groupRows (groupBy : List Bytes) (rows : List Fields) : List (Bytes × List Fields) :=
  groupsBy (groupKey groupBy) rows

/-! ## ORDER BY and LIMIT -/

structure OrderSpec where
  column : Bytes
  descending : Bool
  deriving DecidableEq, Repr

/-- What a row is sorted by: the field of this very name. -/
def sortText (col : Bytes) (r : Fields) : Bytes := (r.find? col).getD []

/-- The comparison that `std::sort` is given. -/
def OrderSpec.less (o : OrderSpec) (a b : Fields) : Bool :=
  if o.descending then decide (sortText o.column b < sortText o.column a)
  else decide (sortText o.column a < sortText o.column b)

def orderRows (o : OrderSpec) (rows : List Fields) : List Fields :=
  rows.mergeSort fun a b => !o.less b a

def limitRows (limit : Nat) (rows : List Fields) : List Fields :=
  if limit < rows.length then rows.take limit else rows

end EBTree.Sql
