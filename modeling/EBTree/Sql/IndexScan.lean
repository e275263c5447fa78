import EBTree.Sql.Dml

/-!
# SELECT through an index

The clauses that the planner takes an index for (`index_match.cc`, `lower.cc`), the scans of an
index (`physical_scan.cc`) and the rows of `SqlExecutorV3::ExecSelectRich` up to its joins: scanned,
through an index or not, and filtered by the clause. What comes behind, projections, groups and
orders, is made of these rows.
-/

set_option autoImplicit false

namespace EBTree.Sql

open Lib Engine
open BTree (TypedPlan)

section

variable {rt : Runtime}

/-! ## The planner -/

/-- `ExtractColLitCmp`, and `ExtractColLitEq` for `kEq`. -/
def extractColLitCmp (op : BinaryOp) : ExprNode rt → Option (Bytes × Bytes)
  | .binary op' (.column _ col _) (.literal lit _) _ =>
    if op' = op then some ((bareColumn col).getD col, lit) else none
  | _ => none

/-- `TryRangeAnd`: the column and its bounds. -/
def tryRangeAnd : ExprNode rt → Option (Bytes × Bytes × Bytes)
  | .binary .kAnd a b _ =>
    let geA := extractColLitCmp .kGe a <|> extractColLitCmp .kGt a
    let leB := extractColLitCmp .kLe b <|> extractColLitCmp .kLt b
    -- the bounds the other way round, where the first try left one open
    let leA := if geA.isSome then none else extractColLitCmp .kLe a
    let geA' := if geA.isSome then geA else extractColLitCmp .kGe a
    let noLe := leB.isNone && leA.isNone
    let geB := if noLe then extractColLitCmp .kGe b else none
    let leB' := if noLe then extractColLitCmp .kLe b else leB
    match geB <|> geA', leB' <|> leA with
    | some (_, lo), some (_, hi) =>
      let colA := (geA' <|> leA).map (·.1)
      let colB := (leB' <|> geB).map (·.1)
      if colA = colB then colA.map fun col => (col, lo, (leA.map (·.2)).getD hi) else none
    | _, _ => none
  | _ => none

inductive IndexMatch
  | none
  | eq (column value : Bytes)
  | range (column lo hi : Bytes)
  deriving DecidableEq, Repr

def findLeadingIndex (c : Catalog) (tableName column : Bytes) : Option IndexDef :=
  (c.indexesForTable tableName).find? fun idx => idx.columns.head? = some column

def matchIndexWhere (w : ExprNode rt) (c : Catalog) (tableName : Bytes) : IndexMatch :=
  match extractColLitCmp .kEq w with
  | some (col, lit) => if (findLeadingIndex c tableName col).isSome then .eq col lit else .none
  | Option.none =>
    match tryRangeAnd w with
    | some (col, lo, hi) =>
      if (findLeadingIndex c tableName col).isSome then .range col lo hi else .none
    | Option.none => .none

end

/-! ## Index keys -/

/-- What every entry of an index starts with. -/
def indexKeyFront (tableId indexId : UInt32) : Bytes :=
  tableKeyFront tableId ++ (105 :: (decimal indexId.toNat ++ [58]))

/-- `DecodeIndexKeyPrefix`, the primary key: what stands behind the third colon. -/
def decodeIndexKeyPrefix (encoded : Key) : Option Bytes :=
  match encoded.dropWhile (· ≠ 58) with
  | [] => none
  | _ :: afterTable =>
    let idxPart := afterTable.takeWhile (· ≠ 58)
    match afterTable.dropWhile (· ≠ 58) with
    | [] => none
    | _ :: afterIndex =>
      if idxPart.head? ≠ some 105 then none
      else (afterIndex.dropWhile (· ≠ 58)).tail?

/-- The plan of `ScanIndexRange`; that of `ScanIndexEq` has both bounds at the value. -/
def indexScanPlan (tableId indexId : UInt32) (lo hi : Bytes) : TypedPlan where
  op := .kRange
  key := indexKeyFront tableId indexId ++ (lo ++ [58])
  rangeEnd := indexKeyFront tableId indexId ++ (hi ++ [58, 255])
  snapshotLsn := 0

namespace SqlStore

/-! ## The scans -/

/-- `FetchRowsFromIndexKeys`: each row once, and none for an entry without a row. -/
def fetchRows (d : SqlStore) (tableId : UInt32) :
    List (Key × Bytes) → List Key → List (Key × Bytes)
  | [], _ => []
  | kv :: rest, seen =>
    let encoded := encodeRowKey tableId ((decodeIndexKeyPrefix kv.1).getD kv.2)
    if encoded ∈ seen then fetchRows d tableId rest seen
    else
      match d.rows.find? encoded with
      | none => fetchRows d tableId rest (encoded :: seen)
      | some raw => (encoded, raw) :: fetchRows d tableId rest (encoded :: seen)

section
variable (s : ShardEngine) (d : SqlStore) (table : TableSchema)

def scanIndex (idx : IndexDef) (lo hi : Bytes) : Except Status (List (Key × Bytes)) :=
  match s.prepare (indexScanPlan table.id idx.id lo hi) with
  | .error e => .error e
  | .ok _ => .ok (d.fetchRows table.id (d.engineScan (indexScanPlan table.id idx.id lo hi)) [])

def scanIndexEq (idx : IndexDef) (value : Bytes) : Except Status (List (Key × Bytes)) :=
  d.scanIndex s table idx value value

def scanIndexRange (idx : IndexDef) (lo hi : Bytes) : Except Status (List (Key × Bytes)) :=
  if hi < lo then .ok [] else d.scanIndex s table idx lo hi

/-- The scan of `ExecSelectRich`, of a table found under `name`. -/
def selectScan {rt : Runtime} (name : Bytes) (w : Option (ExprNode rt)) :
    Except Status (List (Key × Bytes)) :=
  let matched := (w.map fun e => matchIndexWhere e d.catalog name).getD .none
  match matched with
  | .none => d.scanTable s table.id
  | .eq col value =>
    match findLeadingIndex d.catalog table.name col with
    | none => d.scanTable s table.id
    | some idx => d.scanIndexEq s table idx value
  | .range col lo hi =>
    match findLeadingIndex d.catalog table.name col with
    | none => d.scanTable s table.id
    | some idx => d.scanIndexRange s table idx lo hi

end

end SqlStore

end EBTree.Sql
