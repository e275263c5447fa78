import EBTree.Lib.Sweep
import EBTree.Sql.Select

/-!
# Window functions

`SqlExecutorV3::ExecWindow`: the rows of a table are selected with the name of the function as the
only column, which leaves a record of two fields of each; the records are sorted by partition and
order, and swept with running numbers that start anew with each partition.
-/

set_option autoImplicit false

namespace EBTree.Sql

open Lib

inductive WindowFunc
  | kRowNumber | kRank | kDenseRank
  deriving DecidableEq, Repr

structure WindowQuery where
  func : WindowFunc
  /-- The name of the function, as it is written. -/
  windowFunc : Bytes
  partitionCol : Bytes
  orderCol : Bytes
  orderDesc : Bool
  deriving DecidableEq, Repr

/-- What is left of a row by `SELECT windowFunc FROM t` and `RowsFromExecuteResult`. -/
def WindowQuery.reduced (wq : WindowQuery) (r : Fields) : Fields :=
  rowFields (selectColumns [wq.windowFunc] r).row

/-- The text of a record's partition. -/
def WindowQuery.partition (wq : WindowQuery) (r : Fields) : Bytes :=
  if wq.partitionCol = [] then [] else fieldVal r wq.partitionCol

/-- The text that a record is ordered by. -/
def WindowQuery.orderVal (wq : WindowQuery) (r : Fields) : Bytes :=
  fieldVal r (if wq.orderCol = [] then ascii "key" else wq.orderCol)

/-- Whether an order value comes before another. -/
def WindowQuery.before (wq : WindowQuery) (u v : Bytes) : Bool :=
  if wq.orderDesc then decide (v < u) else decide (u < v)

/-- The comparison that `std::sort` is given. -/
def WindowQuery.less (wq : WindowQuery) (a b : Fields) : Bool :=
  if wq.partition a ≠ wq.partition b then decide (wq.partition a < wq.partition b)
  else wq.before (wq.orderVal a) (wq.orderVal b)

/-- The running numbers of a partition. -/
structure WindowState where
  rowNum : Nat
  denseRank : Nat
  sqlRank : Nat
  lastOrderVal : Bytes
  deriving DecidableEq, Repr

def WindowState.start : WindowState := ⟨0, 0, 0, []⟩

/-- A record of the partition the sweep is in. -/
def WindowState.step (wq : WindowQuery) (st : WindowState) (r : Fields) : WindowState :=
  let rowNum := st.rowNum + 1
  let ov := wq.orderVal r
  if ov ≠ st.lastOrderVal then ⟨rowNum, st.denseRank + 1, rowNum, ov⟩
  else { st with rowNum := rowNum }

def WindowState.number (func : WindowFunc) (st : WindowState) : Nat :=
  match func with
  | .kRowNumber => st.rowNum
  | .kDenseRank => st.denseRank
  | .kRank => st.sqlRank

/-- The sweep of `ExecWindow`, from the last partition and its numbers. -/
def windowSweep (wq : WindowQuery) : Bytes × WindowState → List Fields → List SqlRow
  | _, [] => []
  | st, r :: rest =>
    let st := sweepStep wq.partition WindowState.start (WindowState.step wq) st r
    ⟨fieldVal r (ascii "key"), decimal (st.2.number wq.func)⟩ :: windowSweep wq st rest

/-- `ExecWindow`, on the rows of the table in an order that the sort leaves. -/
def execWindow (wq : WindowQuery) (sorted : List Fields) : List SqlRow :=
  windowSweep wq ([], WindowState.start) (sorted.map wq.reduced)

end EBTree.Sql
