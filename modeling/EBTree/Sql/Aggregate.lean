import EBTree.Lib.JsonLine
import EBTree.Sql.Select

/-!
# Aggregates

`AggEngine` (`agg_engine.cc`) and the way `ExecSelectRich` collects aggregates: in a query without
GROUP BY the aggregates of one name share a bucket, in one with it all aggregates of a group do.

A bucket's numbers are `double`s in the source. They are whole numbers here, as they are on NULLs,
texts and integers below 2^53; texts that spell other numbers, and AVG and TOTAL, are left out.
-/

set_option autoImplicit false

namespace EBTree.Sql

open Lib

inductive AggFunc
  | kCount | kSum | kMin | kMax | kGroupConcat
  deriving DecidableEq, Repr

structure AggregateSpec where
  func : AggFunc
  column : Bytes
  aliasName : Bytes
  distinct : Bool
  separator : Bytes
  deriving DecidableEq, Repr

structure AggBucket where
  nonNullCount : Nat
  sum : Int
  minText : Bytes
  maxText : Bytes
  minNum : Int
  maxNum : Int
  hasMin : Bool
  hasMax : Bool
  minIsText : Bool
  maxIsText : Bool
  distinctVals : List Bytes
  concatParts : List Bytes
  deriving DecidableEq, Repr

def AggBucket.empty : AggBucket := ⟨0, 0, [], [], 0, 0, false, false, false, false, [], []⟩

/-! ## Values -/

/-- `FieldVal` of the aggregates: a column that a row has not is NULL. -/
def aggFieldVal (r : Fields) (col : Bytes) : Bytes :=
  if col = ascii "*" then ascii "1"
  else
    match r.find? col <|> (bareColumn col).bind r.find? with
    | some v => v
    | none =>
      if col = [] then (r.find? (ascii "value") <|> r.find? (ascii "key")).getD [] else []

/-- The number that an integer is spelled as. -/
def wholeNumber (v : Bytes) : Int :=
  if (signOf v).1 then -(leadingNumber (signOf v).2 : Int) else leadingNumber (signOf v).2

/-- `NumericOrZero`. -/
def numericOrZero (v : Bytes) : Int := if isIntegerText v then wholeNumber v else 0

/-- `std::to_string` of a whole number. -/
def intText (n : Int) : Bytes := if n < 0 then 45 :: decimal n.natAbs else decimal n.natAbs

/-- `DistinctNumericKey`. -/
def distinctNumericKey (v : Bytes) : Bytes := intText (numericOrZero v)

/-! ## Accumulating -/

/-- `AggEngine::Validate`. -/
def AggregateSpec.validate (agg : AggregateSpec) : Except Status Unit :=
  if agg.func = .kCount ∧ agg.distinct ∧ agg.column = ascii "*" then
    .error (.invalidArgument "COUNT(DISTINCT *) not supported")
  else if agg.func = .kGroupConcat ∧ agg.distinct ∧ agg.separator ≠ ascii "," then
    .error (.invalidArgument "DISTINCT GROUP_CONCAT with separator")
  else .ok ()

/-- The bucket with a value among those seen, and whether it was not. -/
def AggBucket.see (b : AggBucket) (v : Bytes) : AggBucket × Bool :=
  if b.distinctVals.contains v then (b, false)
  else ({ b with distinctVals := v :: b.distinctVals }, true)

/-- `AggEngine::Accumulate`. -/
def accumulate (b : AggBucket) (agg : AggregateSpec) (r : Fields) : AggBucket :=
  let v := aggFieldVal r agg.column
  match agg.func with
  | .kCount =>
    if agg.distinct ∧ agg.column ≠ ascii "*" then (if v = [] then b else (b.see v).1)
    else if agg.column ≠ ascii "*" then
      (if v = [] then b else { b with nonNullCount := b.nonNullCount + 1 })
    else b
  | .kGroupConcat =>
    if v = [] then b
    else if agg.distinct then
      let (b, new) := b.see v
      if new then { b with concatParts := b.concatParts ++ [v] } else b
    else { b with concatParts := b.concatParts ++ [v] }
  | .kSum =>
    let (b, new) := if agg.distinct then b.see (distinctNumericKey v) else (b, true)
    if new then { b with sum := b.sum + numericOrZero v } else b
  | .kMin =>
    if v = [] then b
    else
      let (b, new) := if agg.distinct then b.see (distinctNumericKey v) else (b, true)
      if new ∧ (b.hasMin = false ∨ numericOrZero v < b.minNum) then
        { b with minNum := numericOrZero v, minIsText := false, hasMin := true }
      else b
  | .kMax =>
    if v = [] then b
    else
      let (b, new) := if agg.distinct then b.see (distinctNumericKey v) else (b, true)
      if new ∧ (b.hasMax = false ∨ b.maxNum < numericOrZero v) then
        { b with maxNum := numericOrZero v, maxIsText := false, hasMax := true }
      else b

/-- `AggEngine::Finalize`. -/
def finalize (agg : AggregateSpec) (b : AggBucket) (rowCount : Nat) : Bytes :=
  match agg.func with
  | .kCount =>
    if agg.distinct ∧ agg.column ≠ ascii "*" then decimal b.distinctVals.length
    else if agg.column = ascii "*" then decimal rowCount
    else decimal b.nonNullCount
  | .kSum => intText b.sum
  | .kMin => if b.hasMin then (if b.minIsText then b.minText else intText b.minNum) else []
  | .kMax => if b.hasMax then (if b.maxIsText then b.maxText else intText b.maxNum) else []
  | .kGroupConcat => agg.separator.intercalate b.concatParts

/-! ## Queries -/

/-- The rows of a group taken in by aggregates that share a bucket. -/
def sharedBucket (aggs : List AggregateSpec) (rows : List Fields) : AggBucket :=
  rows.foldl (fun b r => aggs.foldl (fun b agg => accumulate b agg r) b) .empty

/-- The fields of the aggregates, the later of one name over the earlier. -/
def aggregateFields (aggs : List AggregateSpec) (value : AggregateSpec → Bytes) (g : Fields) :
    Fields :=
  aggs.foldl (fun g agg => g.insert agg.aliasName (value agg)) g

/-- The row of a query without GROUP BY: a bucket for each name. -/
def aggregateRow (aggs : List AggregateSpec) (rows : List Fields) : Fields :=
  aggregateFields aggs (fun agg =>
    finalize agg (sharedBucket (aggs.filter (·.aliasName = agg.aliasName)) rows) rows.length)
    SortedMap.empty

/-- The row of a group: one bucket for all aggregates. -/
def groupRow (aggs : List AggregateSpec) (groupBy : List Bytes) (g : Bytes × List Fields) :
    Fields :=
  aggregateFields aggs (fun agg =>
    if agg.func = .kCount ∧ agg.distinct = false ∧ agg.column = ascii "*" then
      decimal g.2.length
    else finalize agg (sharedBucket aggs g.2) g.2.length)
    (SortedMap.empty.insert (groupBy.headD []) g.1)

/-- The rows that a query with aggregates or GROUP BY goes on with. -/
def aggregateRows (aggs : List AggregateSpec) (groupBy : List Bytes) (rows : List Fields) :
    List Fields :=
  if groupBy = [] then [aggregateRow aggs rows]
  else (groupRows groupBy rows).map (groupRow aggs groupBy)

end EBTree.Sql
