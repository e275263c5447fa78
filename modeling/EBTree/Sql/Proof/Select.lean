import EBTree.Sql.Select

/-!
# DISTINCT, GROUP BY, ORDER BY and LIMIT

DISTINCT and GROUP BY take rows for the texts `distinctKey` and `groupKey`; they partition by the
columns listed exactly if those texts are equal where the columns are (`partition_iff`).

ORDER BY sorts texts, where the operator `<` reads numbers off them; the two agree exactly if no
two values stand in one order as texts and in the other under `<` (`orderBy_iff`).
-/

set_option autoImplicit false

namespace EBTree.Sql

open Lib

/-! ## Tuples -/

/-- The columns of `*`, of the tables that a query joins. -/
def starColumns (tables : List TableSchema) : List Bytes :=
  tables.flatMap fun t => t.columns.map fun c => t.name ++ 46 :: c.name

/-- The columns that a list of projected names asks for. -/
def selectedColumns (tables : List TableSchema) (projectCols : List Bytes) : List Bytes :=
  if projectCols ≠ [] ∧ projectCols.head? ≠ some (ascii "*") then projectCols
  else starColumns tables

/-- The values of columns in a row; a column that the row has not is NULL. -/
def columnTuple (cols : List Bytes) (r : Fields) : List Bytes :=
  cols.map fun c => lookupColumn [] c r

/-- DISTINCT keeps one row for each tuple of the columns, in whatever order the rows come. -/
def DistinctPartitions (table : TableSchema) (tables : List TableSchema)
    (projectCols : List Bytes) (rows : List Fields) : Prop :=
  ∀ l, l.Perm rows → OnePer (columnTuple (selectedColumns tables projectCols)) l
    (distinctRows table projectCols l)

/-- GROUP BY makes one group of each tuple of the columns. -/
def GroupByPartitions (groupBy : List Bytes) (rows : List Fields) : Prop :=
  Groups (columnTuple groupBy) rows ((groupRows groupBy rows).map (·.2))

/-- When DISTINCT and GROUP BY partition by the columns. -/
theorem partition_iff (table : TableSchema) (tables : List TableSchema)
    (projectCols groupBy : List Bytes) (rows : List Fields) :
    (DistinctPartitions table tables projectCols rows ↔
      KeyFits (distinctKey table projectCols) (columnTuple (selectedColumns tables projectCols))
        rows) ∧
    (GroupByPartitions groupBy rows ↔
      KeyFits (groupKey groupBy) (columnTuple groupBy) rows) :=
  ⟨firstsBy_onePer_iff _ _ rows, groupsBy_exact_iff _ _ rows⟩

/-! ## When the texts fit -/

/-- A row has a column, under its name or behind its dot. -/
def HasColumn (r : Fields) (col : Bytes) : Prop :=
  ∃ v, (r.find? col <|> (bareColumn col).bind r.find?) = some v

theorem fieldVal_of_hasColumn {r : Fields} {col : Bytes} (h : HasColumn r col) :
    fieldVal r col = lookupColumn [] col r := by
  obtain ⟨v, hv⟩ := h
  unfold fieldVal lookupColumn
  cases hf : r.find? col with
  | some w => simp
  | none =>
    have hbare : (bareColumn col).bind r.find? = some v := by simpa [hf] using hv
    simp [hbare]

theorem fieldVal_tuple {cols : List Bytes} {r : Fields} (h : ∀ c ∈ cols, HasColumn r c) :
    cols.map (fieldVal r) = columnTuple cols r :=
  List.map_congr_left fun c hc => fieldVal_of_hasColumn (h c hc)

/-- Rows that have the columns projected, with no bar in a value: DISTINCT tells their tuples
apart. -/
theorem distinctKey_fits (table : TableSchema) {projectCols : List Bytes} {rows : List Fields}
    (hcols : projectCols ≠ []) (hstar : projectCols.head? ≠ some (ascii "*"))
    (hhas : ∀ r ∈ rows, ∀ c ∈ projectCols, HasColumn r c)
    (hbar : ∀ r ∈ rows, ∀ v ∈ columnTuple projectCols r, (124 : UInt8) ∉ v) :
    KeyFits (distinctKey table projectCols) (columnTuple projectCols) rows := by
  have hkey : ∀ r ∈ rows, distinctKey table projectCols r =
      [124].intercalate (columnTuple projectCols r) := by
    intro r hr
    rw [distinctKey, if_pos ⟨hcols, hstar⟩, fieldVal_tuple (hhas r hr)]
  have hsplit : ∀ r ∈ rows,
      ([124].intercalate (columnTuple projectCols r)).splitOn (124 : UInt8) =
        columnTuple projectCols r := by
    intro r hr
    exact List.splitOn_intercalate 124 (hbar r hr) (by simpa [columnTuple] using hcols)
  intro a ha b hb
  rw [hkey a ha, hkey b hb]
  refine ⟨fun h => ?_, fun h => by rw [h]⟩
  rw [← hsplit a ha, ← hsplit b hb, h]

/-- One column that the rows have: GROUP BY groups by it. -/
theorem groupKey_fits {col : Bytes} {rows : List Fields} (hhas : ∀ r ∈ rows, HasColumn r col) :
    KeyFits (groupKey [col]) (columnTuple [col]) rows := by
  intro a ha b hb
  simp [groupKey, columnTuple, fieldVal_of_hasColumn (hhas a ha),
    fieldVal_of_hasColumn (hhas b hb)]

/-- A row with the columns `a` and `b`. -/
def twoColumns (a b : Bytes) : Fields :=
  (SortedMap.empty.insert (ascii "a") a).insert (ascii "b") b

theorem twoColumns_has (a b : Bytes) {c : Bytes} (h : c ∈ [ascii "a", ascii "b"]) :
    HasColumn (twoColumns a b) c := by
  simp only [List.mem_cons, List.not_mem_nil, or_false] at h
  obtain rfl | rfl := h
  · exact ⟨a, by simp [twoColumns, show ascii "a" ≠ ascii "b" by decide]⟩
  · exact ⟨b, by simp [twoColumns]⟩

/-- `("x|y", "z")` and `("x", "y|z")` are one row for DISTINCT. -/
theorem partition_bar : ¬ ∀ (table : TableSchema) (tables : List TableSchema)
    (projectCols groupBy : List Bytes) (rows : List Fields), groupBy ≠ [] →
    (∀ r ∈ rows, ∀ c ∈ selectedColumns tables projectCols ++ groupBy, HasColumn r c) →
      DistinctPartitions table tables projectCols rows ∧ GroupByPartitions groupBy rows := by
  intro h
  let cols := [ascii "a", ascii "b"]
  let rows := [twoColumns (ascii "x|y") (ascii "z"), twoColumns (ascii "x") (ascii "y|z")]
  have hsel : selectedColumns [] cols = cols := by decide
  have hhas : ∀ r ∈ rows, ∀ c ∈ selectedColumns [] cols ++ cols, HasColumn r c := by
    intro r hr c hc
    rw [hsel, List.mem_append, or_self] at hc
    simp only [rows, List.mem_cons, List.not_mem_nil, or_false] at hr
    obtain rfl | rfl := hr <;> exact twoColumns_has _ _ hc
  let table : TableSchema := ⟨1, ascii "t", ascii "a", ascii "b", [], 2, false, 1⟩
  have hfits := (firstsBy_onePer_iff _ _ rows).1 (h table [] cols cols rows (by simp [cols]) hhas).1
  have hkey : distinctKey table cols rows[0] = distinctKey table cols rows[1] := by
    decide +kernel
  have htuple := (hfits _ (by simp [rows]) _ (by simp [rows])).1 hkey
  revert htuple
  decide +kernel

/-! ## ORDER BY and LIMIT -/

/-- The operator `<` on a column of two rows. -/
def columnLess (rt : Runtime) (aff : TypeAffinity) (col : Bytes) (a b : Fields) : Bool :=
  @compareSqlValues rt (.ofBytes (lookupColumn [] col a))
    (.ofBytes (lookupColumn [] col b)) .kLt aff = .kTrue

/-- Whether a row comes strictly before another under `<`. -/
def OrderSpec.before (rt : Runtime) (aff : TypeAffinity) (o : OrderSpec) (a b : Fields) : Bool :=
  if o.descending then columnLess rt aff o.column b a else columnLess rt aff o.column a b

/-- The rows in an order in which none comes before an earlier one. -/
structure OrderedRows (rt : Runtime) (aff : TypeAffinity) (o : OrderSpec)
    (rows out : List Fields) : Prop where
  perm : out.Perm rows
  ordered : out.Pairwise fun a b => o.before rt aff b a = false

/-- ORDER BY orders the rows, and LIMIT returns the first of rows so ordered. -/
structure OrderByAgrees (rt : Runtime) (aff : TypeAffinity) (o : OrderSpec)
    (rows : List Fields) : Prop where
  ordered : ∀ out, SortedBy o.less rows out → OrderedRows rt aff o rows out
  limited : ∀ out n, SortedBy o.less rows out →
    ∃ seq, OrderedRows rt aff o rows seq ∧ limitRows n out = seq.take n

/-- No two rows stand in one order as texts and in the other under `<`. -/
def TextOrderFits (rt : Runtime) (aff : TypeAffinity) (o : OrderSpec) (rows : List Fields) :
    Prop :=
  ∀ a b, [a, b].Subperm rows → o.less b a = false → o.before rt aff b a = false

theorem OrderSpec.isSortOrder (o : OrderSpec) : IsSortOrder o.less := by
  cases hd : o.descending with
  | false =>
    refine .of_key (sortText o.column) fun a b => ?_
    simp [OrderSpec.less, hd]
  | true =>
    refine IsSortOrder.reverse (.of_key (sortText o.column) fun a b => ?_)
    simp [OrderSpec.less, hd]

theorem orderRows_sortedBy (o : OrderSpec) (rows : List Fields) :
    SortedBy o.less rows (orderRows o rows) :=
  mergeSort_sortedBy o.isSortOrder rows

theorem limitRows_eq (n : Nat) (rows : List Fields) : limitRows n rows = rows.take n := by
  unfold limitRows
  split
  · rfl
  · rw [List.take_of_length_le (by omega)]

/-- When ORDER BY agrees with the comparison. -/
theorem orderBy_iff (rt : Runtime) (aff : TypeAffinity) (o : OrderSpec) (rows : List Fields) :
    OrderByAgrees rt aff o rows ↔ TextOrderFits rt aff o rows := by
  have hforall := sortedBy_forall_iff o.isSortOrder (fun a b => o.before rt aff b a = false) rows
  constructor
  · exact fun h => hforall.1 fun out hout => (h.ordered out hout).ordered
  · intro h
    have hordered : ∀ out, SortedBy o.less rows out → OrderedRows rt aff o rows out :=
      fun out hout => ⟨hout.perm, hforall.2 h out hout⟩
    exact ⟨hordered, fun out n hout => ⟨out, hordered out hout, limitRows_eq n out⟩⟩

/-- As texts, `10` comes before `9`. -/
theorem orderBy_numbers : ¬ ∀ (rt : Runtime) (aff : TypeAffinity) (o : OrderSpec)
    (rows : List Fields), (∀ r ∈ rows, ∃ v, r.find? o.column = some v ∧ isIntegerText v) →
      OrderByAgrees rt aff o rows := by
  intro h
  let rows := [twoColumns (ascii "9") [], twoColumns (ascii "10") []]
  let o : OrderSpec := ⟨ascii "a", false⟩
  have hints : ∀ r ∈ rows, ∃ v, r.find? o.column = some v ∧ isIntegerText v := by
    intro r hr
    simp only [rows, List.mem_cons, List.not_mem_nil, or_false] at hr
    obtain rfl | rfl := hr
    · exact ⟨ascii "9", by decide +kernel, by decide⟩
    · exact ⟨ascii "10", by decide +kernel, by decide⟩
  have hagree := h wholeNumbers .kText o rows hints
  have hsorted : SortedBy o.less rows [rows[1], rows[0]] :=
    ⟨List.Perm.swap _ _ _, by
      refine List.pairwise_pair.2 ?_
      decide +kernel⟩
  have hbefore := List.pairwise_pair.1 (hagree.ordered _ hsorted).ordered
  revert hbefore
  decide +kernel

end EBTree.Sql
