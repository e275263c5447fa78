import EBTree.Lib.Join
import EBTree.Sql.Select

/-!
# Joins

Each loop of `joinRows` makes the pairs of a relational join, by the test it puts to two rows
(`joinPairs_eq`). The join that an ON asks for is by the values of its two qualified columns
(`onHolds`), wherever they are written. `join_iff` says when every join of a chain is the one asked
for, with the qualified columns of both sides kept: its test must agree with the ON on all rows
joined so far, and rows that meet must not differ in a column of one qualified name. What such a
chain returns is the relational join of its last table (`joinAll_exact`).
-/

set_option autoImplicit false

namespace EBTree.Sql

open Lib

/-! ## The pairs of the loops -/

def JoinType.keepsLeft : JoinType → Bool
  | .kLeft | .kFull => true
  | _ => false

def JoinType.keepsRight : JoinType → Bool
  | .kRight | .kFull => true
  | _ => false

/-- A join by a test: CROSS pairs all. -/
def JoinType.test (type : JoinType) (on : Fields → Fields → Bool) : Fields → Fields → Bool :=
  if type = .kCross then fun _ _ => true else on

/-- The pairs that the loops of `joinRows` go through. -/
def joinPairs (type : JoinType) (on : Fields → Fields → Bool) (rows rightRows : List Fields) :
    List (Option Fields × Option Fields) :=
  match type with
  | .kRight => loopRight on rows rightRows
  | .kFull => loopRight on rows rightRows ++ (unmatched on rows rightRows).map fun l => (some l, none)
  | _ => loopLeft type.keepsLeft (type.test on) rows rightRows

def mergedRow : Option Fields × Option Fields → Fields
  | (some l, some rf) => mergeFields l rf
  | (some l, none) => l
  | (none, some rf) => rf
  | (none, none) => SortedMap.empty

theorem joinPairs_eq (type : JoinType) (on : Fields → Fields → Bool)
    (rows rightRows : List Fields) : Multiset.ofList (joinPairs type on rows rightRows) =
      relJoin type.keepsLeft type.keepsRight (type.test on) rows rightRows := by
  cases type with
  | kRight => exact loopRight_eq on rows rightRows
  | kFull => exact loopFull_eq on rows rightRows
  | kInner | kLeft | kCross => exact loopLeft_eq _ _ rows rightRows

theorem map_pairsLeft (on : Fields → Fields → Bool) (rightRows : List Fields) (l : Fields) :
    (pairsLeft on rightRows l).map mergedRow = (rightRows.filter (on l)).map (mergeFields l) := by
  simp [pairsLeft, mergedRow]

theorem map_pairsRight (on : Fields → Fields → Bool) (rows : List Fields) (rf : Fields) :
    (pairsRight on rows rf).map mergedRow = (rows.filter (on · rf)).map (mergeFields · rf) := by
  simp [pairsRight, mergedRow]

/-- A join returns the merges of its pairs. -/
theorem joinRows_eq (table : TableSchema) (j : JoinSpec) (rows rightRows : List Fields) :
    joinRows table j rows rightRows =
      (joinPairs j.type (joinMatches table j) rows rightRows).map mergedRow := by
  have hright : (loopRight (joinMatches table j) rows rightRows).map mergedRow =
      rightRows.flatMap fun rf =>
        let merged := (rows.filter (joinMatches table j · rf)).map (mergeFields · rf)
        if merged = [] then [rf] else merged := by
    rw [loopRight, List.map_flatMap]
    refine List.flatMap_congr fun rf _ => ?_
    simp only [List.isEmpty_iff, ← map_pairsRight, List.map_eq_nil_iff]
    split <;> rfl
  have hleft (keep : Bool) (on : Fields → Fields → Bool) :
      (loopLeft keep on rows rightRows).map mergedRow = rows.flatMap fun l =>
        let merged := (rightRows.filter (on l)).map (mergeFields l)
        if keep = true ∧ merged = [] then [l] else merged := by
    rw [loopLeft, List.map_flatMap]
    refine List.flatMap_congr fun l _ => ?_
    simp only [List.isEmpty_iff, ← map_pairsLeft, List.map_eq_nil_iff]
    split <;> rfl
  unfold joinRows joinPairs
  cases hj : j.type with
  | kRight => simp [hright]
  | kFull =>
    simp only [List.map_append, hright, if_true]
    congr 1
    simp [unmatched, Function.comp_def, mergedRow]
  | kInner | kLeft | kCross => simp [hleft, JoinType.keepsLeft, JoinType.test]

/-! ## What an ON asks for -/

/-- A join as it is written: `type JOIN table ON leftTable.leftCol = rightTable.rightCol`. -/
structure JoinClause where
  type : JoinType
  table : Bytes
  left : Bytes × Bytes
  right : Bytes × Bytes
  deriving DecidableEq, Repr

/-- What the parser makes of it. -/
def JoinClause.spec (q : JoinClause) (baseTable : Bytes) : JoinSpec :=
  parseJoinOn q.type q.table baseTable ⟨some q.left.1, q.left.2⟩ ⟨some q.right.1, q.right.2⟩

/-- The value of a qualified column in a pair: of the new table in the right row, of another in the
left one. -/
def onValue (table : Bytes) (side : Bytes × Bytes) (l rf : Fields) : Bytes :=
  ((if side.1 = table then rf else l).find? (side.1 ++ 46 :: side.2)).getD []

/-- Two rows meet the ON: the values of its columns are equal and not NULL. -/
def JoinClause.onHolds (q : JoinClause) (l rf : Fields) : Bool :=
  let v := onValue q.table q.left l rf
  v ≠ [] && v = onValue q.table q.right l rf

/-- A merged row has the qualified columns of both of its sides, with their values. -/
def KeepsColumns (l rf : Fields) : Prop :=
  ∀ name v, name.contains 46 = true → l.find? name = some v ∨ rf.find? name = some v →
    (mergeFields l rf).find? name = some v

/-- One join is the one asked for. -/
structure JoinExact (table : TableSchema) (q : JoinClause) (rows rightRows : List Fields) :
    Prop where
  pairs : Multiset.ofList (joinPairs q.type (joinMatches table (q.spec table.name)) rows rightRows) =
    relJoin q.type.keepsLeft q.type.keepsRight (q.type.test q.onHolds) rows rightRows
  kept : ∀ l rf,
    (some l, some rf) ∈ joinPairs q.type (joinMatches table (q.spec table.name)) rows rightRows →
      KeepsColumns l rf

/-- Each join of a chain is the one asked for, on the rows joined before it. -/
def ChainExact (table : TableSchema) : List (JoinClause × List Fields) → List Fields → Prop
  | [], _ => True
  | (q, rightRows) :: rest, rows => JoinExact table q rows rightRows ∧
      ChainExact table rest (joinRows table (q.spec table.name) rows rightRows)

/-- Two rows agree on the columns that both have under one qualified name. -/
def NamesAgree (l rf : Fields) : Prop :=
  ∀ name v w, name.contains 46 = true → l.find? name = some v → rf.find? name = some w → v = w

/-- The test of a join agrees with its ON, and rows that meet agree on their names. -/
structure JoinFits (table : TableSchema) (q : JoinClause) (rows rightRows : List Fields) : Prop where
  test : ∀ l ∈ rows, ∀ rf ∈ rightRows,
    q.type = .kCross ∨ joinMatches table (q.spec table.name) l rf = q.onHolds l rf
  names : ∀ l ∈ rows, ∀ rf ∈ rightRows, q.type.test q.onHolds l rf = true → NamesAgree l rf

def ChainFits (table : TableSchema) : List (JoinClause × List Fields) → List Fields → Prop
  | [], _ => True
  | (q, rightRows) :: rest, rows => JoinFits table q rows rightRows ∧
      ChainFits table rest (joinRows table (q.spec table.name) rows rightRows)

/-! ## Merged rows -/

theorem find?_insertAll_sorted {entries : List (Bytes × Bytes)}
    (h : KeysSorted entries) (m : Fields) (name : Bytes) :
    (m.insertAll entries).find? name = (SortedMap.findIn name entries <|> m.find? name) := by
  induction entries generalizing m with
  | nil => simp [SortedMap.insertAll, SortedMap.findIn]
  | cons e entries ih =>
    obtain ⟨hlt, hs⟩ := List.pairwise_cons.1 h
    rw [SortedMap.insertAll, List.foldl_cons, ← SortedMap.insertAll, ih hs, SortedMap.find?_insert,
      SortedMap.findIn]
    by_cases hn : name = e.1
    · -- the keys behind are greater
      have hnone : SortedMap.findIn name entries = none := by
        rw [SortedMap.findIn_eq_none_iff]
        intro e' he' heq
        exact absurd (hlt e' he') (by rw [heq, hn]; exact lt_irrefl _)
      rw [hnone, if_pos hn, if_pos hn]
      rfl
    · simp [hn]

theorem find?_mergeFields (l rf : Fields) (name : Bytes) :
    (mergeFields l rf).find? name = (rf.find? name <|> l.find? name) :=
  find?_insertAll_sorted rf.sorted l name

theorem keepsColumns_iff (l rf : Fields) : KeepsColumns l rf ↔ NamesAgree l rf := by
  constructor
  · intro h name v w hname hl hr
    have hv := h name v hname (.inl hl)
    have hw := h name w hname (.inr hr)
    exact Option.some.inj (hv.symm.trans hw)
  · intro h name v hname hv
    rw [find?_mergeFields]
    cases hr : rf.find? name with
    | none => simpa [hr] using hv
    | some w =>
      rcases hv with hl | hr'
      · simp [h name v w hname hl hr]
      · simpa [hr] using hr'

theorem joinExact_iff (table : TableSchema) (q : JoinClause) (rows rightRows : List Fields) :
    JoinExact table q rows rightRows ↔ JoinFits table q rows rightRows := by
  have htest : Multiset.ofList (joinPairs q.type (joinMatches table (q.spec table.name)) rows
        rightRows) =
      relJoin q.type.keepsLeft q.type.keepsRight (q.type.test q.onHolds) rows rightRows ↔
      ∀ l ∈ rows, ∀ rf ∈ rightRows,
        q.type = .kCross ∨ joinMatches table (q.spec table.name) l rf = q.onHolds l rf := by
    rw [joinPairs_eq, relJoin_inj]
    refine forall₂_congr fun l _ => forall₂_congr fun rf _ => ?_
    by_cases hc : q.type = .kCross <;> simp [JoinType.test, hc]
  have hmem (h : Multiset.ofList (joinPairs q.type (joinMatches table (q.spec table.name)) rows
        rightRows) =
      relJoin q.type.keepsLeft q.type.keepsRight (q.type.test q.onHolds) rows rightRows)
      (l rf : Fields) : (some l, some rf) ∈
        joinPairs q.type (joinMatches table (q.spec table.name)) rows rightRows ↔
      l ∈ rows ∧ rf ∈ rightRows ∧ q.type.test q.onHolds l rf = true := by
    rw [← Multiset.mem_coe, h, mem_relJoin]
  constructor
  · intro h
    refine ⟨htest.1 h.pairs, fun l hl rf hrf hon => ?_⟩
    exact (keepsColumns_iff l rf).1 (h.kept l rf ((hmem h.pairs l rf).2 ⟨hl, hrf, hon⟩))
  · intro h
    have hpairs := htest.2 h.test
    refine ⟨hpairs, fun l rf hin => ?_⟩
    obtain ⟨hl, hrf, hon⟩ := (hmem hpairs l rf).1 hin
    exact (keepsColumns_iff l rf).2 (h.names l hl rf hrf hon)

/-- A chain of joins is the one asked for exactly if each of them fits. -/
theorem join_iff (table : TableSchema) (chain : List (JoinClause × List Fields))
    (rows : List Fields) : ChainExact table chain rows ↔ ChainFits table chain rows := by
  induction chain generalizing rows with
  | nil => exact Iff.rfl
  | cons j rest ih => exact and_congr (joinExact_iff table j.1 rows j.2) (ih _)

/-! ## The rows of a chain -/

/-- The joins of a chain, as they are executed. -/
def executedJoins (table : TableSchema) (chain : List (JoinClause × List Fields)) :
    List (JoinSpec × List Fields) :=
  chain.map fun j => (j.1.spec table.name, j.2)

/-- The last join of a chain is made on the rows of those before it. -/
theorem chainExact_append (table : TableSchema) (chain : List (JoinClause × List Fields))
    (q : JoinClause) (rows rightRows : List Fields) :
    ChainExact table (chain ++ [(q, rightRows)]) rows ↔ ChainExact table chain rows ∧
      JoinExact table q (joinAll table (executedJoins table chain) rows) rightRows := by
  induction chain generalizing rows with
  | nil => simp [ChainExact, joinAll, executedJoins]
  | cons j rest ih => exact (and_congr_right fun _ => ih _).trans and_assoc.symm

/-- What a chain returns: the merged pairs of its last join, as it is asked for. -/
theorem joinAll_exact {table : TableSchema} {chain : List (JoinClause × List Fields)}
    {q : JoinClause} {rows rightRows : List Fields}
    (h : ChainExact table (chain ++ [(q, rightRows)]) rows) :
    Multiset.ofList (joinAll table (executedJoins table (chain ++ [(q, rightRows)])) rows) =
      (relJoin q.type.keepsLeft q.type.keepsRight (q.type.test q.onHolds)
        (joinAll table (executedJoins table chain) rows) rightRows).map mergedRow := by
  have hlast := ((chainExact_append table chain q rows rightRows).1 h).2
  have hrows : joinAll table (executedJoins table (chain ++ [(q, rightRows)])) rows =
      joinRows table (q.spec table.name) (joinAll table (executedJoins table chain) rows)
        rightRows := by
    simp [joinAll, executedJoins]
  rw [hrows, joinRows_eq, ← Multiset.map_coe, ← hlast.pairs]
  rfl

/-! ## An ON written the other way round -/

/-- The stored rows of a table, as a query reads them. -/
def readRows (table : TableSchema) (stored : List (Bytes × Bytes)) : List Fields :=
  stored.map fun kv => populateRowFields table kv.1 kv.2

def tableA : TableSchema := ⟨1, ascii "a", ascii "x", ascii "v", [], 1, false, 1⟩

def tableB : TableSchema := ⟨2, ascii "b", ascii "y", ascii "w", [], 1, false, 1⟩

/-- `a JOIN b ON b.y = a.x`. -/
def reversedOn : JoinClause :=
  ⟨.kInner, ascii "b", (ascii "b", ascii "y"), (ascii "a", ascii "x")⟩

/-- The test looks `y` up in the row of `a`, and meets nothing. -/
theorem join_reversed : ¬ ∀ (table right : TableSchema) (q : JoinClause)
    (stored rightStored : List (Bytes × Bytes)), table.name ≠ right.name → q.table = right.name →
      q.left.1 ≠ q.right.1 → q.left.1 ∈ [table.name, right.name] →
      q.right.1 ∈ [table.name, right.name] →
      ChainExact table [(q, readRows right rightStored)] (readRows table stored) := by
  intro h
  let stored := [(ascii "1", ascii "p")]
  have hexact := (h tableA tableB reversedOn stored stored (by decide) rfl (by decide) (by decide)
    (by decide)).1
  have htest := (joinExact_iff _ _ _ _).1 hexact |>.test _ (List.mem_cons_self) _
    (List.mem_cons_self)
  revert htest
  decide +kernel

end EBTree.Sql
