import EBTree.Sql.Dml
import EBTree.Sql.Proof.RowKeys

/-!
# What DELETE deletes

DELETE takes out the row whose primary key is the literal of the clause, whatever column the clause
names and whether it is negated.

* `tableRows_remove`, `tableRows_remove_index`: the rows of a table without a key, and without an
  index entry.
* `removeIndexEntries_rows`, `removeIndexEntries_fails`: the index entries that go with a row.
* `delete_exact_iff`: when the rows that go are the ones that the clause asks for.
-/

set_option autoImplicit false

namespace EBTree.Sql

open Lib Engine

/-! ## The rows of a table -/

theorem isIndexEncodedKey_encodeIndexKey (tableId indexId : UInt32) (colValue pk : Bytes) :
    isIndexEncodedKey (encodeIndexKey tableId indexId colValue pk) = true := by
  have hlike : IndexLike (105 :: (decimal indexId.toNat ++ 58 :: (colValue ++ 58 :: pk))) :=
    ⟨decimal indexId.toNat, _, decimal_ne_nil _, fun b hb => isDigit_of_mem_decimal hb, rfl⟩
  exact (isIndexEncodedKey_encodeRowKey tableId _).2 hlike

theorem not_index_of_tableRow {id : UInt32} {k : Key} (hk : isTableRow id k = true) :
    isIndexEncodedKey k = false := by
  rw [isTableRow, Bool.and_eq_true, Bool.not_eq_true'] at hk
  exact hk.2

theorem mem_tableRows_iff {d : SqlStore} {id : UInt32} {kv : Key × Bytes} :
    kv ∈ d.tableRows id ↔ d.rows.find? kv.1 = some kv.2 ∧ isTableRow id kv.1 = true := by
  rw [SqlStore.tableRows, List.mem_filter, ← SortedMap.mem_entries_iff]

namespace SqlStore

theorem tableRows_remove (d : SqlStore) (k : Key) (tableId : UInt32) :
    (d.remove k).tableRows tableId = (d.tableRows tableId).filter fun kv => decide (kv.1 ≠ k) := by
  simp only [tableRows, remove, SortedMap.erase, SortedMap.eraseIn, List.filter_filter]
  apply List.filter_congr
  intro kv _
  by_cases h : kv.1 = k <;> simp [h]

/-- An index entry is no row. -/
theorem tableRows_remove_index (d : SqlStore) {k : Key} (hk : isIndexEncodedKey k = true)
    (tableId : UInt32) : (d.remove k).tableRows tableId = d.tableRows tableId := by
  rw [tableRows_remove]
  apply List.filter_eq_self.2
  intro kv hkv
  have hrow := not_index_of_tableRow (mem_tableRows_iff.1 hkv).2
  rw [decide_eq_true_eq]
  rintro rfl
  rw [hk] at hrow
  cases hrow

@[simp] theorem find?_remove (d : SqlStore) (k k' : Key) :
    (d.remove k).rows.find? k' = if k' = k then none else d.rows.find? k' := by
  by_cases h : k' = k <;> simp [remove, h]

theorem remove_of_absent {d : SqlStore} {k : Key} (h : d.rows.find? k = none) :
    (d.remove k).rows = d.rows := by
  apply SortedMap.ext_find?
  intro k'
  rw [find?_remove]
  split
  · rename_i hk
    rw [hk, h]
  · rfl

end SqlStore

/-! ## The index entries of a row -/

section Entries

variable {a : Answers} {table : TableSchema} {pk : Bytes} {fields : Fields}

/-- The row has an entry in the index, and the engine does not take it out. -/
def EntryFails (a : Answers) (table : TableSchema) (pk : Bytes) (fields : Fields)
    (idx : IndexDef) : Prop :=
  ∃ value e, idx.columns.head?.bind fields.find? = some value ∧
    a.delete (encodeIndexKey table.id idx.id value pk) = .error e ∧ e.code ≠ .kNotFound

open SqlStore

theorem removeIndexEntries_rows (indexes : List IndexDef) (d : SqlStore) (tableId : UInt32) :
    (removeIndexEntries a table pk fields d indexes).1.tableRows tableId =
      d.tableRows tableId := by
  induction indexes generalizing d with
  | nil => rfl
  | cons idx rest ih =>
    unfold removeIndexEntries
    split
    · exact ih d
    · rename_i value _
      dsimp only
      split
      · rw [ih, tableRows_remove_index d (isIndexEncodedKey_encodeIndexKey _ _ _ _)]
      · split
        · exact ih d
        · rfl

/-- What is gone stays gone. -/
theorem removeIndexEntries_absent {k : Key} (indexes : List IndexDef) {d : SqlStore}
    (h : d.rows.find? k = none) :
    (removeIndexEntries a table pk fields d indexes).1.rows.find? k = none := by
  induction indexes generalizing d with
  | nil => exact h
  | cons idx rest ih =>
    unfold removeIndexEntries
    split
    · exact ih h
    · dsimp only
      split
      · apply ih
        rw [find?_remove, h, ite_self]
      · split
        · exact ih h
        · exact h

theorem removeIndexEntries_fails (indexes : List IndexDef) (d : SqlStore) :
    (∃ e, (removeIndexEntries a table pk fields d indexes).2 = .error e) ↔
      ∃ idx ∈ indexes, EntryFails a table pk fields idx := by
  induction indexes generalizing d with
  | nil => exact iff_of_false (by rintro ⟨e, h⟩; cases h) (by simp)
  | cons idx rest ih =>
    rw [List.exists_mem_cons_iff]
    unfold removeIndexEntries
    split
    · rename_i hnone
      have hpass : ¬ EntryFails a table pk fields idx := by
        rintro ⟨value, e, hv, -⟩
        rw [hnone] at hv
        cases hv
      rw [ih, or_iff_right hpass]
    · rename_i value hvalue
      dsimp only
      split
      · rename_i hok
        have hpass : ¬ EntryFails a table pk fields idx := by
          rintro ⟨value', e, hv, he, -⟩
          rw [hvalue, Option.some.injEq] at hv
          rw [← hv, hok] at he
          cases he
        rw [ih, or_iff_right hpass]
      · rename_i e he
        split
        · rename_i hcode
          have hpass : ¬ EntryFails a table pk fields idx := by
            rintro ⟨value', e', hv, he', hne⟩
            rw [hvalue, Option.some.injEq] at hv
            rw [← hv, he, Except.error.injEq] at he'
            exact hne (he' ▸ hcode)
          rw [ih, or_iff_right hpass]
        · rename_i hcode
          exact iff_of_true ⟨e, rfl⟩ (.inl ⟨value, e, hvalue, he, hcode⟩)

end Entries

/-! ## The statement -/

section Statement

variable {rt : Runtime}

/-- The statement fails and nothing changes, or the rows that do not satisfy its clause are left. -/
def DeleteExact (a : Answers) (findView : Bytes → Bool) (d : SqlStore) (name : Bytes)
    (w : Option (ExprNode rt)) : Prop :=
  match d.execDelete a findView (parseDelete name w) with
  | (d', .error _) => d'.rows = d.rows
  | (d', .ok _) => ∀ table, d.catalog.findTable name = some table →
      d'.tableRows table.id = (d.tableRows table.id).filter fun kv => !satisfies table w kv

/-- What the executor turns down: a view, a name without a table, and every clause that is not a
column, an equals sign and a literal. -/
def DeleteRefused (findView : Bytes → Bool) (d : SqlStore) (name : Bytes)
    (w : Option (ExprNode rt)) : Prop :=
  findView name = true ∨ d.catalog.findTable name = none ∨ w.bind whereLiteral = none

/-- A write fails after the row is gone: an index entry's or the operation log's. -/
def FailsLate (a : Answers) (d : SqlStore) (table : TableSchema) (lit : Bytes) : Prop :=
  (∃ idx ∈ d.catalog.indexesForTable table.name,
    EntryFails a table lit (d.existingFields (encodeRowKey table.id lit)) idx) ∨
  ∃ e, a.appendDelete (encodeRowKey table.id lit) = .error e

/-- A statement that is carried out: its row is not there to be taken out, or goes with everything
that belongs to it and is the one that satisfies the clause. -/
def DeletesAsked (a : Answers) (d : SqlStore) (w : Option (ExprNode rt)) (table : TableSchema)
    (lit : Bytes) : Prop :=
  (∃ e, a.delete (encodeRowKey table.id lit) = .error e) ∨
  (FailsLate a d table lit ∧ d.rows.find? (encodeRowKey table.id lit) = none) ∨
  (¬ FailsLate a d table lit ∧ ∀ kv ∈ d.tableRows table.id,
    satisfies table w kv = true ↔ kv.1 = encodeRowKey table.id lit)

open SqlStore

/-- The run of a statement on a row key that the engine takes out. -/
theorem execDelete_ok {a : Answers} {findView : Bytes → Bool} {d : SqlStore} {name : Bytes}
    {w : Option (ExprNode rt)} {table : TableSchema} {lit : Bytes} (hv : findView name = false)
    (ht : d.catalog.findTable name = some table) (hl : w.bind whereLiteral = some lit)
    (hk : a.delete (encodeRowKey table.id lit) = .ok ()) :
    ∃ d', (∀ id, d'.tableRows id = (d.remove (encodeRowKey table.id lit)).tableRows id) ∧
      d'.rows.find? (encodeRowKey table.id lit) = none ∧
      (d.rows.find? (encodeRowKey table.id lit) = none → d'.rows = d.rows) ∧
      ((FailsLate a d table lit ∧
          ∃ e, d.execDelete a findView (parseDelete name w) = (d', .error e)) ∨
        (¬ FailsLate a d table lit ∧
          d.execDelete a findView (parseDelete name w) = (d', .ok ()))) := by
  have hgone : (d.remove (encodeRowKey table.id lit)).rows.find? (encodeRowKey table.id lit) =
      none := by simp
  have hrun : d.execDelete a findView (parseDelete name w) =
      match (if (d.existingFields (encodeRowKey table.id lit)).isEmpty then
          (d.remove (encodeRowKey table.id lit), .ok ())
        else removeIndexEntries a table lit (d.existingFields (encodeRowKey table.id lit))
          (d.remove (encodeRowKey table.id lit)) (d.catalog.indexesForTable table.name)) with
      | (d, .error e) => (d, .error e)
      | (d, .ok _) => (d, a.appendDelete (encodeRowKey table.id lit)) := by
    simp only [execDelete, parseDelete, hv, ht, hl, hk, Bool.false_eq_true, if_false]
    rfl
  rw [hrun]
  by_cases hempty : (d.existingFields (encodeRowKey table.id lit)).isEmpty = true
  · -- no row, or one that no index has an entry of
    have hnone : ¬ ∃ idx ∈ d.catalog.indexesForTable table.name,
        EntryFails a table lit (d.existingFields (encodeRowKey table.id lit)) idx := by
      rintro ⟨idx, -, value, e, hvalue, -⟩
      cases hcol : idx.columns.head? with
      | none => simp [hcol] at hvalue
      | some col =>
        rw [hcol, Option.bind_some, ← SortedMap.mem_entries_iff,
          SortedMap.isEmpty_iff.1 hempty] at hvalue
        cases hvalue
    rw [if_pos hempty]
    refine ⟨_, fun _ => rfl, hgone, remove_of_absent, ?_⟩
    cases happ : a.appendDelete (encodeRowKey table.id lit) with
    | error e => exact .inl ⟨.inr ⟨e, happ⟩, e, rfl⟩
    | ok u =>
      refine .inr ⟨?_, rfl⟩
      rintro (h | ⟨e, he⟩)
      · exact hnone h
      · rw [happ] at he
        cases he
  · rw [if_neg hempty]
    have hrows := @removeIndexEntries_rows a table lit
      (d.existingFields (encodeRowKey table.id lit)) (d.catalog.indexesForTable table.name)
      (d.remove (encodeRowKey table.id lit))
    have habs := @removeIndexEntries_absent a table lit
      (d.existingFields (encodeRowKey table.id lit)) _ (d.catalog.indexesForTable table.name) _
      hgone
    have hfails := @removeIndexEntries_fails a table lit
      (d.existingFields (encodeRowKey table.id lit)) (d.catalog.indexesForTable table.name)
      (d.remove (encodeRowKey table.id lit))
    have hstored : d.rows.find? (encodeRowKey table.id lit) ≠ none := by
      intro h
      apply hempty
      simp only [existingFields, h]
      rfl
    rcases hr : removeIndexEntries a table lit (d.existingFields (encodeRowKey table.id lit))
      (d.remove (encodeRowKey table.id lit)) (d.catalog.indexesForTable table.name)
      with ⟨d', e | u⟩
    · rw [hr] at hrows habs hfails
      exact ⟨d', hrows, habs, fun h => absurd h hstored, .inl ⟨.inl (hfails.1 ⟨e, rfl⟩), e, rfl⟩⟩
    · rw [hr] at hrows habs hfails
      refine ⟨d', hrows, habs, fun h => absurd h hstored, ?_⟩
      cases happ : a.appendDelete (encodeRowKey table.id lit) with
      | error e => exact .inl ⟨.inr ⟨e, happ⟩, e, rfl⟩
      | ok u =>
        refine .inr ⟨?_, rfl⟩
        rintro (h | ⟨e, he⟩)
        · obtain ⟨e, he⟩ := hfails.2 h
          cases he
        · rw [happ] at he
          cases he

/-- The rows without a key are those that do not satisfy the clause when the row under this key is
the one that does. -/
theorem filter_satisfies_iff {rows : List (Key × Bytes)} {p : Key × Bytes → Bool} {k : Key} :
    (rows.filter fun kv => decide (kv.1 ≠ k)) = (rows.filter fun kv => !p kv) ↔
      ∀ kv ∈ rows, p kv = true ↔ kv.1 = k := by
  constructor
  · intro h kv hkv
    have hmem : kv ∈ rows.filter (fun kv => decide (kv.1 ≠ k)) ↔
        kv ∈ rows.filter fun kv => !p kv := by rw [h]
    simp only [List.mem_filter, hkv, true_and, decide_eq_true_eq, Bool.not_eq_true'] at hmem
    rw [← not_iff_not, Bool.not_eq_true]
    exact hmem.symm
  · intro h
    apply List.filter_congr
    intro kv hkv
    have hkv := h kv hkv
    by_cases hk : kv.1 = k
    · simp [hk, hkv.2 hk]
    · simp [hk, Bool.eq_false_iff.2 fun hp => hk (hkv.1 hp)]

/-- **DELETE is exact when the executor refuses it or the row under its literal is the one that
satisfies its clause, as far as the engine and the operation log do not fail.** -/
theorem delete_exact_iff (a : Answers) (findView : Bytes → Bool) (d : SqlStore) (name : Bytes)
    (w : Option (ExprNode rt)) :
    DeleteExact a findView d name w ↔
      DeleteRefused findView d name w ∨
      ∃ table lit, d.catalog.findTable name = some table ∧ w.bind whereLiteral = some lit ∧
        DeletesAsked a d w table lit := by
  by_cases hv : findView name = true
  · refine iff_of_true ?_ (.inl (.inl hv))
    simp [DeleteExact, execDelete, parseDelete, hv]
  have hv : findView name = false := Bool.eq_false_iff.2 hv
  cases ht : d.catalog.findTable name with
  | none =>
    refine iff_of_true ?_ (.inl (.inr (.inl ht)))
    simp [DeleteExact, execDelete, parseDelete, hv, ht]
  | some table =>
  cases hl : w.bind whereLiteral with
  | none =>
    refine iff_of_true ?_ (.inl (.inr (.inr hl)))
    simp [DeleteExact, execDelete, parseDelete, hv, ht, hl]
  | some lit =>
  have hexec : ¬ DeleteRefused findView d name w := by
    rintro (h | h | h)
    · rw [hv] at h
      cases h
    · rw [ht] at h
      cases h
    · rw [hl] at h
      cases h
  have hasked : (∃ table' lit', some table = some table' ∧ some lit = some lit' ∧
      DeletesAsked a d w table' lit') ↔ DeletesAsked a d w table lit := by simp
  rw [or_iff_right hexec, hasked]
  cases hk : a.delete (encodeRowKey table.id lit) with
  | error e =>
    refine iff_of_true ?_ (.inl ⟨e, hk⟩)
    simp [DeleteExact, execDelete, parseDelete, hv, ht, hl, hk]
  | ok u =>
    have hans : ¬ ∃ e, a.delete (encodeRowKey table.id lit) = .error e := by
      rintro ⟨e, he⟩
      rw [hk] at he
      cases he
    obtain ⟨d', hrows, hgone, hsame, ⟨hlate, e, hrun⟩ | ⟨hlate, hrun⟩⟩ :=
      execDelete_ok hv ht hl hk
    · -- the statement fails, and its row is gone
      have hexact : DeleteExact a findView d name w ↔ d'.rows = d.rows := by
        simp only [DeleteExact, hrun]
      rw [hexact]
      constructor
      · intro h
        exact .inr (.inl ⟨hlate, h ▸ hgone⟩)
      · rintro (h | ⟨-, h⟩ | ⟨h, -⟩)
        · exact absurd h hans
        · exact hsame h
        · exact absurd hlate h
    · have hexact : DeleteExact a findView d name w ↔
          d'.tableRows table.id =
            (d.tableRows table.id).filter fun kv => !satisfies table w kv := by
        simp [DeleteExact, hrun, ht]
      rw [hexact, hrows, tableRows_remove, filter_satisfies_iff]
      constructor
      · exact fun h => .inr (.inr ⟨hlate, h⟩)
      · rintro (h | ⟨h, -⟩ | ⟨-, h⟩)
        · exact absurd h hans
        · exact absurd h hlate
        · exact h

end Statement

/-! ## A clause on another column -/

/-- `CREATE TABLE t (k TEXT PRIMARY KEY, v TEXT)`. -/
def pairColumns : List ColumnDef :=
  [⟨ascii "k", textType, false, true, []⟩, .plain (ascii "v")]

def pairTable : TableSchema := Catalog.newSchema 1 (ascii "t") pairColumns
  ⟨ascii "k", textType, false, true, []⟩

/-- A row of the table as INSERT stores it. -/
def pairRow (k v : Bytes) : Key × Bytes :=
  (encodeRowKey 1 k, encodeRowBinary pairColumns
    ((SortedMap.empty.insert (ascii "k") k).insert (ascii "v") v))

/-- The table with the rows `(a, b)` and `(b, c)`. -/
def pairStore : SqlStore where
  catalog := { Catalog.empty with nextId := 2 }.addTable pairTable
  rows := SortedMap.empty.insertAll
    [pairRow (ascii "a") (ascii "b"), pairRow (ascii "b") (ascii "c")]

/-- `v = 'b'`. -/
def valueClause : ExprNode wholeNumbers :=
  .binary .kEq (.column [] (ascii "v") false) (.literal (ascii "b") false) false

/-- `DELETE FROM t WHERE v = 'b'` takes out the row whose key is `b` and leaves the one whose value
it is. -/
theorem delete_by_value : ¬ ∀ (rt : Runtime) (a : Answers) (findView : Bytes → Bool) (d : SqlStore)
    (name : Bytes) (w : Option (ExprNode rt)), DeleteExact a findView d name w := by
  intro h
  have hrows := h wholeNumbers ⟨fun _ => .ok (), fun _ => .ok ()⟩ (fun _ => false) pairStore
    (ascii "t") (some valueClause) pairTable rfl
  have hkeys := congrArg (List.map (·.1)) hrows
  revert hkeys
  decide +kernel

end EBTree.Sql
