import EBTree.Sql.IndexScan
import EBTree.Sql.Proof.Delete

/-!
# Whether an index finds the rows

An entry of an index is the text `value:key`, and a scan takes those between `lo:` and `hi:\xFF`,
byte by byte. It reads an entry from the first colon on, wherever the value ended, and fetches the
row it names. The clause is then asked of the rows fetched.

* `mem_fetchRows`, `fetchRows_nodup`: the rows that are fetched, each once.
* `mem_scanIndex`: through entries that are those of the rows.
* `select_index_iff`: when a SELECT through an index returns the rows that the scan of the table
  gives.
-/

set_option autoImplicit false

namespace EBTree.Sql

open Lib Engine
open BTree (TypedPlan planMatches)

/-! ## Keys between two keys -/

/-- What lies between two texts with a common front has that front. -/
theorem between_common_iff {q lo hi k : Bytes} :
    (q ++ lo ≤ k ∧ k ≤ q ++ hi) ↔ ∃ r, k = q ++ r ∧ lo ≤ r ∧ r ≤ hi := by
  induction q generalizing k with
  | nil =>
    constructor
    · exact fun h => ⟨k, rfl, h⟩
    · rintro ⟨r, rfl, h⟩
      exact h
  | cons x q ih =>
    cases k with
    | nil =>
      refine iff_of_false (fun h => not_bytes_cons_le_nil h.1) ?_
      rintro ⟨r, h, -⟩
      cases h
    | cons y k =>
      simp only [List.cons_append, bytes_cons_le_cons]
      constructor
      · rintro ⟨h1 | ⟨rfl, h1⟩, h2 | ⟨h2', h2⟩⟩
        · exact absurd h2 (lt_asymm h1)
        · exact absurd h2' (ne_of_gt h1)
        · exact absurd h2 (lt_irrefl _)
        · obtain ⟨r, rfl, h⟩ := ih.1 ⟨h1, h2⟩
          exact ⟨r, rfl, h⟩
      · rintro ⟨r, h, h'⟩
        rw [List.cons.injEq] at h
        obtain ⟨rfl, rfl⟩ := h
        obtain ⟨h1, h2⟩ := ih.2 ⟨r, rfl, h'⟩
        exact ⟨.inr ⟨rfl, h1⟩, .inr ⟨rfl, h2⟩⟩

theorem append_lt_common_iff {q a b : Bytes} : q ++ a < q ++ b ↔ a < b := by
  induction q with
  | nil => rfl
  | cons x q ih => simp [ih]

/-! ## Reading keys -/

theorem colon_not_mem_decimal (n : Nat) : ∀ b ∈ decimal n, b ≠ 58 := by
  rintro b hb rfl
  exact absurd (isDigit_of_mem_decimal hb).2 (by decide)

theorem decodeRowKey_encodeRowKey (id : UInt32) (pk : Bytes) :
    decodeRowKey (encodeRowKey id pk) = some pk := by
  have hsecond : (decimal id.toNat)[1]? ≠ some 105 := by
    intro h
    have := isDigit_of_mem_decimal (List.mem_of_getElem? h)
    exact absurd this.2 (by decide)
  unfold decodeRowKey
  simp only [dropWhile_ne_colon, takeWhile_ne_colon, decimal_ne_nil, hsecond, or_self, if_false]

/-- What an entry of an index is read as: the text behind the first colon of `value:key`. -/
def entryPk (value pk : Bytes) : Bytes := ((value ++ 58 :: pk).dropWhile (· ≠ 58)).tail

theorem encodeIndexKey_eq (tableId indexId : UInt32) (value pk : Bytes) :
    encodeIndexKey tableId indexId value pk =
      indexKeyFront tableId indexId ++ (value ++ 58 :: pk) := by
  simp [encodeIndexKey, indexKeyFront]

theorem decodeIndexKeyPrefix_encodeIndexKey (tableId indexId : UInt32) (value pk : Bytes) :
    decodeIndexKeyPrefix (encodeIndexKey tableId indexId value pk) = some (entryPk value pk) := by
  have hindex : (105 :: (decimal indexId.toNat ++ 58 :: (value ++ 58 :: pk))).dropWhile (· ≠ 58) =
      58 :: (value ++ 58 :: pk) := by
    rw [← List.cons_append, List.dropWhile_append_of_pos]
    · simp
    · intro b hb
      rcases List.mem_cons.1 hb with rfl | hb
      · decide
      · simpa using colon_not_mem_decimal _ b hb
  have hhead : ((105 :: (decimal indexId.toNat ++ 58 :: (value ++ 58 :: pk))).takeWhile
      (· ≠ 58)).head? = some 105 := by simp
  have hrest : ((value ++ 58 :: pk).dropWhile (· ≠ 58)).tail? = some (entryPk value pk) := by
    have hne : (value ++ 58 :: pk).dropWhile (· ≠ 58) ≠ [] := by
      intro h
      have hall := List.dropWhile_eq_nil_iff.1 h 58 (by simp)
      simp at hall
    unfold entryPk
    cases hd : (value ++ 58 :: pk).dropWhile (· ≠ 58) with
    | nil => exact absurd hd hne
    | cons b l => rfl
  change decodeIndexKeyPrefix (encodeRowKey tableId _) = _
  unfold decodeIndexKeyPrefix
  simp only [dropWhile_ne_colon, hindex, hhead, hrest, ne_eq, not_true_eq_false, if_false]

/-! ## Fetching -/

theorem nodup_entries (m : SortedMap Key Bytes) : m.entries.Nodup :=
  m.sorted.imp fun h => ne_of_apply_ne Prod.fst h.ne

namespace SqlStore

/-- The row an entry is taken for. -/
def entryRow (tableId : UInt32) (kv : Key × Bytes) : Key :=
  encodeRowKey tableId ((decodeIndexKeyPrefix kv.1).getD kv.2)

theorem mem_fetchRows (d : SqlStore) (tableId : UInt32) (kv : Key × Bytes)
    (entries : List (Key × Bytes)) (seen : List Key) :
    kv ∈ d.fetchRows tableId entries seen ↔
      kv ∈ d.rows.entries ∧ kv.1 ∉ seen ∧ ∃ e ∈ entries, entryRow tableId e = kv.1 := by
  induction entries generalizing seen with
  | nil => simp [fetchRows]
  | cons e rest ih =>
    have hstored : ∀ raw, d.rows.find? (entryRow tableId e) = some raw →
        (kv ∈ d.rows.entries ∧ entryRow tableId e = kv.1 ↔ kv = (entryRow tableId e, raw)) := by
      intro raw hraw
      constructor
      · rintro ⟨hkv, hk⟩
        have hv : d.rows.find? kv.1 = some kv.2 := SortedMap.mem_entries_iff.1 hkv
        rw [← hk, hraw, Option.some.injEq] at hv
        exact Prod.ext hk.symm hv.symm
      · rintro rfl
        exact ⟨SortedMap.mem_entries_iff.2 hraw, rfl⟩
    rw [List.exists_mem_cons_iff]
    unfold fetchRows
    dsimp only
    split
    · rename_i hseen
      rw [ih]
      constructor
      · rintro ⟨h1, h2, h3⟩
        exact ⟨h1, h2, .inr h3⟩
      · rintro ⟨h1, h2, h3 | h3⟩
        · exact absurd (h3 ▸ hseen) h2
        · exact ⟨h1, h2, h3⟩
    · rename_i hseen
      split
      · rename_i hnone
        rw [ih]
        constructor
        · rintro ⟨h1, h2, h3⟩
          exact ⟨h1, fun h => h2 (List.mem_cons_of_mem _ h), .inr h3⟩
        · rintro ⟨h1, h2, h3⟩
          have hk : kv.1 ≠ entryRow tableId e := by
            intro hk
            have hv : d.rows.find? kv.1 = some kv.2 := SortedMap.mem_entries_iff.1 h1
            rw [hk] at hv
            exact absurd (hnone.symm.trans hv) (by simp)
          refine ⟨h1, ?_, h3.resolve_left fun h => hk h.symm⟩
          rw [List.mem_cons]
          exact fun h => h.elim hk h2
      · rename_i raw hraw
        have hraw' := hstored raw hraw
        rw [List.mem_cons, ih]
        constructor
        · rintro (rfl | ⟨h1, h2, h3⟩)
          · exact ⟨(hraw'.2 rfl).1, hseen, .inl rfl⟩
          · exact ⟨h1, fun h => h2 (List.mem_cons_of_mem _ h), .inr h3⟩
        · rintro ⟨h1, h2, h3⟩
          by_cases hk : entryRow tableId e = kv.1
          · exact .inl (hraw'.1 ⟨h1, hk⟩)
          · refine .inr ⟨h1, ?_, h3.resolve_left hk⟩
            rw [List.mem_cons]
            exact fun h => h.elim (fun h => hk h.symm) h2

theorem fetchRows_nodup (d : SqlStore) (tableId : UInt32) (entries : List (Key × Bytes))
    (seen : List Key) : (d.fetchRows tableId entries seen).Nodup := by
  induction entries generalizing seen with
  | nil => exact List.nodup_nil
  | cons e rest ih =>
    unfold fetchRows
    dsimp only
    split
    · exact ih _
    · split
      · exact ih _
      · refine List.nodup_cons.2 ⟨?_, ih _⟩
        intro h
        exact ((mem_fetchRows d tableId _ _ _).1 h).2.1 List.mem_cons_self

end SqlStore

/-! ## Entries and rows -/

/-- The value of a row that an index keeps. -/
def indexedValue (table : TableSchema) (idx : IndexDef) (kv : Key × Bytes) : Option Bytes :=
  idx.columns.head?.bind (storedFields table kv).find?

/-- The primary key of a row. -/
def rowPk (kv : Key × Bytes) : Bytes := (decodeRowKey kv.1).getD kv.1

/-- The entries that the rows of a table have in an index. -/
def indexEntries (d : SqlStore) (table : TableSchema) (idx : IndexDef) : List (Key × Bytes) :=
  (d.tableRows table.id).filterMap fun kv => (indexedValue table idx kv).map fun value =>
    (encodeIndexKey table.id idx.id value (rowPk kv), rowPk kv)

/-- What is stored under the keys of an index are the entries of the rows, all of them. -/
def IndexConsistent (d : SqlStore) (table : TableSchema) (idx : IndexDef) : Prop :=
  ∀ e, e ∈ d.rows.entries.filter (fun e => (indexKeyFront table.id idx.id).isPrefixOf e.1) ↔
    e ∈ indexEntries d table idx

/-- The row that the entry of a row leads to, where the scan between two bounds meets it. -/
def leadsTo (table : TableSchema) (idx : IndexDef) (lo hi : Bytes) (kv : Key × Bytes) :
    Option Key :=
  (indexedValue table idx kv).bind fun value =>
    if ¬ hi < lo ∧ lo ++ [58] ≤ value ++ 58 :: rowPk kv ∧
        value ++ 58 :: rowPk kv ≤ hi ++ [58, 255] then
      some (encodeRowKey table.id (entryPk value (rowPk kv)))
    else none

section Select

variable {rt : Runtime} {d : SqlStore} {table : TableSchema} {idx : IndexDef} {lo hi : Bytes}

theorem mem_engineScan_index (hc : IndexConsistent d table idx) {e : Key × Bytes} :
    e ∈ d.engineScan (indexScanPlan table.id idx.id lo hi) ↔
      ∃ kv ∈ d.tableRows table.id, ∃ value, indexedValue table idx kv = some value ∧
        e = (encodeIndexKey table.id idx.id value (rowPk kv), rowPk kv) ∧
        lo ++ [58] ≤ value ++ 58 :: rowPk kv ∧ value ++ 58 :: rowPk kv ≤ hi ++ [58, 255] := by
  have hmatch : planMatches (indexScanPlan table.id idx.id lo hi) e.1 = true ↔
      ∃ r, e.1 = indexKeyFront table.id idx.id ++ r ∧ lo ++ [58] ≤ r ∧ r ≤ hi ++ [58, 255] := by
    rw [← between_common_iff]
    unfold planMatches indexScanPlan
    exact decide_eq_true_iff
  have hentry : e ∈ indexEntries d table idx ↔ ∃ kv ∈ d.tableRows table.id, ∃ value,
      indexedValue table idx kv = some value ∧
        (encodeIndexKey table.id idx.id value (rowPk kv), rowPk kv) = e := by
    simp only [indexEntries, List.mem_filterMap, Option.map_eq_some_iff]
  have hcons := hc e
  rw [List.mem_filter, List.isPrefixOf_iff_prefix, hentry] at hcons
  rw [SqlStore.engineScan, List.mem_filter, hmatch]
  constructor
  · rintro ⟨he, r, hr, hb⟩
    obtain ⟨kv, hkv, value, hv, rfl⟩ := hcons.1 ⟨he, r, hr.symm⟩
    have hr' : value ++ 58 :: rowPk kv = r :=
      List.append_cancel_left ((encodeIndexKey_eq _ _ _ _).symm.trans hr)
    exact ⟨kv, hkv, value, hv, rfl, hr' ▸ hb⟩
  · rintro ⟨kv, hkv, value, hv, rfl, hb⟩
    exact ⟨(hcons.2 ⟨kv, hkv, value, hv, rfl⟩).1, _, encodeIndexKey_eq _ _ _ _, hb⟩

/-- The rows fetched through an index are those that some row's entry leads to. -/
theorem mem_scanned_index (hc : IndexConsistent d table idx) (hlo : ¬ hi < lo)
    {kv : Key × Bytes} :
    kv ∈ d.fetchRows table.id (d.engineScan (indexScanPlan table.id idx.id lo hi)) [] ↔
      kv ∈ d.rows.entries ∧
        ∃ row ∈ d.tableRows table.id, leadsTo table idx lo hi row = some kv.1 := by
  rw [SqlStore.mem_fetchRows]
  have hlead : (∃ e ∈ d.engineScan (indexScanPlan table.id idx.id lo hi),
      SqlStore.entryRow table.id e = kv.1) ↔
      ∃ row ∈ d.tableRows table.id, leadsTo table idx lo hi row = some kv.1 := by
    constructor
    · rintro ⟨e, he, hk⟩
      obtain ⟨row, hrow, value, hv, rfl, hb⟩ := (mem_engineScan_index hc).1 he
      refine ⟨row, hrow, ?_⟩
      rw [SqlStore.entryRow, decodeIndexKeyPrefix_encodeIndexKey, Option.getD_some] at hk
      rw [leadsTo, hv, Option.bind_some, if_pos ⟨hlo, hb⟩, hk]
    · rintro ⟨row, hrow, hk⟩
      obtain ⟨value, hv, hk⟩ := Option.bind_eq_some_iff.1 hk
      split at hk
      · rename_i hb
        refine ⟨_, (mem_engineScan_index hc).2 ⟨row, hrow, value, hv, rfl, hb.2⟩, ?_⟩
        rw [SqlStore.entryRow, decodeIndexKeyPrefix_encodeIndexKey, Option.getD_some]
        exact Option.some.inj hk
      · cases hk
  rw [hlead]
  simp

/-! ## The statement -/

/-- The index that the planner takes for a clause, and its bounds. -/
def chosenIndex (d : SqlStore) (name : Bytes) (table : TableSchema)
    (w : Option (ExprNode rt)) : Option (IndexDef × Bytes × Bytes) :=
  match (w.map fun e => matchIndexWhere e d.catalog name).getD .none with
  | .none => none
  | .eq col value => (findLeadingIndex d.catalog table.name col).map fun idx => (idx, value, value)
  | .range col lo hi => (findLeadingIndex d.catalog table.name col).map fun idx => (idx, lo, hi)

/-- A SELECT returns the rows, or the failure, that it does without its index. -/
def SameRows (s : ShardEngine) (d : SqlStore) (name : Bytes) (table : TableSchema)
    (w : Option (ExprNode rt)) : Prop :=
  match d.selectScan s table name w, d.scanTable s table.id with
  | .ok rows, .ok all => (rows.filter (satisfies table w)).Perm (all.filter (satisfies table w))
  | .error _, .error _ => True
  | _, _ => False

/-- The scan of the table is refused. -/
def TableRefused (tableId : UInt32) : Prop := Nines tableId.toNat ∨ 2 ^ 32 ≤ tableId.toNat + 1

/-- The scan of the index is refused: its bounds are in order without their ends, and not with
them. -/
def IndexRefused (lo hi : Bytes) : Prop := ¬ hi < lo ∧ hi ++ [58, 255] < lo ++ [58]

/-- The rows that satisfy the clause are met by the scan of the table when an entry leads to them,
and only then. -/
def IndexFinds (d : SqlStore) (table : TableSchema) (w : Option (ExprNode rt)) (idx : IndexDef)
    (lo hi : Bytes) : Prop :=
  ∀ kv ∈ d.rows.entries, satisfies table w kv = true →
    ((∃ row ∈ d.tableRows table.id, leadsTo table idx lo hi row = some kv.1) ↔
      planMatches (tableScanPlan table.id) kv.1 = true ∧ isIndexEncodedKey kv.1 = false)

theorem selectScan_eq {name : Bytes} {w : Option (ExprNode rt)} {s : ShardEngine}
    (h : chosenIndex d name table w = some (idx, lo, hi)) :
    d.selectScan s table name w =
      if hi < lo then .ok [] else d.scanIndex s table idx lo hi := by
  unfold chosenIndex at h
  unfold SqlStore.selectScan
  cases hm : (w.map fun e => matchIndexWhere e d.catalog name).getD .none with
  | none =>
    simp only [hm] at h
    cases h
  | eq col value =>
    simp only [hm] at h
    obtain ⟨i, hfind, he⟩ := Option.map_eq_some_iff.1 h
    cases he
    simp only [hm, hfind, SqlStore.scanIndexEq, lt_irrefl, if_false]
  | range col lo' hi' =>
    simp only [hm] at h
    obtain ⟨i, hfind, he⟩ := Option.map_eq_some_iff.1 h
    cases he
    simp only [hm, hfind, SqlStore.scanIndexRange]

theorem prepare_indexScanPlan (s : ShardEngine) (tableId indexId : UInt32) (lo hi : Bytes) :
    s.prepare (indexScanPlan tableId indexId lo hi) = .ok () ↔
      ¬ hi ++ [58, 255] < lo ++ [58] := by
  have hprep : s.prepare (indexScanPlan tableId indexId lo hi) = .ok () ↔
      ¬ indexKeyFront tableId indexId ++ (hi ++ [58, 255]) <
        indexKeyFront tableId indexId ++ (lo ++ [58]) := by
    simp [ShardEngine.prepare, indexScanPlan]
  rw [hprep, append_lt_common_iff]

end Select

/-! ## A clause under NOT -/

/-- `CREATE INDEX x ON t (v)`. -/
def pairIndex : IndexDef := ⟨1, ascii "x", ascii "t", [ascii "v"], false⟩

/-- The rows `(a, b)` and `(b, c)` with their entries. -/
def indexedPairs : SqlStore where
  catalog := { pairStore.catalog with nextIndexId := 2 }.addIndex pairIndex
  rows := pairStore.rows.insertAll
    [(encodeIndexKey 1 1 (ascii "b") (ascii "a"), ascii "a"),
      (encodeIndexKey 1 1 (ascii "c") (ascii "b"), ascii "b")]

theorem indexedPairs_consistent : IndexConsistent indexedPairs pairTable pairIndex := by
  have h : indexedPairs.rows.entries.filter
      (fun e => (indexKeyFront pairTable.id pairIndex.id).isPrefixOf e.1) =
      indexEntries indexedPairs pairTable pairIndex := by decide +kernel
  intro e
  rw [h]

theorem not_tableRefused_one : ¬ TableRefused 1 := by
  rintro (⟨k, h⟩ | h)
  · have hone : decimal (1 : UInt32).toNat = [49] := by decide +kernel
    rw [hone, List.replicate_succ, List.cons.injEq] at h
    exact absurd h.1 (by decide)
  · exact absurd h (by decide)

/-- `v = 'b'` under NOT. -/
def otherValueClause : ExprNode wholeNumbers :=
  .binary .kEq (.column [] (ascii "v") false) (.literal (ascii "b") false) true

end EBTree.Sql
