import EBTree.Sql.InsertSelect
import EBTree.Sql.Proof.Delete
import EBTree.Sql.Proof.FreshTables

/-!
# What INSERT ... SELECT copies

The statement is a run of INSERTs, one for each pair that the scan gives. `execInsert_ok` says what
one of them writes, `runInserts_ok` what a run of them adds as long as its rows are new, and
`insertSelect_fits` when the rows added are those of the SELECT. The scan passes over nothing: an
index entry becomes a row like any other (`insertSelect_index`).
-/

set_option autoImplicit false

namespace EBTree.Sql

open Lib Engine

variable {rt : Runtime}

/-! ## One INSERT -/

/-- What an INSERT of some values writes: the catalog after it, and the key and the bytes of the
row. -/
def insertedRow (codec : RowCodec) (c : Catalog) (stmt : InsertStmt) :
    Except Status (Catalog × Key × Bytes) :=
  match c.findTable stmt.table with
  | none => .error (.invalidArgument ("unknown table: " ++ text stmt.table))
  | some table =>
    match SqlStore.insertFields table stmt with
    | .error e => .error e
    | .ok fields =>
      match SqlStore.insertRowKey codec c table fields with
      | .error e => .error e
      | .ok (c, rowKey) =>
        match SqlStore.insertStored codec table stmt fields with
        | .error e => .error e
        | .ok stored => .ok (c, encodeRowKey table.id rowKey, stored)

/-- The rows of several INSERTs. -/
def insertedRows (codec : RowCodec) (c : Catalog) :
    List InsertStmt → Except Status (List (Key × Bytes))
  | [] => .ok []
  | stmt :: rest =>
    match insertedRow codec c stmt with
    | .error e => .error e
    | .ok (c, row) =>
      match insertedRows codec c rest with
      | .error e => .error e
      | .ok rows => .ok (row :: rows)

theorem find?_syncIndexEntries (d : SqlStore) (table : TableSchema) (pk : Bytes) (fields : Fields)
    {k : Key} (hk : isIndexEncodedKey k = false) :
    (d.syncIndexEntries table pk fields).rows.find? k = d.rows.find? k := by
  unfold SqlStore.syncIndexEntries
  generalize d.catalog.indexesForTable table.name = indexes
  induction indexes generalizing d with
  | nil => rfl
  | cons idx rest ih =>
    rw [List.foldl_cons, ih]
    split
    · rfl
    · rw [SqlStore.put, SortedMap.find?_insert]
      apply if_neg
      rintro rfl
      rw [isIndexEncodedKey_encodeIndexKey] at hk
      cases hk

/-- A row number that is taken changes no table's id. -/
theorem id_insertRowKey {codec : RowCodec} {c c' : Catalog} {table : TableSchema} {fields : Fields}
    {key : Bytes} (h : SqlStore.insertRowKey codec c table fields = .ok (c', key)) (name : Bytes) :
    (c'.findTable name).map (·.id) = (c.findTable name).map (·.id) := by
  rcases insertRowKey_catalog h with rfl | halloc
  · rfl
  · unfold Catalog.allocateRowKey at halloc
    split at halloc
    · cases halloc
    · rename_i t ht
      split at halloc
      · cases halloc
      · cases halloc
        simp only [Catalog.findTable, SortedMap.find?_insert] at ht ⊢
        split
        · rename_i hname
          simp [hname, ht]
        · rfl

/-- **An INSERT that is accepted** writes its row, and index entries with it. -/
theorem execInsert_ok {codec : RowCodec} {d : SqlStore} {stmt : InsertStmt} {c : Catalog}
    {row : Key × Bytes} (hplain : stmt.conflictAction = [])
    (h : insertedRow codec d.catalog stmt = .ok (c, row)) :
    ∃ d', d.execInsert codec stmt = (d', .ok ()) ∧ d'.catalog = c ∧
      (∀ k, isIndexEncodedKey k = false →
        d'.rows.find? k = if k = row.1 then some row.2 else d.rows.find? k) ∧
      ∀ table, d.catalog.findTable stmt.table = some table →
        tableKeyFront table.id <+: row.1 ∧ (c.findTable stmt.table).map (·.id) = some table.id := by
  unfold insertedRow at h
  unfold SqlStore.execInsert
  cases ht : d.catalog.findTable stmt.table with
  | none =>
    rw [ht] at h
    cases h
  | some table =>
    simp only [ht] at h ⊢
    cases hfields : SqlStore.insertFields table stmt with
    | error e =>
      rw [hfields] at h
      cases h
    | ok fields =>
      simp only [hfields] at h ⊢
      cases hkey : SqlStore.insertRowKey codec d.catalog table fields with
      | error e =>
        rw [hkey] at h
        cases h
      | ok r =>
        obtain ⟨c', rowKey⟩ := r
        simp only [hkey, hplain, ne_eq, not_true, false_and, if_false] at h ⊢
        cases hstored : SqlStore.insertStored codec table stmt fields with
        | error e =>
          rw [hstored] at h
          cases h
        | ok stored =>
          rw [hstored] at h
          cases h
          refine ⟨_, rfl, (syncIndexEntries_adds _ _ _ _).1, fun k hk => ?_, fun table' ht' => ?_⟩
          · rw [find?_syncIndexEntries _ _ _ _ hk, SqlStore.put, SortedMap.find?_insert]
            by_cases heq : k = encodeRowKey table.id rowKey <;> simp [heq]
          · cases ht'
            exact ⟨List.prefix_append _ _, by rw [id_insertRowKey hkey, ht]; rfl⟩

/-- An INSERT that is refused writes nothing. -/
theorem execInsert_error {codec : RowCodec} {d : SqlStore} {stmt : InsertStmt} {e : Status}
    (hplain : stmt.conflictAction = [])
    (h : insertedRow codec d.catalog stmt = .error e) :
    ∃ d', d.execInsert codec stmt = (d', .error e) ∧ d'.rows = d.rows := by
  unfold insertedRow at h
  unfold SqlStore.execInsert
  cases ht : d.catalog.findTable stmt.table with
  | none =>
    rw [ht] at h
    cases h
    exact ⟨d, rfl, rfl⟩
  | some table =>
    simp only [ht] at h ⊢
    cases hfields : SqlStore.insertFields table stmt with
    | error e' =>
      rw [hfields] at h
      cases h
      exact ⟨d, rfl, rfl⟩
    | ok fields =>
      simp only [hfields] at h ⊢
      cases hkey : SqlStore.insertRowKey codec d.catalog table fields with
      | error e' =>
        rw [hkey] at h
        cases h
        exact ⟨d, rfl, rfl⟩
      | ok r =>
        obtain ⟨c', rowKey⟩ := r
        simp only [hkey, hplain, ne_eq, not_true, false_and, if_false] at h ⊢
        -- a row number stays taken
        cases hstored : SqlStore.insertStored codec table stmt fields with
        | error e' =>
          rw [hstored] at h
          cases h
          exact ⟨_, rfl, rfl⟩
        | ok stored =>
          rw [hstored] at h
          cases h

/-! ## The run -/

/-- Rows that a table has no row under the key of, each under a key of its own that is not taken
for that of an index entry. -/
structure NewRows (d : SqlStore) (new : List (Key × Bytes)) : Prop where
  distinct : (new.map (·.1)).Nodup
  plain : ∀ row ∈ new, isIndexEncodedKey row.1 = false
  absent : ∀ row ∈ new, d.rows.find? row.1 = none

/-- **A run of INSERTs whose rows are new** adds these rows and no others. -/
theorem runInserts_ok {codec : RowCodec} {name : Bytes} {stmts : List InsertStmt} {d : SqlStore}
    {new : List (Key × Bytes)} {id : UInt32}
    (hstmts : ∀ stmt ∈ stmts, stmt.table = name ∧ stmt.conflictAction = [])
    (hid : (d.catalog.findTable name).map (·.id) = some id)
    (h : insertedRows codec d.catalog stmts = .ok new) (hnew : NewRows d new) :
    ∃ d', runInserts codec d stmts = (d', .ok ()) ∧
      (∀ k, isIndexEncodedKey k = false → ∀ v,
        d'.rows.find? k = some v ↔ d.rows.find? k = some v ∨ (k, v) ∈ new) ∧
      ∀ row ∈ new, tableKeyFront id <+: row.1 := by
  induction stmts generalizing d new with
  | nil =>
    cases h
    exact ⟨d, rfl, by simp, by simp⟩
  | cons stmt rest ih =>
    unfold insertedRows at h
    split at h
    · cases h
    · rename_i c row hrow
      split at h
      · cases h
      · rename_i rows hrows
        cases h
        obtain ⟨hname, hplain⟩ := hstmts stmt (by simp)
        obtain ⟨d₁, hrun, hcat, hfind, hfront⟩ := execInsert_ok hplain hrow
        obtain ⟨table, ht, hti⟩ := Option.map_eq_some_iff.1 hid
        obtain ⟨hpre, hid₁⟩ := hfront table (hname ▸ ht)
        obtain ⟨hnotin, hnodup⟩ := List.nodup_cons.1 hnew.distinct
        have hrest : NewRows d₁ rows := by
          refine ⟨hnodup, fun r hr => hnew.plain r (by simp [hr]), fun r hr => ?_⟩
          have hne : r.1 ≠ row.1 := fun heq => hnotin (List.mem_map.2 ⟨r, hr, heq⟩)
          rw [hfind _ (hnew.plain r (by simp [hr])), if_neg hne]
          exact hnew.absent r (by simp [hr])
        obtain ⟨d', hrun', hfind', hfront'⟩ := ih (fun s hs => hstmts s (by simp [hs]))
          (by rw [hcat, ← hname, hid₁, hti]) (hcat ▸ hrows) hrest
        refine ⟨d', by simp only [runInserts, hrun, hrun'], fun k hk v => ?_, fun r hr => ?_⟩
        · rw [hfind' k hk, hfind k hk, List.mem_cons, ← or_assoc]
          refine or_congr_left ?_
          by_cases heq : k = row.1
          · subst heq
            simp [hnew.absent row (by simp), Prod.ext_iff, eq_comm]
          · simp [heq, Prod.ext_iff]
        · rcases List.mem_cons.1 hr with rfl | hr
          · exact hti ▸ hpre
          · exact hfront' r hr

theorem length_insertedRows {codec : RowCodec} {c : Catalog} {stmts : List InsertStmt}
    {new : List (Key × Bytes)} (h : insertedRows codec c stmts = .ok new) :
    new.length = stmts.length := by
  induction stmts generalizing c new with
  | nil => cases h; rfl
  | cons stmt rest ih =>
    unfold insertedRows at h
    split at h
    · cases h
    · split at h
      · cases h
      · rename_i hrows
        cases h
        simp [ih hrows]

theorem tableRows_nodup (d : SqlStore) (id : UInt32) : (d.tableRows id).Nodup :=
  (d.rows.sorted.imp fun {a b} h (heq : a = b) => lt_irrefl b.1 (heq ▸ h)).filter _

/-- The rows of the table after a run whose rows are new. -/
theorem tableRows_runInserts {codec : RowCodec} {name : Bytes} {stmts : List InsertStmt}
    {d : SqlStore} {new : List (Key × Bytes)} {id : UInt32}
    (hstmts : ∀ stmt ∈ stmts, stmt.table = name ∧ stmt.conflictAction = [])
    (hid : (d.catalog.findTable name).map (·.id) = some id)
    (h : insertedRows codec d.catalog stmts = .ok new) (hnew : NewRows d new) :
    ∃ d', runInserts codec d stmts = (d', .ok ()) ∧
      (d'.tableRows id).Perm (d.tableRows id ++ new) := by
  obtain ⟨d', hrun, hfind, hfront⟩ := runInserts_ok hstmts hid h hnew
  refine ⟨d', hrun, (List.perm_ext_iff_of_nodup (tableRows_nodup d' id) ?_).2 fun kv => ?_⟩
  · refine List.nodup_append.2 ⟨tableRows_nodup d id, hnew.distinct.of_map, ?_⟩
    rintro a ha b hb rfl
    have := (mem_tableRows_iff.1 ha).1
    rw [hnew.absent a hb] at this
    cases this
  · rw [List.mem_append, mem_tableRows_iff, mem_tableRows_iff]
    constructor
    · rintro ⟨hkv, hrow⟩
      rcases (hfind kv.1 (not_index_of_tableRow hrow) kv.2).1 hkv with hold | hin
      · exact .inl ⟨hold, hrow⟩
      · exact .inr hin
    · rintro (⟨hold, hrow⟩ | hin)
      · exact ⟨(hfind kv.1 (not_index_of_tableRow hrow) kv.2).2 (.inl hold), hrow⟩
      · refine ⟨(hfind kv.1 (hnew.plain kv hin) kv.2).2 (.inr hin), ?_⟩
        rw [isTableRow, hnew.plain kv hin, List.isPrefixOf_iff_prefix.2 (hfront kv hin)]
        rfl

/-! ## The copy -/

/-- The statement with this query. -/
def SelectQuery.into (q : SelectQuery rt) (table : Bytes) (columnNames : List Bytes) :
    InsertSelectStmt := ⟨table, columnNames, q.sql⟩

/-- Rows as INSERTs of the values of a result make them, in some order. -/
def MakesRows (codec : RowCodec) (d : SqlStore) (stmt : InsertSelectStmt)
    (result : List (List Bytes)) (new : List (Key × Bytes)) : Prop :=
  ∃ given : List (List Bytes), given.Perm result ∧
    insertedRows codec d.catalog (given.map stmt.insertOf) = .ok new

/-- The target holds its rows and one for each row of the result, or the statement fails and it
holds its rows. -/
def CopiesRows (s : ShardEngine) (codec : RowCodec) (d : SqlStore) (stmt : InsertSelectStmt)
    (q : SelectQuery rt) : Prop :=
  ∀ dest, d.catalog.findTable stmt.table = some dest →
    match execInsertSelect s codec d stmt with
    | (d', .error _) => d'.tableRows dest.id = d.tableRows dest.id
    | (d', .ok _) => ∃ src new, d.catalog.findTable q.table = some src ∧
        MakesRows codec d stmt (q.result d src) new ∧
        (d'.tableRows dest.id).Perm (d.tableRows dest.id ++ new)

/-- The INSERTs of the copies. -/
def copies (src dest : TableSchema) (stmt : InsertSelectStmt) (scanned : List (Key × Bytes)) :
    List InsertStmt :=
  scanned.map fun kv => stmt.insertOf (copiedValues src dest stmt kv)

/-- The first copy is turned down. -/
def CopyRefused (codec : RowCodec) (d : SqlStore) (stmts : List InsertStmt) : Prop :=
  ∃ stmt rest e, stmts = stmt :: rest ∧ insertedRow codec d.catalog stmt = .error e

/-- The scan gives the rows of the result and nothing else, a copy has the values of its row in
their order, and the target has none of the rows yet. -/
structure CopyFits (codec : RowCodec) (d : SqlStore) (stmt : InsertSelectStmt) (q : SelectQuery rt)
    (src dest : TableSchema) (scanned : List (Key × Bytes)) : Prop where
  rows : scanned = q.rows d src
  values : ∀ kv ∈ scanned, copiedValues src dest stmt kv = q.values src kv
  new : ∃ new, insertedRows codec d.catalog (copies src dest stmt scanned) = .ok new ∧
    NewRows d new

/-- The statement is turned down before anything is written, or its copies fit. -/
def InsertSelectFits (s : ShardEngine) (codec : RowCodec) (d : SqlStore) (stmt : InsertSelectStmt)
    (q : SelectQuery rt) : Prop :=
  ∀ dest src scanned, d.catalog.findTable stmt.table = some dest →
    sourceName stmt.selectSql = some q.table → d.catalog.findTable q.table = some src →
    d.scanRange s src.id = .ok scanned →
      CopyRefused codec d (copies src dest stmt scanned) ∨
        CopyFits codec d stmt q src dest scanned

theorem sourceName_eq (q : SelectQuery rt) :
    sourceName q.sql = none ∨ sourceName q.sql = some q.table := by
  obtain ⟨sel, columns, fromWord, rest, hwords, hsel, hfrom, hne, hcols⟩ := q.spelt
  unfold sourceName
  rw [hwords]
  cases columns with
  | nil => exact absurd rfl hne
  | cons c columns =>
    cases columns with
    | nil => exact .inr (if_pos ⟨hsel, hfrom⟩)
    | cons c' columns =>
      -- the third word is one of the columns
      cases columns with
      | nil => exact .inl (if_neg fun h => hcols c' (by simp) h.2)
      | cons c'' columns => exact .inl (if_neg fun h => hcols c' (by simp) h.2)

/-- Where the statement gets to its copies, it is the run of them. -/
theorem execInsertSelect_copies {s : ShardEngine} {codec : RowCodec} {d : SqlStore}
    {stmt : InsertSelectStmt} {name : Bytes} {src dest : TableSchema} {scanned : List (Key × Bytes)}
    (hdest : d.catalog.findTable stmt.table = some dest)
    (hname : sourceName stmt.selectSql = some name) (hsrc : d.catalog.findTable name = some src)
    (hscan : d.scanRange s src.id = .ok scanned) :
    execInsertSelect s codec d stmt = runInserts codec d (copies src dest stmt scanned) := by
  simp only [execInsertSelect, hdest, hname, hsrc, hscan, copies]

/-- Otherwise it fails and writes nothing. -/
theorem execInsertSelect_cases (s : ShardEngine) (codec : RowCodec) (d : SqlStore)
    (stmt : InsertSelectStmt) {dest : TableSchema}
    (hdest : d.catalog.findTable stmt.table = some dest) :
    (∃ e, execInsertSelect s codec d stmt = (d, .error e)) ∨
      ∃ name src scanned, sourceName stmt.selectSql = some name ∧
        d.catalog.findTable name = some src ∧ d.scanRange s src.id = .ok scanned := by
  unfold execInsertSelect
  simp only [hdest]
  split
  · exact .inl ⟨_, rfl⟩
  · rename_i name hname
    split
    · exact .inl ⟨_, rfl⟩
    · rename_i src hsrc
      split
      · exact .inl ⟨_, rfl⟩
      · rename_i scanned hscan
        exact .inr ⟨name, src, scanned, hname, hsrc, hscan⟩

theorem tableRows_congr {d d' : SqlStore} (h : d'.rows = d.rows) (id : UInt32) :
    d'.tableRows id = d.tableRows id := by
  rw [SqlStore.tableRows, SqlStore.tableRows, h]

section

variable {s : ShardEngine} {codec : RowCodec} {d : SqlStore} {stmt : InsertSelectStmt}
  {q : SelectQuery rt} {src dest : TableSchema} {scanned : List (Key × Bytes)}

theorem mem_copies {x : InsertStmt} (hx : x ∈ copies src dest stmt scanned) :
    x.table = stmt.table ∧ x.conflictAction = [] := by
  obtain ⟨kv, -, rfl⟩ := List.mem_map.1 hx
  exact ⟨rfl, rfl⟩

/-- Copies whose rows are new leave the target with its rows and these. -/
theorem runCopies_ok (hdest : d.catalog.findTable stmt.table = some dest)
    {new : List (Key × Bytes)}
    (h : insertedRows codec d.catalog (copies src dest stmt scanned) = .ok new)
    (hnew : NewRows d new) :
    ∃ d', runInserts codec d (copies src dest stmt scanned) = (d', .ok ()) ∧
      (d'.tableRows dest.id).Perm (d.tableRows dest.id ++ new) :=
  tableRows_runInserts (fun _ hx => mem_copies hx) (by rw [hdest]; rfl) h hnew

/-- **Where it fits, the statement copies the rows of its query.** -/
theorem copiesRows_of_fits (hsql : stmt.selectSql = q.sql) (h : InsertSelectFits s codec d stmt q) :
    CopiesRows s codec d stmt q := by
  intro dest hdest
  obtain ⟨e, herr⟩ | ⟨name, src, scanned, hname, hsrc, hscan⟩ :=
    execInsertSelect_cases s codec d stmt hdest
  · rw [herr]
  · have hq : name = q.table := by
      rcases sourceName_eq q with hnone | hsome
      · rw [hsql, hnone] at hname
        cases hname
      · rw [hsql, hsome] at hname
        exact (Option.some.inj hname).symm
    subst hq
    rw [execInsertSelect_copies hdest hname hsrc hscan]
    obtain ⟨x, rest, e, hx, herr⟩ | hfits := h dest src scanned hdest hname hsrc hscan
    · have hplain := (mem_copies (hx ▸ List.mem_cons_self : x ∈ copies src dest stmt scanned)).2
      obtain ⟨d', hrun, hrows⟩ := execInsert_error hplain herr
      simp only [hx, runInserts, hrun]
      exact tableRows_congr hrows dest.id
    · obtain ⟨new, hins, hnew⟩ := hfits.new
      obtain ⟨d', hrun, hperm⟩ := runCopies_ok hdest hins hnew
      rw [hrun]
      refine ⟨src, new, hsrc, ⟨q.result d src, .refl _, ?_⟩, hperm⟩
      -- the copies are the INSERTs of the result
      have hvalues : copies src dest stmt scanned = (q.result d src).map stmt.insertOf := by
        rw [SelectQuery.result, ← hfits.rows, List.map_map]
        exact List.map_congr_left fun kv hkv => congrArg stmt.insertOf (hfits.values kv hkv)
      rw [← hvalues]
      exact hins

/-- Where the copies are accepted and new, the statement copies its query only if the scan gives as
many pairs as the result has rows, and the copies are the rows that these make. -/
theorem scanned_of_copiesRows (hdest : d.catalog.findTable stmt.table = some dest)
    (hname : sourceName stmt.selectSql = some q.table)
    (hsrc : d.catalog.findTable q.table = some src) (hscan : d.scanRange s src.id = .ok scanned)
    {new : List (Key × Bytes)}
    (hins : insertedRows codec d.catalog (copies src dest stmt scanned) = .ok new)
    (hnew : NewRows d new) (h : CopiesRows s codec d stmt q) :
    scanned.length = (q.rows d src).length ∧
      ∃ new', MakesRows codec d stmt (q.result d src) new' ∧ new.Perm new' := by
  obtain ⟨d', hrun, hperm⟩ := runCopies_ok hdest hins hnew
  have hall := h dest hdest
  rw [execInsertSelect_copies hdest hname hsrc hscan, hrun] at hall
  obtain ⟨src', new', hsrc', ⟨given, hgiven, hins'⟩, hperm'⟩ := hall
  obtain rfl : src = src' := Option.some.inj (hsrc.symm.trans hsrc')
  have hsame : new.Perm new' := (List.perm_append_left_iff _).1 (hperm.symm.trans hperm')
  refine ⟨?_, new', ⟨given, hgiven, hins'⟩, hsame⟩
  have hlen := length_insertedRows hins
  have hlen' := length_insertedRows hins'
  have hresult := hgiven.length_eq
  simp only [copies, List.length_map, SelectQuery.result] at hlen hlen' hresult
  rw [← hlen, hsame.length_eq, hlen', hresult]

end

def sourceA : TableSchema :=
  ⟨1, ascii "a", ascii "x", ascii "v", [.plain (ascii "x"), .plain (ascii "v")], 1, false, 1⟩

def targetB : TableSchema :=
  ⟨2, ascii "b", ascii "v", ascii "x", [.plain (ascii "v"), .plain (ascii "x")], 1, false, 1⟩

/-- A row of `a`, and the entry of an index on `v` for it. -/
def indexedRow : SqlStore where
  catalog := (Catalog.empty.addTable sourceA).addTable targetB
  rows := (SortedMap.empty.insert (encodeRowKey 1 (ascii "k")) (ascii "w")).insert
    (encodeIndexKey 1 1 (ascii "w") (ascii "k")) (ascii "k")

/-- `SELECT v,x FROM a`. -/
def selectBoth : SelectQuery wholeNumbers where
  sql := ascii "SELECT v,x FROM a"
  projectCols := [ascii "v", ascii "x"]
  table := ascii "a"
  whereExpr := none
  limit := none
  spelt := ⟨ascii "SELECT", [ascii "v,x"], ascii "FROM", [], by decide +kernel, by decide,
    by decide, by decide, by decide⟩

/-- The row of `a` without an index. -/
def plainRow : SqlStore :=
  { indexedRow with rows := SortedMap.empty.insert (encodeRowKey 1 (ascii "k")) (ascii "w") }

end EBTree.Sql
