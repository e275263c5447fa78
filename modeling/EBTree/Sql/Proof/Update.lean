import EBTree.Sql.Proof.IndexScan
import EBTree.Sql.Update

/-!
# What UPDATE updates

* `decodeRowFields_encode`: a binary row reads back, where its lengths fit.
* `assignScanned_ok`, `assignPoint_ok`: assignments that read what the row was give the row they ask
  for.
* `writeUpdated_ok`, `updateRows_ok`: a row that is written, and the loop over the rows.
* `update_exact`: when an UPDATE is exact, or changes nothing.
-/

set_option autoImplicit false

namespace EBTree.Sql

open Lib Engine
open BTree (TypedPlan planMatches)

/-! ## Binary rows -/

theorem readU32_appendU32 (v : UInt32) (s : Bytes) :
    readU32 (appendU32 v ++ s) = some (v.toNat, s) := by
  have hv := v.toNat_lt
  simp only [appendU32, List.cons_append, List.nil_append, readU32, Option.some.injEq,
    Prod.mk.injEq, and_true, UInt32.toNat_toUInt8, UInt32.toNat_shiftRight]
  simp only [Nat.shiftRight_eq_div_pow, UInt32.reduceToNat, Nat.reduceMod, Nat.reducePow]
  omega

/-- The bytes of one field. -/
def fieldBytes (e : Bytes × Bytes) : Bytes :=
  appendU32 (UInt32.ofNat e.1.length) ++ e.1 ++ (appendU32 (UInt32.ofNat e.2.length) ++ e.2)

/-- The lengths of a row fit the four bytes they are stored in. -/
def FitsRow (f : Fields) : Prop :=
  f.entries.length < 2 ^ 32 ∧ ∀ e ∈ f.entries, e.1.length < 2 ^ 32 ∧ e.2.length < 2 ^ 32

theorem toNat_ofNat_of_fits {n : Nat} (h : n < 2 ^ 32) : (UInt32.ofNat n).toNat = n := by
  rw [UInt32.toNat_ofNat']
  exact Nat.mod_eq_of_lt h

theorem decodeEntries_fieldBytes {es : List (Bytes × Bytes)}
    (hf : ∀ e ∈ es, e.1.length < 2 ^ 32 ∧ e.2.length < 2 ^ 32) (out : Fields) :
    decodeEntries es.length (es.flatMap fieldBytes) out = (out.insertAll es, .ok ()) := by
  induction es generalizing out with
  | nil => rfl
  | cons e es ih =>
    obtain ⟨h1, h2⟩ := hf e List.mem_cons_self
    have hname : (e :: es).flatMap fieldBytes = appendU32 (UInt32.ofNat e.1.length) ++
        (e.1 ++ (appendU32 (UInt32.ofNat e.2.length) ++ (e.2 ++ es.flatMap fieldBytes))) := by
      simp [fieldBytes]
    rw [List.length_cons, hname]
    unfold decodeEntries
    rw [readU32_appendU32, toNat_ofNat_of_fits h1]
    simp only [List.length_append, List.drop_left', List.take_left', readU32_appendU32,
      toNat_ofNat_of_fits h2]
    rw [if_neg (by omega), if_neg (by omega)]
    exact ih (fun e' he' => hf e' (List.mem_cons_of_mem _ he')) _

/-- **A binary row reads back.** -/
theorem decodeRowFields_encode {f : Fields} (hf : FitsRow f) :
    isBinaryRow (encodeRowBinary (f.entries.map fun e => .plain e.1) f) = true ∧
      decodeRowFields (encodeRowBinary (f.entries.map fun e => .plain e.1) f) = (f, .ok ()) := by
  have hbytes : encodeRowBinary (f.entries.map fun e => .plain e.1) f =
      kBinaryMagic ++ (appendU32 (UInt32.ofNat f.entries.length) ++
        f.entries.flatMap fieldBytes) := by
    rw [encodeRowBinary, List.length_map, List.append_assoc, List.flatMap_map]
    congr 2
    apply List.flatMap_congr
    intro e he
    have hfind : f.find? (ColumnDef.plain e.1).name = some e.2 := SortedMap.mem_entries_iff.1 he
    simp only [hfind]
    rfl
  have hbinary : isBinaryRow (kBinaryMagic ++ (appendU32 (UInt32.ofNat f.entries.length) ++
      f.entries.flatMap fieldBytes)) = true := by
    rw [isBinaryRow, List.isPrefixOf_iff_prefix]
    exact List.prefix_append _ _
  rw [hbytes]
  refine ⟨hbinary, ?_⟩
  rw [decodeRowFields, if_pos hbinary, decodeRowBinary]
  have hdrop : (kBinaryMagic ++ (appendU32 (UInt32.ofNat f.entries.length) ++
      f.entries.flatMap fieldBytes)).drop 4 = appendU32 (UInt32.ofNat f.entries.length) ++
        f.entries.flatMap fieldBytes := rfl
  rw [hdrop, readU32_appendU32, toNat_ofNat_of_fits hf.1]
  simp only [decodeEntries_fieldBytes hf.2]
  rw [SortedMap.insertAll_eq fun e => Iff.rfl]

theorem updateRowFields_binary {stored col value : Bytes} {f : Fields}
    (hb : isBinaryRow stored = true) (hd : decodeRowFields stored = (f, .ok ()))
    (hf : FitsRow (f.insert col value)) :
    ∃ stored', updateRowFields stored col value = .ok stored' ∧ isBinaryRow stored' = true ∧
      decodeRowFields stored' = (f.insert col value, .ok ()) := by
  obtain ⟨hb', hd'⟩ := decodeRowFields_encode hf
  refine ⟨_, ?_, hb', hd'⟩
  simp only [updateRowFields, hd, hb, if_true]

/-! ## Assignments -/

section

variable {rt : Runtime} {table : TableSchema}

/-- Each expression gives, on the row as the assignments before it left it, what it gives on the row
as it was, and the lengths keep fitting. -/
def ReadsOld (table : TableSchema) (old : ExprNode rt → Bytes) :
    List (Bytes × ExprNode rt) → Fields → Fields → Prop
  | [], _, _ => True
  | (col, expr) :: rest, row, working =>
    evalScalar table working expr = old expr ∧ FitsRow (row.insert col (old expr)) ∧
      ReadsOld table old rest (row.insert col (old expr)) (working.insert col (old expr))

/-- The new values of the assigned columns. -/
def newValues (old : ExprNode rt → Bytes) (assignments : List (Bytes × ExprNode rt)) :
    List (Bytes × Bytes) := assignments.map fun a => (a.1, old a.2)

theorem assignScanned_ok {old : ExprNode rt → Bytes} (hv : 2 ≤ table.schemaVersion)
    {assignments : List (Bytes × ExprNode rt)} {stored : Bytes} {row working : Fields}
    (hb : isBinaryRow stored = true) (hd : decodeRowFields stored = (row, .ok ()))
    (hr : ReadsOld table old assignments row working) :
    ∃ stored', assignScanned table assignments stored working =
        .ok (stored', working.insertAll (newValues old assignments)) ∧
      decodeRowFields stored' = (row.insertAll (newValues old assignments), .ok ()) := by
  induction assignments generalizing stored row working with
  | nil => exact ⟨stored, rfl, hd⟩
  | cons x rest ih =>
    obtain ⟨col, expr⟩ := x
    obtain ⟨hold, hfits, hrest⟩ := hr
    obtain ⟨stored1, hu, hb1, hd1⟩ := updateRowFields_binary hb hd hfits
    obtain ⟨stored', hrun, hd'⟩ := ih hb1 hd1 hrest
    refine ⟨stored', ?_, hd'⟩
    unfold assignScanned
    simp only [if_pos hv, hold, hu]
    exact hrun

theorem isBinaryRow_ne_nil {stored : Bytes} (hb : isBinaryRow stored = true) : stored ≠ [] := by
  rintro rfl
  cases hb

theorem assignPoint_ok {old : ExprNode rt → Bytes} (hv : 2 ≤ table.schemaVersion) (key : Bytes)
    {assignments : List (Bytes × ExprNode rt)} {stored : Bytes} {row working : Fields}
    (hb : isBinaryRow stored = true) (hd : decodeRowFields stored = (row, .ok ()))
    (hr : ReadsOld table old assignments row working) :
    ∃ stored', assignPoint table key assignments stored working =
        .ok (stored', working.insertAll (newValues old assignments)) ∧
      decodeRowFields stored' = (row.insertAll (newValues old assignments), .ok ()) := by
  induction assignments generalizing stored row working with
  | nil => exact ⟨stored, rfl, hd⟩
  | cons x rest ih =>
    obtain ⟨col, expr⟩ := x
    obtain ⟨hold, hfits, hrest⟩ := hr
    obtain ⟨stored1, hu, hb1, hd1⟩ := updateRowFields_binary hb hd hfits
    obtain ⟨stored', hrun, hd'⟩ := ih hb1 hd1 hrest
    refine ⟨stored', ?_, hd'⟩
    unfold assignPoint
    simp only [if_pos hv, hold, hu, if_neg (isBinaryRow_ne_nil hb)]
    exact hrun

/-! ## Values that are put in -/

theorem find?_insertAll_of_not_mem {l : List (Bytes × Bytes)} {col : Bytes}
    (h : col ∉ l.map (·.1)) (f : Fields) : (f.insertAll l).find? col = f.find? col := by
  induction l generalizing f with
  | nil => rfl
  | cons x l ih =>
    rw [List.map_cons, List.mem_cons, not_or] at h
    change ((f.insert x.1 x.2).insertAll l).find? col = _
    rw [ih h.2, SortedMap.find?_insert]
    exact if_neg h.1

theorem find?_insertAll_of_mem {l : List (Bytes × Bytes)} (hn : (l.map (·.1)).Nodup)
    {x : Bytes × Bytes} (hx : x ∈ l) (f : Fields) : (f.insertAll l).find? x.1 = some x.2 := by
  induction l generalizing f with
  | nil => cases hx
  | cons y l ih =>
    rw [List.map_cons, List.nodup_cons] at hn
    change ((f.insert y.1 y.2).insertAll l).find? x.1 = _
    rcases List.mem_cons.1 hx with rfl | hx
    · rw [find?_insertAll_of_not_mem hn.1, SortedMap.find?_insert]
      exact if_pos rfl
    · exact ih hn.2 hx _

theorem map_addAssignment (l : List (Bytes × ExprNode rt)) (a : Bytes × ExprNode rt) :
    (addAssignment l a).map (·.1) = l.map (·.1) ∨
      (a.1 ∉ l.map (·.1) ∧ (addAssignment l a).map (·.1) = l.map (·.1) ++ [a.1]) := by
  induction l with
  | nil => exact .inr ⟨by simp, rfl⟩
  | cons b l ih =>
    unfold addAssignment
    split
    · rename_i hb
      exact .inl (by simp [hb])
    · rename_i hb
      rcases ih with ih | ⟨hn, ih⟩
      · exact .inl (by simp [ih])
      · refine .inr ⟨?_, by simp [ih]⟩
        rw [List.map_cons, List.mem_cons, not_or]
        exact ⟨fun h => hb h.symm, hn⟩

/-- **The columns that are assigned** are different. -/
theorem parseUpdate_nodup (name : Bytes) (first : Bytes × ExprNode rt)
    (more : List (Bytes × ExprNode rt)) (w : Option (ExprNode rt)) :
    ((parseUpdate name first more w).assignments.map (·.1)).Nodup := by
  have hfold : ∀ (more l : List (Bytes × ExprNode rt)), (l.map (·.1)).Nodup →
      ((more.foldl addAssignment l).map (·.1)).Nodup := by
    intro more
    induction more with
    | nil => exact fun l h => h
    | cons a more ih =>
      intro l hl
      apply ih
      rcases map_addAssignment l a with he | ⟨hn, he⟩
      · rw [he]
        exact hl
      · rw [he]
        exact List.nodup_append'.2 ⟨hl, List.nodup_singleton _, by simpa using hn⟩
  exact hfold more [first] (by simp)

end

/-! ## Writing a row -/

open SqlStore

/-- No write fails. -/
def WritesSucceed (a : UpdateAnswers) : Prop :=
  (∀ k, a.put k = .ok ()) ∧ ∀ k, a.appendPut k = .ok ()

/-- The stores have the same under every key that is not of an index entry, and under one of these
something of its own. -/
def SameBut (d d' : SqlStore) (k : Key) (v : Option Bytes) : Prop :=
  d'.rows.find? k = v ∧
    ∀ k', isIndexEncodedKey k' = false → k' ≠ k → d'.rows.find? k' = d.rows.find? k'

theorem putIndexEntries_ok {a : UpdateAnswers} (ha : WritesSucceed a) (table : TableSchema)
    (pk : Bytes) (fields : Fields) (indexes : List IndexDef) (d : SqlStore) :
    ∃ d', putIndexEntries a table pk fields d indexes = (d', .ok ()) ∧
      ∀ k, isIndexEncodedKey k = false → d'.rows.find? k = d.rows.find? k := by
  induction indexes generalizing d with
  | nil => exact ⟨d, rfl, fun _ _ => rfl⟩
  | cons idx rest ih =>
    unfold putIndexEntries
    split
    · exact ih d
    · rename_i value _
      simp only [ha.1]
      obtain ⟨d', hrun, hsame⟩ := ih (d.put (encodeIndexKey table.id idx.id value pk) pk)
      refine ⟨d', hrun, fun k hk => ?_⟩
      rw [hsame k hk, SqlStore.put, SortedMap.find?_insert]
      apply if_neg
      rintro rfl
      rw [isIndexEncodedKey_encodeIndexKey] at hk
      cases hk

/-- **A row is written**, and nothing but index entries with it. -/
theorem writeUpdated_ok {a : UpdateAnswers} (ha : WritesSucceed a) (table : TableSchema)
    (pk : Bytes) (d : SqlStore) {encoded : Key} (hk : isIndexEncodedKey encoded = false)
    (stored : Bytes) (indexFields : Fields) :
    ∃ d', writeUpdated a table pk d encoded stored indexFields = (d', .ok ()) ∧
      SameBut d d' encoded (some stored) := by
  obtain ⟨d', hrun, hsame⟩ := putIndexEntries_ok ha table pk indexFields
    (d.catalog.indexesForTable table.name) (d.put encoded stored)
  refine ⟨d', ?_, ?_, fun k hi hne => ?_⟩
  · unfold writeUpdated
    simp only [ha.1, hrun, ha.2]
  · rw [hsame _ hk, SqlStore.put, SortedMap.find?_insert]
    exact if_pos rfl
  · rw [hsame _ hi, SqlStore.put, SortedMap.find?_insert]
    exact if_neg hne

/-! ## The loop -/

section

variable {rt : Runtime} {a : UpdateAnswers} {table : TableSchema} {stmt : UpdateStmt rt}

/-- The values that the expressions have on the row as it is stored. -/
def oldValue (table : TableSchema) (kv : Key × Bytes) : ExprNode rt → Bytes :=
  evalScalar table (storedFields table kv)

/-- The row under the key has the new values, and the others as they were. -/
def NewRow (table : TableSchema) (stmt : UpdateStmt rt) (kv : Key × Bytes) (raw : Bytes) : Prop :=
  decodeRowFields raw = ((decodeRowFields kv.2).1.insertAll
    (newValues (oldValue table kv) stmt.assignments), .ok ())

/-- A binary record whose assignments read the row as it was, from the fields they start with, and
which the constraints let pass. -/
structure RowSafe (a : UpdateAnswers) (table : TableSchema) (stmt : UpdateStmt rt)
    (kv : Key × Bytes) (working : Fields) : Prop where
  binary : isBinaryRow kv.2 = true
  intact : (decodeRowFields kv.2).2 = .ok ()
  reads : ReadsOld table (oldValue table kv) stmt.assignments (decodeRowFields kv.2).1 working
  valid : a.validate table (working.insertAll (newValues (oldValue table kv) stmt.assignments)) =
    .ok ()

/-- The row is turned down before anything is written. -/
def RowRefused (a : UpdateAnswers) (table : TableSchema) (k : Key)
    (assigned : Except Status (Bytes × Fields)) : Prop :=
  match assigned with
  | .error _ => True
  | .ok (_, working) => (∃ e, a.validate table working = .error e) ∨ ∃ e, a.put k = .error e

theorem updateScanned_ok (ha : WritesSucceed a) (hv : 2 ≤ table.schemaVersion) (d : SqlStore)
    {kv : Key × Bytes} (hk : isIndexEncodedKey kv.1 = false)
    (hs : RowSafe a table stmt kv (updateFields table kv)) :
    ∃ d' raw, updateScanned a table stmt.assignments d kv = (d', .ok ()) ∧
      SameBut d d' kv.1 (some raw) ∧ NewRow table stmt kv raw := by
  have hd : decodeRowFields kv.2 = ((decodeRowFields kv.2).1, .ok ()) := Prod.ext rfl hs.intact
  obtain ⟨raw, hassign, hnew⟩ := assignScanned_ok hv hs.binary hd hs.reads
  unfold updateScanned
  simp only [hassign, hs.valid]
  obtain ⟨d', hrun, hsame⟩ := writeUpdated_ok ha table ((decodeRowKey kv.1).getD kv.1) d hk raw
    (if (decodeRowFields raw).1.isEmpty then (updateFields table kv).insertAll
      (newValues (oldValue table kv) stmt.assignments) else (decodeRowFields raw).1)
  exact ⟨d', raw, hrun, hsame, hnew⟩

/-- **The loop**: the rows that match are rewritten, the others are left. -/
theorem updateRows_ok (ha : WritesSucceed a) (hv : 2 ≤ table.schemaVersion)
    {rows : List (Key × Bytes)} (hidx : ∀ kv ∈ rows, isIndexEncodedKey kv.1 = false)
    (hnd : (rows.map (·.1)).Nodup)
    (hsafe : ∀ kv ∈ rows, matched table stmt kv = true →
      RowSafe a table stmt kv (updateFields table kv)) (d : SqlStore) :
    ∃ d', updateRows a table stmt d rows = (d', .ok ()) ∧
      (∀ k, isIndexEncodedKey k = false → k ∉ rows.map (·.1) →
        d'.rows.find? k = d.rows.find? k) ∧
      ∀ kv ∈ rows, if matched table stmt kv then
        ∃ raw, d'.rows.find? kv.1 = some raw ∧ NewRow table stmt kv raw
        else d'.rows.find? kv.1 = d.rows.find? kv.1 := by
  induction rows generalizing d with
  | nil => exact ⟨d, rfl, fun _ _ _ => rfl, fun kv h => by cases h⟩
  | cons kv rows ih =>
    rw [List.map_cons, List.nodup_cons] at hnd
    have hk := hidx kv List.mem_cons_self
    have hrest : ∀ x ∈ rows, x.1 ≠ kv.1 := fun x hx he =>
      hnd.1 (he ▸ List.mem_map_of_mem (f := (·.1)) hx)
    have ih := ih (fun x hx => hidx x (List.mem_cons_of_mem _ hx)) hnd.2
      (fun x hx => hsafe x (List.mem_cons_of_mem _ hx))
    unfold updateRows
    by_cases hm : matched table stmt kv = true
    · obtain ⟨d1, raw, hrun1, ⟨hnew, hsame1⟩, hrow⟩ := updateScanned_ok ha hv d hk
        (hsafe kv List.mem_cons_self hm)
      obtain ⟨d', hrun, hother, hrows⟩ := ih d1
      rw [if_pos hm]
      simp only [hrun1]
      refine ⟨d', hrun, fun k hi hn => ?_, fun x hx => ?_⟩
      · rw [List.map_cons, List.mem_cons, not_or] at hn
        rw [hother k hi hn.2, hsame1 k hi hn.1]
      · rcases List.mem_cons.1 hx with rfl | hx
        · rw [if_pos hm]
          exact ⟨raw, by rw [hother _ hk hnd.1, hnew], hrow⟩
        · have hx' := hrows x hx
          rwa [hsame1 x.1 (hidx x (List.mem_cons_of_mem _ hx)) (hrest x hx)] at hx'
    · obtain ⟨d', hrun, hother, hrows⟩ := ih d
      rw [if_neg hm]
      refine ⟨d', hrun, fun k hi hn => ?_, fun x hx => ?_⟩
      · rw [List.map_cons, List.mem_cons, not_or] at hn
        exact hother k hi hn.2
      · rcases List.mem_cons.1 hx with rfl | hx
        · rw [if_neg hm]
          exact hother _ hk hnd.1
        · exact hrows x hx

/-- The first row that matches is turned down. -/
def FirstRefused (a : UpdateAnswers) (table : TableSchema) (stmt : UpdateStmt rt)
    (rows : List (Key × Bytes)) : Prop :=
  ∃ before kv behind, rows = before ++ kv :: behind ∧
    (∀ x ∈ before, matched table stmt x = false) ∧ matched table stmt kv = true ∧
    RowRefused a table kv.1 (assignScanned table stmt.assignments kv.2 (updateFields table kv))

theorem updateRows_refused {rows : List (Key × Bytes)} (hr : FirstRefused a table stmt rows)
    (d : SqlStore) : ∃ e, updateRows a table stmt d rows = (d, .error e) := by
  obtain ⟨before, kv, behind, rfl, hbefore, hm, hrow⟩ := hr
  induction before with
  | nil =>
    rw [List.nil_append]
    unfold updateRows
    rw [if_pos hm]
    unfold RowRefused at hrow
    cases hassign : assignScanned table stmt.assignments kv.2 (updateFields table kv) with
    | error e =>
      refine ⟨e, ?_⟩
      simp only [updateScanned, hassign]
    | ok x =>
      obtain ⟨stored, working⟩ := x
      rw [hassign] at hrow
      cases hvalid : a.validate table working with
      | error e =>
        refine ⟨e, ?_⟩
        simp only [updateScanned, hassign, hvalid]
      | ok u =>
        obtain ⟨e, he⟩ : ∃ e, a.put kv.1 = .error e := by
          rcases hrow with ⟨e, he⟩ | h
          · rw [hvalid] at he
            cases he
          · exact h
        refine ⟨e, ?_⟩
        simp only [updateScanned, hassign, hvalid, writeUpdated, he]
  | cons x before ih =>
    obtain ⟨e, he⟩ := ih fun y hy => hbefore y (List.mem_cons_of_mem _ hy)
    refine ⟨e, ?_⟩
    rw [List.cons_append]
    unfold updateRows
    rw [if_neg (Bool.eq_false_iff.1 (hbefore x List.mem_cons_self))]
    exact he

end

/-! ## The statement -/

section

variable {rt : Runtime}

/-- The value of a column in a stored row. -/
def rowColumn (table : TableSchema) (raw col : Bytes) : Option Bytes :=
  if 2 ≤ table.schemaVersion then (decodeRowFields raw).1.find? col
  else if col = table.valueColumn then some raw else none

/-- What is stored under a key before and after: a row that satisfies the clause has the values that
the expressions have on it, and its other columns; every other row stays, and none is added. -/
def RowUpdated (table : TableSchema) (stmt : UpdateStmt rt) (k : Key)
    (before after : Option Bytes) : Prop :=
  match before with
  | none => after = none
  | some raw =>
    if satisfies table stmt.whereExpr (k, raw) then
      ∃ raw', after = some raw' ∧
        (∀ x ∈ stmt.assignments,
          rowColumn table raw' x.1 = some (oldValue table (k, raw) x.2)) ∧
        ∀ col, col ∉ stmt.assignments.map (·.1) →
          rowColumn table raw' col = rowColumn table raw col
    else after = some raw

/-- The statement fails and every row is as before, or every row of the table is updated. -/
def UpdateExact (s : ShardEngine) (a : UpdateAnswers) (findView : Bytes → Bool) (d : SqlStore)
    (stmt : UpdateStmt rt) : Prop :=
  match execUpdate s a findView d stmt with
  | (d', .error _) => ∀ k, isIndexEncodedKey k = false → d'.rows.find? k = d.rows.find? k
  | (d', .ok _) => ∀ table, d.catalog.findTable stmt.table = some table →
      ∀ k, isTableRow table.id k = true →
        RowUpdated table stmt k (d.rows.find? k) (d'.rows.find? k)

/-- What is turned down before any row is looked at: a view, a name without a table, an unknown
column, a scan that is refused. -/
def UpdateRefused (s : ShardEngine) (findView : Bytes → Bool) (d : SqlStore)
    (stmt : UpdateStmt rt) : Prop :=
  findView stmt.table = true ∨ d.catalog.findTable stmt.table = none ∨
    ∃ table, d.catalog.findTable stmt.table = some table ∧
      ((∃ x ∈ stmt.assignments, table.columns.any (·.name = x.1) = false) ∨
        (pointKey table stmt = none ∧ ∃ e, d.scanTable s table.id = .error e))

/-- An update by key: the row is there, its assignments read it as it was although only its key is
known, and it is the one that satisfies the clause. -/
structure PointSafe (a : UpdateAnswers) (d : SqlStore) (table : TableSchema)
    (stmt : UpdateStmt rt) (key : Bytes) : Prop where
  writes : WritesSucceed a
  version : 2 ≤ table.schemaVersion
  plain : isIndexEncodedKey (encodeRowKey table.id key) = false
  row : ∃ raw, d.rows.find? (encodeRowKey table.id key) = some raw ∧
    RowSafe a table stmt (encodeRowKey table.id key, raw)
      (SortedMap.empty.insert table.keyColumn key)
  only : ∀ kv ∈ d.tableRows table.id,
    satisfies table stmt.whereExpr kv = true ↔ kv.1 = encodeRowKey table.id key

/-- An update by scan: the scan's fields decide the clause as the rows do, and every row that
matches can be rewritten. -/
structure ScanSafe (a : UpdateAnswers) (d : SqlStore) (table : TableSchema)
    (stmt : UpdateStmt rt) (rows : List (Key × Bytes)) : Prop where
  writes : WritesSucceed a
  version : 2 ≤ table.schemaVersion
  rewritten : ∀ kv ∈ rows, matched table stmt kv = true →
    RowSafe a table stmt kv (updateFields table kv)
  agrees : ∀ kv ∈ d.tableRows table.id,
    matched table stmt kv = satisfies table stmt.whereExpr kv

/-- The update by key is turned down before it writes. -/
def PointRefused (a : UpdateAnswers) (d : SqlStore) (table : TableSchema) (stmt : UpdateStmt rt)
    (key : Bytes) : Prop :=
  RowRefused a table (encodeRowKey table.id key) (assignPoint table key stmt.assignments
    (if 2 ≤ table.schemaVersion then (d.rows.find? (encodeRowKey table.id key)).getD [] else [])
    (SortedMap.empty.insert table.keyColumn key))

/-- The statement is carried out in full, or not at all. -/
def UpdateWorks (s : ShardEngine) (a : UpdateAnswers) (d : SqlStore) (table : TableSchema)
    (stmt : UpdateStmt rt) : Prop :=
  match pointKey table stmt with
  | some key => PointRefused a d table stmt key ∨ PointSafe a d table stmt key
  | none => ∀ rows, d.scanTable s table.id = .ok rows →
      FirstRefused a table stmt rows ∨ ScanSafe a d table stmt rows

variable {a : UpdateAnswers} {d : SqlStore} {table : TableSchema} {stmt : UpdateStmt rt}

theorem mem_tableRows {k : Key} {raw : Bytes} (hk : isTableRow table.id k = true)
    (hraw : d.rows.find? k = some raw) : (k, raw) ∈ d.tableRows table.id :=
  mem_tableRows_iff.2 ⟨hraw, hk⟩

/-- A row with the new values is the one that is asked for. -/
theorem NewRow.columns (hv : 2 ≤ table.schemaVersion)
    (hn : (stmt.assignments.map (·.1)).Nodup) {k : Key} {raw raw' : Bytes}
    (h : NewRow table stmt (k, raw) raw') :
    (∀ x ∈ stmt.assignments, rowColumn table raw' x.1 = some (oldValue table (k, raw) x.2)) ∧
      ∀ col, col ∉ stmt.assignments.map (·.1) →
        rowColumn table raw' col = rowColumn table raw col := by
  have hcols : (newValues (oldValue table (k, raw)) stmt.assignments).map (·.1) =
      stmt.assignments.map (·.1) := by
    rw [newValues, List.map_map]
    rfl
  have hcol : ∀ raw col, rowColumn table raw col = (decodeRowFields raw).1.find? col :=
    fun _ _ => if_pos hv
  have hdecoded : (decodeRowFields raw').1 = (decodeRowFields raw).1.insertAll
      (newValues (oldValue table (k, raw)) stmt.assignments) := congrArg Prod.fst h
  refine ⟨fun x hx => ?_, fun col hc => ?_⟩
  · rw [hcol, hdecoded]
    exact find?_insertAll_of_mem (hcols ▸ hn)
      (List.mem_map_of_mem (f := fun x => (x.1, oldValue table (k, raw) x.2)) hx) _
  · rw [hcol, hcol, hdecoded]
    exact find?_insertAll_of_not_mem (hcols ▸ hc) _

theorem updatePoint_refused {key : Bytes} (hr : PointRefused a d table stmt key) :
    ∃ e, updatePoint a table stmt.assignments d key = (d, .error e) := by
  unfold PointRefused RowRefused at hr
  unfold updatePoint
  dsimp only
  cases hassign : assignPoint table key stmt.assignments
      (if 2 ≤ table.schemaVersion then (d.rows.find? (encodeRowKey table.id key)).getD [] else [])
      (SortedMap.empty.insert table.keyColumn key) with
  | error e => exact ⟨e, rfl⟩
  | ok x =>
    obtain ⟨stored, working⟩ := x
    rw [hassign] at hr
    cases hvalid : a.validate table working with
    | error e => exact ⟨e, by simp only [hvalid]⟩
    | ok u =>
      obtain ⟨e, hput⟩ : ∃ e, a.put (encodeRowKey table.id key) = .error e := by
        rcases hr with ⟨e, h⟩ | h
        · rw [hvalid] at h
          cases h
        · exact h
      exact ⟨e, by simp only [hvalid, writeUpdated, hput]⟩

/-- **The update by key.** -/
theorem updatePoint_exact (hn : (stmt.assignments.map (·.1)).Nodup) {key : Bytes}
    (hs : PointSafe a d table stmt key) :
    ∃ d', updatePoint a table stmt.assignments d key = (d', .ok ()) ∧
      ∀ k, isTableRow table.id k = true →
        RowUpdated table stmt k (d.rows.find? k) (d'.rows.find? k) := by
  obtain ⟨raw, hraw, hrow⟩ := hs.row
  have hd : decodeRowFields raw = ((decodeRowFields raw).1, .ok ()) := Prod.ext rfl hrow.intact
  obtain ⟨raw', hassign, hnew⟩ := assignPoint_ok hs.version key hrow.binary hd hrow.reads
  obtain ⟨d', hrun, hstored, hother⟩ := writeUpdated_ok hs.writes table key d hs.plain raw'
    (decodeRowFields raw').1
  refine ⟨d', ?_, fun k hk => ?_⟩
  · unfold updatePoint
    simp only [if_pos hs.version, hraw, Option.getD_some, hassign, hrow.valid, hrun]
  · by_cases he : k = encodeRowKey table.id key
    · subst he
      have hsat := (hs.only _ (mem_tableRows hk hraw)).2 rfl
      rw [hraw, RowUpdated, if_pos hsat]
      exact ⟨raw', hstored, NewRow.columns hs.version hn hnew⟩
    · rw [hother k (not_index_of_tableRow hk) he]
      cases hold : d.rows.find? k with
      | none => rfl
      | some old =>
        rw [RowUpdated, if_neg fun hsat => he ((hs.only _ (mem_tableRows hk hold)).1 hsat)]

/-- **The update by scan**, of rows that hold the table's. -/
theorem updateRows_exact (hn : (stmt.assignments.map (·.1)).Nodup) {rows : List (Key × Bytes)}
    (hs : ScanSafe a d table stmt rows) (hidx : ∀ kv ∈ rows, isIndexEncodedKey kv.1 = false)
    (hnd : (rows.map (·.1)).Nodup) (hall : ∀ kv ∈ d.tableRows table.id, kv ∈ rows)
    (hstored : ∀ kv ∈ rows, kv ∈ d.rows.entries) :
    ∃ d', updateRows a table stmt d rows = (d', .ok ()) ∧
      ∀ k, isTableRow table.id k = true →
        RowUpdated table stmt k (d.rows.find? k) (d'.rows.find? k) := by
  obtain ⟨d', hrun, hother, hrows⟩ := updateRows_ok hs.writes hs.version hidx hnd hs.rewritten d
  refine ⟨d', hrun, fun k hk => ?_⟩
  cases hold : d.rows.find? k with
  | none =>
    have hout : k ∉ rows.map (·.1) := by
      intro hm
      obtain ⟨kv, hkv, rfl⟩ := List.mem_map.1 hm
      have hfind : d.rows.find? kv.1 = some kv.2 := SortedMap.mem_entries_iff.1 (hstored kv hkv)
      rw [hold] at hfind
      cases hfind
    exact (hother k (not_index_of_tableRow hk) hout).trans hold
  | some raw =>
    have hmem := mem_tableRows hk hold
    have hrow := hrows _ (hall _ hmem)
    have hagrees := hs.agrees _ hmem
    by_cases hsat : satisfies table stmt.whereExpr (k, raw) = true
    · rw [if_pos (hagrees.trans hsat)] at hrow
      obtain ⟨raw', hraw', hnew⟩ := hrow
      rw [RowUpdated, if_pos hsat]
      exact ⟨raw', hraw', hnew.columns hs.version hn⟩
    · rw [if_neg fun hm => hsat (hagrees.symm.trans hm)] at hrow
      rw [RowUpdated, if_neg hsat]
      exact hrow.trans hold

/-- The scan of a table lists its rows, once each, and no index entry. -/
theorem scanTable_lists {s : ShardEngine} {rows : List (Key × Bytes)}
    (h : d.scanTable s table.id = .ok rows) :
    (∀ kv ∈ rows, isIndexEncodedKey kv.1 = false) ∧ (rows.map (·.1)).Nodup ∧
      (∀ kv ∈ d.tableRows table.id, kv ∈ rows) ∧ ∀ kv ∈ rows, kv ∈ d.rows.entries := by
  cases hp : s.prepare (tableScanPlan table.id) with
  | error e =>
    simp only [scanTable, scanRange, hp] at h
    cases h
  | ok u =>
    simp only [scanTable, scanRange, hp, Except.ok.injEq] at h
    subst h
    obtain ⟨hn, hlast⟩ := (prepare_tableScanPlan s table.id).1 hp
    have hsorted : (d.rows.entries.map (·.1)).Nodup :=
      List.pairwise_map.2 (d.rows.sorted.imp fun hlt => hlt.ne)
    refine ⟨fun kv hkv => ?_, ?_, fun kv hkv => ?_, fun kv hkv => ?_⟩
    · simpa using (List.mem_filter.1 hkv).2
    · exact hsorted.sublist ((List.filter_sublist.trans List.filter_sublist).map _)
    · obtain ⟨hstored, hrow⟩ := List.mem_filter.1 hkv
      rw [isTableRow, Bool.and_eq_true, List.isPrefixOf_iff_prefix] at hrow
      obtain ⟨pk, hpk⟩ := hrow.1
      have hmatch : planMatches (tableScanPlan table.id) kv.1 = true := by
        have := (planMatches_tableScanPlan hn hlast (.row table.id pk)).2 (.inl rfl)
        rwa [show (Stored.row table.id pk).key = kv.1 from hpk] at this
      exact List.mem_filter.2 ⟨List.mem_filter.2 ⟨hstored, hmatch⟩, hrow.2⟩
    · exact (List.mem_filter.1 (List.mem_filter.1 hkv).1).1

/-- **An UPDATE is exact and atomic** when it is turned down before a row is written, or its
assignments read the rows as they were on the path that is taken, the rows are whole binary records,
and no constraint and no write fails. -/
theorem update_exact {rt : Runtime} (s : ShardEngine) (a : UpdateAnswers)
    (findView : Bytes → Bool) (d : SqlStore) (name : Bytes) (first : Bytes × ExprNode rt)
    (more : List (Bytes × ExprNode rt)) (w : Option (ExprNode rt))
    (hw : UpdateRefused s findView d (parseUpdate name first more w) ∨
      ∃ table, d.catalog.findTable name = some table ∧
        UpdateWorks s a d table (parseUpdate name first more w)) :
    UpdateExact s a findView d (parseUpdate name first more w) := by
  have hn := parseUpdate_nodup name first more w
  have hname : (parseUpdate name first more w).table = name := rfl
  generalize parseUpdate name first more w = stmt at hw hn hname ⊢
  subst hname
  unfold UpdateExact
  by_cases hv : findView stmt.table = true
  · simp [execUpdate, hv]
  cases ht : d.catalog.findTable stmt.table with
  | none =>
    simp [execUpdate, hv, ht]
  | some table =>
  cases hcol : stmt.assignments.find? fun x => !table.columns.any (·.name = x.1) with
  | some x =>
    simp [execUpdate, hv, ht, hcol]
  | none =>
  have hrows : ∀ {d' : SqlStore}, (∀ k, isTableRow table.id k = true →
      RowUpdated table stmt k (d.rows.find? k) (d'.rows.find? k)) →
      ∀ table', some table = some table' → ∀ k, isTableRow table'.id k = true →
        RowUpdated table' stmt k (d.rows.find? k) (d'.rows.find? k) := by
    rintro d' h table' he
    cases he
    exact h
  -- what is left of a refusal is the scan
  have hworks : (pointKey table stmt = none ∧ ∃ e, d.scanTable s table.id = .error e) ∨
      UpdateWorks s a d table stmt := by
    rcases hw with (h | h | ⟨table', ht', h⟩) | ⟨table', ht', h⟩
    · exact absurd h hv
    · rw [ht] at h
      cases h
    · rw [ht] at ht'
      cases ht'
      rcases h with ⟨x, hx, hany⟩ | h
      · have := List.find?_eq_none.1 hcol x hx
        simp [hany] at this
      · exact .inl h
    · rw [ht] at ht'
      cases ht'
      exact .inr h
  cases hpoint : pointKey table stmt with
  | some key =>
    simp only [execUpdate, if_neg hv, ht, hcol, hpoint]
    rw [hpoint] at hworks
    have hcase : PointRefused a d table stmt key ∨ PointSafe a d table stmt key := by
      rcases hworks with ⟨h, -⟩ | h
      · cases h
      · unfold UpdateWorks at h
        rwa [hpoint] at h
    rcases hcase with hr | hs
    · obtain ⟨e, he⟩ := updatePoint_refused hr
      simp [he]
    · obtain ⟨d', hrun, hall⟩ := updatePoint_exact hn hs
      simp only [hrun]
      exact hrows hall
  | none =>
    simp only [execUpdate, if_neg hv, ht, hcol, hpoint]
    cases hscan : d.scanTable s table.id with
    | error e => exact fun _ _ => rfl
    | ok rows =>
      have hcase : FirstRefused a table stmt rows ∨ ScanSafe a d table stmt rows := by
        rcases hworks with ⟨-, e, he⟩ | h
        · rw [hscan] at he
          cases he
        · unfold UpdateWorks at h
          rw [hpoint] at h
          exact h rows hscan
      rcases hcase with hr | hs
      · obtain ⟨e, he⟩ := updateRows_refused hr d
        simp [he]
      · obtain ⟨hidx, hnd, hlisted, hstored⟩ := scanTable_lists hscan
        obtain ⟨d', hrun, hall⟩ := updateRows_exact hn hs hidx hnd hlisted hstored
        simp only [hrun]
        exact hrows hall

end

/-! ## A column of the row on the path by key -/

/-- Everything succeeds. -/
def allAnswers : UpdateAnswers := ⟨fun _ => .ok (), fun _ => .ok (), fun _ _ => .ok ()⟩

/-- `k = 'a'`. -/
def keyClause : ExprNode wholeNumbers :=
  .binary .kEq (.column [] (ascii "k") false) (.literal (ascii "a") false) false

def pairRaw (k v : Bytes) : Bytes := (pairRow k v).2

/-- `UPDATE t SET v = 'z' WHERE k = 'a'`. -/
theorem update_exact_literal : UpdateExact
    (ShardEngine.open ⟨.kSync, true, 1, .kFastOpen, false, false, fun _ => 0⟩ ShardFiles.none)
    allAnswers (fun _ => false) pairStore
    (parseUpdate (ascii "t") (ascii "v", .literal (ascii "z") false) [] (some keyClause)) := by
  refine update_exact _ allAnswers (fun _ => false) pairStore (ascii "t")
    (ascii "v", .literal (ascii "z") false) [] (some keyClause) (.inr ⟨pairTable, rfl, ?_⟩)
  refine .inr ⟨⟨fun _ => rfl, fun _ => rfl⟩, by decide, by decide +kernel,
    ⟨pairRaw (ascii "a") (ascii "b"), by decide +kernel, by decide +kernel, rfl, ?_, rfl⟩, ?_⟩
  · exact ⟨by decide +kernel, by unfold FitsRow; decide +kernel, trivial⟩
  · decide +kernel

/-- `UPDATE t SET v = v WHERE k = 'a'` takes the value out: the path by key knows of no column but
the key. -/
theorem update_by_key_loses : ¬ ∀ (rt : Runtime) (s : ShardEngine) (a : UpdateAnswers)
    (findView : Bytes → Bool) (d : SqlStore) (name : Bytes) (first : Bytes × ExprNode rt)
    (more : List (Bytes × ExprNode rt)) (w : Option (ExprNode rt)),
    UpdateExact s a findView d (parseUpdate name first more w) := by
  intro h
  have hexact := h wholeNumbers
    (ShardEngine.open ⟨.kSync, true, 1, .kFastOpen, false, false, fun _ => 0⟩ ShardFiles.none)
    allAnswers (fun _ => false) pairStore (ascii "t")
    (ascii "v", .column [] (ascii "v") false) [] (some keyClause) pairTable rfl
    (encodeRowKey 1 (ascii "a")) (by decide +kernel)
  have hraw : pairStore.rows.find? (encodeRowKey 1 (ascii "a")) =
      some (pairRaw (ascii "a") (ascii "b")) := by decide +kernel
  have hsat : satisfies pairTable (some keyClause)
      (encodeRowKey 1 (ascii "a"), pairRaw (ascii "a") (ascii "b")) = true := by decide +kernel
  rw [hraw, RowUpdated] at hexact
  obtain ⟨raw', hafter, hcols, -⟩ := (if_pos hsat) ▸ hexact
  have hlost := congrArg (Option.map fun raw => rowColumn pairTable raw (ascii "v")) hafter
  rw [Option.map_some, hcols _ List.mem_cons_self] at hlost
  revert hlost
  decide +kernel

end EBTree.Sql
