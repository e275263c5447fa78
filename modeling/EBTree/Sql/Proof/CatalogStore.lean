import EBTree.Sql.CatalogStore

/-!
# What a saved catalog loads as

* `Keyed`: every table that was created has a primary key or a row counter; `loadTables_bare`:
  no table that was loaded has either.
* `loadIndexes_eq`: no index is ever loaded. The reader ends the array of indexes at the first
  closing bracket, which is that of the first index's columns.
* `CatalogRun.roundTrips_iff`: a catalog comes back as it was exactly when there was nothing in
  it.
-/

set_option autoImplicit false

namespace EBTree.Sql

open Lib

/-! ## Catalogs that statements reach -/

/-- The calls that CREATE and DROP of tables and indexes make, and the row counter of INSERT. -/
inductive CatalogOp
  | createTable (name : Bytes) (columns : List ColumnDef)
  | dropTable (name : Bytes)
  | createIndex (name table : Bytes) (columns : List Bytes) (unique : Bool)
  | dropIndex (name : Bytes)
  | allocateRowKey (name : Bytes)

/-- The catalog after a call, unchanged by one that fails. -/
def CatalogOp.apply (c : Catalog) : CatalogOp → Catalog
  | .createTable name columns => ((c.createTable name columns).toOption).getD c
  | .dropTable name => ((c.dropTable name).toOption).getD c
  | .createIndex name table columns unique =>
    ((c.createIndex name table columns unique).toOption).getD c
  | .dropIndex name => ((c.dropIndex name).toOption).getD c
  | .allocateRowKey name => (((c.allocateRowKey name).toOption).map (·.1)).getD c

/-- The catalogs reached from an empty one. -/
inductive CatalogRun : Catalog → Prop
  | empty : CatalogRun .empty
  | step {c : Catalog} (op : CatalogOp) : CatalogRun c → CatalogRun (op.apply c)

/-- Rows of the table get their keys from a column, or from a counter. -/
def TableSchema.Keyed (t : TableSchema) : Prop :=
  t.implicitRowid = true ∨ ∃ col ∈ t.columns, col.primaryKey = true

/-- Rows of the table get their keys from neither. -/
def TableSchema.Bare (t : TableSchema) : Prop :=
  t.implicitRowid = false ∧ ∀ col ∈ t.columns, col.primaryKey = false

theorem Catalog.newSchema_keyed (id : UInt32) (name : Bytes) (columns : List ColumnDef)
    (first : ColumnDef) : (newSchema id name columns first).Keyed := by
  by_cases h : ∃ col ∈ columns, col.primaryKey = true
  · exact .inr h
  · refine .inl ?_
    simp only [newSchema, Bool.not_eq_true', List.any_eq_false]
    exact fun col hc hp => h ⟨col, hc, hp⟩

theorem mem_updateFirst {α : Type} {p : α → Bool} {f : α → α} {l : List α} {x : α}
    (h : x ∈ Catalog.updateFirst p f l) : x ∈ l ∨ ∃ y ∈ l, p y = true ∧ x = f y := by
  induction l with
  | nil => cases h
  | cons y l ih =>
    simp only [Catalog.updateFirst] at h
    split at h
    · rename_i hp
      rcases List.mem_cons.1 h with rfl | h
      · exact .inr ⟨y, List.mem_cons_self, hp, rfl⟩
      · exact .inl (List.mem_cons_of_mem _ h)
    · rcases List.mem_cons.1 h with rfl | h
      · exact .inl List.mem_cons_self
      · rcases ih h with h | ⟨z, hz, hp, rfl⟩
        · exact .inl (List.mem_cons_of_mem _ h)
        · exact .inr ⟨z, List.mem_cons_of_mem _ hz, hp, rfl⟩

/-- One call keeps every table of the list keyed. -/
theorem CatalogOp.apply_keyed {c : Catalog} (h : ∀ t ∈ c.tableList, t.Keyed) (op : CatalogOp) :
    ∀ t ∈ (op.apply c).tableList, t.Keyed := by
  cases op with
  | createTable name columns =>
    simp only [apply, Catalog.createTable]
    split
    · exact h
    · split
      · exact h
      · cases columns with
        | nil => exact h
        | cons first rest =>
          intro t ht
          simp only [Except.toOption, Option.getD_some, Catalog.addTable, List.mem_append,
            List.mem_singleton] at ht
          rcases ht with ht | rfl
          · exact h t ht
          · exact Catalog.newSchema_keyed _ _ _ _
  | dropTable name =>
    simp only [apply, Catalog.dropTable]
    split
    · exact h
    · exact fun t ht => h t (List.mem_filter.1 ht).1
  | createIndex name table columns unique =>
    simp only [apply, Catalog.createIndex]
    split
    · exact h
    · split
      · exact h
      · split
        · exact h
        · exact h
  | dropIndex name =>
    simp only [apply, Catalog.dropIndex]
    split <;> exact h
  | allocateRowKey name =>
    simp only [apply, Catalog.allocateRowKey]
    split
    · exact h
    · split
      · exact h
      · intro t ht
        rcases mem_updateFirst ht with ht | ⟨u, hu, -, rfl⟩
        · exact h t ht
        · exact h u hu

theorem CatalogRun.keyed {c : Catalog} (h : CatalogRun c) : ∀ t ∈ c.tableList, t.Keyed := by
  induction h with
  | empty => exact fun t ht => by cases ht
  | step op _ ih => exact CatalogOp.apply_keyed ih op

namespace CatalogStore

/-! ## The reader -/

/-- An object ends at a closing brace, behind where it starts. -/
theorem mem_nameObjectsFrom {s obj : Bytes} {fuel pos : Nat}
    (h : obj ∈ nameObjectsFrom s fuel pos) :
    ∃ b e, obj = slice s b e ∧ b ≤ e ∧ [125] <+: s.drop e := by
  induction fuel generalizing pos with
  | zero => cases h
  | succ fuel ih =>
    simp only [nameObjectsFrom] at h
    cases hp : find s (quoted (ascii "name")) pos with
    | none => simp [hp] at h
    | some p =>
      simp only [hp] at h
      cases hb : rfind s 123 p with
      | none => simp [hb] at h
      | some b =>
        cases he : find s [125] p with
        | none => simp [hb, he] at h
        | some e =>
          simp only [hb, he, List.mem_cons] at h
          rcases h with rfl | h
          · have := rfind_le hb
            obtain ⟨hpe, hc, -⟩ := find_some he
            exact ⟨b, e, rfl, by omega, hc⟩
          · exact ih h

theorem loadColumn_primaryKey {obj : Bytes} {col : ColumnDef} (h : loadColumn obj = some col) :
    col.primaryKey = false := by
  unfold loadColumn at h
  split at h
  · cases h
  · cases h
    rfl

theorem loadColumns_bare (obj keyCol valueCol : Bytes) :
    ∀ col ∈ loadColumns obj keyCol valueCol, col.primaryKey = false := by
  have hread : ∀ arr, ∀ col ∈ (nameObjects arr).filterMap loadColumn,
      col.primaryKey = false := by
    intro arr col hcol
    obtain ⟨o, -, ho⟩ := List.mem_filterMap.1 hcol
    exact loadColumn_primaryKey ho
  have hmade : ∀ a b : Bytes, ∀ col ∈ [ColumnDef.plain a, .plain b], col.primaryKey = false := by
    intro a b col hcol
    simp only [List.mem_cons, List.not_mem_nil, or_false] at hcol
    rcases hcol with rfl | rfl <;> rfl
  unfold loadColumns
  cases arrayOf obj (ascii "columns") with
  | none => exact hmade _ _
  | some arr =>
    simp only
    split
    · exact hmade _ _
    · exact hread arr

/-- What one round of the reader does to a catalog. -/
theorem loadTable_some {c c' : Catalog} {obj : Bytes} (h : loadTable c obj = some c') :
    c' = c ∨ ∃ id name columns, (∀ col ∈ columns, col.primaryKey = false) ∧
      c.restoreTableV2 id name columns = .ok c' := by
  unfold loadTable at h
  split at h
  · cases h
    exact .inl rfl
  · split at h
    · cases h
      exact .inl rfl
    · simp only at h
      split at h
      · cases h
      · split at h
        · rename_i hr
          cases h
          exact .inr ⟨_, _, _, loadColumns_bare _ _ _, hr⟩
        · cases h
          exact .inl rfl

theorem restoreTableV2_ok {c c' : Catalog} {id : UInt32} {name : Bytes}
    {columns : List ColumnDef} (h : c.restoreTableV2 id name columns = .ok c') :
    name ≠ [] ∧ c.findTable name = none ∧
      c' = { c with nextId := max c.nextId (id + 1) }.addTable
        (Catalog.restoredSchema id name columns) := by
  unfold Catalog.restoreTableV2 at h
  split at h
  · cases h
  · split at h
    · cases h
    · rename_i hn hf
      cases h
      exact ⟨hn, by simpa using hf, rfl⟩

/-- **No table that was loaded has a primary key or a row counter.** -/
theorem foldlM_loadTable_bare {objs : List Bytes} {c c' : Catalog}
    (hc : ∀ t ∈ c.tableList, t.Bare) (h : objs.foldlM loadTable c = some c') :
    (∀ t ∈ c'.tableList, t.Bare) ∧ c'.indexList = c.indexList := by
  induction objs generalizing c with
  | nil =>
    cases h
    exact ⟨hc, rfl⟩
  | cons obj objs ih =>
    rw [List.foldlM_cons] at h
    obtain ⟨c1, h1, h2⟩ := Option.bind_eq_some_iff.1 h
    rcases loadTable_some h1 with rfl | ⟨id, name, columns, hcols, hr⟩
    · exact ih hc h2
    · obtain ⟨-, -, rfl⟩ := restoreTableV2_ok hr
      have hadd : ∀ t ∈ c.tableList ++ [Catalog.restoredSchema id name columns], t.Bare := by
        intro t ht
        rcases List.mem_append.1 ht with ht | ht
        · exact hc t ht
        · rw [List.mem_singleton.1 ht]
          exact ⟨rfl, hcols⟩
      have := ih hadd h2
      exact this

/-- An object of an array of this reader has no closing bracket in it. -/
theorem arrayOf_eq_none_of_mem {content key obj arr : Bytes}
    (harr : arrayOf content key = some arr) (hobj : obj ∈ nameObjects arr) (key' : Bytes) :
    arrayOf obj key' = none := by
  have hfront : ∃ front, arr = front ++ [93] ∧ (93 : UInt8) ∉ front := by
    unfold arrayOf at harr
    split at harr
    · cases harr
    · split at harr
      · cases harr
      · split at harr
        · cases harr
        · rename_i he
          cases harr
          exact slice_find_singleton he
  obtain ⟨front, rfl, hfront⟩ := hfront
  have hno : (93 : UInt8) ∉ obj := by
    obtain ⟨b, e, rfl, hbe, hend⟩ := mem_nameObjectsFrom hobj
    intro hm
    -- the brace that ends the object stands before the bracket that ends the array
    have hlt : e < front.length := by
      by_contra hge
      obtain ⟨rest, hrest⟩ := hend
      rw [List.drop_append, List.drop_of_length_le (by omega), List.nil_append] at hrest
      have hmem : (125 : UInt8) ∈ [(93 : UInt8)].drop (e - front.length) := by
        rw [← hrest]
        simp
      exact absurd (List.mem_of_mem_drop hmem) (by decide)
    have := mem_take_of_mem_slice hbe hm
    rw [List.take_append_of_le_length (by omega)] at this
    exact hfront (List.mem_of_mem_take this)
  unfold arrayOf
  split
  · rfl
  · split
    · rfl
    · have hnone : ∀ b, find obj [93] b = none := by
        intro b
        unfold find
        rw [indexOf?_eq_none_of_not_mem (c := 93) (by simp)
          fun hm => hno (List.mem_of_mem_drop hm)]
        rfl
      rw [hnone]

/-- **No index is loaded**, whatever the file says. -/
theorem loadIndexes_eq {content : Bytes} {c c' : Catalog}
    (h : loadIndexes content c = some c') : c' = c := by
  unfold loadIndexes at h
  cases harr : arrayOf content (ascii "indexes") with
  | none =>
    simp only [harr] at h
    cases h
    rfl
  | some arr =>
    simp only [harr] at h
    have hround : ∀ obj ∈ nameObjects arr, ∀ c1 c2, loadIndex c1 obj = some c2 → c2 = c1 := by
      intro obj hobj c1 c2 h1
      unfold loadIndex at h1
      split at h1
      · cases h1
        rfl
      · simp only [extractJsonStringArray, arrayOf_eq_none_of_mem harr hobj, if_true] at h1
        split at h1
        · cases h1
        · cases h1
          rfl
    revert hround h
    generalize nameObjects arr = objs
    intro h hround
    induction objs generalizing c with
    | nil =>
      cases h
      rfl
    | cons obj objs ih =>
      rw [List.foldlM_cons] at h
      obtain ⟨c1, h1, h2⟩ := Option.bind_eq_some_iff.1 h
      have hc1 := hround obj List.mem_cons_self c c1 h1
      have hc' := ih h2 fun o ho => hround o (List.mem_cons_of_mem _ ho)
      exact hc'.trans hc1

/-- A catalog that was loaded has bare tables only, and no index. -/
theorem load_bare {content : Bytes} {c : Catalog} (h : load content = some c) :
    (∀ t ∈ c.tableList, t.Bare) ∧ c.indexList = [] := by
  obtain ⟨c1, h1, h2⟩ := Option.bind_eq_some_iff.1 h
  obtain rfl := loadIndexes_eq h2
  exact foldlM_loadTable_bare (fun t ht => by cases ht) h1

/-! ## Round trips -/

/-- `t'` is `t` in what the file is there to keep: id, name, columns with their types and
constraints, primary key and row counter. -/
def Restores (t t' : TableSchema) : Prop :=
  t'.id = t.id ∧ t'.name = t.name ∧ t'.columns = t.columns ∧ t'.keyColumn = t.keyColumn ∧
    t'.implicitRowid = t.implicitRowid ∧ t'.nextRowid = t.nextRowid

/-- What was saved loads as the same tables and indexes, and no others. -/
def RoundTrips (c : Catalog) : Prop :=
  ∃ c', load (save c) = some c' ∧
    (∀ t ∈ c.tableList, ∃ t' ∈ c'.tableList, Restores t t') ∧
    (∀ t' ∈ c'.tableList, ∃ t ∈ c.tableList, Restores t t') ∧
    ∀ x, x ∈ c'.indexList ↔ x ∈ c.indexList

theorem Restores.not_bare {t t' : TableSchema} (h : Restores t t') (hk : t.Keyed) : ¬ t'.Bare := by
  rintro ⟨hi, hp⟩
  obtain ⟨-, -, hcols, -, himp, -⟩ := h
  rcases hk with hk | ⟨col, hcol, hkey⟩
  · rw [himp, hk] at hi
    cases hi
  · rw [hp col (hcols ▸ hcol)] at hkey
    cases hkey

/-- **A catalog that statements reach comes back as it was exactly when it has no table and no
index.** -/
theorem roundTrips_iff (c : Catalog) (h : CatalogRun c) :
    RoundTrips c ↔ c.tableList = [] ∧ c.indexList = [] := by
  constructor
  · rintro ⟨c', hl, htables, -, hindexes⟩
    obtain ⟨hbare, hnone⟩ := load_bare hl
    constructor
    · apply List.eq_nil_iff_forall_not_mem.2
      intro t ht
      obtain ⟨t', ht', hr⟩ := htables t ht
      exact hr.not_bare (h.keyed t ht) (hbare t' ht')
    · apply List.eq_nil_iff_forall_not_mem.2
      intro x hx
      have := (hindexes x).2 hx
      rw [hnone] at this
      cases this
  · rintro ⟨ht, hi⟩
    have hsave : save c = save .empty := by simp only [save, ht, hi]; rfl
    have hload : load (save .empty) = some .empty := by
      have ho : nameObjects (save .empty) = [] := by decide +kernel
      have ha : arrayOf (save .empty) (ascii "indexes") = some [91, 93] := by decide +kernel
      have ho' : nameObjects [91, 93] = [] := by decide +kernel
      simp only [load, loadTables, loadIndexes, ho, ha, ho']
      rfl
    refine ⟨.empty, by rw [hsave, hload], ?_, ?_, ?_⟩
    · rw [ht]
      exact fun t h => by cases h
    · exact fun t h => by cases h
    · rw [hi]
      exact fun x => Iff.rfl

/-- `CREATE TABLE t(k TEXT PRIMARY KEY, v TEXT)`. -/
def twoColumns : Catalog :=
  (CatalogOp.createTable [116] [⟨[107], textType, false, true, []⟩, .plain [118]]).apply .empty

theorem twoColumns_run : CatalogRun twoColumns := .step _ .empty

theorem roundTrips_iff_twoColumns :
    RoundTrips twoColumns ↔ twoColumns.tableList = [] ∧ twoColumns.indexList = [] :=
  roundTrips_iff twoColumns twoColumns_run

/-- The second column comes back as a table of its own. -/
example : ((load (save twoColumns)).map fun c => c.tableList.map fun t => (t.id, t.name)) =
    some [(1, [116]), (0, [118])] := by decide +kernel

/-- The primary key does not come back. -/
theorem twoColumns_lost : ¬ ∀ c, CatalogRun c → RoundTrips c := by
  intro h
  obtain ⟨c', hl, htables, -⟩ := h twoColumns twoColumns_run
  obtain ⟨t, ht⟩ : ∃ t, twoColumns.tableList = [t] := ⟨_, rfl⟩
  have hmem : t ∈ twoColumns.tableList := by simp [ht]
  obtain ⟨t', ht', hr⟩ := htables t hmem
  exact hr.not_bare (twoColumns_run.keyed t hmem) ((load_bare hl).1 t' ht')

end CatalogStore

end EBTree.Sql
