import EBTree.Sql.Executor
import EBTree.Sql.Proof.Reload
import EBTree.Sql.Proof.RowKeys

/-!
# New tables are empty

What is stored under an id stays when its table is dropped, so a new table is empty only as long
as its id is a new one.

* `Listed`: the two copies of the tables agree, and no id but zero is given twice.
* `Listed.reload`: a catalog that was saved and loaded, where `Reloadable`.
* `FreshInv`: every stored key has an id below the next one, and nothing is stored under the id of
  a table that nothing was inserted into.
* `SqlRun.inv`: a run keeps this while its steps meet `Keeps`.
-/

set_option autoImplicit false

namespace EBTree.Sql

open Lib Engine
open BTree (TypedPlan planMatches)

/-! ## Keys and ids -/

/-- The text in front of a colon tells the table. -/
theorem tableKeyFront_inj {a b : UInt32} {k : Key} (ha : tableKeyFront a <+: k)
    (hb : tableKeyFront b <+: k) : a = b := by
  have hdig : ∀ (id : UInt32) (more : Bytes),
      (tableKeyFront id ++ more).takeWhile (· ≠ 58) = decimal id.toNat :=
    fun id more => takeWhile_ne_colon id more
  obtain ⟨r, rfl⟩ := ha
  obtain ⟨r', h⟩ := hb
  have := congrArg (List.takeWhile (· ≠ 58)) h
  rw [hdig, hdig] at this
  exact UInt32.toNat_inj.1 (decimal_injective this).symm

/-- Something is stored under the key. -/
def SqlStore.Holds (d : SqlStore) (k : Key) : Prop := ∃ v, d.rows.find? k = some v

/-- Nothing is stored under the id. -/
def SqlStore.Unused (d : SqlStore) (id : UInt32) : Prop :=
  ∀ k, d.Holds k → ¬ tableKeyFront id <+: k

/-! ## Steps -/

inductive SqlOp
  | createTable (name : Bytes) (columns : List ColumnDef)
  | insert (stmt : InsertStmt)
  | createIndex (name table : Bytes) (columns : List Bytes) (unique : Bool)
  | dropTable (name : Bytes)
  | reload

section
variable (codec : RowCodec) (s : ShardEngine)

/-- The database after a statement, and whether it succeeded. -/
def SqlOp.run (d : SqlStore) : SqlOp → Option (SqlStore × Bool)
  | .createTable name columns =>
    let r := d.execCreateTable name columns
    some (r.1, r.2.isOk)
  | .insert stmt =>
    let r := d.execInsert codec stmt
    some (r.1, r.2.isOk)
  | .createIndex name table columns unique =>
    let r := d.execCreateIndex codec s name table columns unique
    some (r.1, r.2.isOk)
  | .dropTable name =>
    let r := d.execDropTable name
    some (r.1, r.2.isOk)
  | .reload => d.reopen.map fun d' => (d', true)

end

/-- The tables that were created and not inserted into since, after a statement. -/
def freshAfter (fresh : List Bytes) (ok : Bool) : SqlOp → List Bytes
  | .createTable name _ => if ok then name :: fresh else fresh
  | .insert stmt => if ok then fresh.filter (· ≠ stmt.table) else fresh
  | .dropTable name => fresh.filter (· ≠ name)
  | .createIndex _ _ _ _ | .reload => fresh

/-- What a catalog must be like to be saved and loaded: plain text, no id without a successor,
no table named like a later column of a table before it, and a table at or above every id that
something is stored under. -/
structure Reloadable (d : SqlStore) : Prop where
  plain : CatalogStore.PlainCatalog d.catalog
  ids : ∀ t ∈ d.catalog.tableList, t.id.toNat + 1 < 2 ^ 32
  names : ∀ before t after, d.catalog.tableList = before ++ t :: after → t.id ≠ 0 →
    ∀ u ∈ before, t.name ∉ u.columns.tail.map (·.name)
  covered : ∀ k, d.Holds k → ∀ m, tableKeyFront m <+: k →
    m = 0 ∨ ∃ t ∈ d.catalog.tableList, m ≤ t.id

/-- The steps that keep new tables empty: the ids have not run out, CREATE INDEX on a table under
whose id nothing is stored finds nothing of another table in its range, and a reload is of a
catalog that is `Reloadable`. -/
def Keeps (d : SqlStore) : SqlOp → Prop
  | .createTable _ _ => d.catalog.nextId ≠ 0
  | .createIndex _ table _ _ => ∀ t, d.catalog.findTable table = some t → d.Unused t.id →
    ∀ k, d.Holds k → planMatches (tableScanPlan t.id) k = false
  | .reload => Reloadable d
  | .insert _ | .dropTable _ => True

/-- The databases that statements reach, with the tables created and not inserted into since. -/
inductive SqlRun (codec : RowCodec) (s : ShardEngine) (ok : SqlStore → SqlOp → Prop) :
    SqlStore → List Bytes → Prop
  | empty : SqlRun codec s ok .empty []
  | step {d d' : SqlStore} {fresh : List Bytes} {op : SqlOp} {b : Bool} :
    SqlRun codec s ok d fresh → ok d op → op.run codec s d = some (d', b) →
    SqlRun codec s ok d' (freshAfter fresh b op)

/-! ## The tables of a catalog -/

structure Listed (c : Catalog) : Prop where
  named : ∀ n t, c.findTable n = some t → t.name = n
  listed : ∀ n t, c.findTable n = some t → t.id ≠ 0 → ∃ u ∈ c.tableList, u.name = n ∧ u.id = t.id
  found : ∀ u ∈ c.tableList, ∃ t, c.findTable u.name = some t ∧ t.id = u.id
  names : (c.tableList.map (·.name)).Nodup
  parts : ∀ u ∈ c.tableList, u.name ≠ [] ∧ u.columns ≠ []
  ids : ∀ m n t u, c.findTable m = some t → c.findTable n = some u → t.id = u.id → t.id ≠ 0 →
    m = n
  below : c.nextId = 0 ∨ ∀ n t, c.findTable n = some t → t.id < c.nextId

theorem Listed.empty : Listed .empty where
  named n t h := by simp [Catalog.findTable, Catalog.empty] at h
  listed n t h := by simp [Catalog.findTable, Catalog.empty] at h
  found u h := by cases h
  names := List.nodup_nil
  parts u h := by cases h
  ids m n t u h := by simp [Catalog.findTable, Catalog.empty] at h
  below := .inr fun n t h => by simp [Catalog.findTable, Catalog.empty] at h

theorem findTable_addTable (c : Catalog) (t : TableSchema) (n : Bytes) :
    (c.addTable t).findTable n = if n = t.name then some t else c.findTable n := by
  simp [Catalog.addTable, Catalog.findTable]

/-- A table is added under a new name, with a new id or zero. -/
theorem Listed.addTable {c : Catalog} (h : Listed c) {t : TableSchema} {next : UInt32}
    (hname : c.findTable t.name = none) (hparts : t.name ≠ [] ∧ t.columns ≠ [])
    (hid : t.id ≠ 0 → ∀ n u, c.findTable n = some u → u.id ≠ t.id)
    (hnext : next = 0 ∨ (t.id < next ∧ ∀ n u, c.findTable n = some u → u.id < next)) :
    Listed ({ c with nextId := next }.addTable t) := by
  have hfind : ∀ n, ({ c with nextId := next }.addTable t).findTable n =
      if n = t.name then some t else c.findTable n := fun n => findTable_addTable _ t n
  have hcase : ∀ n u, ({ c with nextId := next }.addTable t).findTable n = some u →
      (n = t.name ∧ u = t) ∨ (n ≠ t.name ∧ c.findTable n = some u) := by
    intro n u hu
    rw [hfind] at hu
    split at hu
    · cases hu
      exact .inl ⟨‹_›, rfl⟩
    · exact .inr ⟨‹_›, hu⟩
  have hkeep : ∀ n u, c.findTable n = some u →
      ({ c with nextId := next }.addTable t).findTable n = some u := by
    intro n u hu
    rw [hfind, if_neg]
    · exact hu
    · rintro rfl
      rw [hname] at hu
      cases hu
  refine ⟨?_, ?_, ?_, ?_, ?_, ?_, ?_⟩
  · intro n u hu
    rcases hcase n u hu with ⟨rfl, rfl⟩ | ⟨-, hu⟩
    · rfl
    · exact h.named n u hu
  · intro n u hu hne
    rcases hcase n u hu with ⟨rfl, rfl⟩ | ⟨-, hu⟩
    · exact ⟨u, List.mem_append_right _ List.mem_cons_self, rfl, rfl⟩
    · obtain ⟨w, hw, hwn⟩ := h.listed n u hu hne
      exact ⟨w, List.mem_append_left _ hw, hwn⟩
  · intro u hu
    rcases List.mem_append.1 hu with hu | hu
    · obtain ⟨w, hw, hwi⟩ := h.found u hu
      exact ⟨w, hkeep _ _ hw, hwi⟩
    · obtain rfl := List.mem_singleton.1 hu
      exact ⟨u, by rw [hfind, if_pos rfl], rfl⟩
  · have hnew : t.name ∉ c.tableList.map (·.name) := by
      intro hm
      obtain ⟨u, hu, hun⟩ := List.mem_map.1 hm
      obtain ⟨w, hw, -⟩ := h.found u hu
      rw [hun, hname] at hw
      cases hw
    simpa [Catalog.addTable, List.nodup_append, h.names] using fun u hu hun =>
      hnew (List.mem_map.2 ⟨u, hu, hun⟩)
  · intro u hu
    rcases List.mem_append.1 hu with hu | hu
    · exact h.parts u hu
    · rw [List.mem_singleton.1 hu]
      exact hparts
  · intro m n u w hu hw heq hne
    rcases hcase m u hu with ⟨hm, hut⟩ | ⟨-, hu'⟩
    · rcases hcase n w hw with ⟨hn, -⟩ | ⟨-, hw'⟩
      · exact hm.trans hn.symm
      · rw [hut] at heq hne
        exact absurd heq.symm (hid hne n w hw')
    · rcases hcase n w hw with ⟨-, hwt⟩ | ⟨-, hw'⟩
      · rw [hwt] at heq
        exact absurd heq (hid (heq ▸ hne) m u hu')
      · exact h.ids m n u w hu' hw' heq hne
  · rcases hnext with hnext | ⟨ht, hall⟩
    · exact .inl hnext
    · refine .inr fun n u hu => ?_
      rcases hcase n u hu with ⟨-, rfl⟩ | ⟨-, hu⟩
      · exact ht
      · exact hall n u hu

theorem Listed.createTable {c c' : Catalog} (h : Listed c) (hnext : c.nextId ≠ 0) {name : Bytes}
    {columns : List ColumnDef} (hc : c.createTable name columns = .ok c') :
    Listed c' ∧ c.findTable name = none ∧ c'.nextId = c.nextId + 1 ∧
      (∀ n, c'.findTable n = c.findTable n ∨ n = name) ∧
      ∃ t, c'.findTable name = some t ∧ t.id = c.nextId := by
  unfold Catalog.createTable at hc
  split at hc
  · cases hc
  · rename_i hfilled
    split at hc
    · cases hc
    · rename_i hnone
      cases columns with
      | nil => cases hc
      | cons first rest =>
        cases hc
        have hname : c.findTable name = none := by simpa using hnone
        have hbelow := h.below.resolve_left hnext
        refine ⟨?_, hname, rfl, ?_, ?_⟩
        · refine Listed.addTable h hname ⟨hfilled, List.cons_ne_nil _ _⟩ ?_ ?_
          · intro _ n u hu heq
            have hlt : u.id < c.nextId := hbelow n u hu
            have hid : u.id = c.nextId := heq
            rw [hid] at hlt
            exact UInt32.lt_irrefl _ hlt
          · by_cases hz : c.nextId + 1 = 0
            · exact .inl hz
            · have hlt : c.nextId < c.nextId + 1 := by
                rw [UInt32.lt_iff_toNat_lt, UInt32.toNat_add]
                have hne : (c.nextId + 1).toNat ≠ 0 := fun h0 => hz (UInt32.toNat_inj.1 h0)
                rw [UInt32.toNat_add] at hne
                have h1 : (1 : UInt32).toNat = 1 := rfl
                have := c.nextId.toNat_lt
                omega
              exact .inr ⟨hlt, fun n u hu => UInt32.lt_trans (hbelow n u hu) hlt⟩
        · intro n
          rw [findTable_addTable]
          split
          · rename_i hn
            exact .inr hn
          · exact .inl rfl
        · exact ⟨Catalog.newSchema c.nextId name (first :: rest) first,
            (findTable_addTable _ _ _).trans (if_pos rfl), rfl⟩

theorem Listed.dropTable {c c' : Catalog} (h : Listed c) {name : Bytes}
    (hc : c.dropTable name = .ok c') :
    Listed c' ∧ c'.nextId = c.nextId ∧
      ∀ n, c'.findTable n = if n = name then none else c.findTable n := by
  unfold Catalog.dropTable at hc
  split at hc
  · cases hc
  · rename_i t ht
    cases hc
    have hfind : ∀ n, Catalog.findTable { c with
        tables := c.tables.erase name
        tableList := c.tableList.filter (·.id ≠ t.id) } n =
        if n = name then none else c.findTable n := fun n => by simp [Catalog.findTable]
    have hold : ∀ n u, Catalog.findTable { c with
        tables := c.tables.erase name
        tableList := c.tableList.filter (·.id ≠ t.id) } n = some u →
        n ≠ name ∧ c.findTable n = some u := by
      intro n u hu
      rw [hfind] at hu
      split at hu
      · cases hu
      · exact ⟨‹_›, hu⟩
    refine ⟨⟨?_, ?_, ?_, ?_, ?_, ?_, ?_⟩, rfl, hfind⟩
    · exact fun n u hu => h.named n u (hold n u hu).2
    · intro n u hu hne
      obtain ⟨hn, hu⟩ := hold n u hu
      obtain ⟨w, hw, hwn, hwi⟩ := h.listed n u hu hne
      refine ⟨w, List.mem_filter.2 ⟨hw, ?_⟩, hwn, hwi⟩
      -- no other table has the id of the one that is dropped
      have : w.id ≠ t.id := fun heq => hn (h.ids n name u t hu ht (hwi ▸ heq) hne)
      simpa using this
    · intro u hu
      obtain ⟨hu, hne⟩ := List.mem_filter.1 hu
      obtain ⟨w, hw, hwi⟩ := h.found u hu
      refine ⟨w, ?_, hwi⟩
      rw [hfind, if_neg]
      · exact hw
      · intro hn
        rw [hn, ht] at hw
        cases hw
        exact absurd hwi.symm (by simpa using hne)
    · exact h.names.sublist (List.filter_sublist.map _)
    · exact fun u hu => h.parts u (List.mem_filter.1 hu).1
    · exact fun m n u w hu hw => h.ids m n u w (hold m u hu).2 (hold n w hw).2
    · exact h.below.imp id fun hb n u hu => hb n u (hold n u hu).2

/-- A change to neither the names and ids of the tables nor the next id. -/
theorem Listed.congr {c c' : Catalog} (h : Listed c)
    (hfind : ∀ n, (c'.findTable n).map (fun t => (t.name, t.id)) =
      (c.findTable n).map fun t => (t.name, t.id))
    (hlist : c'.tableList.map (fun t => (t.name, t.id, t.columns)) =
      c.tableList.map fun t => (t.name, t.id, t.columns))
    (hnext : c'.nextId = c.nextId) : Listed c' := by
  have hback : ∀ n t, c'.findTable n = some t →
      ∃ u, c.findTable n = some u ∧ u.name = t.name ∧ u.id = t.id := by
    intro n t ht
    have := hfind n
    rw [ht, Option.map_some, eq_comm, Option.map_eq_some_iff] at this
    obtain ⟨u, hu, hut⟩ := this
    exact ⟨u, hu, (Prod.mk.inj hut).1, (Prod.mk.inj hut).2⟩
  have hforth : ∀ n u, c.findTable n = some u → ∃ t, c'.findTable n = some t ∧ t.id = u.id := by
    intro n u hu
    have := hfind n
    rw [hu, Option.map_some, Option.map_eq_some_iff] at this
    obtain ⟨t, ht, htu⟩ := this
    exact ⟨t, ht, (Prod.mk.inj htu).2⟩
  have hmem : ∀ l l' : List TableSchema, l.map (fun t => (t.name, t.id, t.columns)) =
      l'.map (fun t => (t.name, t.id, t.columns)) → ∀ t ∈ l, ∃ u ∈ l',
        u.name = t.name ∧ u.id = t.id ∧ u.columns = t.columns := by
    intro l l' heq t ht
    have : (t.name, t.id, t.columns) ∈ l'.map fun t => (t.name, t.id, t.columns) :=
      heq ▸ List.mem_map_of_mem ht
    obtain ⟨u, hu, hut⟩ := List.mem_map.1 this
    exact ⟨u, hu, by injection hut, by injection hut with _ h2; injection h2,
      by injection hut with _ h2; injection h2⟩
  refine ⟨?_, ?_, ?_, ?_, ?_, ?_, ?_⟩
  · intro n t ht
    obtain ⟨u, hu, hn, -⟩ := hback n t ht
    exact hn ▸ h.named n u hu
  · intro n t ht hne
    obtain ⟨u, hu, -, hi⟩ := hback n t ht
    obtain ⟨w, hw, hwn, hwi⟩ := h.listed n u hu (hi ▸ hne)
    obtain ⟨x, hx, hxn, hxi, -⟩ := hmem _ _ hlist.symm w hw
    exact ⟨x, hx, hxn.trans hwn, hxi.trans (hwi.trans hi)⟩
  · intro t ht
    obtain ⟨u, hu, hun, hui, -⟩ := hmem _ _ hlist t ht
    obtain ⟨w, hw, hwi⟩ := h.found u hu
    obtain ⟨x, hx, hxi⟩ := hforth _ w hw
    exact ⟨x, hun ▸ hx, hxi.trans (hwi.trans hui)⟩
  · have := congrArg (List.map (·.1)) hlist
    simp only [List.map_map] at this
    exact (this ▸ h.names : _)
  · intro t ht
    obtain ⟨u, hu, hun, -, huc⟩ := hmem _ _ hlist t ht
    exact hun ▸ huc ▸ h.parts u hu
  · intro m n t u ht hu heq hne
    obtain ⟨w, hw, -, hwi⟩ := hback m t ht
    obtain ⟨x, hx, -, hxi⟩ := hback n u hu
    exact h.ids m n w x hw hx (by rw [hwi, hxi, heq]) (by rw [hwi]; exact hne)
  · rw [hnext]
    refine h.below.imp id fun hb n t ht => ?_
    obtain ⟨u, hu, -, hui⟩ := hback n t ht
    exact hui ▸ hb n u hu

theorem map_updateFirst {α β : Type} {p : α → Bool} {f : α → α} {g : α → β}
    (h : ∀ x, g (f x) = g x) (l : List α) : (Catalog.updateFirst p f l).map g = l.map g := by
  induction l with
  | nil => rfl
  | cons x l ih =>
    unfold Catalog.updateFirst
    split
    · simp [h]
    · simp [ih]

/-- Taking a row number changes no name and no id. -/
theorem Listed.allocateRowKey {c c' : Catalog} (h : Listed c) {name : Bytes} {k : Bytes}
    (hc : c.allocateRowKey name = .ok (c', k)) :
    Listed c' ∧ c'.nextId = c.nextId ∧
      ∀ n, (c'.findTable n).map (·.id) = (c.findTable n).map (·.id) := by
  unfold Catalog.allocateRowKey at hc
  split at hc
  · cases hc
  · rename_i t ht
    split at hc
    · cases hc
    · cases hc
      have hfind : ∀ n, Catalog.findTable { c with
          tables := c.tables.insert name { t with nextRowid := t.nextRowid + 1 }
          tableList := Catalog.updateFirst (·.id = t.id)
            ({ · with nextRowid := t.nextRowid + 1 }) c.tableList } n =
          if n = name then some { t with nextRowid := t.nextRowid + 1 } else c.findTable n :=
        fun n => by simp [Catalog.findTable]
      refine ⟨h.congr ?_ ?_ rfl, rfl, ?_⟩
      · intro n
        rw [hfind]
        split
        · rename_i hn
          rw [hn, ht]
          rfl
        · rfl
      · exact map_updateFirst
          (f := fun x : TableSchema => { x with nextRowid := t.nextRowid + 1 })
          (g := fun x : TableSchema => (x.name, x.id, x.columns)) (fun x => rfl) c.tableList
      · intro n
        rw [hfind]
        split
        · rename_i hn
          rw [hn, ht]
          rfl
        · rfl

/-- A new index changes no table. -/
theorem Listed.createIndex {c c' : Catalog} (h : Listed c) {name table : Bytes}
    {columns : List Bytes} {unique : Bool} (hc : c.createIndex name table columns unique = .ok c') :
    Listed c' ∧ c'.nextId = c.nextId ∧ ∀ n, c'.findTable n = c.findTable n := by
  unfold Catalog.createIndex at hc
  split at hc
  · cases hc
  · split at hc
    · cases hc
    · split at hc
      · cases hc
      · cases hc
        exact ⟨h.congr (fun n => rfl) rfl rfl, rfl, fun n => rfl⟩

/-! ## Saving and loading -/

/-- The tables of a catalog while it is loaded: `done` are the saved tables that were read, `seen`
the columns that were read for tables. -/
structure Loaded (done : List TableSchema) (seen : List Bytes) (c : Catalog) : Prop where
  listed : Listed c
  sound : ∀ n t, c.findTable n = some t →
    (t.id = 0 ∧ n ∈ seen) ∨ ∃ u ∈ done, u.name = n ∧ u.id = t.id
  complete : ∀ u ∈ done, u.id ≠ 0 → ∃ t, c.findTable u.name = some t ∧ t.id = u.id
  next : c.nextId ≠ 0

theorem Loaded.empty : Loaded [] [] .empty where
  listed := .empty
  sound n t h := by simp [Catalog.findTable, Catalog.empty] at h
  complete u hu := by cases hu
  next := by decide

/-- A restored table is added, and the next id is above its own. -/
theorem Listed.restore {c c' : Catalog} (h : Listed c) (hnext : c.nextId ≠ 0) {id : UInt32}
    {name : Bytes} {columns : List ColumnDef} (hlt : id.toNat + 1 < 2 ^ 32)
    (hcols : columns ≠ []) (hid : id ≠ 0 → ∀ n u, c.findTable n = some u → u.id ≠ id)
    (hr : c.restoreTableV2 id name columns = .ok c') :
    Listed c' ∧ c'.nextId ≠ 0 ∧ c.findTable name = none ∧
      ∀ n, c'.findTable n =
        if n = name then some (Catalog.restoredSchema id name columns) else c.findTable n := by
  obtain ⟨hfilled, hnone, rfl⟩ := CatalogStore.restoreTableV2_ok hr
  have hbelow := h.below.resolve_left hnext
  have hone : (id + 1).toNat = id.toNat + 1 := by
    have h1 : (1 : UInt32).toNat = 1 := rfl
    rw [UInt32.toNat_add, h1, Nat.mod_eq_of_lt hlt]
  have hmax : id < max c.nextId (id + 1) ∧ c.nextId ≤ max c.nextId (id + 1) := by
    have hdef : max c.nextId (id + 1) = if c.nextId ≤ id + 1 then id + 1 else c.nextId := rfl
    rw [hdef]
    split
    · rename_i hle
      refine ⟨?_, hle⟩
      rw [UInt32.lt_iff_toNat_lt]
      omega
    · rename_i hle
      rw [UInt32.le_iff_toNat_le] at hle
      refine ⟨?_, UInt32.le_refl _⟩
      rw [UInt32.lt_iff_toNat_lt]
      omega
  refine ⟨?_, ?_, hnone, fun n => findTable_addTable _ _ n⟩
  · refine Listed.addTable h hnone ⟨hfilled, hcols⟩ hid (.inr ⟨hmax.1, fun n u hu => ?_⟩)
    exact UInt32.lt_of_lt_of_le (hbelow n u hu) hmax.2
  · intro h0
    have hlt : id < (0 : UInt32) := h0 ▸ hmax.1
    exact absurd hlt UInt32.not_lt_zero

/-- The object of a table, read after those of the tables before it. -/
theorem Loaded.table {done : List TableSchema} {seen : List Bytes} {c c' : Catalog}
    (h : Loaded done seen c) {t : TableSchema} {first : ColumnDef} (hp : CatalogStore.PlainTable t)
    (hfirst : CatalogStore.PlainColumn first) (hlt : t.id.toNat + 1 < 2 ^ 32) (hname : t.name ≠ [])
    (hnew : ∀ u ∈ done, u.name ≠ t.name) (hids : t.id ≠ 0 → ∀ u ∈ done, u.id ≠ t.id)
    (hseen : t.id ≠ 0 → t.name ∉ seen)
    (hl : CatalogStore.loadTable c (CatalogStore.tableObj t first) = some c') :
    Loaded (done ++ [t]) seen c' := by
  obtain ⟨columns, hcols, heq⟩ := CatalogStore.loadTable_tableObj hp hfirst c
  rw [heq, Option.some.injEq] at hl
  have hold : ∀ n u, c.findTable n = some u →
      (u.id = 0 ∧ n ∈ seen) ∨ ∃ w ∈ done ++ [t], w.name = n ∧ w.id = u.id := by
    intro n u hu
    refine (h.sound n u hu).imp id ?_
    rintro ⟨w, hw, hwn⟩
    exact ⟨w, List.mem_append_left _ hw, hwn⟩
  cases hr : c.restoreTableV2 t.id t.name columns with
  | error e =>
    rw [hr] at hl
    subst hl
    -- a table of that name can only be one that a column was taken for
    obtain ⟨u, hu⟩ : ∃ u, c.findTable t.name = some u := by
      unfold Catalog.restoreTableV2 at hr
      rw [if_neg hname] at hr
      split at hr
      · rename_i hs
        exact Option.isSome_iff_exists.1 hs
      · cases hr
    have hzero : t.id = 0 := by
      by_contra hne
      rcases h.sound _ _ hu with ⟨-, hs⟩ | ⟨w, hw, hwn, -⟩
      · exact hseen hne hs
      · exact hnew w hw hwn
    refine ⟨h.listed, hold, ?_, h.next⟩
    intro w hw hne
    rcases List.mem_append.1 hw with hw | hw
    · exact h.complete w hw hne
    · rw [List.mem_singleton.1 hw] at hne
      exact absurd hzero hne
  | ok c₁ =>
    rw [hr] at hl
    subst hl
    have hid : t.id ≠ 0 → ∀ n u, c.findTable n = some u → u.id ≠ t.id := by
      intro hne n u hu heq
      rcases h.sound n u hu with ⟨h0, -⟩ | ⟨w, hw, -, hwi⟩
      · exact hne (heq ▸ h0)
      · exact hids hne w hw (hwi.trans heq)
    obtain ⟨hlisted, hnext, hnone, hfind⟩ := h.listed.restore h.next hlt hcols hid hr
    refine ⟨hlisted, ?_, ?_, hnext⟩
    · intro n u hu
      rw [hfind] at hu
      split at hu
      · rename_i hn
        cases hu
        exact .inr ⟨t, List.mem_append_right _ List.mem_cons_self, hn.symm, rfl⟩
      · exact hold n u hu
    · intro w hw hne
      rcases List.mem_append.1 hw with hw | hw
      · obtain ⟨u, hu, hui⟩ := h.complete w hw hne
        exact ⟨u, by rw [hfind, if_neg (hnew w hw), hu], hui⟩
      · rw [List.mem_singleton.1 hw]
        exact ⟨Catalog.restoredSchema t.id t.name columns, by rw [hfind, if_pos rfl], rfl⟩

/-- The object of a column that is not a table's first. -/
theorem Loaded.column {done : List TableSchema} {seen : List Bytes} {c c' : Catalog}
    (h : Loaded done seen c) {col : ColumnDef} (hp : CatalogStore.PlainColumn col)
    (hl : CatalogStore.loadTable c (CatalogStore.saveColumn col) = some c') :
    Loaded done (seen ++ [col.name]) c' := by
  have hold : ∀ n u, c.findTable n = some u →
      (u.id = 0 ∧ n ∈ seen ++ [col.name]) ∨ ∃ w ∈ done, w.name = n ∧ w.id = u.id :=
    fun n u hu => (h.sound n u hu).imp (And.imp_right (List.mem_append_left _)) id
  rcases CatalogStore.loadTable_saveColumn hp hl with rfl | ⟨columns, hcols, hr⟩
  · exact ⟨h.listed, hold, h.complete, h.next⟩
  · obtain ⟨hlisted, hnext, hnone, hfind⟩ :=
      h.listed.restore h.next (by decide) hcols (fun hne => absurd rfl hne) hr
    refine ⟨hlisted, ?_, ?_, hnext⟩
    · intro n u hu
      rw [hfind] at hu
      split at hu
      · rename_i hn
        cases hu
        exact .inl ⟨rfl, List.mem_append_right _ (hn ▸ List.mem_cons_self)⟩
      · exact hold n u hu
    · intro w hw hne
      obtain ⟨u, hu, hui⟩ := h.complete w hw hne
      refine ⟨u, ?_, hui⟩
      rw [hfind, if_neg, hu]
      rintro heq
      rw [heq, hnone] at hu
      cases hu

theorem Loaded.columns {done : List TableSchema} {cols : List ColumnDef} {seen : List Bytes}
    {c c' : Catalog} (h : Loaded done seen c) (hp : ∀ col ∈ cols, CatalogStore.PlainColumn col)
    (hl : (cols.map CatalogStore.saveColumn).foldlM CatalogStore.loadTable c = some c') :
    Loaded done (seen ++ cols.map (·.name)) c' := by
  induction cols generalizing seen c with
  | nil =>
    cases hl
    simpa using h
  | cons col cols ih =>
    rw [List.map_cons, List.foldlM_cons] at hl
    obtain ⟨c₁, h1, h2⟩ := Option.bind_eq_some_iff.1 hl
    have := ih (h.column (hp col List.mem_cons_self) h1)
      (fun x hx => hp x (List.mem_cons_of_mem _ hx)) h2
    simpa using this

/-- **The tables of a saved catalog, read one after another.** -/
theorem Loaded.tables {src : Catalog} (hs : Listed src)
    (hp : ∀ t ∈ src.tableList, CatalogStore.PlainTable t)
    (hlt : ∀ t ∈ src.tableList, t.id.toNat + 1 < 2 ^ 32)
    (hnames : ∀ before t after, src.tableList = before ++ t :: after → t.id ≠ 0 →
      ∀ u ∈ before, t.name ∉ u.columns.tail.map (·.name))
    {ts done : List TableSchema} (hsplit : src.tableList = done ++ ts) {c c' : Catalog}
    (h : Loaded done (done.flatMap fun t => t.columns.tail.map (·.name)) c)
    (hl : (ts.flatMap CatalogStore.tableObjs).foldlM CatalogStore.loadTable c = some c') :
    Loaded src.tableList (src.tableList.flatMap fun t => t.columns.tail.map (·.name)) c' := by
  induction ts generalizing done c with
  | nil =>
    cases hl
    rw [List.append_nil] at hsplit
    exact hsplit ▸ h
  | cons t ts ih =>
    have ht : t ∈ src.tableList := hsplit ▸ List.mem_append_right _ List.mem_cons_self
    have hnodup := hs.names
    rw [hsplit, List.map_append, List.map_cons, List.nodup_append] at hnodup
    have hnew : ∀ u ∈ done, u.name ≠ t.name := fun u hu =>
      hnodup.2.2 _ (List.mem_map_of_mem hu) _ List.mem_cons_self
    have hids : t.id ≠ 0 → ∀ u ∈ done, u.id ≠ t.id := by
      intro hne u hu heq
      obtain ⟨x, hx, hxi⟩ := hs.found u (hsplit ▸ List.mem_append_left _ hu)
      obtain ⟨y, hy, hyi⟩ := hs.found t ht
      exact hnew u hu (hs.ids _ _ x y hx hy (by rw [hxi, hyi, heq]) (by rw [hxi, heq]; exact hne))
    have hseen : t.id ≠ 0 → t.name ∉ done.flatMap fun t => t.columns.tail.map (·.name) := by
      intro hne hm
      obtain ⟨u, hu, hun⟩ := List.mem_flatMap.1 hm
      exact hnames done t ts hsplit hne u hu hun
    rw [List.flatMap_cons, List.foldlM_append] at hl
    obtain ⟨c₂, h1, h2⟩ := Option.bind_eq_some_iff.1 hl
    cases hc : t.columns with
    | nil => exact absurd hc (hs.parts t ht).2
    | cons first others =>
      have hplain : ∀ col ∈ first :: others, CatalogStore.PlainColumn col :=
        fun col hcol => (hp t ht).columns col (hc ▸ hcol)
      rw [CatalogStore.tableObjs, hc] at h1
      simp only [List.foldlM_cons] at h1
      obtain ⟨c₁, h3, h4⟩ := Option.bind_eq_some_iff.1 h1
      have htable := h.table (hp t ht) (hplain first List.mem_cons_self) (hlt t ht)
        (hs.parts t ht).1 hnew hids hseen h3
      have hcolumns := htable.columns (fun x hx => hplain x (List.mem_cons_of_mem _ hx)) h4
      have hsplit' : src.tableList = (done ++ [t]) ++ ts := by simpa using hsplit
      refine ih hsplit' ?_ h2
      simpa [hc] using hcolumns

/-- **A catalog that was saved and loaded**: its tables of an id other than zero are the same, and
no id that something is stored under comes again. -/
theorem Listed.reload {d d' : SqlStore} (h : Listed d.catalog) (hd : Reloadable d)
    (hr : d.reopen = some d') :
    Listed d'.catalog ∧ d'.rows = d.rows ∧ d'.catalog.nextId ≠ 0 ∧
      ∀ t ∈ d.catalog.tableList, t.id ≠ 0 →
        ∃ u, d'.catalog.findTable t.name = some u ∧ u.id = t.id := by
  unfold SqlStore.reopen at hr
  obtain ⟨c, hc, rfl⟩ := Option.map_eq_some_iff.1 hr
  unfold CatalogStore.load at hc
  obtain ⟨c₁, h1, h2⟩ := Option.bind_eq_some_iff.1 hc
  obtain rfl := CatalogStore.loadIndexes_eq h2
  unfold CatalogStore.loadTables at h1
  rw [CatalogStore.nameObjects_save hd.plain fun t ht => (h.parts t ht).2,
    List.foldlM_append] at h1
  obtain ⟨c₂, h3, h4⟩ := Option.bind_eq_some_iff.1 h1
  have hindexes : ∀ (xs : List IndexDef), (∀ x ∈ xs, CatalogStore.PlainIndex x) → ∀ c₀ : Catalog,
      (xs.map CatalogStore.saveIndex).foldlM CatalogStore.loadTable c₀ = some c₀ := by
    intro xs
    induction xs with
    | nil => exact fun _ c₀ => rfl
    | cons x xs ih =>
      intro hxs c₀
      rw [List.map_cons, List.foldlM_cons,
        CatalogStore.loadTable_saveIndex (hxs x List.mem_cons_self)]
      exact ih (fun y hy => hxs y (List.mem_cons_of_mem _ hy)) c₀
  rw [hindexes _ hd.plain.indexes, Option.some.injEq] at h4
  subst h4
  have hloaded := Loaded.tables h hd.plain.tables hd.ids hd.names
    (List.nil_append _).symm Loaded.empty h3
  exact ⟨hloaded.listed, rfl, hloaded.next, hloaded.complete⟩

/-! ## Writing rows -/

/-- The keys of `d'` that are not keys of `d` start with the id. -/
def AddsUnder (id : UInt32) (d d' : SqlStore) : Prop :=
  ∀ k, d'.Holds k → d.Holds k ∨ tableKeyFront id <+: k

theorem AddsUnder.refl (id : UInt32) (d : SqlStore) : AddsUnder id d d := fun _ h => .inl h

theorem AddsUnder.trans {id : UInt32} {d d₁ d₂ : SqlStore} (h₁ : AddsUnder id d d₁)
    (h₂ : AddsUnder id d₁ d₂) : AddsUnder id d d₂ :=
  fun k hk => (h₂ k hk).elim (h₁ k) .inr

theorem AddsUnder.put {id : UInt32} {d : SqlStore} {key : Key} (h : tableKeyFront id <+: key)
    (value : Bytes) : AddsUnder id d (d.put key value) := by
  rintro k ⟨v, hv⟩
  rw [SqlStore.put, SortedMap.find?_insert] at hv
  split at hv
  · rename_i hk
    exact .inr (hk ▸ h)
  · exact .inl ⟨v, hv⟩

theorem tableKeyFront_encodeRowKey (id : UInt32) (pk : Bytes) :
    tableKeyFront id <+: encodeRowKey id pk := ⟨pk, rfl⟩

theorem tableKeyFront_encodeIndexKey (id x : UInt32) (value pk : Bytes) :
    tableKeyFront id <+: encodeIndexKey id x value pk := ⟨_, rfl⟩

/-- A fold of steps that each leave the catalog and add under the id. -/
theorem AddsUnder.foldl {α : Type} {id : UInt32} {f : SqlStore → α → SqlStore}
    (hf : ∀ d x, (f d x).catalog = d.catalog ∧ AddsUnder id d (f d x)) (l : List α)
    (d : SqlStore) : (l.foldl f d).catalog = d.catalog ∧ AddsUnder id d (l.foldl f d) := by
  induction l generalizing d with
  | nil => exact ⟨rfl, .refl id d⟩
  | cons x l ih =>
    obtain ⟨hc, ha⟩ := hf d x
    obtain ⟨hc', ha'⟩ := ih (f d x)
    exact ⟨hc'.trans hc, ha.trans ha'⟩

theorem syncIndexEntries_adds (d : SqlStore) (table : TableSchema) (pk : Bytes)
    (fields : Fields) : (d.syncIndexEntries table pk fields).catalog = d.catalog ∧
      AddsUnder table.id d (d.syncIndexEntries table pk fields) := by
  apply AddsUnder.foldl
  intro d x
  cases x.columns.head?.bind fields.find? with
  | none => exact ⟨rfl, .refl _ d⟩
  | some value => exact ⟨rfl, .put (tableKeyFront_encodeIndexKey _ _ _ _) _⟩

theorem indexRow_adds (codec : RowCodec) (table : TableSchema) (d : SqlStore) (kv : Key × Bytes) :
    (d.indexRow codec table kv).catalog = d.catalog ∧
      AddsUnder table.id d (d.indexRow codec table kv) := by
  unfold SqlStore.indexRow
  cases decodeRowKey kv.1 with
  | none => exact ⟨rfl, .refl _ d⟩
  | some pk => exact syncIndexEntries_adds _ _ _ _

section
variable {codec : RowCodec} {s : ShardEngine} {d d' : SqlStore} {b : Bool}

theorem insertRowKey_catalog {c c' : Catalog} {table : TableSchema} {fields : Fields}
    {key : Bytes} (h : SqlStore.insertRowKey codec c table fields = .ok (c', key)) :
    c' = c ∨ c.allocateRowKey table.name = .ok (c', key) := by
  unfold SqlStore.insertRowKey at h
  split at h
  · cases h
    exact .inl rfl
  · split at h
    · exact .inr h
    · split at h
      · cases h
        exact .inl rfl
      · split at h
        · cases h
        · cases h
          exact .inl rfl

/-- INSERT writes nothing, or adds under the id of its table and succeeds. -/
theorem insert_adds {stmt : InsertStmt} (h : (SqlOp.insert stmt).run codec s d = some (d', b)) :
    (d' = d ∧ b = false) ∨
      ∃ t, d.catalog.findTable stmt.table = some t ∧
        (d'.catalog = d.catalog ∨ ∃ k, d.catalog.allocateRowKey t.name = .ok (d'.catalog, k)) ∧
        AddsUnder t.id d d' ∧ (b = false → d'.rows = d.rows) := by
  simp only [SqlOp.run, Option.some.injEq, Prod.mk.injEq] at h
  obtain ⟨rfl, rfl⟩ := h
  unfold SqlStore.execInsert
  cases ht : d.catalog.findTable stmt.table with
  | none => exact .inl ⟨rfl, rfl⟩
  | some t =>
    simp only
    cases SqlStore.insertFields t stmt with
    | error e => exact .inl ⟨rfl, rfl⟩
    | ok fields =>
      simp only
      cases hkey : SqlStore.insertRowKey codec d.catalog t fields with
      | error e => exact .inl ⟨rfl, rfl⟩
      | ok r =>
        obtain ⟨c, rowKey⟩ := r
        refine .inr ⟨t, rfl, ?_⟩
        have hc : c = d.catalog ∨ ∃ k, d.catalog.allocateRowKey t.name = .ok (c, k) :=
          (insertRowKey_catalog hkey).imp id fun hk => ⟨rowKey, hk⟩
        have hsame : AddsUnder t.id d { d with catalog := c } := fun k hk => .inl hk
        simp only
        split
        · split
          · exact ⟨hc, hsame, fun _ => rfl⟩
          · exact ⟨hc, hsame, fun _ => rfl⟩
        · cases SqlStore.insertStored codec t stmt fields with
          | error e => exact ⟨hc, hsame, fun _ => rfl⟩
          | ok stored =>
            simp only
            obtain ⟨hcat, hadds⟩ := syncIndexEntries_adds
              (SqlStore.put { d with catalog := c } (encodeRowKey t.id rowKey) stored) t rowKey
              (if 2 ≤ t.schemaVersion then codec.decodeRowFields stored else fields)
            refine ⟨?_, ?_, fun hb => by cases hb⟩
            · rw [hcat]
              exact hc
            · exact (hsame.trans (.put (tableKeyFront_encodeRowKey _ _) _)).trans hadds

/-- CREATE INDEX adds under the id of its table, and nothing where its scan finds nothing. -/
theorem createIndex_adds {name table : Bytes} {columns : List Bytes} {unique : Bool}
    (h : (SqlOp.createIndex name table columns unique).run codec s d = some (d', b)) :
    d' = d ∨ ∃ t c, d.catalog.findTable table = some t ∧
      d.catalog.createIndex name table columns unique = .ok c ∧ d'.catalog = c ∧
      AddsUnder t.id d d' ∧
      ((∀ k, d.Holds k → planMatches (tableScanPlan t.id) k = false) → d'.rows = d.rows) := by
  simp only [SqlOp.run, Option.some.injEq, Prod.mk.injEq] at h
  obtain ⟨rfl, -⟩ := h
  unfold SqlStore.execCreateIndex
  cases ht : d.catalog.findTable table with
  | none => exact .inl rfl
  | some t =>
    simp only
    cases hc : d.catalog.createIndex name table columns unique with
    | error e => exact .inl rfl
    | ok c =>
      simp only
      refine .inr ⟨t, c, rfl, rfl, ?_⟩
      cases hscan : SqlStore.scanRange s { d with catalog := c } t.id with
      | error e => exact ⟨rfl, fun k hk => .inl hk, fun _ => rfl⟩
      | ok rows =>
        simp only
        obtain ⟨hcat, hadds⟩ := AddsUnder.foldl (fun d kv => indexRow_adds codec t d kv) rows
          { d with catalog := c }
        refine ⟨hcat, fun k hk => hadds k hk, fun hnone => ?_⟩
        have hrows : rows = [] := by
          unfold SqlStore.scanRange at hscan
          split at hscan
          · cases hscan
          · cases hscan
            rw [SqlStore.engineScan, List.filter_eq_nil_iff]
            rintro ⟨k, v⟩ hkv
            simpa using hnone k ⟨v, SortedMap.mem_entries_iff.1 hkv⟩
        rw [hrows]
        rfl

end

/-! ## Runs -/

/-- The tables' ids, the stored keys' ids below the next one, and the tables that nothing was
inserted into. -/
structure FreshInv (d : SqlStore) (fresh : List Bytes) : Prop where
  listed : Listed d.catalog
  stored : ∀ k, d.Holds k → ∃ m, tableKeyFront m <+: k ∧
    (d.catalog.nextId = 0 ∨ m < d.catalog.nextId)
  fresh : ∀ n ∈ fresh, ∃ t, d.catalog.findTable n = some t ∧ t.id ≠ 0 ∧ d.Unused t.id

theorem FreshInv.empty : FreshInv .empty [] where
  listed := .empty
  stored k hk := by
    obtain ⟨v, hv⟩ := hk
    cases hv
  fresh n hn := by cases hn

/-- No key is added under another id. -/
theorem SqlStore.Unused.adds {d d' : SqlStore} {m id : UInt32} (h : d.Unused id) (hne : m ≠ id)
    (ha : AddsUnder m d d') : d'.Unused id := by
  intro k hk hid
  rcases ha k hk with hold | hm
  · exact h k hold hid
  · exact hne (tableKeyFront_inj hm hid)

/-- A statement that adds under the id of a table and keeps names and ids. -/
theorem FreshInv.adds {d d' : SqlStore} {fresh fresh' : List Bytes} (h : FreshInv d fresh)
    {name : Bytes} {t : TableSchema} (ht : d.catalog.findTable name = some t)
    (hlisted : Listed d'.catalog) (hnext : d'.catalog.nextId = d.catalog.nextId)
    (hids : ∀ n, (d'.catalog.findTable n).map (·.id) = (d.catalog.findTable n).map (·.id))
    (hadds : AddsUnder t.id d d') (hsub : ∀ n ∈ fresh', n ∈ fresh)
    (hrows : name ∈ fresh' → d'.rows = d.rows) : FreshInv d' fresh' := by
  refine ⟨hlisted, ?_, ?_⟩
  · intro k hk
    rw [hnext]
    rcases hadds k hk with hold | hm
    · exact h.stored k hold
    · exact ⟨t.id, hm, h.listed.below.imp id fun hb => hb name t ht⟩
  · intro n hn
    obtain ⟨u, hu, hu0, hunused⟩ := h.fresh n (hsub n hn)
    have hmap := hids n
    rw [hu, Option.map_some, Option.map_eq_some_iff] at hmap
    obtain ⟨u', hu', huid⟩ := hmap
    refine ⟨u', hu', huid ▸ hu0, huid ▸ ?_⟩
    by_cases heq : t.id = u.id
    · obtain rfl := h.listed.ids name n t u ht hu heq (heq ▸ hu0)
      intro k hk
      rw [SqlStore.Holds, hrows hn] at hk
      exact hunused k hk
    · exact hunused.adds heq hadds

/-- The id that a new table gets is one that nothing is stored under. -/
theorem FreshInv.next_unused {d : SqlStore} {fresh : List Bytes} (h : FreshInv d fresh)
    (hnext : d.catalog.nextId ≠ 0) : d.Unused d.catalog.nextId := by
  intro k hk hfront
  obtain ⟨m, hm, hlt⟩ := h.stored k hk
  obtain rfl := tableKeyFront_inj hm hfront
  exact UInt32.lt_irrefl _ (hlt.resolve_left hnext)

section
variable {codec : RowCodec} {s : ShardEngine} {d d' : SqlStore} {fresh : List Bytes} {b : Bool}

theorem FreshInv.createTable (h : FreshInv d fresh) {name : Bytes} {columns : List ColumnDef}
    (hnext : d.catalog.nextId ≠ 0)
    (hr : (SqlOp.createTable name columns).run codec s d = some (d', b)) :
    FreshInv d' (freshAfter fresh b (.createTable name columns)) := by
  simp only [SqlOp.run, Option.some.injEq, Prod.mk.injEq] at hr
  obtain ⟨rfl, rfl⟩ := hr
  unfold SqlStore.execCreateTable
  cases hc : d.catalog.createTable name columns with
  | error e => exact h
  | ok c =>
    obtain ⟨hlisted, hnone, hid, hfind, t, ht, hti⟩ := h.listed.createTable hnext hc
    have hunused := h.next_unused hnext
    refine ⟨hlisted, ?_, ?_⟩
    · intro k hk
      obtain ⟨m, hm, hlt⟩ := h.stored k hk
      refine ⟨m, hm, ?_⟩
      show c.nextId = 0 ∨ m < c.nextId
      rcases hlisted.below with h0 | hb
      · exact .inl h0
      · exact .inr (UInt32.lt_trans (hlt.resolve_left hnext) (hti ▸ hb name t ht))
    · intro n hn
      rcases List.mem_cons.1 hn with rfl | hn
      · exact ⟨t, ht, hti ▸ hnext, hti ▸ hunused⟩
      · obtain ⟨u, hu, hu0, hkeep⟩ := h.fresh n hn
        rcases hfind n with heq | rfl
        · exact ⟨u, heq.trans hu, hu0, hkeep⟩
        · rw [hnone] at hu
          cases hu

theorem FreshInv.insert (h : FreshInv d fresh) {stmt : InsertStmt}
    (hr : (SqlOp.insert stmt).run codec s d = some (d', b)) :
    FreshInv d' (freshAfter fresh b (.insert stmt)) := by
  have hsub : ∀ n ∈ freshAfter fresh b (.insert stmt), n ∈ fresh := by
    intro n hn
    cases b with
    | false => exact hn
    | true => exact (List.mem_filter.1 hn).1
  rcases insert_adds hr with ⟨rfl, rfl⟩ | ⟨t, ht, hc, hadds, hrows⟩
  · exact h
  · have hspec : Listed d'.catalog ∧ d'.catalog.nextId = d.catalog.nextId ∧
        ∀ n, (d'.catalog.findTable n).map (·.id) = (d.catalog.findTable n).map (·.id) := by
      rcases hc with hc | ⟨k, hk⟩
      · rw [hc]
        exact ⟨h.listed, rfl, fun n => rfl⟩
      · exact h.listed.allocateRowKey hk
    obtain ⟨hlisted, hnext, hids⟩ := hspec
    refine h.adds ht hlisted hnext hids hadds hsub fun hm => hrows ?_
    cases b with
    | false => rfl
    | true => simp [freshAfter] at hm

theorem FreshInv.createIndex (h : FreshInv d fresh) {name table : Bytes} {columns : List Bytes}
    {unique : Bool} (hk : Keeps d (.createIndex name table columns unique))
    (hr : (SqlOp.createIndex name table columns unique).run codec s d = some (d', b)) :
    FreshInv d' (freshAfter fresh b (.createIndex name table columns unique)) := by
  rcases createIndex_adds hr with rfl | ⟨t, c, ht, hc, hcat, hadds, hrows⟩
  · exact h
  · obtain ⟨hlisted, hnext, hfind⟩ := h.listed.createIndex hc
    refine h.adds ht (hcat ▸ hlisted) (hcat ▸ hnext) (fun n => by rw [hcat, hfind]) hadds
      (fun n hn => hn) fun hm => ?_
    obtain ⟨u, hu, -, hunused⟩ := h.fresh table hm
    rw [ht] at hu
    cases hu
    exact hrows (hk t ht hunused)

theorem FreshInv.dropTable (h : FreshInv d fresh) {name : Bytes}
    (hr : (SqlOp.dropTable name).run codec s d = some (d', b)) :
    FreshInv d' (freshAfter fresh b (.dropTable name)) := by
  simp only [SqlOp.run, Option.some.injEq, Prod.mk.injEq] at hr
  obtain ⟨rfl, rfl⟩ := hr
  unfold SqlStore.execDropTable
  cases hc : d.catalog.dropTable name with
  | error e => exact ⟨h.listed, h.stored, fun n hn => h.fresh n (List.mem_filter.1 hn).1⟩
  | ok c =>
    obtain ⟨hlisted, hnext, hfind⟩ := h.listed.dropTable hc
    refine ⟨hlisted, ?_, ?_⟩
    · intro k hk
      obtain ⟨m, hm, hlt⟩ := h.stored k hk
      exact ⟨m, hm, hnext.symm ▸ hlt⟩
    · intro n hn
      obtain ⟨hn, hne⟩ := List.mem_filter.1 hn
      obtain ⟨u, hu, hkeep⟩ := h.fresh n hn
      refine ⟨u, ?_, hkeep⟩
      show c.findTable n = some u
      rw [hfind, if_neg (by simpa using hne), hu]

theorem FreshInv.reload (h : FreshInv d fresh) (hd : Reloadable d)
    (hr : SqlOp.reload.run codec s d = some (d', b)) :
    FreshInv d' (freshAfter fresh b .reload) := by
  obtain ⟨d₁, h1, heq⟩ := Option.map_eq_some_iff.1 hr
  cases heq
  obtain ⟨hlisted, hrows, hnext, hkept⟩ := h.listed.reload hd h1
  have hbelow := hlisted.below.resolve_left hnext
  refine ⟨hlisted, ?_, ?_⟩
  · intro k hk
    rw [SqlStore.Holds, hrows] at hk
    obtain ⟨m, hm, -⟩ := h.stored k hk
    refine ⟨m, hm, .inr ?_⟩
    by_cases h0 : m = 0
    · rw [h0, UInt32.lt_iff_toNat_lt]
      exact Nat.pos_of_ne_zero fun h0 => hnext (UInt32.toNat_inj.1 h0)
    · obtain ⟨t, ht, hle⟩ := (hd.covered k hk m hm).resolve_left h0
      have ht0 : t.id ≠ 0 := by
        intro ht0
        rw [ht0] at hle
        exact h0 (UInt32.le_zero_iff.1 hle)
      obtain ⟨u, hu, hui⟩ := hkept t ht ht0
      exact UInt32.lt_of_le_of_lt hle (hui ▸ hbelow _ u hu)
  · intro n hn
    obtain ⟨t, ht, ht0, hunused⟩ := h.fresh n hn
    obtain ⟨w, hw, hwn, hwi⟩ := h.listed.listed n t ht ht0
    obtain ⟨u, hu, hui⟩ := hkept w hw (hwi ▸ ht0)
    refine ⟨u, hwn ▸ hu, ?_, ?_⟩
    · rw [hui, hwi]
      exact ht0
    · intro k hk
      rw [SqlStore.Holds, hrows] at hk
      rw [hui, hwi]
      exact hunused k hk

/-- **One statement.** -/
theorem FreshInv.step (h : FreshInv d fresh) {op : SqlOp} (hk : Keeps d op)
    (hr : op.run codec s d = some (d', b)) : FreshInv d' (freshAfter fresh b op) := by
  cases op with
  | createTable name columns => exact h.createTable hk hr
  | insert stmt => exact h.insert hr
  | createIndex name table columns unique => exact h.createIndex hk hr
  | dropTable name => exact h.dropTable hr
  | reload => exact h.reload hk hr

theorem SqlRun.inv (h : SqlRun codec s Keeps d fresh) : FreshInv d fresh := by
  induction h with
  | empty => exact .empty
  | step _ hk hr ih => exact ih.step hk hr

end

/-- The tables created and not inserted into since are there, with nothing under their ids. -/
def FreshEmpty (d : SqlStore) (fresh : List Bytes) : Prop :=
  ∀ n ∈ fresh, ∃ t, d.catalog.findTable n = some t ∧ d.Unused t.id

/-- **New tables are empty, and a new table's id is one that nothing is stored under**, in every
run whose steps keep to `Keeps`. -/
theorem SqlRun.freshEmpty {codec : RowCodec} {s : ShardEngine} {d : SqlStore} {fresh : List Bytes}
    (h : SqlRun codec s Keeps d fresh) :
    FreshEmpty d fresh ∧ ∀ name columns d', Keeps d (.createTable name columns) →
      (SqlOp.createTable name columns).run codec s d = some (d', true) →
      ∃ t, d'.catalog.findTable name = some t ∧ d.Unused t.id := by
  have hempty : ∀ {d : SqlStore} {fresh : List Bytes}, FreshInv d fresh → FreshEmpty d fresh := by
    intro d fresh hinv n hn
    obtain ⟨t, ht, -, hunused⟩ := hinv.fresh n hn
    exact ⟨t, ht, hunused⟩
  refine ⟨hempty h.inv, fun name columns d' hk hr => ?_⟩
  obtain ⟨t, ht, hunused⟩ := hempty (h.inv.step hk hr) name List.mem_cons_self
  refine ⟨t, ht, ?_⟩
  -- CREATE TABLE stores nothing
  have hrows : d'.rows = d.rows := by
    simp only [SqlOp.run, Option.some.injEq, Prod.mk.injEq] at hr
    obtain ⟨rfl, -⟩ := hr
    unfold SqlStore.execCreateTable
    split <;> rfl
  intro k hk
  exact hunused k (by rwa [SqlStore.Holds, hrows])

/-! ## Runs as lists of statements -/

section
variable (codec : RowCodec) (s : ShardEngine)

def runAll : List SqlOp → SqlStore × List Bytes → Option (SqlStore × List Bytes)
  | [], r => some r
  | op :: ops, r =>
    (op.run codec s r.1).bind fun r' => runAll ops (r'.1, freshAfter r.2 r'.2 op)

variable {codec s}

theorem SqlRun.runAll {d d' : SqlStore} {fresh fresh' : List Bytes}
    (h : SqlRun codec s (fun _ _ => True) d fresh) {ops : List SqlOp}
    (hr : Sql.runAll codec s ops (d, fresh) = some (d', fresh')) :
    SqlRun codec s (fun _ _ => True) d' fresh' := by
  induction ops generalizing d fresh with
  | nil =>
    cases hr
    exact h
  | cons op ops ih =>
    obtain ⟨r, h1, h2⟩ := Option.bind_eq_some_iff.1 hr
    exact ih (h.step trivial h1) h2

end

/-- Rows of no columns. -/
def bareCodec : RowCodec where
  encodeRow _ _ _ := .ok []
  decodeRowFields _ := SortedMap.empty
  validateRowConstraints _ _ := .ok ()
  begin _ := []

def bareShard : ShardEngine :=
  ShardEngine.open ⟨.kSync, true, 1, .kFastOpen, false, false, fun _ => 0⟩ ShardFiles.none

/-- A table of the column `k`, its primary key. -/
def createK (name : String) : SqlOp :=
  .createTable (ascii name) [⟨ascii "k", textType, false, true, []⟩]

/-- A table is created, dropped, and another created. -/
theorem SqlRun.freshEmpty_createdAgain :
    ∃ d, SqlRun bareCodec bareShard Keeps d [ascii "b"] ∧ FreshEmpty d [ascii "b"] := by
  have hk₁ : Keeps .empty (createK "a") := show (1 : UInt32) ≠ 0 by decide
  have h₁ : SqlRun bareCodec bareShard Keeps _ _ := SqlRun.step SqlRun.empty hk₁ rfl
  have hk₂ : ∀ d, Keeps d (.dropTable (ascii "a")) := fun _ => trivial
  have h₂ := SqlRun.step h₁ (hk₂ _) rfl
  have hk₃ : ∀ d : SqlStore, d.catalog.nextId = 2 → Keeps d (createK "b") := by
    intro d hd
    show d.catalog.nextId ≠ 0
    rw [hd]
    decide
  have h₃ := SqlRun.step h₂ (hk₃ _ rfl) rfl
  exact ⟨_, h₃, (SqlRun.freshEmpty h₃).1⟩

/-- A row, a drop, a reload: the row is in the next table. -/
theorem freshEmpty_fails : ¬ ∀ codec s d fresh, SqlRun codec s (fun _ _ => True) d fresh →
    FreshEmpty d fresh := by
  intro h
  have hrun : (runAll bareCodec bareShard [createK "a",
      .insert ⟨ascii "a", [], [ascii "x"], [], [], []⟩, .dropTable (ascii "a"), .reload,
      createK "b"] (.empty, [])).map (fun r => (r.2, (r.1.catalog.findTable (ascii "b")).map (·.id),
        r.1.rows.find? (encodeRowKey 1 (ascii "x")))) =
      some ([ascii "b"], some 1, some []) := by
    decide +kernel
  obtain ⟨⟨d, fresh⟩, hall, heq⟩ := Option.map_eq_some_iff.1 hrun
  injection heq with hfresh heq
  injection heq with hid hrow
  obtain ⟨t, ht, hunused⟩ := h _ _ d fresh (SqlRun.empty.runAll hall) (ascii "b")
    (by rw [show fresh = [ascii "b"] from hfresh]; exact List.mem_cons_self)
  have ht1 : t.id = 1 := by
    rw [ht, Option.map_some, Option.some.injEq] at hid
    exact hid
  exact hunused _ ⟨[], hrow⟩ (ht1 ▸ tableKeyFront_encodeRowKey 1 _)

end EBTree.Sql
