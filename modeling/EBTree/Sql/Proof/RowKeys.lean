import EBTree.Sql.Executor

/-!
# Which keys the scan of a table visits

Row keys and index entries are texts that start with the decimal id of their table and a colon,
and a scan runs from one id's keys to the next id's.

* `prepare_tableScanPlan`: the plan is accepted unless the id is written in nines only, or is the
  last one.
* `planMatches_tableScanPlan`: the keys in its range. Besides the table's own they are those of
  ids that straddle it (`Straddles`), and the row of the next id with the empty key.
* `isIndexEncodedKey_encodeRowKey`: the primary keys that make a row look like an index entry.
* `tableIsolated_iff`: a scan visits exactly the rows of its table exactly when none of this is
  stored.
-/

set_option autoImplicit false

namespace EBTree.Sql

open Lib Engine
open BTree (TypedPlan planMatches)

/-- What SQL statements store: rows and index entries. -/
inductive Stored
  | row (tableId : UInt32) (pk : Bytes)
  | index (tableId indexId : UInt32) (colValue pk : Bytes)
  deriving DecidableEq, Repr

namespace Stored

def tableId : Stored → UInt32
  | row tableId _ => tableId
  | index tableId _ _ _ => tableId

def key : Stored → Key
  | row tableId pk => encodeRowKey tableId pk
  | index tableId indexId colValue pk => encodeIndexKey tableId indexId colValue pk

/-- The part of the key behind the table's front. -/
def rest : Stored → Bytes
  | row _ pk => pk
  | index _ indexId colValue pk => 105 :: (decimal indexId.toNat ++ (58 :: (colValue ++ 58 :: pk)))

theorem key_eq (e : Stored) : e.key = decimal e.tableId.toNat ++ 58 :: e.rest := by
  cases e <;> simp [key, tableId, rest, encodeRowKey, encodeIndexKey, tableKeyFront]

end Stored

/-- A database that holds these rows and entries. -/
def storeOf (entries : List (Stored × Bytes)) : SqlStore :=
  ⟨.empty, SortedMap.empty.insertAll (entries.map fun e => (e.1.key, e.2))⟩

/-! ## The plan -/

theorem colon_above : 57 < (58 : UInt8).toNat := by decide

theorem tableKeyFront_succ {id : UInt32} (h : id.toNat + 1 < 2 ^ 32) :
    tableKeyFront (id + 1) = decimal (id.toNat + 1) ++ [58] := by
  have : (id + 1).toNat = id.toNat + 1 := by
    rw [UInt32.toNat_add]
    exact Nat.mod_eq_of_lt h
  rw [tableKeyFront, this]

/-- **Prepare accepts the plan of a table unless its id is written in nines only, or has no
successor.** -/
theorem prepare_tableScanPlan (s : ShardEngine) (id : UInt32) :
    s.prepare (tableScanPlan id) = .ok () ↔ ¬ Nines id.toNat ∧ id.toNat + 1 < 2 ^ 32 := by
  have hprep : s.prepare (tableScanPlan id) = .ok () ↔
      ¬ tableKeyFront (id + 1) < tableKeyFront id := by
    simp [ShardEngine.prepare, tableScanPlan]
  rw [hprep]
  have hid := id.toNat_lt
  by_cases hlast : id.toNat + 1 < 2 ^ 32
  · rw [tableKeyFront_succ hlast, tableKeyFront]
    by_cases hn : Nines id.toNat
    · exact iff_of_false (fun h => h (decimal_succ_lt_of_nines hn _ _)) fun h => h.1 hn
    · refine iff_of_true ?_ ⟨hn, hlast⟩
      exact not_lt.2 ((decimal_between_iff colon_above hn).2 (.inl rfl)).2
  · -- the id after the last one is zero
    obtain rfl : id = 4294967295 := by
      apply UInt32.toNat_inj.1
      rw [show (4294967295 : UInt32).toNat = 4294967295 by rfl]
      omega
    exact iff_of_false (fun h => h (by decide +kernel)) fun h => hlast h.2

/-- **The keys in the range of a table's plan.** -/
theorem planMatches_tableScanPlan {id : UInt32} (hn : ¬ Nines id.toNat)
    (hlast : id.toNat + 1 < 2 ^ 32) (e : Stored) :
    planMatches (tableScanPlan id) e.key = true ↔
      e.tableId = id ∨ Straddles id.toNat e.tableId.toNat ∨ e = .row (id + 1) [] := by
  have hbetween := decimal_between_iff colon_above (m := e.tableId.toNat) (r := e.rest)
    hn
  have hmatch : planMatches (tableScanPlan id) e.key = true ↔
      tableKeyFront id ≤ e.key ∧ e.key ≤ tableKeyFront (id + 1) := by
    unfold planMatches tableScanPlan
    exact decide_eq_true_iff
  rw [hmatch, tableKeyFront_succ hlast, tableKeyFront, e.key_eq, hbetween, UInt32.toNat_inj]
  have hnext : (e.tableId.toNat = id.toNat + 1 ∧ e.rest = []) ↔ e = .row (id + 1) [] := by
    have hsucc : (id + 1).toNat = id.toNat + 1 := by
      rw [UInt32.toNat_add]
      exact Nat.mod_eq_of_lt hlast
    rw [← hsucc, UInt32.toNat_inj]
    cases e with
    | row t pk => simp [Stored.tableId, Stored.rest]
    | index t x v pk => simp [Stored.rest]
  rw [hnext]

/-! ## Rows that look like index entries -/

/-- An `i`, digits and a colon. -/
def IndexLike (pk : Bytes) : Prop :=
  ∃ ds more, ds ≠ [] ∧ (∀ b ∈ ds, IsDigit b) ∧ pk = 105 :: (ds ++ 58 :: more)

theorem dropWhile_ne_colon (id : UInt32) (more : Bytes) :
    (encodeRowKey id more).dropWhile (· ≠ 58) = 58 :: more := by
  have hd : ∀ b ∈ decimal id.toNat, b ≠ 58 := by
    rintro b hb rfl
    exact absurd (isDigit_of_mem_decimal hb).2 (by decide)
  rw [encodeRowKey, tableKeyFront, List.append_assoc, List.dropWhile_append_of_pos (by simpa using hd)]
  simp

theorem takeWhile_ne_colon (id : UInt32) (more : Bytes) :
    (encodeRowKey id more).takeWhile (· ≠ 58) = decimal id.toNat := by
  have hd : ∀ b ∈ decimal id.toNat, b ≠ 58 := by
    rintro b hb rfl
    exact absurd (isDigit_of_mem_decimal hb).2 (by decide)
  rw [encodeRowKey, tableKeyFront, List.append_assoc,
    List.takeWhile_append_of_pos (by simpa using hd)]
  simp

/-- **A row is taken for an index entry exactly when its primary key starts like one.** -/
theorem isIndexEncodedKey_encodeRowKey (id : UInt32) (pk : Bytes) :
    isIndexEncodedKey (encodeRowKey id pk) = true ↔ IndexLike pk := by
  have hdig : ∀ b : UInt8, (decide (48 ≤ b) && decide (b ≤ 57)) = true ↔ IsDigit b := by
    intro b
    simp [IsDigit, UInt8.le_iff_toNat_le]
  unfold isIndexEncodedKey
  simp only [dropWhile_ne_colon]
  cases pk with
  | nil => exact iff_of_false (by simp) (by rintro ⟨_, _, _, _, h⟩; cases h)
  | cons i more =>
    simp only [Bool.and_eq_true, decide_eq_true_eq, beq_iff_eq]
    constructor
    · rintro ⟨⟨rfl, hhead⟩, hend⟩
      refine ⟨more.takeWhile fun c => decide (48 ≤ c) && decide (c ≤ 57),
        (more.dropWhile fun c => decide (48 ≤ c) && decide (c ≤ 57)).tail, ?_, ?_, ?_⟩
      · cases more with
        | nil => simp at hhead
        | cons b more =>
          have hb : (decide (48 ≤ b) && decide (b ≤ 57)) = true := by simpa using hhead
          simp [hb]
      · intro b hb
        have := List.mem_takeWhile_imp hb
        exact (hdig b).1 this
      · obtain ⟨tl, htl⟩ : ∃ tl, (more.dropWhile fun c => decide (48 ≤ c) && decide (c ≤ 57)) =
            58 :: tl := by
          cases hm : more.dropWhile fun c => decide (48 ≤ c) && decide (c ≤ 57) with
          | nil => simp [hm] at hend
          | cons b tl =>
            simp only [hm, List.head?_cons, Option.some.injEq] at hend
            exact ⟨tl, by rw [hend]⟩
        conv_lhs => rw [← List.takeWhile_append_dropWhile (l := more)
          (p := fun c => decide (48 ≤ c) && decide (c ≤ 57)), htl]
        rw [htl]
        rfl
    · rintro ⟨ds, rest, hne, hds, h⟩
      rw [List.cons.injEq] at h
      obtain ⟨rfl, rfl⟩ := h
      have hpos : ∀ b ∈ ds, (decide (48 ≤ b) && decide (b ≤ 57)) = true :=
        fun b hb => (hdig b).2 (hds b hb)
      refine ⟨⟨rfl, ?_⟩, ?_⟩
      · cases ds with
        | nil => exact absurd rfl hne
        | cons b ds => simpa using hpos b List.mem_cons_self
      · rw [List.dropWhile_append_of_pos hpos]
        simp

/-! ## Scans -/

/-- The scan of a table: its plan is accepted, nothing but the table's rows lies in its range,
and it visits exactly the keys of these rows. -/
structure TableIsolated (s : ShardEngine) (entries : List (Stored × Bytes)) (id : UInt32) :
    Prop where
  accepted : s.prepare (tableScanPlan id) = .ok ()
  apart : ∀ e ∈ entries, planMatches (tableScanPlan id) e.1.key = true → ∃ pk, e.1 = .row id pk
  visits : ∃ rows, (storeOf entries).scanTable s id = .ok rows ∧
    ∀ k, k ∈ rows.map (·.1) ↔ ∃ pk v, (Stored.row id pk, v) ∈ entries ∧ k = encodeRowKey id pk

/-- What must not be stored, nor be the id, for a scan to be exact. -/
structure Separate (entries : List (Stored × Bytes)) (id : UInt32) : Prop where
  notNines : ¬ Nines id.toNat
  notLast : id.toNat + 1 < 2 ^ 32
  others : ∀ e ∈ entries, ¬ Straddles id.toNat e.1.tableId.toNat
  nextRow : ∀ e ∈ entries, e.1 ≠ .row (id + 1) []
  noIndex : ∀ e ∈ entries, ∀ x v pk, e.1 ≠ .index id x v pk
  noLookalike : ∀ pk v, (Stored.row id pk, v) ∈ entries → ¬ IndexLike pk

/-- The keys that the range of a plan holds are those of what is stored. -/
theorem mem_engineScan_storeOf {entries : List (Stored × Bytes)} {plan : TypedPlan} {k : Key} :
    k ∈ ((storeOf entries).engineScan plan).map (·.1) ↔
      planMatches plan k = true ∧ ∃ e ∈ entries, e.1.key = k := by
  have hkeys : ∀ l : List (Key × Bytes), ∀ m : SortedMap Key Bytes,
      (∃ v, (m.insertAll l).find? k = some v) ↔
        (∃ v, m.find? k = some v) ∨ ∃ e ∈ l, e.1 = k := by
    intro l
    induction l with
    | nil => intro m; simp [SortedMap.insertAll]
    | cons e l ih =>
      intro m
      have hstep : m.insertAll (e :: l) = (m.insert e.1 e.2).insertAll l := rfl
      rw [hstep, ih, SortedMap.find?_insert]
      rw [List.exists_mem_cons_iff]
      by_cases h : k = e.1
      · simp [h]
      · have h' : e.1 ≠ k := fun h' => h h'.symm
        simp [h, h']
  have hmem : (∃ v, (k, v) ∈ (storeOf entries).rows.entries) ↔ ∃ e ∈ entries, e.1.key = k := by
    have := hkeys (entries.map fun e => (e.1.key, e.2)) SortedMap.empty
    simp only [SortedMap.find?_empty, List.mem_map] at this
    simp only [storeOf, ← SortedMap.mem_entries_iff] at this ⊢
    rw [this]
    simp
  simp only [SqlStore.engineScan, List.mem_map, List.mem_filter]
  constructor
  · rintro ⟨⟨k', v⟩, ⟨hm, hp⟩, rfl⟩
    exact ⟨hp, hmem.1 ⟨v, hm⟩⟩
  · rintro ⟨hp, he⟩
    obtain ⟨v, hv⟩ := hmem.2 he
    exact ⟨(k, v), ⟨hv, hp⟩, rfl⟩

section
variable {s : ShardEngine} {entries : List (Stored × Bytes)} {id : UInt32}

theorem TableIsolated.separate (h : TableIsolated s entries id) : Separate entries id := by
  obtain ⟨hacc, hapart, rows, hscan, hvisits⟩ := h
  obtain ⟨hn, hlast⟩ := (prepare_tableScanPlan s id).1 hacc
  have hrange := planMatches_tableScanPlan hn hlast
  refine ⟨hn, hlast, ?_, ?_, ?_, ?_⟩
  · intro e he hs
    obtain ⟨pk, hpk⟩ := hapart e he ((hrange e.1).2 (.inr (.inl hs)))
    rw [hpk] at hs
    exact Straddles.irrefl _ hs
  · intro e he hnext
    obtain ⟨pk, hpk⟩ := hapart e he ((hrange e.1).2 (.inr (.inr hnext)))
    rw [hnext] at hpk
    injection hpk with hid
    simp at hid
  · intro e he x v pk hx
    obtain ⟨pk', hpk⟩ := hapart e he ((hrange e.1).2 (.inl (by rw [hx]; rfl)))
    rw [hx] at hpk
    cases hpk
  · intro pk v he hlike
    have hvis := (hvisits (encodeRowKey id pk)).2 ⟨pk, v, he, rfl⟩
    simp only [SqlStore.scanTable, SqlStore.scanRange, hacc, Except.ok.injEq] at hscan
    subst hscan
    obtain ⟨kv, hkv, hk⟩ := List.mem_map.1 hvis
    have hno := (List.mem_filter.1 hkv).2
    rw [hk, (isIndexEncodedKey_encodeRowKey id pk).2 hlike] at hno
    cases hno

theorem Separate.tableIsolated (h : Separate entries id) (s : ShardEngine) :
    TableIsolated s entries id := by
  have hacc := (prepare_tableScanPlan s id).2 ⟨h.notNines, h.notLast⟩
  have hrange := planMatches_tableScanPlan h.notNines h.notLast
  have hapart : ∀ e ∈ entries, planMatches (tableScanPlan id) e.1.key = true →
      ∃ pk, e.1 = .row id pk := by
    rintro ⟨e, v⟩ he hm
    rcases (hrange e).1 hm with hid | hs | hnext
    · cases e with
      | row t pk => exact ⟨pk, by rw [← hid]; rfl⟩
      | index t x w pk =>
        obtain rfl : t = id := hid
        exact absurd rfl (h.noIndex _ he x w pk)
    · exact absurd hs (h.others _ he)
    · exact absurd hnext (h.nextRow _ he)
  refine ⟨hacc, hapart, ((storeOf entries).engineScan (tableScanPlan id)).filter
    (fun kv => !isIndexEncodedKey kv.1), ?_, ?_⟩
  · simp only [SqlStore.scanTable, SqlStore.scanRange, hacc]
  · intro k
    constructor
    · intro hk
      obtain ⟨kv, hkv, rfl⟩ := List.mem_map.1 hk
      obtain ⟨hm, e, he, hek⟩ := mem_engineScan_storeOf.1
        (List.mem_map_of_mem (f := (·.1)) (List.mem_filter.1 hkv).1)
      obtain ⟨pk, hpk⟩ := hapart e he (hek ▸ hm)
      refine ⟨pk, e.2, ?_, ?_⟩
      · rw [← hpk]
        exact he
      · rw [← hek, hpk]
        rfl
    · rintro ⟨pk, v, he, rfl⟩
      have hmem := mem_engineScan_storeOf.2
        ⟨(hrange (.row id pk)).2 (.inl rfl), _, he, rfl⟩
      obtain ⟨kv, hkv, hk⟩ := List.mem_map.1 hmem
      refine List.mem_map.2 ⟨kv, List.mem_filter.2 ⟨hkv, ?_⟩, hk⟩
      have hno : isIndexEncodedKey (encodeRowKey id pk) = false := by
        rw [Bool.eq_false_iff]
        exact fun hi => h.noLookalike pk v he ((isIndexEncodedKey_encodeRowKey id pk).1 hi)
      have hkey : kv.1 = encodeRowKey id pk := hk
      rw [hkey, hno]
      rfl

end

/-- **The scan of a table is exact exactly when nothing stored stands in its way.** -/
theorem tableIsolated_iff (s : ShardEngine) (entries : List (Stored × Bytes)) (id : UInt32) :
    TableIsolated s entries id ↔ Separate entries id :=
  ⟨fun h => h.separate, fun h => h.tableIsolated s⟩

/-- The scan of table 1 runs through the rows of table 20. -/
theorem tableIsolated_fails : ¬ ∀ s entries id, TableIsolated s entries id := by
  intro h
  have hs := (h (ShardEngine.open ⟨.kSync, true, 1, .kFastOpen, false, false, fun _ => 0⟩
    ShardFiles.none) [(.row 20 [97], [])] 1).separate
  exact hs.others _ List.mem_cons_self (.inl ⟨[48], by decide, by decide⟩)

/-- The scan of table 9 is refused. -/
example (s : ShardEngine) : s.prepare (tableScanPlan 9) ≠ .ok () :=
  fun h => ((prepare_tableScanPlan s 9).1 h).1 ⟨0, by decide⟩

end EBTree.Sql
