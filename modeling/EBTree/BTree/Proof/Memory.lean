import EBTree.BTree.Paged

/-!
# The tree in memory

A `PagedBTree` without a page file against an ordered map under the same updates.

* `Covers s es`: the summary's bounds leave no entry of `es` out.
* `Mirrors t m`: the tree is in memory, its index is `m`, and its summary covers it.
  `Mirrors.put`, `Mirrors.deleteKey` and `Mirrors.loadFromMap` keep it.
* `Mirrors.get`, `Mirrors.scan`: what such a tree answers.
* `run_mirrors_map`: **every run of updates answers as the map does.**
-/

set_option autoImplicit false

namespace EBTree.BTree

open Lib

/-- A lookup that returns the version `v`, or reports that there is none. -/
def Answers (r : Option (Except Status Nat)) : Option Nat → Prop
  | some lsn => r = some (.ok lsn)
  | none => ∃ msg, r = some (.error (Status.notFound msg))

/-- The entries of a map that a plan asks for, in order. -/
def matching (m : SortedMap Key Nat) (plan : TypedPlan) : List Entry :=
  m.entries.filter fun e => planMatches plan e.1

theorem matching_eq_nil_iff {m : SortedMap Key Nat} {plan : TypedPlan} :
    matching m plan = [] ↔ ∀ e ∈ m.entries, planMatches plan e.1 = false := by
  simp [matching]

theorem matching_kEq {m : SortedMap Key Nat} {plan : TypedPlan} (h : plan.op = .kEq) :
    matching m plan = (m.find? plan.key).toList.map (plan.key, ·) := by
  refine m.filter_key fun e => ?_
  simp [planMatches, h]

/-- The two loops over an ordered list of entries that a range scan makes. -/
theorem matching_kRange {m : SortedMap Key Nat} {plan : TypedPlan} (h : plan.op = .kRange) :
    ((m.entries.dropWhile fun e => decide (e.1 < plan.key)).takeWhile
      fun e => decide (e.1 ≤ plan.rangeEnd)) = matching m plan := by
  have hs : (m.entries.filter fun e => !decide (e.1 < plan.key)).Pairwise fun a b => a.1 < b.1 :=
    m.sorted.sublist List.filter_sublist
  rw [dropWhile_eq_filter (m.sorted.imp ?_), takeWhile_eq_filter (hs.imp ?_), List.filter_filter]
  · refine List.filter_congr fun e _ => ?_
    simp only [planMatches, h, ← decide_not, not_lt, Bool.decide_and, Bool.and_comm]
  · intro a b hab hb
    simpa using le_trans (le_of_lt hab) (by simpa using hb)
  · intro a b hab hb
    simpa using lt_trans hab (by simpa using hb)

/-! ## The summary -/

/-- No entry lies outside the bounds of the summary. An empty minimum would be taken for no
minimum at all by the next update, so it covers nothing. -/
def Covers (s : BTreeSummary) (es : List Entry) : Prop :=
  ∀ e ∈ es, s.minKey ≠ [] ∧ s.minKey ≤ e.1 ∧ e.1 ≤ s.maxKey

theorem Covers.nil (s : BTreeSummary) : Covers s [] := by
  intro e he
  cases he

theorem Covers.mono {s : BTreeSummary} {es es' : List Entry} (h : Covers s es)
    (hsub : ∀ e ∈ es', e ∈ es) : Covers s es' :=
  fun e he => h e (hsub e he)

theorem key_le_nil {key : Key} (h : key ≤ []) : key = [] := by
  cases key with
  | nil => rfl
  | cons b bs => exact absurd (List.nil_lt_cons b bs) (not_lt.2 h)

/-- Widening keeps what was covered. -/
theorem Covers.widen {s : BTreeSummary} {es : List Entry} (h : Covers s es) {key : Key}
    (hk : key ≠ []) (hes : ∀ e ∈ es, e.1 ≠ []) : Covers (PagedBTree.widen s key) es := by
  intro e he
  obtain ⟨hne, hmin, hmax⟩ := h e he
  simp only [PagedBTree.widen, hne, false_or]
  refine ⟨?_, ?_, ?_⟩
  · split
    · exact hk
    · exact hne
  · split
    · exact le_trans (le_of_lt ‹_›) hmin
    · exact hmin
  · split
    · rename_i hlt
      rcases hlt with hnil | hlt
      · exact absurd (key_le_nil (hnil ▸ hmax)) (hes e he)
      · exact hmax.trans (le_of_lt hlt)
    · exact hmax

/-- Widening covers the key it is done for. -/
theorem covers_widen_self (s : BTreeSummary) {key : Key} (hk : key ≠ []) (lsn : Nat) :
    Covers (PagedBTree.widen s key) [(key, lsn)] := by
  intro e he
  rw [List.mem_singleton.1 he]
  simp only [PagedBTree.widen]
  refine ⟨?_, ?_, ?_⟩
  · split
    · exact hk
    · rename_i hmin
      exact fun h => hmin (.inl h)
  · split
    · exact le_rfl
    · rename_i hmin
      exact not_lt.1 fun h => hmin (.inr h)
  · split
    · exact le_rfl
    · rename_i hmax
      exact not_lt.1 fun h => hmax (.inr h)

/-- The bounds of a rebuilt summary are the ends of the index. -/
theorem covers_rebuildSummary {t : PagedBTree} (h : ∀ e ∈ t.index.entries, e.1 ≠ []) :
    Covers t.rebuildSummary.summary t.index.entries := by
  unfold PagedBTree.rebuildSummary
  cases hf : t.index.entries.head? with
  | none =>
    rw [List.head?_eq_none_iff.1 hf]
    exact Covers.nil _
  | some first =>
    cases hl : t.index.entries.getLast? with
    | none =>
      rw [List.getLast?_eq_none_iff.1 hl] at hf
      cases hf
    | some last =>
      intro e he
      exact ⟨h first (List.mem_of_head? hf), SortedMap.first_le hf he, SortedMap.le_last hl he⟩

/-- `PagedBTree.scan` prunes a plan whose keys lie outside the bounds of the summary. -/
def prunes (s : BTreeSummary) (plan : TypedPlan) : Bool :=
  match plan.op with
  | .kEq => (s.minKey ≠ [] ∧ plan.key < s.minKey) ∨ (s.maxKey ≠ [] ∧ s.maxKey < plan.key)
  | .kRange => (s.maxKey ≠ [] ∧ s.maxKey < plan.key) ∨ (s.minKey ≠ [] ∧ plan.rangeEnd < s.minKey)

/-- **A summary that covers a map prunes nothing the plan asks for.** -/
theorem Covers.matching_of_prunes {s : BTreeSummary} {m : SortedMap Key Nat}
    (h : Covers s m.entries) {plan : TypedPlan} (hp : prunes s plan = true) :
    matching m plan = [] := by
  refine matching_eq_nil_iff.2 fun e he => ?_
  obtain ⟨-, hmin, hmax⟩ := h e he
  cases hop : plan.op with
  | kEq =>
    simp only [prunes, hop, decide_eq_true_eq] at hp
    simp only [planMatches, hop, decide_eq_false_iff_not]
    intro hkey
    rw [hkey] at hmin hmax
    rcases hp with ⟨-, hlt⟩ | ⟨-, hlt⟩
    · exact absurd hmin (not_le.2 hlt)
    · exact absurd hmax (not_le.2 hlt)
  | kRange =>
    simp only [prunes, hop, decide_eq_true_eq] at hp
    simp only [planMatches, hop, decide_eq_false_iff_not]
    rintro ⟨h1, h2⟩
    rcases hp with ⟨-, hlt⟩ | ⟨-, hlt⟩
    · exact absurd (h1.trans hmax) (not_le.2 hlt)
    · exact absurd (hmin.trans h2) (not_le.2 hlt)

/-! ## The invariant -/

/-- The tree is in memory and holds the map `m`, whose keys are not empty. -/
structure Mirrors (t : PagedBTree) (m : SortedMap Key Nat) : Prop where
  inMemory : t.onDiskMode = false
  index_eq : t.index = m
  deleted : ∀ k, t.deltaDeleted.contains k = true → m.find? k = none
  keys : ∀ e ∈ m.entries, e.1 ≠ []
  covers : Covers t.summary m.entries

namespace Mirrors

variable {t : PagedBTree} {m : SortedMap Key Nat}

theorem new : Mirrors (PagedBTree.new none) SortedMap.empty where
  inMemory := rfl
  index_eq := rfl
  deleted _ h := by cases h
  keys _ h := by cases h
  covers := Covers.nil _

theorem put (h : Mirrors t m) {key : Key} (hk : key ≠ []) (lsn : Nat) :
    Mirrors (t.put key lsn) (m.insert key lsn) where
  inMemory := h.inMemory
  index_eq := by
    have : (t.put key lsn).index = t.index.insert key lsn := rfl
    rw [this, h.index_eq]
  deleted k hd := by
    have hd' : (t.deltaDeleted.erase key).contains k = true := hd
    rw [SortedMap.contains, SortedMap.find?_erase] at hd'
    split at hd'
    · cases hd'
    · rename_i hne
      rw [SortedMap.find?_insert, if_neg hne]
      exact h.deleted k hd'
  keys e he := by
    rcases SortedMap.mem_insertIn he with rfl | he
    · exact hk
    · exact h.keys e he
  covers := by
    -- the widened bounds cover the new entry and the ones before it
    have hwide : Covers (PagedBTree.widen t.summary key) (m.insert key lsn).entries := by
      intro e he
      rcases SortedMap.mem_insertIn he with rfl | he
      · exact covers_widen_self t.summary hk lsn _ List.mem_cons_self
      · exact h.covers.widen hk h.keys e he
    have hidx : t.index.insert key lsn = m.insert key lsn := by rw [h.index_eq]
    intro e he
    simp only [PagedBTree.put, PagedBTree.updateSummaryOnPut, hidx]
    split
    · exact hwide e he
    · split
      · rename_i hone
        -- a single entry, which is the new one
        obtain ⟨x, hx⟩ := List.length_eq_one_iff.1 hone.1
        have hnew : (key, lsn) ∈ (m.insert key lsn).entries :=
          SortedMap.mem_entries_iff.2 (by simp)
        rw [hx, List.mem_singleton] at he hnew
        rw [he, ← hnew]
        exact ⟨hk, le_rfl, le_rfl⟩
      · exact hwide e he

theorem deleteKey (h : Mirrors t m) (key : Key) (lsn : Nat) :
    Mirrors (t.deleteKey key lsn) (m.erase key) := by
  have hsub : ∀ e ∈ (m.erase key).entries, e ∈ m.entries :=
    fun e he => (List.mem_filter.1 he).1
  have hkeys : ∀ e ∈ (m.erase key).entries, e.1 ≠ [] := fun e he => h.keys e (hsub e he)
  have hcov : Covers t.summary (m.erase key).entries := h.covers.mono hsub
  have hidx : t.index.erase key = m.erase key := by rw [h.index_eq]
  -- every branch of the update leaves index and tombstones as `DeleteKey` has set them
  have hfields : (t.deleteKey key lsn).onDiskMode = t.onDiskMode ∧
      (t.deleteKey key lsn).index = t.index.erase key ∧
      (t.deleteKey key lsn).deltaDeleted = t.deltaDeleted.insert key () := by
    simp only [PagedBTree.deleteKey, PagedBTree.updateSummaryOnDelete, PagedBTree.rebuildSummary]
    split
    · exact ⟨rfl, rfl, rfl⟩
    · split
      · exact ⟨rfl, rfl, rfl⟩
      · split
        · exact ⟨rfl, rfl, rfl⟩
        · split
          · exact ⟨rfl, rfl, rfl⟩
          · split <;> exact ⟨rfl, rfl, rfl⟩
  obtain ⟨hmode, hindex, hdelta⟩ := hfields
  refine ⟨hmode.trans h.inMemory, hindex.trans hidx, fun k hd => ?_, hkeys, ?_⟩
  · rw [hdelta, SortedMap.contains, SortedMap.find?_insert] at hd
    rw [SortedMap.find?_erase]
    split
    · rfl
    · rename_i hne
      rw [if_neg hne] at hd
      exact h.deleted k hd
  · simp only [PagedBTree.deleteKey, PagedBTree.updateSummaryOnDelete, hidx]
    split
    · exact hcov
    · split
      · rename_i hempty
        rw [SortedMap.isEmpty_iff.1 hempty.1]
        exact Covers.nil _
      · split
        · exact hcov
        · exact covers_rebuildSummary (t := { t with
            index := m.erase key
            deltaDeleted := t.deltaDeleted.insert key ()
            maxLsn := max t.maxLsn lsn }) hkeys

theorem loadFromMap (t : PagedBTree) {data : SortedMap Key Nat}
    (hd : ∀ e ∈ data.entries, e.1 ≠ []) : Mirrors (t.loadFromMap data) data := by
  have hfields : (t.loadFromMap data).index = data ∧
      (t.loadFromMap data).deltaDeleted = SortedMap.empty := by
    simp only [PagedBTree.loadFromMap, PagedBTree.rebuildSummary]
    split
    · exact ⟨rfl, rfl⟩
    · split <;> exact ⟨rfl, rfl⟩
  refine ⟨rfl, hfields.1, fun k hk => ?_, hd, ?_⟩
  · rw [hfields.2] at hk
    cases hk
  · exact covers_rebuildSummary (t := { t with
      index := data
      deltaDeleted := SortedMap.empty
      maxLsn := data.entries.foldl (fun n e => max n e.2) 0 }) hd

/-! ## What the tree answers -/

theorem get (h : Mirrors t m) (k : Key) : Answers (t.get k) (m.find? k) := by
  unfold PagedBTree.get
  split
  · rename_i hd
    rw [h.deleted k hd]
    exact ⟨_, rfl⟩
  · rw [h.index_eq]
    cases hf : m.find? k with
    | some lsn => exact rfl
    | none =>
      rw [if_neg (by simp [h.inMemory])]
      exact ⟨_, rfl⟩

/-- A lookup as `Scan` makes it for a plan of one key. -/
theorem get_toList {t : PagedBTree} {m : SortedMap Key Nat} {k : Key}
    (h : Answers (t.get k) (m.find? k)) :
    (match t.get k with
      | none => none
      | some (.error _) => some (.ok [])
      | some (.ok lsn) => some (.ok [(k, lsn)]) : Option (Except Status (List Entry)))
      = some (.ok ((m.find? k).toList.map (k, ·))) := by
  cases hf : m.find? k with
  | some lsn =>
    rw [hf] at h
    rw [h]
    rfl
  | none =>
    rw [hf] at h
    obtain ⟨msg, hm⟩ := h
    rw [hm]
    rfl

theorem scan (h : Mirrors t m) {plan : TypedPlan} (hs : plan.snapshotLsn = 0) :
    t.scan plan = some (.ok (matching m plan)) := by
  have hprune : prunes t.summary plan = true → matching m plan = [] := h.covers.matching_of_prunes
  unfold PagedBTree.scan
  rw [if_neg (by omega)]
  cases hop : plan.op with
  | kEq =>
    simp only [prunes, hop, decide_eq_true_eq] at hprune
    simp only
    split
    · rename_i hmin
      rw [hprune (.inl hmin)]
    · split
      · rename_i hmax
        rw [hprune (.inr hmax)]
      · rw [matching_kEq hop]
        exact get_toList (h.get plan.key)
  | kRange =>
    simp only [prunes, hop, decide_eq_true_eq] at hprune
    simp only
    split
    · rename_i hmax
      rw [hprune (.inl hmax)]
    · split
      · rename_i hmin
        rw [hprune (.inr hmin)]
      · -- no entry of the index is deleted
        have hkeep : ((matching m plan).filter fun e => !t.deltaDeleted.contains e.1)
            = matching m plan := by
          refine List.filter_eq_self.2 fun e he => ?_
          by_contra hc
          have hnone := h.deleted e.1 (by simpa using hc)
          exact SortedMap.find?_eq_none_iff.1 hnone e (List.mem_filter.1 he).1 rfl
        rw [if_neg (by simp [h.inMemory]), h.index_eq, matching_kRange hop, hkeep]

end Mirrors

/-! ## Runs -/

inductive Op
  | put (key : Key) (lsn : Nat)
  | deleteKey (key : Key) (lsn : Nat)
  | loadFromMap (data : SortedMap Key Nat)

namespace Op

def apply (t : PagedBTree) : Op → PagedBTree
  | put key lsn => t.put key lsn
  | deleteKey key lsn => t.deleteKey key lsn
  | loadFromMap data => t.loadFromMap data

/-- The same update of a plain ordered map. -/
def applyMap (m : SortedMap Key Nat) : Op → SortedMap Key Nat
  | put key lsn => m.insert key lsn
  | deleteKey key _ => m.erase key
  | loadFromMap data => data

/-- The update names no empty key. -/
def KeysNonempty : Op → Prop
  | put key _ => key ≠ []
  | deleteKey key _ => key ≠ []
  | loadFromMap data => ∀ e ∈ data.entries, e.1 ≠ []

/-- One update keeps the invariant. -/
theorem apply_mirrors {t : PagedBTree} {m : SortedMap Key Nat} (h : Mirrors t m) {op : Op}
    (hop : op.KeysNonempty) : Mirrors (op.apply t) (op.applyMap m) := by
  cases op with
  | put key lsn => exact h.put hop lsn
  | deleteKey key lsn => exact h.deleteKey key lsn
  | loadFromMap data => exact Mirrors.loadFromMap t hop

end Op

/-- A run of updates keeps the invariant. -/
theorem mirrors_run {ops : List Op} (h : ∀ op ∈ ops, op.KeysNonempty) :
    Mirrors (ops.foldl (fun t op => op.apply t) (PagedBTree.new none))
      (ops.foldl (fun m op => op.applyMap m) SortedMap.empty) := by
  apply List.foldl_rel (r := Mirrors) Mirrors.new
  intro op hop t m hm
  exact Op.apply_mirrors hm (h op hop)

/-- **A tree without a page file is an ordered map**: after every run of updates, lookups and scans
return what the map does. -/
theorem run_mirrors_map (ops : List Op) (h : ∀ op ∈ ops, op.KeysNonempty) :
    let t := ops.foldl (fun t op => op.apply t) (PagedBTree.new none)
    let m := ops.foldl (fun m op => op.applyMap m) SortedMap.empty
    (∀ k, Answers (t.get k) (m.find? k)) ∧
      ∀ plan, plan.snapshotLsn = 0 → t.scan plan = some (.ok (matching m plan)) :=
  ⟨(mirrors_run h).get, fun _ hs => (mirrors_run h).scan hs⟩

/-- The keys `01` and `02` put, `01` (the minimum) deleted. -/
theorem run_mirrors_map_delete_min :
    let ops := [Op.put [1] 5, Op.put [2] 6, Op.deleteKey [1] 7]
    let t := ops.foldl (fun t op => op.apply t) (PagedBTree.new none)
    let m := ops.foldl (fun m op => op.applyMap m) SortedMap.empty
    (∀ k, Answers (t.get k) (m.find? k)) ∧
      ∀ plan, plan.snapshotLsn = 0 → t.scan plan = some (.ok (matching m plan)) :=
  run_mirrors_map [Op.put [1] 5, Op.put [2] 6, Op.deleteKey [1] 7] (by simp [Op.KeysNonempty])

end EBTree.BTree
