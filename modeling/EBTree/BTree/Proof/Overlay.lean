import EBTree.BTree.Proof.Scan

/-!
# A loaded tree under a delta

* `Overlaid t pf m o`: the tree serves `m` from its pages, and `o` is `m` under the puts and deletes
  in its delta. `Op.apply_overlaid`, `overlaid_run`: an update keeps it, and so does a run.
* `Overlaid.get`: lookups answer what `o` does.
* `Overlaid.scan`: scans return what `o` matches, where the summary prunes nothing.
* `overlay_exact_iff`: when a scan after a run of updates is exact.
* `put_narrows`: the first put after loading leaves the put key as the only one in the summary.
-/

set_option autoImplicit false

namespace EBTree.BTree

open Lib

/-- The entries that match depend on the keys that match only. -/
theorem matching_congr {m m' : SortedMap Key Nat} {plan : TypedPlan}
    (h : ∀ k, planMatches plan k = true → m.find? k = m'.find? k) :
    matching m plan = matching m' plan := by
  have hs : ∀ m : SortedMap Key Nat, KeysSorted (matching m plan) := fun m =>
    m.sorted.sublist List.filter_sublist
  have hfind : ∀ (m : SortedMap Key Nat) k v,
      (⟨matching m plan, hs m⟩ : SortedMap Key Nat).find? k = some v ↔
        m.find? k = some v ∧ planMatches plan k = true := by
    intro m k v
    rw [← SortedMap.mem_entries_iff, ← SortedMap.mem_entries_iff]
    exact List.mem_filter
  have heq : (⟨matching m plan, hs m⟩ : SortedMap Key Nat) = ⟨matching m' plan, hs m'⟩ := by
    refine SortedMap.ext_find? fun k => Option.ext fun v => ?_
    rw [hfind, hfind]
    exact and_congr_left fun hk => by rw [h k hk]
  exact congrArg SortedMap.entries heq

/-! ## The invariant -/

/-- The tree serves the map `m` from its page file, and the puts and deletes of its delta make `o`
of it. -/
structure Overlaid (t : PagedBTree) (pf : PageFile) (m o : SortedMap Key Nat) : Prop where
  file : t.pageFile = some pf
  onDisk : t.onDiskMode = true
  root : Persisted pf m t.rootOffset
  find_eq : ∀ k, o.find? k
    = if t.deltaDeleted.contains k then none else (t.index.find? k).or (m.find? k)

theorem Loaded.overlaid {t : PagedBTree} {pf : PageFile} {m : SortedMap Key Nat}
    (h : Loaded t pf m) : Overlaid t pf m m where
  file := h.file
  onDisk := h.onDisk
  root := h.root
  find_eq k := by
    rw [h.index_eq, h.deleted]
    rfl

namespace Overlaid

variable {t : PagedBTree} {pf : PageFile} {m o : SortedMap Key Nat}

theorem put (h : Overlaid t pf m o) (key : Key) (lsn : Nat) :
    Overlaid (t.put key lsn) pf m (o.insert key lsn) where
  file := h.file
  onDisk := h.onDisk
  root := h.root
  find_eq k := by
    have hdel : (t.put key lsn).deltaDeleted = t.deltaDeleted.erase key := rfl
    have hidx : (t.put key lsn).index = t.index.insert key lsn := rfl
    rw [hdel, hidx, SortedMap.contains, SortedMap.find?_erase, SortedMap.find?_insert,
      SortedMap.find?_insert]
    by_cases hk : k = key
    · simp [hk]
    · rw [if_neg hk, if_neg hk, if_neg hk]
      exact h.find_eq k

/-- What an update of the summary leaves alone. -/
theorem deleteKey_fields (t : PagedBTree) (key : Key) (lsn : Nat) :
    (t.deleteKey key lsn).pageFile = t.pageFile ∧
      (t.deleteKey key lsn).onDiskMode = t.onDiskMode ∧
      (t.deleteKey key lsn).rootOffset = t.rootOffset ∧
      (t.deleteKey key lsn).index = t.index.erase key ∧
      (t.deleteKey key lsn).deltaDeleted = t.deltaDeleted.insert key () := by
  simp only [PagedBTree.deleteKey, PagedBTree.updateSummaryOnDelete, PagedBTree.rebuildSummary]
  split
  · exact ⟨rfl, rfl, rfl, rfl, rfl⟩
  split
  · exact ⟨rfl, rfl, rfl, rfl, rfl⟩
  split
  · exact ⟨rfl, rfl, rfl, rfl, rfl⟩
  split
  · exact ⟨rfl, rfl, rfl, rfl, rfl⟩
  · split <;> exact ⟨rfl, rfl, rfl, rfl, rfl⟩

theorem deleteKey (h : Overlaid t pf m o) (key : Key) (lsn : Nat) :
    Overlaid (t.deleteKey key lsn) pf m (o.erase key) := by
  obtain ⟨hfile, hmode, hroot, hidx, hdel⟩ := deleteKey_fields t key lsn
  refine ⟨hfile.trans h.file, hmode.trans h.onDisk, by rw [hroot]; exact h.root, fun k => ?_⟩
  rw [hdel, hidx, SortedMap.contains, SortedMap.find?_insert, SortedMap.find?_erase,
    SortedMap.find?_erase]
  by_cases hk : k = key
  · simp [hk]
  · rw [if_neg hk, if_neg hk, if_neg hk]
    exact h.find_eq k

/-! ## What the tree answers -/

theorem get (h : Overlaid t pf m o) (hm : Storable m) (key : Key) :
    Answers (t.get key) (o.find? key) := by
  rw [h.find_eq, PagedBTree.get]
  split
  · exact ⟨_, rfl⟩
  · cases hidx : t.index.find? key with
    | some lsn => exact rfl
    | none =>
      -- the pages decide
      obtain ⟨height, lo, hnode, hlow⟩ := h.root.subtree
      obtain ⟨hb, -, hlen⟩ := hnode.bounds
      have hfuel : height < t.walkFuel := by
        simp only [PagedBTree.walkFuel, h.file, Option.map_some, Option.getD_some]
        omega
      have hkey : ¬ key < lo ∨ m.find? key = none := by
        cases hf : m.find? key with
        | none => exact .inr rfl
        | some lsn => exact .inl (hlow _ (SortedMap.mem_entries_iff.2 hf))
      rw [if_pos ⟨h.onDisk, by omega⟩, Option.none_or]
      exact hnode.get h.file (fun e he => (hm e he).1) hkey hfuel

/-- What the pages hold of a range, merged with the delta, is what the overlay has of it. -/
theorem find?_merged (h : Overlaid t pf m o) {plan : TypedPlan} {out : List Entry}
    (hout : ∀ e, e ∈ out ↔ e ∈ matching m plan) {k : Key} (hk : planMatches plan k = true) :
    (t.deltaDeleted.entries.foldl (fun m d => m.erase d.1)
      ((SortedMap.empty.insertAll out).insertAll t.index.entries)).find? k = o.find? k := by
  have hs : KeysSorted (matching m plan) := m.sorted.sublist List.filter_sublist
  have hbase : (SortedMap.empty.insertAll out : SortedMap Key Nat) = ⟨matching m plan, hs⟩ :=
    SortedMap.insertAll_eq hout
  have hfind : (⟨matching m plan, hs⟩ : SortedMap Key Nat).find? k = m.find? k := by
    refine Option.ext fun v => ?_
    rw [← SortedMap.mem_entries_iff, ← SortedMap.mem_entries_iff]
    exact List.mem_filter.trans (and_iff_left hk)
  rw [hbase, h.find_eq, SortedMap.insertAll]
  rw [SortedMap.find?_foldl_entries (fun m e k hne => by rw [SortedMap.find?_erase, if_neg hne])
    (fun m m' e _ => by rw [SortedMap.find?_erase, SortedMap.find?_erase, if_pos rfl, if_pos rfl])]
  rw [SortedMap.find?_foldl_entries (fun m e k hne => by rw [SortedMap.find?_insert, if_neg hne])
    (fun m m' e _ => by rw [SortedMap.find?_insert, SortedMap.find?_insert, if_pos rfl, if_pos rfl])]
  rw [SortedMap.contains]
  cases hdel : t.deltaDeleted.find? k with
  | some v => simp
  | none =>
    cases hidx : t.index.find? k with
    | some lsn => simp
    | none => simpa using hfind

/-- Cutting off both ends of a map leaves the entries of the range. -/
theorem cut_entries {m : SortedMap Key Nat} {plan : TypedPlan} (hop : plan.op = .kRange) :
    ((m.entries.dropWhile fun e => decide (e.1 < plan.key)).rdropWhile
      fun e => decide (plan.rangeEnd < e.1)) = matching m plan := by
  have hs : (m.entries.filter fun e => !decide (e.1 < plan.key)).Pairwise fun a b => a.1 < b.1 :=
    m.sorted.sublist List.filter_sublist
  rw [dropWhile_eq_filter (m.sorted.imp ?_), rdropWhile_eq_filter (hs.imp ?_), List.filter_filter]
  · refine List.filter_congr fun e _ => ?_
    simp only [planMatches, hop, ← decide_not, not_lt, Bool.decide_and, Bool.and_comm]
  · intro a b hab ha
    simpa using lt_trans (by simpa using ha) hab
  · intro a b hab hb
    simpa using lt_trans hab (by simpa using hb)

/-- **A scan under a delta** is stale, or is pruned by the summary, or returns what the overlay
matches. -/
theorem scan (h : Overlaid t pf m o) (hm : Storable m) (plan : TypedPlan) :
    t.scan plan =
      if 0 < plan.snapshotLsn ∧ t.summary.summaryLsn < plan.snapshotLsn then
        some (.error (Status.staleSummary "summary lsn behind snapshot"))
      else if prunes t.summary plan then some (.ok [])
      else some (.ok (matching o plan)) := by
  rw [PagedBTree.scan]
  split
  · rfl
  cases hop : plan.op with
  | kEq =>
    simp only [prunes, hop, Bool.decide_or, Bool.or_eq_true, decide_eq_true_eq]
    by_cases hmin : t.summary.minKey ≠ [] ∧ plan.key < t.summary.minKey
    · rw [if_pos hmin, if_pos (.inl hmin)]
    by_cases hmax : t.summary.maxKey ≠ [] ∧ t.summary.maxKey < plan.key
    · rw [if_neg hmin, if_pos hmax, if_pos (.inr hmax)]
    rw [if_neg hmin, if_neg hmax, if_neg (not_or.2 ⟨hmin, hmax⟩), matching_kEq hop]
    exact Mirrors.get_toList (h.get hm plan.key)
  | kRange =>
    simp only [prunes, hop, Bool.decide_or, Bool.or_eq_true, decide_eq_true_eq]
    by_cases hmax : t.summary.maxKey ≠ [] ∧ t.summary.maxKey < plan.key
    · rw [if_pos hmax, if_pos (.inl hmax)]
    by_cases hmin : t.summary.minKey ≠ [] ∧ plan.rangeEnd < t.summary.minKey
    · rw [if_neg hmax, if_pos hmin, if_pos (.inr hmin)]
    rw [if_neg hmax, if_neg hmin, if_neg (not_or.2 ⟨hmax, hmin⟩)]
    obtain ⟨height, lo, hnode, hfirst⟩ := h.root.subtree
    obtain ⟨hb, -, hlen⟩ := hnode.bounds
    have hfuel : height < t.walkFuel := by
      simp only [PagedBTree.walkFuel, h.file, Option.map_some, Option.getD_some]
      omega
    obtain ⟨out, hout, hsub, hall⟩ := hnode.scan h.file (fun e he => (hm e he).1) plan hfuel
    have hmem : ∀ e, e ∈ out ↔ e ∈ matching m plan := fun e =>
      ⟨hsub e, fun he => hall e he (hfirst e (List.mem_filter.1 he).1)⟩
    rw [if_pos ⟨h.onDisk, by omega⟩, hout]
    simp only [PagedBTree.mergeDeltaIntoScan, cut_entries hop]
    rw [matching_congr fun k hk => h.find?_merged hmem hk]

/-- **When a scan is exact**: the snapshot is not ahead of the summary, and the summary prunes
nothing that matches. -/
theorem scan_exact (h : Overlaid t pf m o) (hm : Storable m) (plan : TypedPlan) :
    t.scan plan = some (.ok (matching o plan)) ↔
      ¬ (0 < plan.snapshotLsn ∧ t.summary.summaryLsn < plan.snapshotLsn) ∧
        (prunes t.summary plan = true → matching o plan = []) := by
  rw [h.scan hm plan]
  by_cases hstale : 0 < plan.snapshotLsn ∧ t.summary.summaryLsn < plan.snapshotLsn
  · rw [if_pos hstale]
    exact iff_of_false (by simp) fun hc => hc.1 hstale
  rw [if_neg hstale]
  by_cases hp : prunes t.summary plan = true
  · rw [if_pos hp, Option.some.injEq, Except.ok.injEq]
    exact ⟨fun he => ⟨hstale, fun _ => he.symm⟩, fun hc => (hc.2 hp).symm⟩
  · rw [if_neg hp]
    exact iff_of_true rfl ⟨hstale, fun hc => absurd hc hp⟩

end Overlaid

/-! ## Runs -/

/-- The update goes into the delta. -/
def Op.Edits : Op → Prop
  | put _ _ => True
  | deleteKey _ _ => True
  | loadFromMap _ => False

theorem Op.apply_overlaid {t : PagedBTree} {pf : PageFile} {m o : SortedMap Key Nat}
    (h : Overlaid t pf m o) {op : Op} (hop : op.Edits) :
    Overlaid (op.apply t) pf m (op.applyMap o) := by
  cases op with
  | put key lsn => exact h.put key lsn
  | deleteKey key lsn => exact h.deleteKey key lsn
  | loadFromMap data => exact hop.elim

/-- A run of puts and deletes keeps the invariant. -/
theorem overlaid_run {t : PagedBTree} {pf : PageFile} {m o : SortedMap Key Nat}
    (h : Overlaid t pf m o) {ops : List Op} (hops : ∀ op ∈ ops, op.Edits) :
    Overlaid (ops.foldl (fun t op => op.apply t) t) pf m
      (ops.foldl (fun o op => op.applyMap o) o) := by
  induction ops generalizing t o with
  | nil => exact h
  | cons op ops ih =>
    exact ih (Op.apply_overlaid h (hops op List.mem_cons_self))
      fun op' hop => hops op' (List.mem_cons_of_mem _ hop)

/-- **A loaded tree under any puts and deletes**: every lookup answers what the map under the same
updates does, and a scan returns what that map matches if and only if the summary in front of it is
not behind the snapshot and prunes nothing that matches. -/
theorem overlay_exact_iff (t : PagedBTree) {pf : PageFile} (ht : t.pageFile = some pf)
    {m : SortedMap Key Nat} (hne : m.entries ≠ []) (hm : Storable m) :
    ∃ t' pf' root, t.persistRootFromMap m = some (t', .ok root) ∧ t'.pageFile = some pf' ∧
      (pf'.nextOffset ≤ 2 ^ 32 → ∀ u : PagedBTree, u.pageFile = some pf' →
        (u.loadRoot root).2 = .ok () ∧ ∀ ops : List Op, (∀ op ∈ ops, op.Edits) →
          let v := ops.foldl (fun t op => op.apply t) (u.loadRoot root).1
          let o := ops.foldl (fun o op => op.applyMap o) m
          (∀ key, Answers (v.get key) (o.find? key)) ∧
            ∀ plan, v.scan plan = some (.ok (matching o plan)) ↔
              ¬ (0 < plan.snapshotLsn ∧ v.summary.summaryLsn < plan.snapshotLsn) ∧
                (prunes v.summary plan = true → matching o plan = [])) := by
  obtain ⟨pf', root, hr, -, hroot⟩ := persistRootImpl_spec t ht hne hm
  refine ⟨_, pf', root, hr, rfl, fun hsize u hu => ?_⟩
  obtain ⟨hok, hloaded⟩ := loadRoot_spec hu (hroot hsize)
  refine ⟨hok, fun ops hops => ?_⟩
  have hover := overlaid_run hloaded.overlaid hops
  exact ⟨hover.get hm, hover.scan_exact hm⟩

/-- Two entries in a new page file, one of them deleted. -/
theorem overlay_delete_one :
    ∃ t' pf' root, (PagedBTree.new (some PageFile.new)).persistRootFromMap
        ((SortedMap.empty.insert [0x61] 7).insert [0x62] 8) = some (t', .ok root) ∧
      t'.pageFile = some pf' ∧
      ((t'.loadRoot root).1.deleteKey [0x62] 9).scan ⟨.kRange, [0x61], [0x62], 0⟩
        = some (.ok [([0x61], 7)]) := by
  obtain ⟨t', pf', root, hr, hf, hscan⟩ := overlay_exact_iff
    (PagedBTree.new (some PageFile.new)) rfl
    (m := (SortedMap.empty.insert [0x61] 7).insert [0x62] 8) (by decide) (by unfold Storable; decide)
  refine ⟨t', pf', root, hr, hf, ?_⟩
  have hend : ((PagedBTree.new (some PageFile.new)).persistRootFromMap
      ((SortedMap.empty.insert [0x61] 7).insert [0x62] 8)).map
        (fun r => (r.1.pageFile.map (·.nextOffset), r.2.toOption.map fun root =>
          prunes (((r.1.loadRoot root).1.deleteKey [0x62] 9).summary)
            ⟨.kRange, [0x61], [0x62], 0⟩)) = some (some 8192, some false) := by decide +kernel
  rw [hr, Option.map_some, hf, Option.map_some, Option.some.injEq, Prod.mk.injEq] at hend
  obtain ⟨hnext, hprune⟩ := hend
  have hsize : pf'.nextOffset ≤ 2 ^ 32 := by
    rw [Option.some.inj hnext]
    decide
  obtain ⟨-, hrun⟩ := hscan hsize t' hf
  obtain ⟨-, hexact⟩ := hrun [.deleteKey [0x62] 9] (by simp [Op.Edits])
  refine ((hexact ⟨.kRange, [0x61], [0x62], 0⟩).2
    ⟨fun hc => absurd hc.1 (by decide), fun hp => ?_⟩).trans (by decide)
  exact absurd (hp.symm.trans (Option.some.inj hprune)) (by decide)

/-! ## The first put -/

/-- **The first put after loading** leaves nothing of the bounds of the pages: the summary holds the
put key alone. -/
theorem put_narrows {t : PagedBTree} {pf : PageFile} {m : SortedMap Key Nat} (h : Loaded t pf m)
    (key : Key) (lsn : Nat) : (t.put key lsn).summary = ⟨key, key, max t.maxLsn lsn⟩ := by
  simp only [PagedBTree.put, PagedBTree.updateSummaryOnPut, h.index_eq, h.deleted]
  rfl

/-- Two entries in a new page file, a third one put: a scan for the first returns nothing. -/
theorem put_hides_pages :
    ∃ t' pf' root, (PagedBTree.new (some PageFile.new)).persistRootFromMap
        ((SortedMap.empty.insert [0x61] 7).insert [0x62] 8) = some (t', .ok root) ∧
      t'.pageFile = some pf' ∧ pf'.nextOffset ≤ 2 ^ 32 ∧ (t'.loadRoot root).2 = .ok () ∧
      ((t'.loadRoot root).1.put [0x63] 9).get [0x61] = some (.ok 7) ∧
      ((t'.loadRoot root).1.put [0x63] 9).scan ⟨.kEq, [0x61], [], 0⟩ = some (.ok []) ∧
      ((t'.loadRoot root).1.put [0x63] 9).scan ⟨.kRange, [0x61], [0x62], 0⟩ = some (.ok []) := by
  have hm : Storable ((SortedMap.empty.insert [0x61] 7).insert [0x62] 8) := by
    unfold Storable
    decide
  obtain ⟨pf', root, hr, -, hroot⟩ := persistRootImpl_spec (PagedBTree.new (some PageFile.new)) rfl
    (m := (SortedMap.empty.insert [0x61] 7).insert [0x62] 8) (by decide) hm
  have hend : ((PagedBTree.new (some PageFile.new)).persistRootFromMap
      ((SortedMap.empty.insert [0x61] 7).insert [0x62] 8)).map
        (fun r => r.1.pageFile.map (·.nextOffset)) = some (some 8192) := by decide +kernel
  rw [PagedBTree.persistRootFromMap, hr, Option.map_some, Option.map_some, Option.some.injEq,
    Option.some.injEq] at hend
  have hsize : pf'.nextOffset ≤ 2 ^ 32 := by
    rw [hend]
    decide
  obtain ⟨hok, hloaded⟩ := loadRoot_spec (t := { PagedBTree.new (some PageFile.new) with
    pageFile := some pf', rootOffset := root, index := SortedMap.empty
    deltaDeleted := SortedMap.empty, onDiskMode := true }) rfl (hroot hsize)
  have hover := hloaded.overlaid.put [0x63] 9
  have hnarrow := put_narrows hloaded [0x63] 9
  refine ⟨_, pf', root, hr, rfl, hsize, hok, hover.get hm [0x61], ?_, ?_⟩
  · rw [hover.scan hm, hnarrow]
    rfl
  · rw [hover.scan hm, hnarrow]
    rfl

end EBTree.BTree
