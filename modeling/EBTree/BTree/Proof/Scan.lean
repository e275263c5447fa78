import EBTree.BTree.Proof.Persist

/-!
# Scans of a loaded tree

* `LeafChain.scan`, `Node.scan`: what a scan collects below a leaf and below any subtree.
* `Loaded.scan`: a scan of a loaded tree returns what matches, unless the plan lies beyond the
  upper bound of the root's header.
* `scan_exact_iff`: **when a scan is exact.** The bound of an internal root is the first key below
  its last child, not the last one, and entries beyond it are pruned away.
-/

set_option autoImplicit false

namespace EBTree.BTree

open Lib

/-! ## Chains -/

/-- The pages of a chain, as the first loop and the reads of `ScanLeafChain` find them. -/
theorem LeafChain.pages {t : PagedBTree} {pf : PageFile} (ht : t.pageFile = some pf)
    {source : List Entry} {off : Nat} {ess : List (List Entry)} (h : LeafChain pf source off ess)
    (p : Entry → Bool) {fuel : Nat} (hf : ess.length < fuel) :
    ∃ offs pages, t.leafChain fuel off = some (some offs) ∧ t.readPages offs = .ok pages ∧
      (pages.flatMap fun page => ((leafEntries page).getD []).filter p)
        = ess.flatten.filter p := by
  have hk : kPageFileHeaderSize = 4096 := rfl
  induction h generalizing fuel with
  | @last off next page es hp hl hn =>
    obtain ⟨fuel, rfl⟩ : ∃ n, fuel = n + 2 := ⟨fuel - 2, by simp at hf; omega⟩
    have hlo := hp.lo
    refine ⟨[off], [page], ?_, ?_, ?_⟩
    · rw [PagedBTree.leafChain, if_neg (by omega), readPageHeader_holds ht hp hl.crc]
      simp only [hl.type, hl.next_eq, ne_eq, not_true_eq_false, if_false]
      rw [PagedBTree.leafChain, if_pos hn]
      rfl
    · simp only [PagedBTree.readPages, readPageBytes_holds ht hp]
    · simp [hl.entries]
  | @link off next page es ess hp hl _ _ ih =>
    obtain ⟨fuel, rfl⟩ : ∃ n, fuel = n + 1 := ⟨fuel - 1, by omega⟩
    have hlo := hp.lo
    obtain ⟨offs, pages, hchain, hread, hes⟩ := ih (by simp at hf; omega)
    refine ⟨off :: offs, page :: pages, ?_, ?_, ?_⟩
    · rw [PagedBTree.leafChain, if_neg (by omega), readPageHeader_holds ht hp hl.crc]
      simp only [hl.type, hl.next_eq, hchain, ne_eq, not_true_eq_false, if_false]
      rfl
    · simp only [PagedBTree.readPages, readPageBytes_holds ht hp, hread]
    · rw [List.flatMap_cons, hes, hl.entries, List.flatten_cons, List.filter_append]
      rfl

theorem LeafChain.scan {t : PagedBTree} {pf : PageFile} (ht : t.pageFile = some pf)
    {source : List Entry} {off : Nat} {ess : List (List Entry)} (h : LeafChain pf source off ess)
    (plan : TypedPlan) :
    t.scanLeafChain off plan = some (ess.flatten.filter fun e => planMatches plan e.1) := by
  have hfuel : ess.length < t.walkFuel := by
    have hlen := h.length_le
    simp only [PagedBTree.walkFuel, ht, Option.map_some, Option.getD_some]
    omega
  obtain ⟨offs, pages, hchain, hread, hes⟩ := h.pages ht (fun e => planMatches plan e.1) hfuel
  simp only [PagedBTree.scanLeafChain, hchain, hread, hes]

/-! ## Subtrees -/

/-- A scan below the key `lo`: it collects only what matches, and all that matches from `lo` on. -/
def Collects (m : SortedMap Key Nat) (plan : TypedPlan) (lo : Key) (out : List Entry) : Prop :=
  (∀ e ∈ out, e ∈ matching m plan) ∧ ∀ e ∈ matching m plan, ¬ e.1 < lo → e ∈ out

/-- A range outside the bounds a leaf states matches nothing. -/
theorem matching_nil_of_pruned {m : SortedMap Key Nat}
    (hshort : ∀ e ∈ m.entries, e.1.length ≤ 14) {hdr : PageHeader}
    (ht : hdr.type = kPageTypeLeaf) (hb : headerBounds hdr = sourceBounds m.entries)
    {plan : TypedPlan} (hp : planOverlaps hdr plan = false) : matching m plan = [] := by
  cases hop : plan.op with
  | kEq =>
    simp only [planOverlaps, hop] at hp
    rw [matching_kEq hop, find?_none_of_pruned hshort ht hb hp]
    rfl
  | kRange =>
    have htake : ∀ e ∈ m.entries, e.1.take kPageSummaryKeyBytes = e.1 :=
      fun e he => List.take_of_length_le (hshort e he)
    have hne : kPageTypeLeaf ≠ kPageTypeInternal := by decide
    refine matching_eq_nil_iff.2 fun e he => ?_
    simp only [planMatches, hop, decide_eq_false_iff_not]
    rintro ⟨h1, h2⟩
    simp only [planOverlaps, hop, rangeOverlapsSummary, ht, hne, if_false, hb, sourceBounds] at hp
    split at hp
    · rename_i hout
      cases hl : m.entries.getLast? with
      | none =>
        rw [List.getLast?_eq_none_iff.1 hl] at he
        cases he
      | some last =>
        rw [hl] at hout
        simp only [Option.map_some, Option.getD_some, htake last (List.mem_of_getLast? hl)] at hout
        exact absurd (h1.trans (SortedMap.le_last hl he)) (not_le.2 hout.2)
    · split at hp
      · rename_i hout
        cases hf : m.entries.head? with
        | none =>
          rw [List.head?_eq_none_iff.1 hf] at he
          cases he
        | some first =>
          rw [hf] at hout
          simp only [Option.map_some, Option.getD_some, htake first (List.mem_of_head? hf)] at hout
          exact absurd ((SortedMap.first_le hf he).trans h2) (not_le.2 hout.2)
      · cases hp

/-- The first page of a subtree, whose header prunes nothing that matches. -/
theorem Node.header {pf : PageFile} {m : SortedMap Key Nat}
    (hshort : ∀ e ∈ m.entries, e.1.length ≤ 14) {h off : Nat} {lo : Key}
    (hn : Node pf m h off lo) (plan : TypedPlan) :
    ∃ page, Holds pf off page ∧ PageHeader.storedCrc page = (crc32 (page.take 57)).toNat ∧
      (planOverlaps (PageHeader.decode page) plan = false → matching m plan = []) := by
  cases hn with
  | leaf hc _ _ =>
    obtain ⟨page, es, next, hp, hl⟩ := hc.head
    exact ⟨page, hp, hl.crc, matching_nil_of_pruned hshort hl.type hl.bounds⟩
  | @internal h off page c cs hp hi _ _ =>
    refine ⟨page, hp, hi.crc, fun hno => ?_⟩
    have hyes : planOverlaps (PageHeader.decode page) plan = true := by
      cases hop : plan.op <;>
        simp [planOverlaps, hop, pageSummaryCoversKey, rangeOverlapsSummary, hi.type]
    rw [hyes] at hno
    cases hno

/-- The loop over the children of a page. -/
theorem scanChildren_collects {t : PagedBTree} {pf : PageFile} (ht : t.pageFile = some pf)
    {m : SortedMap Key Nat} {plan : TypedPlan}
    {visit : Nat → Option (Except Status (List Entry))} {cs : List Entry}
    (hheader : ∀ c ∈ cs, ∃ page, Holds pf c.2 page ∧
      PageHeader.storedCrc page = (crc32 (page.take 57)).toNat ∧
      (planOverlaps (PageHeader.decode page) plan = false → matching m plan = []))
    (hvisit : ∀ c ∈ cs, ∃ out, visit c.2 = some (.ok out) ∧ Collects m plan c.1 out) :
    ∃ out, t.scanChildren plan visit (cs.map (·.2)) = some (.ok out) ∧
      (∀ e ∈ out, e ∈ matching m plan) ∧
      ∀ c ∈ cs, ∀ e ∈ matching m plan, ¬ e.1 < c.1 → e ∈ out := by
  induction cs with
  | nil =>
    exact ⟨[], rfl, fun e he => absurd he List.not_mem_nil, fun c hc => absurd hc List.not_mem_nil⟩
  | cons c cs ih =>
    obtain ⟨page, hp, hcrc, hprune⟩ := hheader c List.mem_cons_self
    obtain ⟨outs, houts, hsub, hall⟩ := ih (fun c' hc' => hheader c' (List.mem_cons_of_mem _ hc'))
      fun c' hc' => hvisit c' (List.mem_cons_of_mem _ hc')
    rw [List.map_cons, PagedBTree.scanChildren, readPageHeader_holds ht hp hcrc]
    cases hover : planOverlaps (PageHeader.decode page) plan with
    | false =>
      simp only [hover, Bool.not_false, if_true]
      refine ⟨outs, houts, hsub, fun c' _ e he => ?_⟩
      rw [hprune hover] at he
      cases he
    | true =>
      obtain ⟨out, hout, hsub', hall'⟩ := hvisit c List.mem_cons_self
      simp only [hover, Bool.not_true, Bool.false_eq_true, if_false, hout, houts]
      refine ⟨out ++ outs, rfl, fun e he => ?_, fun c' hc' e he hlo => ?_⟩
      · rcases List.mem_append.1 he with he | he
        · exact hsub' e he
        · exact hsub e he
      · rcases List.mem_cons.1 hc' with rfl | hc'
        · exact List.mem_append_left _ (hall' e he hlo)
        · exact List.mem_append_right _ (hall c' hc' e he hlo)

theorem readPages_holds {t : PagedBTree} {pf : PageFile} (ht : t.pageFile = some pf)
    {offs : List Nat} (h : ∀ off ∈ offs, ∃ page, Holds pf off page) :
    ∃ pages, t.readPages offs = .ok pages := by
  induction offs with
  | nil => exact ⟨[], rfl⟩
  | cons off offs ih =>
    obtain ⟨page, hp⟩ := h off List.mem_cons_self
    obtain ⟨pages, hps⟩ := ih fun o ho => h o (List.mem_cons_of_mem _ ho)
    exact ⟨page :: pages, by simp only [PagedBTree.readPages, readPageBytes_holds ht hp, hps]⟩

/-- **The scan of a subtree** collects what matches from its first key on. -/
theorem Node.scan {t : PagedBTree} {pf : PageFile} (ht : t.pageFile = some pf)
    {m : SortedMap Key Nat} (hshort : ∀ e ∈ m.entries, e.1.length ≤ 14) {h off : Nat} {lo : Key}
    (hn : Node pf m h off lo) (plan : TypedPlan) {fuel : Nat} (hf : h < fuel) :
    ∃ out, t.scanFromDiskAt plan fuel off = some (.ok out) ∧ Collects m plan lo out := by
  induction hn generalizing fuel with
  | @leaf off ess lo hc hsub hall =>
    obtain ⟨fuel, rfl⟩ : ∃ n, fuel = n + 1 := ⟨fuel - 1, by omega⟩
    obtain ⟨page, es, next, hp, hl⟩ := hc.head
    rw [PagedBTree.scanFromDiskAt, readPageHeader_holds ht hp hl.crc]
    cases hover : planOverlaps (PageHeader.decode page) plan with
    | false =>
      have hnil := matching_nil_of_pruned hshort hl.type hl.bounds hover
      simp only [hover, Bool.not_false, if_true]
      refine ⟨[], rfl, fun e he => absurd he List.not_mem_nil, fun e he => ?_⟩
      rw [hnil] at he
      cases he
    | true =>
      simp only [hover, hl.type, Bool.not_true, Bool.false_eq_true, if_true, if_false,
        hc.scan ht plan, Option.map_some]
      refine ⟨_, rfl, fun e he => ?_, fun e he hlo => ?_⟩
      · obtain ⟨hmem, hmatch⟩ := List.mem_filter.1 he
        exact List.mem_filter.2 ⟨hsub e hmem, hmatch⟩
      · obtain ⟨hmem, hmatch⟩ := List.mem_filter.1 he
        exact List.mem_filter.2 ⟨hall e hmem hlo, hmatch⟩
  | @internal h off page c cs hp hi hlt hnodes ih =>
    obtain ⟨fuel, rfl⟩ : ∃ n, fuel = n + 1 := ⟨fuel - 1, by omega⟩
    have hne : kPageTypeInternal ≠ kPageTypeLeaf := by decide
    have hover : planOverlaps (PageHeader.decode page) plan = true := by
      cases hop : plan.op <;>
        simp [planOverlaps, hop, pageSummaryCoversKey, rangeOverlapsSummary, hi.type]
    have hchildren : ∀ o ∈ (c :: cs).map (·.2), ∃ page, Holds pf o page := by
      intro o ho
      obtain ⟨c', hc', rfl⟩ := List.mem_map.1 ho
      obtain ⟨page', hp', -⟩ := (hnodes c' hc').header hshort plan
      exact ⟨page', hp'⟩
    obtain ⟨pages, hpages⟩ := readPages_holds ht hchildren
    obtain ⟨out, hout, hsub, hall⟩ := scanChildren_collects ht
      (fun c' hc' => (hnodes c' hc').header hshort plan)
      (fun c' hc' => ih c' hc' (by omega : h < fuel))
    rw [PagedBTree.scanFromDiskAt, readPageHeader_holds ht hp hi.crc]
    simp only [hover, hi.type, readPageBytes_holds ht hp, hi.offsets, hpages, Bool.not_true, ne_eq,
      Bool.false_eq_true, if_false, hne, not_true_eq_false]
    exact ⟨out, hout, hsub, fun e he hlo => hall c List.mem_cons_self e he hlo⟩

/-! ## Scans of the whole tree -/

/-- What a scan from the root collects, merged with an empty delta, is what matches. -/
theorem mergeDeltaIntoScan_empty {t : PagedBTree} (hidx : t.index = SortedMap.empty)
    (hdel : t.deltaDeleted = SortedMap.empty) {m : SortedMap Key Nat} {plan : TypedPlan}
    {out : List Entry} (h : ∀ e, e ∈ out ↔ e ∈ matching m plan) :
    t.mergeDeltaIntoScan out = matching m plan := by
  have hs : KeysSorted (matching m plan) := m.sorted.sublist List.filter_sublist
  have hmap : (SortedMap.empty.insertAll out : SortedMap Key Nat) = ⟨matching m plan, hs⟩ :=
    SortedMap.insertAll_eq h
  rw [PagedBTree.mergeDeltaIntoScan, hidx, hdel, hmap]
  rfl

/-- Cutting off both ends of what matches changes nothing. -/
theorem cut_matching {m : SortedMap Key Nat} {plan : TypedPlan} (hop : plan.op = .kRange) :
    (((matching m plan).dropWhile fun e => decide (e.1 < plan.key)).rdropWhile
      fun e => decide (plan.rangeEnd < e.1)) = matching m plan := by
  have hin : ∀ e ∈ matching m plan, plan.key ≤ e.1 ∧ e.1 ≤ plan.rangeEnd := by
    intro e he
    have := (List.mem_filter.1 he).2
    simpa [planMatches, hop] using this
  have hdrop : ((matching m plan).dropWhile fun e => decide (e.1 < plan.key))
      = matching m plan := by
    refine List.dropWhile_eq_self_iff.2 fun hl => ?_
    have := (hin _ (List.getElem_mem hl)).1
    simpa using this
  rw [hdrop]
  refine List.rdropWhile_eq_self_iff.2 fun hl => ?_
  have := (hin _ (List.getLast_mem hl)).2
  simpa using this

/-- Whatever the tree holds, a scan collects keys that match. -/
theorem scan_matches {t : PagedBTree} {plan : TypedPlan} {hits : List Entry}
    (h : t.scan plan = some (.ok hits)) {e : Entry} (he : e ∈ hits) : planMatches plan e.1 = true := by
  -- both ends are cut off a list sorted by its keys
  have hcut : plan.op = .kRange → plan.key ≤ e.1 → e.1 ≤ plan.rangeEnd →
      planMatches plan e.1 = true := fun hop hlo hhi => by simp [planMatches, hop, hlo, hhi]
  have hdrop : ∀ {l : List Entry}, KeysSorted l →
      (l.dropWhile fun e => decide (e.1 < plan.key)) = l.filter fun e => !decide (e.1 < plan.key) :=
    fun hs => dropWhile_eq_filter (hs.imp fun {a b} hab hb => by
      simp only [decide_eq_true_eq] at hb ⊢
      exact lt_trans hab hb)
  unfold PagedBTree.scan at h
  split at h
  · cases h
  split at h
  · rename_i hop
    split at h
    · cases h
      cases he
    split at h
    · cases h
      cases he
    split at h
    · cases h
    · cases h
      cases he
    · cases h
      rw [List.mem_singleton.1 he]
      simp [planMatches, hop]
  · rename_i hop
    split at h
    · cases h
      cases he
    split at h
    · cases h
      cases he
    split at h
    · split at h
      · cases h
      · cases h
      · rename_i out _
        cases h
        have hs : KeysSorted (t.mergeDeltaIntoScan out) := SortedMap.sorted _
        rw [hdrop hs, rdropWhile_eq_filter ((hs.sublist List.filter_sublist).imp fun {a b} hab ha =>
          by simp only [decide_eq_true_eq] at ha ⊢; exact lt_trans ha hab)] at he
        simp only [List.mem_filter, Bool.not_eq_true', decide_eq_false_iff_not, not_lt] at he
        exact hcut hop he.1.2 he.2
    · cases h
      rw [hdrop t.index.sorted, takeWhile_eq_filter
        ((t.index.sorted.sublist List.filter_sublist).imp fun {a b} hab hb => by
          simp only [decide_eq_true_eq] at hb ⊢; exact le_trans (le_of_lt hab) hb)] at he
      simp only [List.mem_filter, Bool.not_eq_true', decide_eq_false_iff_not, not_lt,
        decide_eq_true_eq] at he
      exact hcut hop he.1.1.2 he.1.2

theorem firstKey_le {m : SortedMap Key Nat} {e : Entry} (he : e ∈ m.entries) :
    firstKey m ≤ e.1 := by
  rw [firstKey]
  cases hf : m.entries.head? with
  | none => exact not_lt.1 (List.not_lt_nil _)
  | some e' => exact SortedMap.first_le hf he

theorem le_of_start {a b : Key} (h : a <+: b) : a ≤ b := by
  obtain ⟨s, rfl⟩ := h
  induction a with
  | nil => exact not_lt.1 (List.not_lt_nil _)
  | cons x a ih =>
    exact not_lt.1 fun hlt => absurd ih (not_le.2 (by simpa [List.cons_lt_cons_iff] using hlt))

/-- **A scan of a loaded tree** returns what matches, if the plan starts within the upper bound of
the root's header, and nothing otherwise. -/
theorem Loaded.scan {t : PagedBTree} {pf : PageFile} {m : SortedMap Key Nat} (h : Loaded t pf m)
    (hm : Storable m) {plan : TypedPlan} (hs : plan.snapshotLsn ≤ t.summary.summaryLsn) :
    t.scan plan
      = some (.ok (if reach m ≠ [] ∧ reach m < plan.key then [] else matching m plan)) := by
  have hlow : ∀ e ∈ m.entries, t.summary.minKey ≤ e.1 :=
    fun e he => (le_of_start h.minKey).trans (firstKey_le he)
  obtain ⟨height, lo, hnode, hfirst⟩ := h.root.subtree
  obtain ⟨hb, -, hlen⟩ := hnode.bounds
  have hfuel : height < t.walkFuel := by
    simp only [PagedBTree.walkFuel, h.file, Option.map_some, Option.getD_some]
    omega
  rw [PagedBTree.scan, if_neg (by omega), h.maxKey]
  cases hop : plan.op with
  | kEq =>
    simp only
    split
    · -- the key is in front of every key of the map
      rename_i hout
      have hnil : matching m plan = [] := by
        refine matching_eq_nil_iff.2 fun e he => ?_
        simp only [planMatches, hop, decide_eq_false_iff_not]
        intro hkey
        have hge := hlow e he
        rw [hkey] at hge
        exact absurd hge (not_le.2 hout.2)
      rw [hnil, ite_self]
    · split
      · rfl
      · rw [matching_kEq hop]
        exact Mirrors.get_toList (h.get hm plan.key)
  | kRange =>
    simp only
    split
    · rfl
    · split
      · rename_i hout
        have hnil : matching m plan = [] := by
          refine matching_eq_nil_iff.2 fun e he => ?_
          simp only [planMatches, hop, decide_eq_false_iff_not]
          exact fun hin => absurd ((hlow e he).trans hin.2) (not_le.2 hout.2)
        rw [hnil]
      · obtain ⟨out, hout, hsub, hall⟩ :=
          hnode.scan h.file (fun e he => (hm e he).1) plan hfuel
        have hmem : ∀ e, e ∈ out ↔ e ∈ matching m plan := fun e =>
          ⟨hsub e, fun he => hall e he (hfirst e (List.mem_filter.1 he).1)⟩
        rw [if_pos ⟨h.onDisk, by omega⟩, hout]
        simp only [mergeDeltaIntoScan_empty h.index_eq h.deleted hmem, cut_matching hop]

theorem reach_ne_nil {m : SortedMap Key Nat} (hne : m.entries ≠ []) (hm : Storable m)
    (hkeys : ∀ e ∈ m.entries, e.1 ≠ []) : reach m ≠ [] := by
  rw [reach]
  split
  · cases hl : m.entries.getLast? with
    | none => exact absurd (List.getLast?_eq_none_iff.1 hl) hne
    | some e => exact hkeys e (List.mem_of_getLast? hl)
  · rename_i hmany
    -- the last separator is the first key of a leaf
    have hroot : rootKeys m ≠ [] := by
      intro hnil
      have hhead := head?_topKeys (leafKeys m).length (leafKeys m)
      rw [← rootKeys, hnil, List.head?_nil, eq_comm, List.head?_eq_none_iff] at hhead
      rw [hhead] at hmany
      exact hmany (by simp)
    obtain ⟨key, hkey⟩ : ∃ key, (rootKeys m).getLast? = some key :=
      ⟨_, List.getLast?_eq_some_getLast hroot⟩
    rw [hkey]
    obtain ⟨e, he, hek⟩ := mem_leafKeys hm.keysFit (mem_topKeys (List.mem_of_getLast? hkey))
    rw [Option.getD_some, ← hek]
    exact hkeys e he

/-- **When a scan is exact**: a scan of a persisted and loaded map of keys of one to fourteen bytes
returns what matches if and only if it starts within `reach m`, the first key below the last child
of the root, or nothing matches. -/
theorem scan_exact_iff (t : PagedBTree) {pf : PageFile} (ht : t.pageFile = some pf)
    {m : SortedMap Key Nat} (hne : m.entries ≠ []) (hm : Storable m)
    (hkeys : ∀ e ∈ m.entries, e.1 ≠ []) :
    ∃ t' pf' root, t.persistRootFromMap m = some (t', .ok root) ∧ t'.pageFile = some pf' ∧
      (pf'.nextOffset ≤ 2 ^ 32 → ∀ u : PagedBTree, u.pageFile = some pf' →
        (u.loadRoot root).2 = .ok () ∧
          ∀ plan : TypedPlan, plan.snapshotLsn ≤ (u.loadRoot root).1.summary.summaryLsn →
            ((u.loadRoot root).1.scan plan = some (.ok (matching m plan)) ↔
              ¬ reach m < plan.key ∨ matching m plan = [])) := by
  obtain ⟨pf', root, hr, -, hroot⟩ := persistRootImpl_spec t ht hne hm
  refine ⟨_, pf', root, hr, rfl, fun hsize u hu => ?_⟩
  obtain ⟨hok, hloaded⟩ := loadRoot_spec hu (hroot hsize)
  refine ⟨hok, fun plan hs => ?_⟩
  have hreach := reach_ne_nil hne hm hkeys
  rw [hloaded.scan hm hs]
  by_cases hlt : reach m < plan.key
  · rw [if_pos ⟨hreach, hlt⟩, Option.some.injEq, Except.ok.injEq]
    exact ⟨fun he => .inr he.symm, fun hor => (hor.resolve_left (not_not_intro hlt)).symm⟩
  · rw [if_neg fun hc => hlt hc.2]
    exact iff_of_true rfl (.inl hlt)

/-- Two entries in a new page file, which are one leaf. -/
theorem scan_exact_two :
    ∃ t' pf' root, (PagedBTree.new (some PageFile.new)).persistRootFromMap
        ((SortedMap.empty.insert [0x61] 7).insert [0x62] 8) = some (t', .ok root) ∧
      t'.pageFile = some pf' ∧ (t'.loadRoot root).1.scan ⟨.kRange, [0x61], [0x62], 0⟩
        = some (.ok [([0x61], 7), ([0x62], 8)]) := by
  obtain ⟨t', pf', root, hr, hf, hscan⟩ := scan_exact_iff (PagedBTree.new (some PageFile.new)) rfl
    (m := (SortedMap.empty.insert [0x61] 7).insert [0x62] 8) (by decide)
    (by unfold Storable; decide) (by decide)
  refine ⟨t', pf', root, hr, hf, ?_⟩
  have hend : ((PagedBTree.new (some PageFile.new)).persistRootFromMap
      ((SortedMap.empty.insert [0x61] 7).insert [0x62] 8)).map
        (fun r => r.1.pageFile.map (·.nextOffset)) = some (some 8192) := by decide +kernel
  rw [hr, Option.map_some, hf, Option.map_some, Option.some.injEq, Option.some.injEq] at hend
  have hexact := ((hscan (by omega) t' hf).2 ⟨.kRange, [0x61], [0x62], 0⟩ (Nat.zero_le _)).2
    (.inl (by decide +kernel))
  rw [hexact]
  decide

/-- Keys of fourteen bytes that differ in the last one. -/
def wideKey (i : Nat) : Key := List.replicate 13 7 ++ [UInt8.ofNat i]

theorem wideKey_lt {i j : Nat} (h : i < j) (hj : j < 256) : wideKey i < wideKey j := by
  apply List.append_left_lt
  rw [List.cons_lt_cons_iff]
  left
  rw [UInt8.lt_iff_toNat_lt, UInt8.toNat_ofNat', UInt8.toNat_ofNat']
  omega

/-- Entries for two leaves, two of them on the second one. -/
def wideMap : SortedMap Key Nat where
  entries := (List.range 170).map fun i => (wideKey i, i + 1)
  sorted := by
    refine List.pairwise_map.2 (List.pairwise_lt_range.imp_of_mem ?_)
    intro i j _ hj hij
    have := List.mem_range.1 hj
    exact wideKey_lt hij (by omega)

/-- The last entry of the second leaf lies beyond the bound of the root, and a scan for it returns
nothing. -/
theorem scan_misses_last_entry :
    ∃ t' pf' root, (PagedBTree.new (some PageFile.new)).persistRootFromMap wideMap
        = some (t', .ok root) ∧ t'.pageFile = some pf' ∧ pf'.nextOffset ≤ 2 ^ 32 ∧
      (t'.loadRoot root).2 = .ok () ∧
      (t'.loadRoot root).1.scan ⟨.kEq, wideKey 169, [], 0⟩ = some (.ok []) ∧
      matching wideMap ⟨.kEq, wideKey 169, [], 0⟩ = [(wideKey 169, 170)] := by
  have hm : Storable wideMap := by
    intro e he
    obtain ⟨i, hi, rfl⟩ := List.mem_map.1 he
    have := List.mem_range.1 hi
    exact ⟨by simp [wideKey, kPageSummaryKeyBytes], by simp only; omega⟩
  obtain ⟨pf', root, hr, -, hroot⟩ := persistRootImpl_spec (PagedBTree.new (some PageFile.new)) rfl
    (by decide : wideMap.entries ≠ []) hm
  have hend : ((PagedBTree.new (some PageFile.new)).persistRootFromMap wideMap).map
      (fun r => r.1.pageFile.map (·.nextOffset)) = some (some 16384) := by decide +kernel
  rw [PagedBTree.persistRootFromMap, hr, Option.map_some, Option.map_some, Option.some.injEq,
    Option.some.injEq] at hend
  have hsize : pf'.nextOffset ≤ 2 ^ 32 := by omega
  refine ⟨_, pf', root, hr, rfl, hsize, ?_⟩
  obtain ⟨hok, hloaded⟩ := loadRoot_spec (t := { PagedBTree.new (some PageFile.new) with
    pageFile := some pf', rootOffset := root, index := SortedMap.empty
    deltaDeleted := SortedMap.empty, onDiskMode := true }) rfl (hroot hsize)
  refine ⟨hok, ?_, by decide +kernel⟩
  rw [hloaded.scan hm (Nat.zero_le _), if_pos (by decide +kernel)]

end EBTree.BTree
