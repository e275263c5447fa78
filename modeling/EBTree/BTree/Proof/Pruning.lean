import EBTree.BTree.Proof.Levels
import EBTree.BTree.Proof.Scan

/-!
# When pruning by summaries is sound

The header of a leaf states the first fourteen bytes of the map's last key as its upper bound, and
the header of an internal root its last separator.

* `leaf_covers`, `leaf_rejects_last`: what a leaf's header lets through.
* `root_header`: what the header of the root states, for keys of any length.
* `prunesSoundly_iff`: when no page and no loaded root rejects an entry of the map.
-/

set_option autoImplicit false

namespace EBTree.BTree

open Lib

variable {m : SortedMap Key Nat} {page : Bytes}

def lastKey (m : SortedMap Key Nat) : Key := (m.entries.getLast?.map (·.1)).getD []

/-- The summary of a tree leaves nothing to find for the key, as `scan` reads it. -/
def BTreeSummary.Excludes (s : BTreeSummary) (key : Key) : Prop :=
  (s.minKey ≠ [] ∧ key < s.minKey) ∨ (s.maxKey ≠ [] ∧ s.maxKey < key)

/-- **Pruning is sound** for a map that `t` persists: no leaf it writes is rejected for an entry it
holds, no internal page at all, and no tree that loads the root excludes a key of the map. -/
structure PrunesSoundly (t : PagedBTree) (pf : PageFile) (m : SortedMap Key Nat) : Prop where
  leaf : ∀ leaves page es, t.serializeLeaves m.entries m.entries.length m.entries = some leaves →
    page ∈ PagedBTree.linkLeaves pf.nextOffset (leaves.map (·.1)) → leafEntries page = some es →
    ∀ e ∈ es, pageSummaryCoversKey (PageHeader.decode page) e.1 = true ∧
      ∀ a b, a ≤ e.1 → e.1 ≤ b → rangeOverlapsSummary (PageHeader.decode page) a b = true
  internal : ∀ children key a b,
    let hdr := PageHeader.decode (serializeInternalPage t.preferHistogramSummary t.maxLsn
      t.summary.summaryLsn children m.entries)
    pageSummaryCoversKey hdr key = true ∧ rangeOverlapsSummary hdr a b = true
  loaded : ∀ t' root, t.persistRootFromMap m = some (t', .ok root) →
    ∀ u : PagedBTree, u.pageFile = t'.pageFile →
      (u.loadRoot root).2 = .ok () ∧ ∀ e ∈ m.entries, ¬ (u.loadRoot root).1.summary.Excludes e.1

/-! ## Leaves -/

theorem last_of_mem {e : Entry} (he : e ∈ m.entries) :
    ∃ last, m.entries.getLast? = some last ∧ lastKey m = last.1 ∧ e.1 ≤ last.1 := by
  cases hl : m.entries.getLast? with
  | none =>
    rw [List.getLast?_eq_none_iff.1 hl] at he
    cases he
  | some last => exact ⟨last, rfl, by simp [lastKey, hl], SortedMap.le_last hl he⟩

theorem take_le (key : Key) (n : Nat) : key.take n ≤ key := le_of_start (List.take_prefix n key)

/-- **A leaf lets its entries through** when its upper bound is the whole last key. -/
theorem leaf_covers {es : List Entry} {next : Nat} (h : IsLeaf m.entries page es next)
    (hlast : (lastKey m).length ≤ kPageSummaryKeyBytes) {e : Entry} (he : e ∈ m.entries) :
    pageSummaryCoversKey (PageHeader.decode page) e.1 = true ∧
      ∀ a b, a ≤ e.1 → e.1 ≤ b → rangeOverlapsSummary (PageHeader.decode page) a b = true := by
  obtain ⟨last, hl, hkey, hhi⟩ := last_of_mem he
  rw [hkey] at hlast
  have hb : headerBounds (PageHeader.decode page) =
      ((firstKey m).take kPageSummaryKeyBytes, last.1) := by
    rw [h.bounds, sourceBounds, hl, firstKey]
    simp [List.take_of_length_le hlast]
  have hmin : (firstKey m).take kPageSummaryKeyBytes ≤ e.1 := (take_le _ _).trans (firstKey_le he)
  have htype : (PageHeader.decode page).type ≠ kPageTypeInternal := by
    rw [h.type]
    decide
  constructor
  · unfold pageSummaryCoversKey
    rw [if_neg htype, hb]
    simp only [not_lt.2 hmin, not_lt.2 hhi, and_false, if_false, ite_self]
  · intro a b ha hb'
    unfold rangeOverlapsSummary
    rw [if_neg htype, hb]
    simp only [not_lt.2 (ha.trans hhi), not_lt.2 (hmin.trans hb'), and_false, if_false]

/-- **A leaf rejects a last key** that is longer than its header has room for. -/
theorem leaf_rejects_last {es : List Entry} {next : Nat} (h : IsLeaf m.entries page es next)
    (hlast : kPageSummaryKeyBytes < (lastKey m).length) :
    pageSummaryCoversKey (PageHeader.decode page) (lastKey m) = false := by
  have h14 : kPageSummaryKeyBytes = 14 := rfl
  have hlen : ((lastKey m).take kPageSummaryKeyBytes).length = kPageSummaryKeyBytes := by
    rw [List.length_take]
    omega
  have hlt : (lastKey m).take kPageSummaryKeyBytes < lastKey m := by
    refine lt_of_le_of_ne (take_le _ _) fun heq => ?_
    have := congrArg List.length heq
    omega
  have hne : (lastKey m).take kPageSummaryKeyBytes ≠ [] := by
    intro hnil
    rw [hnil] at hlen
    cases hlen
  have hkey : lastKey m ≠ [] := by
    intro hnil
    rw [hnil] at hlast
    cases hlast
  have htype : (PageHeader.decode page).type ≠ kPageTypeInternal := by
    rw [h.type]
    decide
  unfold pageSummaryCoversKey
  rw [if_neg hkey, if_neg htype, h.bounds]
  exact ite_eq_left_iff.2 fun _ => if_pos ⟨hne, hlt⟩

theorem exists_of_forall₂ {α β : Type} {R : α → β → Prop} {l : List α} {l' : List β}
    (h : List.Forall₂ R l l') {x : α} (hx : x ∈ l) : ∃ y ∈ l', R x y := by
  induction h with
  | nil => cases hx
  | cons hr _ ih =>
    rcases List.mem_cons.1 hx with rfl | hx
    · exact ⟨_, List.mem_cons_self, hr⟩
    · obtain ⟨y, hy, hxy⟩ := ih hx
      exact ⟨y, List.mem_cons_of_mem _ hy, hxy⟩

/-- The pages of the leaves with their links are leaves with the entries of the chunks. -/
theorem isLeaf_linkLeaves {source : List Entry} {leaves : List (Bytes × Key)}
    {chunks : List (List Entry)} (h : List.Forall₂ (IsLeafOf source) leaves chunks) (base : Nat) :
    List.Forall₂ (fun page chunk => ∃ next, IsLeaf source page chunk next)
      (PagedBTree.linkLeaves base (leaves.map (·.1))) chunks := by
  induction h generalizing base with
  | nil => exact .nil
  | cons hl _ ih =>
    rw [List.map_cons, linkLeaves_cons]
    refine .cons ?_ (ih _)
    split
    · exact ⟨0, hl.1.1⟩
    · exact ⟨_, hl.1.2 _⟩

/-! ## The root -/

theorem groupKeys_sublist (fuel : Nat) (keys : List Key) :
    (groupKeys fuel keys).Sublist keys := by
  induction fuel generalizing keys with
  | zero => exact List.nil_sublist _
  | succ fuel ih =>
    cases keys with
    | nil => exact List.nil_sublist _
    | cons k ks =>
      rw [groupKeys]
      have h96 : kInternalMaxEntries = 95 + 1 := rfl
      rw [h96, List.drop_succ_cons]
      exact ((ih _).trans (List.drop_sublist _ _)).cons_cons k

theorem topKeys_sublist (fuel : Nat) (keys : List Key) : (topKeys fuel keys).Sublist keys := by
  induction fuel generalizing keys with
  | zero => exact List.Sublist.refl _
  | succ fuel ih =>
    rw [topKeys]
    split
    · exact List.Sublist.refl _
    · exact (ih _).trans (groupKeys_sublist _ _)

theorem two_le_topKeys {fuel : Nat} {keys : List Key} (h : 2 ≤ keys.length) :
    2 ≤ (topKeys fuel keys).length := by
  induction fuel generalizing keys with
  | zero => exact h
  | succ fuel ih =>
    rw [topKeys]
    split
    · exact h
    · exact ih (length_groupKeys (by omega)).1

theorem heads_sublist (chunks : List (List Entry)) (h : ∀ c ∈ chunks, ∃ e l, c = e :: l) :
    (chunks.map fun chunk => (chunk.head?.map (·.1)).getD []).Sublist
      (chunks.flatten.map (·.1)) := by
  induction chunks with
  | nil => exact List.Sublist.refl _
  | cons c cs ih =>
    obtain ⟨e, l, rfl⟩ := h c List.mem_cons_self
    rw [List.map_cons, List.flatten_cons, List.cons_append, List.map_cons, List.map_append]
    exact ((ih fun c' hc' => h c' (List.mem_cons_of_mem _ hc')).trans
      (List.sublist_append_right _ _)).cons_cons _

/-- The separators of the root ascend. -/
theorem rootKeys_sorted (h : KeysFit m.entries) : (rootKeys m).Pairwise (· < ·) := by
  have hkeys : (m.entries.map (·.1)).Pairwise (· < ·) := List.Pairwise.map _ (fun _ _ h => h) m.sorted
  have hsub := heads_sublist (leafChunks m.entries.length m.entries)
    fun c hc => leafChunks_ne_nil h hc
  rw [flatten_leafChunks h (Nat.le_refl _)] at hsub
  exact hkeys.sublist ((topKeys_sublist _ _).trans hsub)

/-- The bound of a root over several leaves is one: it is not empty. -/
theorem reach_ne_nil_of_many (h : KeysFit m.entries) (hmany : ¬ (leafKeys m).length ≤ 1) :
    reach m ≠ [] := by
  have htwo : 2 ≤ (rootKeys m).length := two_le_topKeys (by omega)
  have hsorted := rootKeys_sorted h
  rw [reach, if_neg hmany]
  cases hk : rootKeys m with
  | nil =>
    rw [hk] at htwo
    cases htwo
  | cons k ks =>
    rw [hk] at hsorted htwo
    cases hks : ks.getLast? with
    | none =>
      rw [List.getLast?_eq_none_iff.1 hks] at htwo
      simp at htwo
    | some l =>
      have hlt := (List.pairwise_cons.1 hsorted).1 l (List.mem_of_getLast? hks)
      rw [List.getLast?_cons, hks]
      simp only [Option.getD_some]
      rintro rfl
      exact List.not_lt_nil _ hlt

/-- What a root is worth to its header: its first and its last separator. -/
def endKeys {X : Type} (level : List (Key × X)) : Key × Key :=
  ((level.head?.map (·.1)).getD [], (level.getLast?.map (·.1)).getD [])

def HeaderStates (pf : PageFile) (h : Nat) (c : Entry) (x : Key × Key) : Prop :=
  c.1.length < 2 ^ 16 ∧ (h = 0 ∨ ∃ page, Holds pf c.2 page ∧
    PageHeader.storedCrc page = (crc32 (page.take 57)).toNat ∧
    (headerBounds (PageHeader.decode page)).1 <+: x.1 ∧
    (headerBounds (PageHeader.decode page)).2 = x.2.take kPageSummaryKeyBytes)

theorem headerStates_levels (t : PagedBTree) (source : List Entry) :
    Levels t source (fun _ => True) endKeys HeaderStates where
  back _ _ := trivial
  mono := by
    rintro pf pf' h c x hext ⟨hlen, h0 | ⟨page, hp, hrest⟩⟩
    · exact ⟨hlen, .inl h0⟩
    · exact ⟨hlen, .inr ⟨page, hext.holds hp, hrest⟩⟩
  page := by
    intro pf pf' h y ys _ hall _ hholds _
    obtain ⟨last, hl⟩ : ∃ last, (y :: ys).getLast? = some last :=
      ⟨_, List.getLast?_eq_some_getLast (List.cons_ne_nil y ys)⟩
    have hlen : ∀ c ∈ (y :: ys).map (·.1), c.1.length < 2 ^ 16 := by
      intro c hc
      obtain ⟨z, hz, rfl⟩ := List.mem_map.1 hc
      exact (hall z hz).1
    have hb := headerBounds_internal t.preferHistogramSummary t.maxLsn t.summary.summaryLsn source
      (show ((y :: ys).map (·.1)).head? = some y.1 from rfl)
      (show ((y :: ys).map (·.1)).getLast? = some last.1 by rw [List.getLast?_map, hl]; rfl) hlen
    refine ⟨(hall y List.mem_cons_self).1, .inr ⟨_, hholds, storedCrc_pageOf _ _, hb.1, ?_⟩⟩
    rw [hb.2, endKeys, List.getLast?_map, hl]
    rfl

/-- **The header of the root**: a prefix of the first key, and the start of `reach`. -/
theorem root_header (t : PagedBTree) {pf : PageFile} (ht : t.pageFile = some pf)
    (hne : m.entries ≠ []) (hfit : KeysFit m.entries) (hlsn : ∀ e ∈ m.entries, e.2 < 2 ^ 64) :
    ∃ t' pf' root page, t.persistRootFromMap m = some (t', .ok root) ∧ t'.pageFile = some pf' ∧
      Holds pf' root page ∧ PageHeader.storedCrc page = (crc32 (page.take 57)).toNat ∧
      (headerBounds (PageHeader.decode page)).1 <+: firstKey m ∧
      (headerBounds (PageHeader.decode page)).2 = (reach m).take kPageSummaryKeyBytes := by
  have hkeys : ∀ {key : Key} {i : Nat}, (leafKeys m)[i]? = some key → key.length < 2 ^ 16 := by
    intro key i hat
    obtain ⟨e, he, rfl⟩ := mem_leafKeys hfit (List.mem_of_getElem? hat)
    exact hfit.lt e he
  obtain ⟨pf', root, hr, -, hroot⟩ := persistRootImpl_levels t ht hne hfit hlsn
    (headerStates_levels t m.entries) (fun _ => ([], []))
    fun pf off key i hat _ _ => ⟨hkeys hat, .inl rfl⟩
  have h := hroot trivial
  by_cases hone : (leafKeys m).length ≤ 1
  · rw [if_pos hone] at h
    obtain ⟨page, hholds, hleaf⟩ := h
    refine ⟨_, pf', root, page, hr, rfl, hholds, hleaf.crc, ?_, ?_⟩
    · rw [hleaf.bounds]
      exact List.take_prefix _ _
    · rw [hleaf.bounds, reach, if_pos hone]
      rfl
  · rw [if_neg hone] at h
    obtain ⟨height, key, -, h0 | ⟨page, hholds, hcrc, hmin, hmax⟩⟩ := h
    · cases h0
    · have hfst : (rootLevel endKeys m fun _ => ([], [])).map (·.1) = rootKeys m := by
        rw [rootLevel, map_fst_topLevel, List.map_map]
        have hid : ((·.1) ∘ fun k : Key × Nat => (k.1, (([], []) : Key × Key))) = (·.1) := rfl
        rw [hid, List.zipIdx_map_fst]
        rfl
      refine ⟨_, pf', root, page, hr, rfl, hholds, hcrc, ?_, ?_⟩
      · have hhead := head?_topKeys (leafKeys m).length (leafKeys m)
        rw [← rootKeys, ← hfst, List.head?_map] at hhead
        rw [endKeys, hhead, firstKey_leafKeys hfit] at hmin
        exact hmin
      · rw [hmax, reach, if_neg hone, endKeys, ← hfst, List.getLast?_map]

/-! ## Together -/

/-- Where no leaf rejects an entry it holds, the last key is short enough for a header. -/
theorem PrunesSoundly.last_short {t : PagedBTree} {pf : PageFile} (h : PrunesSoundly t pf m)
    (hne : m.entries ≠ []) (hfit : KeysFit m.entries) (hlsn : ∀ e ∈ m.entries, e.2 < 2 ^ 64) :
    (lastKey m).length ≤ kPageSummaryKeyBytes := by
  obtain ⟨leaves, hleaves, hall⟩ := serializeLeaves_spec t hfit.lt hfit hlsn
    (Nat.le_refl m.entries.length)
  obtain ⟨e₀, he₀⟩ := List.exists_mem_of_ne_nil _ hne
  obtain ⟨last, hl, hlast, -⟩ := last_of_mem he₀
  by_contra hlong
  -- the leaf of the last entry rejects it
  have hin := List.mem_of_getLast? hl
  rw [← flatten_leafChunks hfit (Nat.le_refl m.entries.length)] at hin
  obtain ⟨chunk, hchunk, hec⟩ := List.mem_flatten.1 hin
  obtain ⟨p, hp, next, hleaf⟩ :=
    exists_of_forall₂ (isLeaf_linkLeaves hall pf.nextOffset).flip hchunk
  have hcov := (h.leaf leaves p chunk hleaves hp hleaf.entries last hec).1
  rw [← hlast, leaf_rejects_last hleaf (by omega)] at hcov
  cases hcov

/-- **When pruning is sound**: the last key is short enough for a header, and the header of the root
states it. -/
theorem prunesSoundly_iff (t : PagedBTree) {pf : PageFile} (ht : t.pageFile = some pf)
    (hne : m.entries ≠ []) (hfit : KeysFit m.entries) (hlsn : ∀ e ∈ m.entries, e.2 < 2 ^ 64) :
    PrunesSoundly t pf m ↔ (lastKey m).length ≤ kPageSummaryKeyBytes ∧ reach m = lastKey m := by
  obtain ⟨leaves, hleaves, hall⟩ := serializeLeaves_spec t hfit.lt hfit hlsn
    (Nat.le_refl m.entries.length)
  have hflat := flatten_leafChunks hfit (Nat.le_refl m.entries.length)
  have hpages := isLeaf_linkLeaves hall pf.nextOffset
  obtain ⟨t', pf', root, page, hr, hfile, hholds, hcrc, hmin, hmax⟩ := root_header t ht hne hfit hlsn
  have hload : ∀ u : PagedBTree, u.pageFile = t'.pageFile → (u.loadRoot root).2 = .ok () ∧
      (u.loadRoot root).1.summary.minKey = (headerBounds (PageHeader.decode page)).1 ∧
      (u.loadRoot root).1.summary.maxKey = (reach m).take kPageSummaryKeyBytes := by
    intro u hu
    rw [loadRoot_eq (hu.trans hfile) hholds hcrc]
    exact ⟨rfl, rfl, hmax⟩
  obtain ⟨e₀, he₀⟩ := List.exists_mem_of_ne_nil _ hne
  obtain ⟨last, hl, hlast, -⟩ := last_of_mem he₀
  have hmem := List.mem_of_getLast? hl
  constructor
  · intro h
    refine ⟨h.last_short hne hfit hlsn, ?_⟩
    by_cases hone : (leafKeys m).length ≤ 1
    · rw [reach, if_pos hone]
      rfl
    · have hin : reach m ∈ leafKeys m := by
        have hne' := reach_ne_nil_of_many hfit hone
        rw [reach, if_neg hone] at hne' ⊢
        cases hk : (rootKeys m).getLast? with
        | none =>
          rw [hk] at hne'
          exact absurd rfl hne'
        | some k => exact mem_topKeys (List.mem_of_getLast? hk)
      obtain ⟨e, he, hek⟩ := mem_leafKeys hfit hin
      have hle : reach m ≤ lastKey m := by
        rw [← hek, hlast]
        exact SortedMap.le_last hl he
      obtain ⟨-, hex⟩ := h.loaded t' root hr { t with pageFile := t'.pageFile } rfl
      have hnot := hex last hmem
      rw [BTreeSummary.Excludes, (hload { t with pageFile := t'.pageFile } rfl).2.2, ← hlast] at hnot
      have hnil : (reach m).take kPageSummaryKeyBytes ≠ [] := by
        intro hnil
        rcases List.take_eq_nil_iff.1 hnil with h0 | h0
        · cases h0
        · exact reach_ne_nil_of_many hfit hone h0
      have hge : lastKey m ≤ (reach m).take kPageSummaryKeyBytes :=
        not_lt.1 fun hlt => hnot (.inr ⟨hnil, hlt⟩)
      exact le_antisymm hle (hge.trans (take_le _ _))
  · rintro ⟨hshort, hreach⟩
    refine ⟨fun leaves' p es hleaves' hp hes e he => ?_, fun children key a b => ?_,
      fun t'' root' hr' u hu => ?_⟩
    · rw [hleaves] at hleaves'
      injection hleaves' with hleaves'
      subst hleaves'
      obtain ⟨chunk, hchunk, next, hleaf⟩ := exists_of_forall₂ hpages hp
      rw [hleaf.entries] at hes
      injection hes with hes
      subst hes
      refine leaf_covers hleaf hshort ?_
      rw [← hflat]
      exact List.mem_flatten.2 ⟨_, hchunk, he⟩
    · have htype : (PageHeader.decode (serializeInternalPage t.preferHistogramSummary t.maxLsn
          t.summary.summaryLsn children m.entries)).type = kPageTypeInternal := by
        rw [serializeInternalPage, decode_pageOf]
        exact internalHeader_type _ _ _ _ _
      simp only [pageSummaryCoversKey, rangeOverlapsSummary, htype, if_true, ite_self, and_self]
    · rw [hr] at hr'
      simp only [Option.some.injEq, Prod.mk.injEq, Except.ok.injEq] at hr'
      obtain ⟨rfl, rfl⟩ := hr'
      obtain ⟨hok, hminKey, hmaxKey⟩ := hload u hu
      refine ⟨hok, fun e he hex => ?_⟩
      rw [BTreeSummary.Excludes, hminKey, hmaxKey, hreach, List.take_of_length_le hshort] at hex
      rcases hex with ⟨-, hlt⟩ | ⟨-, hlt⟩
      · exact absurd hlt (not_lt.2 ((le_of_start hmin).trans (firstKey_le he)))
      · rw [hlast] at hlt
        exact absurd hlt (not_lt.2 (SortedMap.le_last hl he))

/-- One short key in a new page file. -/
theorem prunesSoundly_iff_one :
    PrunesSoundly (PagedBTree.new (some PageFile.new)) PageFile.new
        (SortedMap.empty.insert [0x61] 7) ↔
      (lastKey (SortedMap.empty.insert [0x61] 7)).length ≤ kPageSummaryKeyBytes ∧
        reach (SortedMap.empty.insert [0x61] 7) = lastKey (SortedMap.empty.insert [0x61] 7) :=
  prunesSoundly_iff (PagedBTree.new (some PageFile.new)) rfl (by decide)
    (by unfold KeysFit; decide) (by decide)

/-- One key of fifteen bytes: the only leaf rejects it. -/
def longKey : SortedMap Key Nat := SortedMap.empty.insert (List.replicate 15 0x61) 1

theorem longKey_pruned :
    ¬ ∀ (t : PagedBTree) (pf : PageFile) (m : SortedMap Key Nat), t.pageFile = some pf →
      m.entries ≠ [] → KeysFit m.entries → (∀ e ∈ m.entries, e.2 < 2 ^ 64) →
      PrunesSoundly t pf m := by
  intro h
  have hne : longKey.entries ≠ [] := by decide
  have hfit : KeysFit longKey.entries := by
    unfold KeysFit
    decide
  have hlsn : ∀ e ∈ longKey.entries, e.2 < 2 ^ 64 := by decide
  have hshort := (h (PagedBTree.new (some PageFile.new)) PageFile.new longKey rfl hne hfit
    hlsn).last_short hne hfit hlsn
  exact absurd hshort (by decide)

end EBTree.BTree
