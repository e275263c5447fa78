import EBTree.BTree.Proof.Persist

/-!
# The levels of a persisted tree

What a tree is worth to its reader is built from the leaves up: a page over children that are worth
`x`, `y`, … is worth `comb` of them with their separators.

* `Levels t source room comb N`: `N pf h c x`, that the subtree of height `h` at `c` is worth `x`, goes
  from one level to the next.
* `persistRootImpl_levels`: so the root is worth `comb` of its children (`topLevel`), the leaves
  being worth what their place in the chain is. Keys are of any length that fits a leaf.
-/

set_option autoImplicit false

namespace EBTree.BTree

open Lib

/-! ## Leaves -/

/-- A key that fits has a length that two bytes hold. -/
theorem KeysFit.lt {es : List Entry} (h : KeysFit es) : ∀ e ∈ es, e.1.length < 2 ^ 16 := by
  intro e he
  have hfit := h e he
  have hk : kPageSize = 4096 := rfl
  omega

/-- **Every leaf starts a chain** of the leaves from it on. -/
theorem leafChains {pf : PageFile} {source : List Entry} {leaves : List (Bytes × Key)}
    {chunks : List (List Entry)} (hall : List.Forall₂ (IsLeafOf source) leaves chunks)
    {base : Nat}
    (hholds : ∀ front page back, PagedBTree.linkLeaves base (leaves.map (·.1))
      = front ++ page :: back → Holds pf (base + kPageSize * front.length) page)
    (hsize : base + kPageSize * leaves.length ≤ 2 ^ 32) {i : Nat} (hi : i < chunks.length) :
    LeafChain pf source (base + i * kPageSize) (chunks.drop i) := by
  induction hall generalizing base i with
  | nil => exact absurd hi (Nat.not_lt_zero _)
  | @cons leaf chunk leaves chunks hleaf hrest ih =>
    have hk : kPageSize = 4096 := rfl
    have hk' : kPageFileHeaderSize = 4096 := rfl
    obtain ⟨hlast, hlink⟩ := hleaf.1
    rw [List.map_cons, linkLeaves_cons] at hholds
    have hsize' : base + 4096 * (leaves.length + 1) ≤ 2 ^ 32 := hsize
    have hrestlen := hrest.length_eq
    have hnext : ∀ {j}, j < chunks.length →
        LeafChain pf source (base + kPageSize + j * kPageSize) (chunks.drop j) :=
      fun hj => ih (fun front page back hfront => by
        have h := hholds (_ :: front) page back (by rw [hfront, List.cons_append])
        rwa [List.length_cons, Nat.mul_succ, Nat.add_comm (kPageSize * _), ← Nat.add_assoc] at h)
        (by rw [hk]; omega) hj
    cases i with
    | succ j =>
      have hoff : base + (j + 1) * kPageSize = base + kPageSize + j * kPageSize := by
        rw [hk]
        omega
      rw [hoff, List.drop_succ_cons]
      exact hnext (Nat.lt_of_succ_lt_succ hi)
    | zero =>
      have hhere := hholds [] _ _ rfl
      rw [List.length_nil, Nat.mul_zero, Nat.add_zero] at hhere
      rw [Nat.zero_mul, Nat.add_zero, List.drop_zero]
      by_cases hempty : leaves = []
      · subst hempty
        cases hrest
        exact .last (by simpa using hhere) hlast (by omega)
      · rw [if_neg (by simpa using hempty)] at hhere
        have hpos : 0 < leaves.length := List.length_pos_iff.2 hempty
        have hmod : (base + kPageSize) % 2 ^ 32 = base + kPageSize := Nat.mod_eq_of_lt (by omega)
        have hleaf' := hlink (base + kPageSize)
        rw [hmod] at hleaf'
        have htail := hnext (j := 0) (by omega)
        rw [Nat.zero_mul, Nat.add_zero, List.drop_zero] at htail
        exact .link hhere hleaf' (by omega) htail

/-! ## Levels -/

section
variable {X : Type} (t : PagedBTree) (source : List Entry) (room : PageFile → Prop)
  (comb : List (Key × X) → X) (N : PageFile → Nat → Entry → X → Prop)

/-- The separator and the worth of a child. -/
def keyed (y : Entry × X) : Key × X := (y.1.1, y.2)

/-- What goes from one level of a tree to the next, in files that are small enough (`room`). -/
structure Levels : Prop where
  back : ∀ {pf pf'}, Extends pf pf' → room pf' → room pf
  mono : ∀ {pf pf' h c x}, Extends pf pf' → N pf h c x → N pf' h c x
  page : ∀ {pf pf' : PageFile} {h : Nat} {y : Entry × X} {ys : List (Entry × X)},
    (y :: ys).length ≤ kInternalMaxEntries → (∀ z ∈ y :: ys, N pf h z.1 z.2) → Extends pf pf' →
    Holds pf' pf.nextOffset (serializeInternalPage t.preferHistogramSummary t.maxLsn
      t.summary.summaryLsn ((y :: ys).map (·.1)) source) →
    room pf' → N pf' (h + 1) (y.1.1, pf.nextOffset) (comb ((y :: ys).map keyed))

/-- The next level: the groups with their first keys. -/
def groupLevel : Nat → List (Key × X) → List (Key × X)
  | 0, _ => []
  | _, [] => []
  | fuel + 1, y :: ys =>
    (y.1, comb ((y :: ys).take kInternalMaxEntries)) ::
      groupLevel fuel ((y :: ys).drop kInternalMaxEntries)

/-- The children of the root. -/
def topLevel : Nat → List (Key × X) → List (Key × X)
  | 0, level => level
  | fuel + 1, level =>
    if level.length ≤ kInternalMaxEntries then level
    else topLevel fuel (groupLevel comb level.length level)

variable {t source room comb N}

theorem map_fst_groupLevel (fuel : Nat) (level : List (Key × X)) :
    (groupLevel comb fuel level).map (·.1) = groupKeys fuel (level.map (·.1)) := by
  induction fuel generalizing level with
  | zero => rfl
  | succ fuel ih =>
    cases level with
    | nil => rfl
    | cons y ys =>
      rw [groupLevel, List.map_cons, ih, List.map_drop]
      rfl

theorem map_fst_topLevel (fuel : Nat) (level : List (Key × X)) :
    (topLevel comb fuel level).map (·.1) = topKeys fuel (level.map (·.1)) := by
  induction fuel generalizing level with
  | zero => rfl
  | succ fuel ih =>
    rw [topLevel, topKeys, List.length_map]
    split
    · rfl
    · rw [ih, map_fst_groupLevel]

/-- **One level up.** -/
theorem appendGroups_levels (hN : Levels t source room comb N) {h fuel : Nat} {pf : PageFile}
    {ys : List (Entry × X)} (hys : ∀ y ∈ ys, N pf h y.1 y.2)
    (hsize : room (t.appendGroups source fuel pf (ys.map (·.1))).1) :
    ∃ zs : List (Entry × X), zs.map (·.1) = (t.appendGroups source fuel pf (ys.map (·.1))).2 ∧
      zs.map keyed = groupLevel comb fuel (ys.map keyed) ∧
      ∀ z ∈ zs, N (t.appendGroups source fuel pf (ys.map (·.1))).1 (h + 1) z.1 z.2 := by
  induction fuel generalizing pf ys with
  | zero => exact ⟨[], rfl, rfl, fun z hz => absurd hz List.not_mem_nil⟩
  | succ fuel ih =>
    cases ys with
    | nil => exact ⟨[], rfl, rfl, fun z hz => absurd hz List.not_mem_nil⟩
    | cons y ys =>
      obtain ⟨group, hgroup⟩ : ∃ l, (y :: ys).take kInternalMaxEntries = y :: l := ⟨_, rfl⟩
      have hin : ∀ z ∈ y :: group, z ∈ y :: ys := by
        rw [← hgroup]
        exact fun z hz => List.mem_of_mem_take hz
      have hlen : (y :: group).length ≤ kInternalMaxEntries := by
        rw [← hgroup, List.length_take]
        omega
      have htake : ((y :: ys).map (·.1)).take kInternalMaxEntries = y.1 :: group.map (·.1) := by
        rw [← List.map_take, hgroup, List.map_cons]
      rw [List.map_cons] at hsize htake
      have hdrop : (y.1 :: ys.map (·.1)).drop kInternalMaxEntries =
          ((y :: ys).drop kInternalMaxEntries).map (·.1) := by
        rw [← List.map_cons, List.map_drop]
      simp only [PagedBTree.appendGroups, htake, hdrop] at hsize
      simp only [List.map_cons, PagedBTree.appendGroups, htake, hdrop]
      have happ := Extends.appendPages pf [serializeInternalPage t.preferHistogramSummary t.maxLsn
        t.summary.summaryLsn (y.1 :: group.map (·.1)) source]
      obtain ⟨hext, -⟩ := appendGroups_keys t source fuel
        (pf.appendPages [serializeInternalPage t.preferHistogramSummary t.maxLsn
          t.summary.summaryLsn (y.1 :: group.map (·.1)) source]).1
        (((y :: ys).drop kInternalMaxEntries).map (·.1))
      obtain ⟨zs, hfst, hkeyed, hzs⟩ := ih
        (fun z hz => hN.mono happ (hys z (List.mem_of_mem_drop hz))) hsize
      have hpage := hext.holds (@holds_appendPages pf _ [] [] _
        (fun p hp => by rw [List.mem_singleton.1 hp]; exact length_pageOf _ _) rfl)
      rw [List.length_nil, Nat.mul_zero, Nat.add_zero] at hpage
      refine ⟨((y.1.1, pf.nextOffset), comb ((y :: group).map keyed)) :: zs, ?_, ?_, ?_⟩
      · rw [List.map_cons, hfst, appendPages_snd (List.cons_ne_nil _ _)]
      · rw [List.map_cons, hkeyed, groupLevel, ← List.map_cons, ← List.map_take, ← List.map_drop,
          hgroup]
        rfl
      · intro z hz
        rcases List.mem_cons.1 hz with rfl | hz
        · exact hN.page hlen (fun z hz => hys z (hin z hz)) (happ.trans hext) hpage hsize
        · exact hzs z hz

/-- **All levels.** -/
theorem buildInternalRoot_levels (hN : Levels t source room comb N) {fuel h : Nat} {pf pf' : PageFile}
    {root : Nat} {ys : List (Entry × X)} (hys : ∀ y ∈ ys, N pf h y.1 y.2) (htwo : 2 ≤ ys.length)
    (hf : ys.length ≤ fuel)
    (hr : t.buildInternalRoot source fuel pf (ys.map (·.1)) = some (.ok (pf', root)))
    (hsize : room pf') :
    ∃ h key, N pf' (h + 1) (key, root) (comb (topLevel comb fuel (ys.map keyed))) := by
  induction fuel generalizing pf ys h with
  | zero => omega
  | succ fuel ih =>
    rw [buildInternalRoot_eq t source fuel pf (by rw [List.length_map]; exact htwo)] at hr
    rw [topLevel, List.length_map]
    rw [List.length_map] at hr
    split at hr
    · rename_i hone
      rw [if_pos hone]
      simp only [Option.some.injEq, Except.ok.injEq, Prod.mk.injEq] at hr
      obtain ⟨rfl, rfl⟩ := hr
      cases ys with
      | nil => cases htwo
      | cons y ys =>
        have hpage := @holds_appendPages pf [serializeInternalPage t.preferHistogramSummary t.maxLsn
          t.summary.summaryLsn ((y :: ys).map (·.1)) source] [] [] _
          (fun p hp => by rw [List.mem_singleton.1 hp]; exact length_pageOf _ _) rfl
        rw [List.length_nil, Nat.mul_zero, Nat.add_zero] at hpage
        exact ⟨h, _, hN.page hone hys (Extends.appendPages pf _) hpage hsize⟩
    · rename_i hmany
      rw [if_neg hmany]
      have hmany' : kInternalMaxEntries < (ys.map (·.1)).length := by
        rw [List.length_map]
        omega
      obtain ⟨h2, hlt⟩ := length_appendGroups t source pf hmany'
      rw [List.length_map] at h2 hlt
      obtain ⟨pf'', root', hr', hext⟩ := buildInternalRoot_total t source
        (t.appendGroups source ys.length pf (ys.map (·.1))).1 h2 (by omega : _ ≤ fuel)
      rw [hr] at hr'
      simp only [Option.some.injEq, Except.ok.injEq, Prod.mk.injEq] at hr'
      obtain ⟨rfl, rfl⟩ := hr'
      obtain ⟨zs, hfst, hkeyed, hzs⟩ := appendGroups_levels hN hys (hN.back hext hsize)
      have hzlen := congrArg List.length hfst
      rw [List.length_map] at hzlen
      rw [← hkeyed]
      exact ih hzs (by omega) (by omega) (by rw [hfst]; exact hr)

/-! ## The whole tree -/

/-- The children of the root of a tree of several leaves, the leaf at place `i` being worth
`worth i`. -/
def rootLevel (comb : List (Key × X) → X) (m : SortedMap Key Nat) (worth : Nat → X) :
    List (Key × X) :=
  topLevel comb (leafKeys m).length ((leafKeys m).zipIdx.map fun k => (k.1, worth k.2))

/-- **Persisting a map whose keys fit** returns, appends to the page file, and leaves a tree there
whose root is worth what its levels make of the leaves. -/
theorem persistRootImpl_levels (t : PagedBTree) {pf : PageFile} (ht : t.pageFile = some pf)
    {m : SortedMap Key Nat} (hne : m.entries ≠ []) (hfit : KeysFit m.entries)
    (hlsn : ∀ e ∈ m.entries, e.2 < 2 ^ 64) (hN : Levels t m.entries room comb N)
    (worth : Nat → X)
    (hleaf : ∀ pf off key i, (leafKeys m)[i]? = some key → room pf →
      (pf.nextOffset ≤ 2 ^ 32 →
        LeafChain pf m.entries off ((leafChunks m.entries.length m.entries).drop i)) →
      N pf 0 (key, off) (worth i)) :
    ∃ pf' root, t.persistRootImpl m
        = some ({ t with
            pageFile := some pf'
            rootOffset := root
            index := SortedMap.empty
            deltaDeleted := SortedMap.empty
            onDiskMode := true }, .ok root) ∧
      Extends pf pf' ∧ (room pf' →
        if (leafKeys m).length ≤ 1 then
          ∃ page, Holds pf' root page ∧ IsLeaf m.entries page m.entries 0
        else ∃ h key, N pf' (h + 1) (key, root) (comb (rootLevel comb m worth))) := by
  obtain ⟨leaves, hleaves, hall⟩ := serializeLeaves_spec t hfit.lt hfit hlsn
    (Nat.le_refl m.entries.length)
  have hflat := flatten_leafChunks hfit (Nat.le_refl _)
  have hkeys : leaves.map (·.2) = leafKeys m := map_snd_leaves hall
  have hcount : leaves.length = (leafKeys m).length := by rw [← hkeys, List.length_map]
  have hsome : leaves ≠ [] := by
    rintro rfl
    rw [List.forall₂_nil_left_iff.1 hall] at hflat
    exact hne hflat.symm
  have hpages : PagedBTree.linkLeaves pf.nextOffset (leaves.map (·.1)) ≠ [] := by
    intro hnil
    have := congrArg List.length hnil
    rw [length_linkLeaves, List.length_map] at this
    exact hsome (List.length_eq_zero_iff.1 this)
  have hext := Extends.appendPages pf (PagedBTree.linkLeaves pf.nextOffset (leaves.map (·.1)))
  have hend := nextOffset_appendPages pf (PagedBTree.linkLeaves pf.nextOffset (leaves.map (·.1)))
  rw [length_linkLeaves, List.length_map] at hend
  have hfirst := @appendPages_snd pf _ hpages
  have hempty : m.isEmpty = false := by simpa [SortedMap.isEmpty] using hne
  -- the leaves in a file that has them
  have hchains : ∀ pf', Extends (pf.appendPages
      (PagedBTree.linkLeaves pf.nextOffset (leaves.map (·.1)))).1 pf' →
      pf'.nextOffset ≤ 2 ^ 32 → ∀ {i}, i < leaves.length →
      LeafChain pf' m.entries (pf.nextOffset + i * kPageSize)
        ((leafChunks m.entries.length m.entries).drop i) := by
    intro pf' hext' hsize i hi
    refine leafChains hall (fun front page back hp => ?_) ?_ (by rw [← hall.length_eq]; exact hi)
    · exact hext'.holds (holds_appendPages (linked_lengths hall _) hp)
    · have := hext'.le
      omega
  simp only [PagedBTree.persistRootImpl, ht, hempty, hleaves, hfirst]
  by_cases hone : 1 < leaves.length
  · have hrefs : ((leafKeys m).zipIdx.map fun k =>
        ((k.1, pf.nextOffset + k.2 * kPageSize), worth k.2)).map (·.1) =
        PagedBTree.leafRefs pf.nextOffset (leaves.map (·.2)) := by
      rw [List.map_map, hkeys]
      rfl
    have hlevel : ((leafKeys m).zipIdx.map fun k =>
        ((k.1, pf.nextOffset + k.2 * kPageSize), worth k.2)).map keyed =
        (leafKeys m).zipIdx.map fun k => (k.1, worth k.2) := by
      rw [List.map_map]
      rfl
    have hyslen : ((leafKeys m).zipIdx.map fun k =>
        ((k.1, pf.nextOffset + k.2 * kPageSize), worth k.2)).length = leaves.length := by
      rw [List.length_map, List.length_zipIdx, hcount]
    obtain ⟨pf', root, hr, hext'⟩ := @buildInternalRoot_total t m.entries leaves.length
      (pf.appendPages (PagedBTree.linkLeaves pf.nextOffset (leaves.map (·.1)))).1
      (PagedBTree.leafRefs pf.nextOffset (leaves.map (·.2)))
      (by rw [← hrefs, List.length_map]; omega) (by rw [← hrefs, List.length_map]; omega)
    refine ⟨pf', root, ?_, hext.trans hext', fun hsize => ?_⟩
    · rw [if_pos hone, hr]
      rfl
    · rw [if_neg (by omega)]
      rw [← hrefs] at hr
      have hsize' := hN.back hext' hsize
      have hnodes : ∀ y ∈ (leafKeys m).zipIdx.map fun k =>
          ((k.1, pf.nextOffset + k.2 * kPageSize), worth k.2),
          N (pf.appendPages (PagedBTree.linkLeaves pf.nextOffset (leaves.map (·.1)))).1 0 y.1
            y.2 := by
        intro y hy
        obtain ⟨k, hk, rfl⟩ := List.mem_map.1 hy
        have hat := List.mem_zipIdx_iff_getElem?.1 hk
        have hi := (List.getElem?_eq_some_iff.1 hat).1
        exact hleaf _ _ _ _ hat hsize' fun hend => hchains _ Extends.rfl hend (by omega)
      have hroot := buildInternalRoot_levels hN hnodes (by omega) (by omega) hr hsize
      rw [hlevel, hcount] at hroot
      exact hroot
  · refine ⟨_, pf.nextOffset, ?_, hext, fun hsize => ?_⟩
    · rw [if_neg hone]
      rfl
    · rw [if_pos (by omega)]
      -- one leaf takes the whole map
      obtain ⟨leaf, rfl⟩ : ∃ leaf, leaves = [leaf] := by
        have := List.length_pos_iff.2 hsome
        exact List.length_eq_one_iff.1 (by omega)
      obtain ⟨chunk, hchunk⟩ := List.length_eq_one_iff.1 hall.length_eq.symm
      rw [hchunk] at hall hflat
      rw [List.flatten_singleton] at hflat
      have hleaf' := (List.forall₂_cons.1 hall).1.1.1
      rw [hflat] at hleaf'
      have hholds := @holds_appendPages pf _ [] [] leaf.1 (linked_lengths hall pf.nextOffset) rfl
      rw [List.length_nil, Nat.mul_zero, Nat.add_zero] at hholds
      exact ⟨leaf.1, hholds, hleaf'⟩

end

end EBTree.BTree
