import EBTree.BTree.Proof.Tree

/-!
# Persisting and loading a tree

What `PersistRootFromMap` leaves in the page file, and what a tree loaded from it answers.

* `leafChunks`, `groupKeys`, `topKeys`: how a map is cut into leaves and their first keys into
  levels, as functions of the map alone.
* `leafNodes`, `appendGroups_spec`, `buildInternalRoot_spec`: the leaves, one level, all levels.
* `persistRootImpl_spec`: the tree that is built; `get_after_persist`: **what it answers.**
-/

set_option autoImplicit false

namespace EBTree.BTree

open Lib

/-! ## How a map is cut -/

/-- The entries of one leaf after the other. -/
def leafChunks : Nat → List Entry → List (List Entry)
  | _, [] => []
  | 0, _ :: _ => []
  | fuel + 1, e :: es =>
    let chunk := takeChunk kPageHeaderSize (e :: es)
    chunk :: leafChunks fuel ((e :: es).drop chunk.length)

/-- The first key of every group of children. -/
def groupKeys : Nat → List Key → List Key
  | 0, _ => []
  | _, [] => []
  | fuel + 1, key :: keys => key :: groupKeys fuel ((key :: keys).drop kInternalMaxEntries)

/-- The separators of the root over children with these first keys. -/
def topKeys : Nat → List Key → List Key
  | 0, keys => keys
  | fuel + 1, keys =>
    if keys.length ≤ kInternalMaxEntries then keys else topKeys fuel (groupKeys keys.length keys)

def leafKeys (m : SortedMap Key Nat) : List Key :=
  (leafChunks m.entries.length m.entries).map fun chunk => (chunk.head?.map (·.1)).getD []

/-- The separators of the root page of a tree of several leaves. -/
def rootKeys (m : SortedMap Key Nat) : List Key := topKeys (leafKeys m).length (leafKeys m)

/-- The keys fit into a page, so that every leaf takes at least one entry. -/
def KeysFit (es : List Entry) : Prop := ∀ e ∈ es, kPageHeaderSize + (2 + e.1.length + 8) ≤ kPageSize

theorem takeChunk_cons {e : Entry} (es : List Entry)
    (h : kPageHeaderSize + (2 + e.1.length + 8) ≤ kPageSize) :
    ∃ l, takeChunk kPageHeaderSize (e :: es) = e :: l := by
  rw [takeChunk, if_neg (by omega)]
  exact ⟨_, rfl⟩

theorem takeChunk_append_drop (es : List Entry) :
    takeChunk kPageHeaderSize es ++ es.drop (takeChunk kPageHeaderSize es).length = es :=
  List.prefix_append_drop (takeChunk_start _ es) |>.symm

/-- The chunks are the map. -/
theorem flatten_leafChunks {fuel : Nat} {es : List Entry} (h : KeysFit es)
    (hf : es.length ≤ fuel) : (leafChunks fuel es).flatten = es := by
  induction fuel generalizing es with
  | zero =>
    rw [List.length_eq_zero_iff.1 (Nat.le_zero.1 hf)]
    rfl
  | succ fuel ih =>
    cases es with
    | nil => rfl
    | cons e es =>
      obtain ⟨l, hl⟩ := takeChunk_cons es (h e List.mem_cons_self)
      rw [leafChunks, List.flatten_cons, ih]
      · exact takeChunk_append_drop (e :: es)
      · exact fun e' he' => h e' (List.mem_of_mem_drop he')
      · rw [List.length_drop, hl]
        simp only [List.length_cons] at hf ⊢
        omega

/-! ## Levels of keys -/

theorem head?_groupKeys {fuel : Nat} (keys : List Key) (hf : 0 < fuel) :
    (groupKeys fuel keys).head? = keys.head? := by
  obtain ⟨fuel, rfl⟩ : ∃ n, fuel = n + 1 := ⟨fuel - 1, by omega⟩
  cases keys <;> rfl

theorem groupKeys_ne_nil {fuel : Nat} {keys : List Key} (hf : 0 < fuel) (hk : keys ≠ []) :
    0 < (groupKeys fuel keys).length := by
  obtain ⟨fuel, rfl⟩ : ∃ n, fuel = n + 1 := ⟨fuel - 1, by omega⟩
  cases keys with
  | nil => exact absurd rfl hk
  | cons k ks => simp [groupKeys]

theorem length_groupKeys_le (fuel : Nat) (keys : List Key) :
    (groupKeys fuel keys).length ≤ keys.length := by
  have h96 : kInternalMaxEntries = 96 := rfl
  induction fuel generalizing keys with
  | zero => simp [groupKeys]
  | succ fuel ih =>
    cases keys with
    | nil => simp [groupKeys]
    | cons k ks =>
      have hrest := ih ((k :: ks).drop kInternalMaxEntries)
      rw [List.length_drop] at hrest
      simp only [groupKeys, List.length_cons] at hrest ⊢
      omega

/-- A level over more than one group has several pages, and fewer than the level below. -/
theorem length_groupKeys {keys : List Key} (h : kInternalMaxEntries < keys.length) :
    2 ≤ (groupKeys keys.length keys).length ∧ (groupKeys keys.length keys).length < keys.length := by
  have h96 : kInternalMaxEntries = 96 := rfl
  cases keys with
  | nil => simp at h
  | cons k ks =>
    simp only [List.length_cons] at h
    have hne : (k :: ks).drop kInternalMaxEntries ≠ [] := by
      intro hnil
      have := congrArg List.length hnil
      simp only [List.length_drop, List.length_cons, List.length_nil] at this
      omega
    have hpos := groupKeys_ne_nil (show 0 < ks.length by omega) hne
    have hle := length_groupKeys_le ks.length ((k :: ks).drop kInternalMaxEntries)
    rw [List.length_drop] at hle
    simp only [List.length_cons, groupKeys] at hle ⊢
    omega

theorem head?_topKeys (fuel : Nat) (keys : List Key) :
    (topKeys fuel keys).head? = keys.head? := by
  induction fuel generalizing keys with
  | zero => rfl
  | succ fuel ih =>
    rw [topKeys]
    split
    · rfl
    · rename_i h
      rw [ih, head?_groupKeys]
      omega

/-! ## The leaves -/

/-- A serialized leaf with its first key, for a chunk. -/
def IsLeafOf (source : List Entry) (leaf : Bytes × Key) (chunk : List Entry) : Prop :=
  LinksAsLeaf source leaf.1 chunk ∧ ∃ e l, chunk = e :: l ∧ leaf.2 = e.1

theorem serializeLeaves_spec (t : PagedBTree) {source : List Entry}
    (hlen : ∀ e ∈ source, e.1.length < 2 ^ 16) {fuel : Nat} {es : List Entry} (hfit : KeysFit es)
    (hlsn : ∀ e ∈ es, e.2 < 2 ^ 64) (hf : es.length ≤ fuel) :
    ∃ leaves, t.serializeLeaves source fuel es = some leaves ∧
      List.Forall₂ (IsLeafOf source) leaves (leafChunks fuel es) := by
  induction fuel generalizing es with
  | zero =>
    rw [List.length_eq_zero_iff.1 (Nat.le_zero.1 hf)]
    exact ⟨[], rfl, .nil⟩
  | succ fuel ih =>
    cases es with
    | nil => exact ⟨[], rfl, .nil⟩
    | cons e es =>
      obtain ⟨l, hl⟩ := takeChunk_cons es (hfit e List.mem_cons_self)
      obtain ⟨page, hpage, hleaf⟩ :=
        serializeLeafChunk_spec t.maxLsn t.summary.summaryLsn (e :: es) hlsn hlen
      have hdrop : ((e :: es).drop (takeChunk kPageHeaderSize (e :: es)).length).length
          < es.length + 1 := by
        rw [List.length_drop, hl]
        simp only [List.length_cons]
        omega
      obtain ⟨leaves, hleaves, hall⟩ := @ih
        ((e :: es).drop (takeChunk kPageHeaderSize (e :: es)).length)
        (fun e' he' => hfit e' (List.mem_of_mem_drop he'))
        (fun e' he' => hlsn e' (List.mem_of_mem_drop he'))
        (by simp only [List.length_cons] at hf; omega)
      refine ⟨(page, e.1) :: leaves, ?_, .cons ⟨hleaf, e, l, hl, rfl⟩ hall⟩
      rw [PagedBTree.serializeLeaves, hpage]
      simp only [hleaves, Option.map_some]
      rw [if_neg (by simp only [List.length_cons]; omega), hl]
      rfl

theorem linkLeaves_cons (base : Nat) (page : Bytes) (pages : List Bytes) :
    PagedBTree.linkLeaves base (page :: pages)
      = (if pages = [] then page else relink page (base + kPageSize)) ::
        PagedBTree.linkLeaves (base + kPageSize) pages := by
  cases pages <;> rfl

theorem length_linkLeaves (base : Nat) (pages : List Bytes) :
    (PagedBTree.linkLeaves base pages).length = pages.length := by
  induction pages generalizing base with
  | nil => rfl
  | cons p ps ih => rw [linkLeaves_cons, List.length_cons, ih, List.length_cons]

theorem leafRefs_cons (base : Nat) (key : Key) (keys : List Key) :
    PagedBTree.leafRefs base (key :: keys)
      = (key, base) :: PagedBTree.leafRefs (base + kPageSize) keys := by
  simp only [PagedBTree.leafRefs, List.zipIdx_cons, List.map_cons, Nat.zero_mul, Nat.add_zero,
    Nat.zero_add, List.cons.injEq, true_and]
  rw [List.zipIdx_succ, List.map_map]
  refine List.map_congr_left fun ⟨k, i⟩ _ => ?_
  simp only [Function.comp, Nat.add_mul]
  congr 1
  omega

theorem map_leafRefs (base : Nat) (keys : List Key) :
    (PagedBTree.leafRefs base keys).map (·.1) = keys := by
  induction keys generalizing base with
  | nil => rfl
  | cons k ks ih => rw [leafRefs_cons, List.map_cons, ih]

/-- **The leaves are chained**, and each with its first key is the start of a subtree. -/
theorem leafNodes {pf : PageFile} {m : SortedMap Key Nat} {leaves : List (Bytes × Key)}
    {chunks : List (List Entry)} (hall : List.Forall₂ (IsLeafOf m.entries) leaves chunks)
    {base : Nat} {done : List Entry} (hm : m.entries = done ++ chunks.flatten)
    (hholds : ∀ front page back, PagedBTree.linkLeaves base (leaves.map (·.1))
      = front ++ page :: back → Holds pf (base + kPageSize * front.length) page)
    (hsize : base + kPageSize * leaves.length ≤ 2 ^ 32) :
    (leaves ≠ [] → LeafChain pf m.entries base chunks) ∧
      ∀ c ∈ PagedBTree.leafRefs base (leaves.map (·.2)), Node pf m 0 c.2 c.1 := by
  induction hall generalizing base done with
  | nil => exact ⟨fun h => absurd rfl h, fun c hc => absurd hc List.not_mem_nil⟩
  | @cons leaf chunk leaves chunks hleaf hrest ih =>
    have hk : kPageSize = 4096 := rfl
    have hk' : kPageFileHeaderSize = 4096 := rfl
    obtain ⟨⟨hlast, hlink⟩, e, l, rfl, hfirst⟩ := hleaf
    rw [List.map_cons, linkLeaves_cons] at hholds
    have hsize' : base + 4096 * (leaves.length + 1) ≤ 2 ^ 32 := hsize
    obtain ⟨hchain, hnodes⟩ := @ih (base + kPageSize) (done ++ (e :: l)) (by rw [hm]; simp)
      (fun front page back hfront => by
        have h := hholds (_ :: front) page back (by rw [hfront, List.cons_append])
        rwa [List.length_cons, Nat.mul_succ, Nat.add_comm (kPageSize * _), ← Nat.add_assoc] at h)
      (by rw [hk]; omega)
    have hhere := hholds [] _ _ rfl
    rw [List.length_nil, Nat.mul_zero, Nat.add_zero] at hhere
    have hchain' : LeafChain pf m.entries base ((e :: l) :: chunks) := by
      by_cases hempty : leaves = []
      · subst hempty
        cases hrest
        exact .last (by simpa using hhere) hlast (by omega)
      · rw [if_neg (by simpa using hempty)] at hhere
        have hpos : 0 < leaves.length := List.length_pos_iff.2 hempty
        have hnext : (base + kPageSize) % 2 ^ 32 = base + kPageSize :=
          Nat.mod_eq_of_lt (by omega)
        have hleaf' := hlink (base + kPageSize)
        rw [hnext] at hleaf'
        exact .link hhere hleaf' (by omega) (hchain hempty)
    refine ⟨fun _ => hchain', fun c hc => ?_⟩
    rw [List.map_cons, leafRefs_cons] at hc
    rcases List.mem_cons.1 hc with rfl | hc
    · refine .leaf hchain' (fun e' he' => by rw [hm]; exact List.mem_append_right _ he') ?_
      intro e' he' hge
      rw [hm] at he'
      rcases List.mem_append.1 he' with he' | he'
      · -- what lies in front of the chunk has smaller keys
        have hsorted := m.sorted
        rw [hm] at hsorted
        have hlt := (List.pairwise_append.1 hsorted).2.2 e' he' e (by simp)
        exact absurd (by rw [hfirst]; exact hlt) hge
      · exact he'
    · exact hnodes c hc

/-! ## The levels above -/

theorem childrenSize_le {cs : List Entry} {n : Nat} (h : ∀ c ∈ cs, c.1.length ≤ n) :
    childrenSize cs ≤ (6 + n) * cs.length := by
  induction cs with
  | nil => simp
  | cons c cs ih =>
    have hc := h c List.mem_cons_self
    have hcs := ih fun c' hc' => h c' (List.mem_cons_of_mem _ hc')
    rw [childrenSize_cons, List.length_cons, Nat.mul_succ]
    omega

/-- A group of children with short separators fits into a page. -/
theorem group_fits {cs : List Entry} (h : ∀ c ∈ cs, c.1.length ≤ kPageSummaryKeyBytes)
    (hn : cs.length ≤ kInternalMaxEntries) : kPageHeaderSize + childrenSize cs ≤ kPageSize := by
  have hsize := childrenSize_le h
  have h14 : kPageSummaryKeyBytes = 14 := rfl
  have h96 : kInternalMaxEntries = 96 := rfl
  have hh : kPageHeaderSize = 64 := rfl
  have hk : kPageSize = 4096 := rfl
  rw [h14] at hsize
  omega

/-- **One internal page over subtrees is a subtree.** -/
theorem node_internal (t : PagedBTree) {pf pf' : PageFile} {m : SortedMap Key Nat} {h : Nat}
    {c : Entry} {cs : List Entry}
    (hnodes : ∀ c' ∈ c :: cs, Node pf m h c'.2 c'.1)
    (hshort : ∀ c' ∈ c :: cs, c'.1.length ≤ kPageSummaryKeyBytes)
    (hn : (c :: cs).length ≤ kInternalMaxEntries)
    (hext : Extends (pf.appendPages [serializeInternalPage t.preferHistogramSummary t.maxLsn
      t.summary.summaryLsn (c :: cs) m.entries]).1 pf')
    (hsize : pf'.nextOffset ≤ 2 ^ 32) :
    Holds pf' pf.nextOffset (serializeInternalPage t.preferHistogramSummary t.maxLsn
        t.summary.summaryLsn (c :: cs) m.entries) ∧
      Node pf' m (h + 1) pf.nextOffset c.1 := by
  have hk : kPageSize = 4096 := rfl
  have hold : Extends pf pf' := (Extends.appendPages pf _).trans hext
  have hle := hold.le
  have hoff : ∀ c' ∈ c :: cs, kPageFileHeaderSize ≤ c'.2 ∧ c'.2 < 2 ^ 32 := by
    intro c' hc'
    obtain ⟨hlo, hhi, -⟩ := (hnodes c' hc').bounds
    exact ⟨by omega, by omega⟩
  have hpage := serializeInternalPage_spec t.preferHistogramSummary t.maxLsn t.summary.summaryLsn
    m.entries (group_fits hshort hn) hoff
  have hholds := hext.holds (@holds_appendPages pf _ [] [] _
    (fun p hp => by rw [List.mem_singleton.1 hp]; exact hpage.length) rfl)
  rw [List.length_nil, Nat.mul_zero, Nat.add_zero] at hholds
  refine ⟨hholds, .internal hholds hpage (fun c' hc' => ?_) fun c' hc' => (hnodes c' hc').mono hold⟩
  have := (hnodes c' hc').bounds.2.1
  omega

/-- The pages of a level are appended, and its keys are the first ones of the groups. -/
theorem appendGroups_keys (t : PagedBTree) (source : List Entry) (fuel : Nat) (pf : PageFile)
    (children : List Entry) :
    Extends pf (t.appendGroups source fuel pf children).1 ∧
      (t.appendGroups source fuel pf children).2.map (·.1)
        = groupKeys fuel (children.map (·.1)) := by
  induction fuel generalizing pf children with
  | zero => exact ⟨Extends.rfl, rfl⟩
  | succ fuel ih =>
    cases children with
    | nil => exact ⟨Extends.rfl, rfl⟩
    | cons c cs =>
      obtain ⟨group, hgroup⟩ : ∃ l, (c :: cs).take kInternalMaxEntries = c :: l := ⟨_, rfl⟩
      have happ := Extends.appendPages pf [serializeInternalPage t.preferHistogramSummary t.maxLsn
        t.summary.summaryLsn (c :: group) source]
      obtain ⟨hext, hkeys⟩ := ih (pf.appendPages [serializeInternalPage t.preferHistogramSummary
        t.maxLsn t.summary.summaryLsn (c :: group) source]).1 ((c :: cs).drop kInternalMaxEntries)
      simp only [PagedBTree.appendGroups, hgroup]
      refine ⟨happ.trans hext, ?_⟩
      rw [List.map_cons, hkeys, List.map_drop]
      rfl

/-- The keys of a level are keys of the one below. -/
theorem mem_groupKeys {fuel : Nat} {keys : List Key} {key : Key} (h : key ∈ groupKeys fuel keys) :
    key ∈ keys := by
  induction fuel generalizing keys with
  | zero => cases h
  | succ fuel ih =>
    cases keys with
    | nil => cases h
    | cons k ks =>
      rcases List.mem_cons.1 h with rfl | h
      · exact List.mem_cons_self
      · exact List.mem_of_mem_drop (ih h)

/-- **A level over subtrees is a level of subtrees.** -/
theorem appendGroups_nodes (t : PagedBTree) {m : SortedMap Key Nat} {h fuel : Nat} {pf : PageFile}
    {children : List Entry} (hnodes : ∀ c ∈ children, Node pf m h c.2 c.1)
    (hshort : ∀ c ∈ children, c.1.length ≤ kPageSummaryKeyBytes)
    (hsize : (t.appendGroups m.entries fuel pf children).1.nextOffset ≤ 2 ^ 32) :
    ∀ c ∈ (t.appendGroups m.entries fuel pf children).2,
      Node (t.appendGroups m.entries fuel pf children).1 m (h + 1) c.2 c.1 := by
  induction fuel generalizing pf children with
  | zero => exact fun c hc => absurd hc List.not_mem_nil
  | succ fuel ih =>
    cases children with
    | nil => exact fun c hc => absurd hc List.not_mem_nil
    | cons c cs =>
      obtain ⟨group, hgroup⟩ : ∃ l, (c :: cs).take kInternalMaxEntries = c :: l := ⟨_, rfl⟩
      have hin : ∀ c' ∈ c :: group, c' ∈ c :: cs := by
        rw [← hgroup]
        exact fun c' hc' => List.mem_of_mem_take hc'
      have hlen : (c :: group).length ≤ kInternalMaxEntries := by
        rw [← hgroup, List.length_take]
        omega
      have happ := Extends.appendPages pf [serializeInternalPage t.preferHistogramSummary t.maxLsn
        t.summary.summaryLsn (c :: group) m.entries]
      obtain ⟨hext, -⟩ := appendGroups_keys t m.entries fuel
        (pf.appendPages [serializeInternalPage t.preferHistogramSummary t.maxLsn
          t.summary.summaryLsn (c :: group) m.entries]).1 ((c :: cs).drop kInternalMaxEntries)
      simp only [PagedBTree.appendGroups, hgroup] at hsize ⊢
      intro c' hc'
      rcases List.mem_cons.1 hc' with rfl | hc'
      · exact (node_internal t (fun c' hc' => hnodes c' (hin c' hc'))
          (fun c' hc' => hshort c' (hin c' hc')) hlen hext hsize).2
      · exact ih (fun c' hc' => (hnodes c' (List.mem_of_mem_drop hc')).mono happ)
          (fun c' hc' => hshort c' (List.mem_of_mem_drop hc')) hsize c' hc'

/-- The branches of `buildInternalRoot` over two children or more. -/
theorem buildInternalRoot_eq (t : PagedBTree) (source : List Entry) (fuel : Nat) (pf : PageFile)
    {children : List Entry} (htwo : 2 ≤ children.length) :
    t.buildInternalRoot source (fuel + 1) pf children =
      if children.length ≤ kInternalMaxEntries then
        some (.ok ((pf.appendPages [serializeInternalPage t.preferHistogramSummary t.maxLsn
          t.summary.summaryLsn children source]).1, pf.nextOffset))
      else t.buildInternalRoot source fuel (t.appendGroups source children.length pf children).1
        (t.appendGroups source children.length pf children).2 := by
  match children, htwo with
  | c :: c' :: cs, _ =>
    simp only [PagedBTree.buildInternalRoot]
    rfl

/-- A level over more than one group is one of several pages, fewer than there were children. -/
theorem length_appendGroups (t : PagedBTree) (source : List Entry) (pf : PageFile)
    {children : List Entry} (h : kInternalMaxEntries < children.length) :
    2 ≤ (t.appendGroups source children.length pf children).2.length ∧
      (t.appendGroups source children.length pf children).2.length < children.length := by
  have hkeys := (appendGroups_keys t source children.length pf children).2
  have hmap := congrArg List.length hkeys
  have hlen := @length_groupKeys (children.map (·.1)) (by rw [List.length_map]; exact h)
  rw [List.length_map] at hmap hlen
  omega

/-- The levels end: there is a root, behind the pages that were there. -/
theorem buildInternalRoot_total (t : PagedBTree) (source : List Entry) {fuel : Nat} (pf : PageFile)
    {children : List Entry} (htwo : 2 ≤ children.length) (hf : children.length ≤ fuel) :
    ∃ pf' root, t.buildInternalRoot source fuel pf children = some (.ok (pf', root)) ∧
      Extends pf pf' := by
  induction fuel generalizing pf children with
  | zero => omega
  | succ fuel ih =>
    rw [buildInternalRoot_eq t source fuel pf htwo]
    split
    · exact ⟨_, _, rfl, Extends.appendPages pf _⟩
    · rename_i hmany
      obtain ⟨h2, hlt⟩ := length_appendGroups t source pf (not_le.1 hmany)
      obtain ⟨pf', root, hr, hext⟩ := ih
        (t.appendGroups source children.length pf children).1 h2 (by omega)
      exact ⟨pf', root, hr, (appendGroups_keys t source _ pf children).1.trans hext⟩

/-- The page at `root` is an internal page over subtrees with the separators `keys`, written by a
tree with the options and the summary of `t`. -/
def RootPage (t : PagedBTree) (pf : PageFile) (m : SortedMap Key Nat) (root : Nat)
    (keys : List Key) : Prop :=
  ∃ h c cs, Holds pf root (serializeInternalPage t.preferHistogramSummary t.maxLsn
      t.summary.summaryLsn (c :: cs) m.entries) ∧
    Node pf m (h + 1) root c.1 ∧ (c :: cs).map (·.1) = keys

/-- **All levels**: the root is a page over subtrees of one height. -/
theorem buildInternalRoot_spec (t : PagedBTree) {m : SortedMap Key Nat} {fuel h : Nat}
    {pf pf' : PageFile} {root : Nat} {children : List Entry}
    (hnodes : ∀ c ∈ children, Node pf m h c.2 c.1)
    (hshort : ∀ c ∈ children, c.1.length ≤ kPageSummaryKeyBytes) (htwo : 2 ≤ children.length)
    (hf : children.length ≤ fuel)
    (hr : t.buildInternalRoot m.entries fuel pf children = some (.ok (pf', root)))
    (hsize : pf'.nextOffset ≤ 2 ^ 32) :
    RootPage t pf' m root (topKeys fuel (children.map (·.1))) := by
  induction fuel generalizing pf children h with
  | zero => omega
  | succ fuel ih =>
    rw [buildInternalRoot_eq t m.entries fuel pf htwo] at hr
    rw [topKeys, List.length_map]
    split at hr
    · rename_i hone
      rw [if_pos hone]
      simp only [Option.some.injEq, Except.ok.injEq, Prod.mk.injEq] at hr
      obtain ⟨rfl, rfl⟩ := hr
      match children, htwo with
      | c :: cs, _ =>
        obtain ⟨hholds, hnode⟩ := node_internal t hnodes hshort hone Extends.rfl hsize
        exact ⟨h, c, cs, hholds, hnode, rfl⟩
    · rename_i hmany
      rw [if_neg hmany]
      obtain ⟨h2, hlt⟩ := length_appendGroups t m.entries pf (not_le.1 hmany)
      obtain ⟨pf'', root', hr', hext⟩ := buildInternalRoot_total t m.entries
        (t.appendGroups m.entries children.length pf children).1 h2 (by omega : _ ≤ fuel)
      rw [hr] at hr'
      simp only [Option.some.injEq, Except.ok.injEq, Prod.mk.injEq] at hr'
      obtain ⟨rfl, rfl⟩ := hr'
      obtain ⟨-, hkeys⟩ := appendGroups_keys t m.entries children.length pf children
      rw [← hkeys]
      refine ih (appendGroups_nodes t hnodes hshort (hext.le.trans hsize)) ?_ h2 (by omega) hr
      intro c hc
      have hmem : c.1 ∈ groupKeys children.length (children.map (·.1)) := by
        rw [← hkeys]
        exact List.mem_map_of_mem hc
      obtain ⟨c', hc', he⟩ := List.mem_map.1 (mem_groupKeys hmem)
      rw [← he]
      exact hshort c' hc'

/-! ## The whole tree -/

def firstKey (m : SortedMap Key Nat) : Key := (m.entries.head?.map (·.1)).getD []

/-- The upper bound in the header of the root: the last key of a single leaf, and the last
separator of an internal page, the first key of the leaves below its last child. -/
def reach (m : SortedMap Key Nat) : Key :=
  if (leafKeys m).length ≤ 1 then (m.entries.getLast?.map (·.1)).getD []
  else (rootKeys m).getLast?.getD []

/-- The page file has a tree of the map `m` at `root`. -/
structure Persisted (pf : PageFile) (m : SortedMap Key Nat) (root : Nat) : Prop where
  subtree : ∃ h lo, Node pf m h root lo ∧ ∀ e ∈ m.entries, ¬ e.1 < lo
  page : ∃ page, Holds pf root page ∧
    PageHeader.storedCrc page = (crc32 (page.take 57)).toNat ∧
    (headerBounds (PageHeader.decode page)).1 <+: firstKey m ∧
    (headerBounds (PageHeader.decode page)).2 = reach m

/-- Keys and versions of a map that the formats have room for. -/
def Storable (m : SortedMap Key Nat) : Prop :=
  ∀ e ∈ m.entries, e.1.length ≤ kPageSummaryKeyBytes ∧ e.2 < 2 ^ 64

theorem Storable.keysFit {m : SortedMap Key Nat} (h : Storable m) : KeysFit m.entries := by
  intro e he
  have h14 : kPageSummaryKeyBytes = 14 := rfl
  have hh : kPageHeaderSize = 64 := rfl
  have hk : kPageSize = 4096 := rfl
  have := (h e he).1
  omega

/-- The keys a tree of leaves starts from are those of its chunks. -/
theorem map_snd_leaves {source : List Entry} {leaves : List (Bytes × Key)}
    {chunks : List (List Entry)} (h : List.Forall₂ (IsLeafOf source) leaves chunks) :
    leaves.map (·.2) = chunks.map fun chunk => (chunk.head?.map (·.1)).getD [] := by
  induction h with
  | nil => rfl
  | cons hl _ ih =>
    obtain ⟨-, e, l, rfl, he⟩ := hl
    rw [List.map_cons, List.map_cons, ih, he]
    rfl

theorem linked_lengths {source : List Entry} {leaves : List (Bytes × Key)}
    {chunks : List (List Entry)} (h : List.Forall₂ (IsLeafOf source) leaves chunks) (base : Nat) :
    ∀ p ∈ PagedBTree.linkLeaves base (leaves.map (·.1)), p.length = kPageSize := by
  induction h generalizing base with
  | nil => exact fun p hp => absurd hp List.not_mem_nil
  | cons hl _ ih =>
    intro p hp
    rw [List.map_cons, linkLeaves_cons] at hp
    rcases List.mem_cons.1 hp with rfl | hp
    · split
      · exact hl.1.1.length
      · exact (hl.1.2 _).length
    · exact ih _ p hp

theorem firstKey_leafKeys {m : SortedMap Key Nat} (h : KeysFit m.entries) :
    (leafKeys m).head?.getD [] = firstKey m := by
  obtain ⟨es, hs⟩ := m
  cases es with
  | nil => rfl
  | cons e es =>
    obtain ⟨l, hl⟩ := takeChunk_cons es (h e List.mem_cons_self)
    simp [leafKeys, leafChunks, hl, firstKey]

theorem mem_topKeys {fuel : Nat} {keys : List Key} {key : Key} (h : key ∈ topKeys fuel keys) :
    key ∈ keys := by
  induction fuel generalizing keys with
  | zero => exact h
  | succ fuel ih =>
    rw [topKeys] at h
    split at h
    · exact h
    · exact mem_groupKeys (ih h)

/-- Every leaf takes an entry. -/
theorem leafChunks_ne_nil {fuel : Nat} {es chunk : List Entry} (h : KeysFit es)
    (hc : chunk ∈ leafChunks fuel es) : ∃ e l, chunk = e :: l := by
  induction fuel generalizing es with
  | zero => cases es <;> cases hc
  | succ fuel ih =>
    cases es with
    | nil => cases hc
    | cons e es =>
      rcases List.mem_cons.1 hc with rfl | hc
      · exact ⟨e, takeChunk_cons es (h e List.mem_cons_self)⟩
      · exact ih (fun e' he' => h e' (List.mem_of_mem_drop he')) hc

/-- Every leaf starts with a key of the map. -/
theorem mem_leafKeys {m : SortedMap Key Nat} (h : KeysFit m.entries) {key : Key}
    (hk : key ∈ leafKeys m) : ∃ e ∈ m.entries, e.1 = key := by
  obtain ⟨chunk, hc, rfl⟩ := List.mem_map.1 hk
  obtain ⟨e, l, rfl⟩ := leafChunks_ne_nil h hc
  have hin : e ∈ (leafChunks m.entries.length m.entries).flatten :=
    List.mem_flatten.2 ⟨_, hc, List.mem_cons_self⟩
  rw [flatten_leafChunks h (Nat.le_refl _)] at hin
  exact ⟨e, hin, rfl⟩

theorem leafKeys_short {m : SortedMap Key Nat} (h : Storable m) {key : Key}
    (hk : key ∈ leafKeys m) : key.length ≤ kPageSummaryKeyBytes := by
  obtain ⟨e, he, rfl⟩ := mem_leafKeys h.keysFit hk
  exact (h e he).1

/-- The root above several leaves is what a lookup starts from. -/
theorem persisted_of_rootPage {t : PagedBTree} {pf : PageFile} {m : SortedMap Key Nat} {root : Nat}
    (hm : Storable m) (hmany : ¬ (leafKeys m).length ≤ 1)
    (h : RootPage t pf m root (rootKeys m)) : Persisted pf m root := by
  obtain ⟨h, c, cs, hholds, hnode, hkeys⟩ := h
  have hfirst : c.1 = firstKey m := by
    have hhead := head?_topKeys (leafKeys m).length (leafKeys m)
    rw [← rootKeys, ← hkeys] at hhead
    rw [← firstKey_leafKeys hm.keysFit, ← hhead]
    rfl
  have hlow : ∀ e ∈ m.entries, ¬ e.1 < c.1 := by
    intro e he
    rw [hfirst, firstKey]
    cases hf : m.entries.head? with
    | none => exact List.not_lt_nil _
    | some e' => exact not_lt.2 (SortedMap.first_le hf he)
  have hshort : ∀ c' ∈ c :: cs, c'.1.length ≤ kPageSummaryKeyBytes := by
    intro c' hc'
    have hmem : c'.1 ∈ rootKeys m := by
      rw [← hkeys]
      exact List.mem_map_of_mem hc'
    exact leafKeys_short hm (mem_topKeys hmem)
  obtain ⟨last, hlast⟩ : ∃ last, (c :: cs).getLast? = some last :=
    ⟨_, List.getLast?_eq_some_getLast (List.cons_ne_nil c cs)⟩
  have h14 : kPageSummaryKeyBytes = 14 := rfl
  have hb := headerBounds_internal t.preferHistogramSummary t.maxLsn t.summary.summaryLsn
    m.entries rfl hlast fun c' hc' => by have := hshort c' hc'; omega
  refine ⟨⟨h + 1, c.1, hnode, hlow⟩, ⟨_, hholds, storedCrc_pageOf _ _, ?_, ?_⟩⟩
  · rw [← hfirst]
    exact hb.1
  · rw [hb.2, reach, if_neg hmany, ← hkeys, List.getLast?_map, hlast,
      List.take_of_length_le (hshort last (List.mem_of_getLast? hlast))]
    rfl

/-- A single leaf is a tree of its own. -/
theorem persisted_of_leaf {pf : PageFile} {m : SortedMap Key Nat} {root : Nat}
    {chunks : List (List Entry)} (hm : Storable m) (hone : (leafKeys m).length ≤ 1)
    (hchain : LeafChain pf m.entries root chunks) (hall : chunks.flatten = m.entries) :
    Persisted pf m root := by
  obtain ⟨page, es, next, hholds, hleaf⟩ := hchain.head
  refine ⟨⟨0, [], .leaf hchain ?_ ?_, fun e _ => List.not_lt_nil _⟩,
    ⟨page, hholds, hleaf.crc, ?_, ?_⟩⟩
  · exact fun e he => hall ▸ he
  · exact fun e he _ => hall ▸ he
  · rw [hleaf.bounds]
    exact List.take_prefix _ _
  · rw [hleaf.bounds, sourceBounds, reach, if_pos hone]
    refine List.take_of_length_le ?_
    cases hl : m.entries.getLast? with
    | none => exact Nat.zero_le _
    | some e => exact (hm e (List.mem_of_getLast? hl)).1

/-- **Persisting a map** returns, appends to the page file, and leaves a tree of the map there as
long as the file is not longer than an offset can say. -/
theorem persistRootImpl_spec (t : PagedBTree) {pf : PageFile} (ht : t.pageFile = some pf)
    {m : SortedMap Key Nat} (hne : m.entries ≠ []) (hm : Storable m) :
    ∃ pf' root, t.persistRootImpl m
        = some ({ t with
            pageFile := some pf'
            rootOffset := root
            index := SortedMap.empty
            deltaDeleted := SortedMap.empty
            onDiskMode := true }, .ok root) ∧
      Extends pf pf' ∧ (pf'.nextOffset ≤ 2 ^ 32 → Persisted pf' m root) := by
  have h14 : kPageSummaryKeyBytes = 14 := rfl
  have hlen : ∀ e ∈ m.entries, e.1.length < 2 ^ 16 := fun e he => by
    have := (hm e he).1
    omega
  obtain ⟨leaves, hleaves, hall⟩ := serializeLeaves_spec t hlen hm.keysFit
    (fun e he => (hm e he).2) (Nat.le_refl m.entries.length)
  have hflat := flatten_leafChunks hm.keysFit (Nat.le_refl _)
  have hkeys : leaves.map (·.2) = leafKeys m := map_snd_leaves hall
  have hcount : leaves.length = (leafKeys m).length := by rw [← hkeys, List.length_map]
  have hsome : leaves ≠ [] := by
    rintro rfl
    rw [List.forall₂_nil_left_iff.1 hall] at hflat
    exact hne hflat.symm
  have hpages : PagedBTree.linkLeaves pf.nextOffset (leaves.map (·.1)) ≠ [] := by
    intro hnil
    have := congrArg List.length hnil
    rw [length_linkLeaves, List.length_map] at this
    exact hsome (List.length_eq_zero_iff.1 this)
  have hext := Extends.appendPages pf (PagedBTree.linkLeaves pf.nextOffset (leaves.map (·.1)))
  have hend := nextOffset_appendPages pf (PagedBTree.linkLeaves pf.nextOffset (leaves.map (·.1)))
  rw [length_linkLeaves, List.length_map] at hend
  have hfirst := @appendPages_snd pf _ hpages
  have hempty : m.isEmpty = false := by simpa [SortedMap.isEmpty] using hne
  -- the leaves in a file that has them
  have hnodes : ∀ pf', Extends (pf.appendPages
      (PagedBTree.linkLeaves pf.nextOffset (leaves.map (·.1)))).1 pf' →
      pf'.nextOffset ≤ 2 ^ 32 →
      (leaves ≠ [] → LeafChain pf' m.entries pf.nextOffset
        (leafChunks m.entries.length m.entries)) ∧
      ∀ c ∈ PagedBTree.leafRefs pf.nextOffset (leaves.map (·.2)), Node pf' m 0 c.2 c.1 := by
    intro pf' hext' hsize
    have hwhole : m.entries = [] ++ (leafChunks m.entries.length m.entries).flatten := hflat.symm
    refine leafNodes hall hwhole (fun front page back hp => ?_) ?_
    · exact hext'.holds (holds_appendPages (linked_lengths hall _) hp)
    · have := hext'.le
      omega
  have hlong : ∀ c ∈ PagedBTree.leafRefs pf.nextOffset (leaves.map (·.2)),
      c.1.length ≤ kPageSummaryKeyBytes := by
    intro c hc
    refine leafKeys_short hm ?_
    rw [← hkeys, ← map_leafRefs pf.nextOffset (leaves.map (·.2))]
    exact List.mem_map_of_mem hc
  simp only [PagedBTree.persistRootImpl, ht, hempty, hleaves, hfirst]
  by_cases hone : 1 < leaves.length
  · have hlr : (PagedBTree.leafRefs pf.nextOffset (leaves.map (·.2))).length = leaves.length := by
      have := congrArg List.length (map_leafRefs pf.nextOffset (leaves.map (·.2)))
      simpa using this
    obtain ⟨pf', root, hr, hext'⟩ := @buildInternalRoot_total t m.entries leaves.length
      (pf.appendPages (PagedBTree.linkLeaves pf.nextOffset (leaves.map (·.1)))).1
      (PagedBTree.leafRefs pf.nextOffset (leaves.map (·.2))) (by omega) (by omega)
    refine ⟨pf', root, ?_, hext.trans hext', fun hsize => ?_⟩
    · rw [if_pos hone, hr]
      rfl
    · have hsize' := hext'.le.trans hsize
      have hroot := buildInternalRoot_spec t (hnodes _ Extends.rfl hsize').2 hlong (by omega)
        (by omega) hr hsize
      rw [map_leafRefs, hkeys, hcount] at hroot
      exact persisted_of_rootPage hm (by omega) hroot
  · refine ⟨_, pf.nextOffset, ?_, hext, fun hsize => ?_⟩
    · rw [if_neg hone]
      rfl
    · exact persisted_of_leaf hm (by omega) ((hnodes _ Extends.rfl hsize).1 hsome) hflat

/-! ## Loading -/

/-- The tree serves the map `m` from its page file. -/
structure Loaded (t : PagedBTree) (pf : PageFile) (m : SortedMap Key Nat) : Prop where
  file : t.pageFile = some pf
  index_eq : t.index = SortedMap.empty
  deleted : t.deltaDeleted = SortedMap.empty
  onDisk : t.onDiskMode = true
  root : Persisted pf m t.rootOffset
  minKey : t.summary.minKey <+: firstKey m
  maxKey : t.summary.maxKey = reach m

/-- What loading makes of a root page. -/
theorem loadRoot_eq {t : PagedBTree} {pf : PageFile} (ht : t.pageFile = some pf) {root : Nat}
    {page : Bytes} (hholds : Holds pf root page)
    (hcrc : PageHeader.storedCrc page = (crc32 (page.take 57)).toNat) :
    t.loadRoot root = ({ t with
      index := SortedMap.empty
      deltaDeleted := SortedMap.empty
      summary := ⟨(headerBounds (PageHeader.decode page)).1,
        (headerBounds (PageHeader.decode page)).2, (PageHeader.decode page).summaryLsn⟩
      maxLsn := (PageHeader.decode page).maxLsn
      rootOffset := root
      onDiskMode := true }, .ok ()) := by
  have hlo := hholds.lo
  have hread := readPageHeader_holds (t := { t with
    index := SortedMap.empty, deltaDeleted := SortedMap.empty }) ht hholds hcrc
  simp only [ht] at hread
  simp only [PagedBTree.loadRoot, ht, if_neg (Nat.not_lt.2 hlo), hread]

/-- **Loading the root of a persisted tree** succeeds, whatever the tree was before. -/
theorem loadRoot_spec {t : PagedBTree} {pf : PageFile} (ht : t.pageFile = some pf)
    {m : SortedMap Key Nat} {root : Nat} (h : Persisted pf m root) :
    (t.loadRoot root).2 = .ok () ∧ Loaded (t.loadRoot root).1 pf m := by
  obtain ⟨page, hholds, hcrc, hmin, hmax⟩ := h.page
  rw [loadRoot_eq ht hholds hcrc]
  exact ⟨rfl, ht, rfl, rfl, rfl, h, hmin, hmax⟩

theorem Loaded.get {t : PagedBTree} {pf : PageFile} {m : SortedMap Key Nat} (h : Loaded t pf m)
    (hm : Storable m) (key : Key) : Answers (t.get key) (m.find? key) := by
  obtain ⟨height, lo, hnode, hlow⟩ := h.root.subtree
  obtain ⟨hb, -, hlen⟩ := hnode.bounds
  have hfuel : height < t.walkFuel := by
    simp only [PagedBTree.walkFuel, h.file, Option.map_some, Option.getD_some]
    omega
  have hkey : ¬ key < lo ∨ m.find? key = none := by
    cases hf : m.find? key with
    | none => exact .inr rfl
    | some lsn => exact .inl (hlow _ (SortedMap.mem_entries_iff.2 hf))
  rw [PagedBTree.get, h.index_eq, h.deleted, if_neg (by simp [SortedMap.contains]),
    SortedMap.find?_empty, if_pos ⟨h.onDisk, by omega⟩]
  exact hnode.get h.file (fun e he => (hm e he).1) hkey hfuel

/-- **Persist and load**: the root persisted for a map of keys of at most fourteen bytes, loaded by
any tree over a page file that has stayed within the reach of its offsets, answers every lookup as
the map does. -/
theorem get_after_persist (t : PagedBTree) {pf : PageFile} (ht : t.pageFile = some pf)
    {m : SortedMap Key Nat} (hne : m.entries ≠ []) (hm : Storable m) :
    ∃ t' pf' root, t.persistRootFromMap m = some (t', .ok root) ∧ t'.pageFile = some pf' ∧
      (pf'.nextOffset ≤ 2 ^ 32 → ∀ u : PagedBTree, u.pageFile = some pf' →
        (u.loadRoot root).2 = .ok () ∧
          ∀ key, Answers ((u.loadRoot root).1.get key) (m.find? key)) := by
  obtain ⟨pf', root, hr, -, hroot⟩ := persistRootImpl_spec t ht hne hm
  refine ⟨_, pf', root, hr, rfl, fun hsize u hu => ?_⟩
  obtain ⟨hok, hloaded⟩ := loadRoot_spec hu (hroot hsize)
  exact ⟨hok, hloaded.get hm⟩

/-- One entry in a new page file. -/
theorem get_after_persist_one :
    ∃ t' pf' root, (PagedBTree.new (some PageFile.new)).persistRootFromMap
        (SortedMap.empty.insert [0x61] 7) = some (t', .ok root) ∧ t'.pageFile = some pf' ∧
      ∀ u : PagedBTree, u.pageFile = some pf' → (u.loadRoot root).2 = .ok () ∧
        ∀ key, Answers ((u.loadRoot root).1.get key)
          ((SortedMap.empty.insert [0x61] 7).find? key) := by
  obtain ⟨t', pf', root, hr, hf, hget⟩ := get_after_persist (PagedBTree.new (some PageFile.new)) rfl
    (m := SortedMap.empty.insert [0x61] 7) (by decide) (by unfold Storable; decide)
  refine ⟨t', pf', root, hr, hf, hget ?_⟩
  have hend : ((PagedBTree.new (some PageFile.new)).persistRootFromMap
      (SortedMap.empty.insert [0x61] 7)).map (fun r => r.1.pageFile.map (·.nextOffset))
        = some (some 8192) := by decide +kernel
  rw [hr, Option.map_some, hf, Option.map_some, Option.some.injEq, Option.some.injEq] at hend
  omega

end EBTree.BTree
