import EBTree.BTree.Heal
import EBTree.BTree.Proof.Pruning
import EBTree.BTree.Proof.Sound

/-!
# What a healing reload brings back

A leaf child adds the leaves of the chain from it on, and an internal child clears the index before
it adds anything, so that of several internal children only the last one's entries stay.

* `deserializeChainFrom_spec`: a chain adds its entries.
* `LoadEffect`: what loading a subtree does to the index; `loadChildren_spec`: the effects of the
  children follow each other.
* `heal_spec`: the reload returns, in memory mode, with the whole map exactly when the root's
  children are leaves.
-/

set_option autoImplicit false

namespace EBTree.BTree

open Lib PagedBTree

/-! ## Chains -/

theorem rebuildSummary_frame (t : PagedBTree) :
    t.rebuildSummary.pageFile = t.pageFile ∧ t.rebuildSummary.onDiskMode = t.onDiskMode ∧
      t.rebuildSummary.index = t.index := by
  unfold rebuildSummary
  split
  · exact ⟨rfl, rfl, rfl⟩
  · split <;> exact ⟨rfl, rfl, rfl⟩

/-- A tree in memory mode over the same file, with the index `idx`. -/
structure LoadsTo (u u' : PagedBTree) (idx : SortedMap Key Nat) : Prop where
  pageFile : u'.pageFile = u.pageFile
  mode : u'.onDiskMode = false
  index : u'.index = idx

theorem insertAll_append (idx : SortedMap Key Nat) (es es' : List Entry) :
    idx.insertAll (es ++ es') = (idx.insertAll es).insertAll es' := List.foldl_append

/-- A leaf page adds its entries. -/
theorem deserializeLeafPage_spec {source es : List Entry} {next : Nat} {page : Bytes}
    (h : IsLeaf source page es next) (u : PagedBTree) (hmode : u.onDiskMode = false) :
    ∃ u', u.deserializeLeafPage page false = (u', .ok next) ∧
      LoadsTo u u' (u.index.insertAll es) := by
  simp only [deserializeLeafPage, h.type, h.crc, h.entries, h.next_eq, ne_eq, not_true, if_false,
    Bool.false_eq_true]
  exact ⟨_, rfl, rfl, hmode, rfl⟩

/-- **A chain adds its entries.** -/
theorem deserializeChainFrom_spec {pf : PageFile} {source : List Entry} {off : Nat}
    {ess : List (List Entry)} (h : LeafChain pf source off ess) {fuel : Nat}
    (hf : ess.length ≤ fuel) (u : PagedBTree) (hu : u.pageFile = some pf)
    (hmode : u.onDiskMode = false) :
    ∃ u', deserializeChainFrom fuel off u = some (u', .ok ()) ∧
      LoadsTo u u' (u.index.insertAll ess.flatten) := by
  induction h generalizing fuel u with
  | @last off next page es hp hl hn =>
    cases fuel with
    | zero => exact absurd hf (by simp)
    | succ fuel =>
      obtain ⟨u', hr, hto⟩ := deserializeLeafPage_spec hl u hmode
      have hlo := hp.lo
      rw [deserializeChainFrom, if_neg (by omega), readPageBytes_holds hu hp]
      simp only [hr]
      rw [if_pos (.inr hn), List.flatten_singleton]
      obtain ⟨h1, h2, h3⟩ := rebuildSummary_frame u'
      exact ⟨_, rfl, h1.trans hto.pageFile, h2.trans hto.mode, h3.trans hto.index⟩
  | @link off next page es ess hp hl hlt htail ih =>
    cases fuel with
    | zero => exact absurd hf (by simp)
    | succ fuel =>
      obtain ⟨u', hr, hto⟩ := deserializeLeafPage_spec hl u hmode
      obtain ⟨page', es', next', hp', -⟩ := htail.head
      have hlo := hp.lo
      have hlo' := hp'.lo
      have hk : kPageFileHeaderSize = 4096 := rfl
      obtain ⟨u'', hr', hto'⟩ := ih (Nat.le_of_succ_le_succ hf) u' (hto.pageFile.trans hu) hto.mode
      rw [deserializeChainFrom, if_neg (by omega), readPageBytes_holds hu hp]
      simp only [hr]
      rw [if_neg (by omega), List.flatten_cons, insertAll_append]
      refine ⟨u'', hr', hto'.pageFile.trans hto.pageFile, hto'.mode, ?_⟩
      rw [hto'.index, hto.index]

theorem deserializeLeafChain_spec {pf : PageFile} {source : List Entry} {off : Nat}
    {ess : List (List Entry)} (h : LeafChain pf source off ess) (u : PagedBTree)
    (hu : u.pageFile = some pf) (hmode : u.onDiskMode = false) (clear : Bool) :
    ∃ u', u.deserializeLeafChain off clear = some (u', .ok ()) ∧
      LoadsTo u u' ((if clear then SortedMap.empty else u.index).insertAll ess.flatten) := by
  have hfuel : ∀ v : PagedBTree, v.pageFile = some pf → ess.length ≤ v.walkFuel := by
    intro v hv
    have hlen := h.length_le
    simp only [walkFuel, hv, Option.map_some, Option.getD_some]
    omega
  unfold deserializeLeafChain
  cases clear with
  | false => exact deserializeChainFrom_spec h (hfuel u hu) u hu hmode
  | true =>
    obtain ⟨u', hr, hto⟩ := deserializeChainFrom_spec h (hfuel u.clearIndex hu) u.clearIndex hu hmode
    exact ⟨u', hr, hto.pageFile, hto.mode, hto.index⟩

/-! ## Subtrees -/

/-- What loading a subtree does to the index. -/
inductive LoadEffect
  | adds (es : List Entry)
  | sets (idx : SortedMap Key Nat)

def LoadEffect.apply : LoadEffect → SortedMap Key Nat → SortedMap Key Nat
  | .adds es, idx => idx.insertAll es
  | .sets idx', _ => idx'

/-- The index after the children of a page, one after the other. -/
def loadAll (level : List (Key × LoadEffect)) : SortedMap Key Nat :=
  level.foldl (fun idx y => y.2.apply idx) SortedMap.empty

/-- What loading a page does: it clears the index first. -/
def loads (level : List (Key × LoadEffect)) : LoadEffect := .sets (loadAll level)

/-- What the loop over the children does with a child. -/
def loadChild (visit : Nat → PagedBTree → Option (PagedBTree × Except Status Unit))
    (u : PagedBTree) (hdr : PageHeader) (off : Nat) : Option (PagedBTree × Except Status Unit) :=
  if hdr.type = kPageTypeLeaf then u.deserializeLeafChain off false else visit off u

/-- **The effects of the children follow each other.** -/
theorem loadChildren_spec {pf : PageFile} {page post : Bytes}
    {visit : Nat → PagedBTree → Option (PagedBTree × Except Status Unit)}
    {ys : List (Entry × LoadEffect)} (pre : Bytes)
    (hpage : page = pre ++ (((ys.map (·.1)).map childBytes).flatten ++ post))
    (hfit : pre.length + childrenSize (ys.map (·.1)) ≤ kPageSize)
    (hoff : ∀ y ∈ ys, kPageFileHeaderSize ≤ y.1.2 ∧ y.1.2 < 2 ^ 32)
    (hvisit : ∀ y ∈ ys, ∀ u : PagedBTree, u.pageFile = some pf → u.onDiskMode = false →
      ∃ hdr u', u.readPageHeader y.1.2 = .ok hdr ∧
        loadChild visit u hdr y.1.2 = some (u', .ok ()) ∧ LoadsTo u u' (y.2.apply u.index))
    (u : PagedBTree) (hu : u.pageFile = some pf) (hmode : u.onDiskMode = false) :
    ∃ u', loadChildren visit page ys.length pre.length u = some (u', .ok ()) ∧
      LoadsTo u u' (ys.foldl (fun idx y => y.2.apply idx) u.index) := by
  induction ys generalizing pre u with
  | nil => exact ⟨u, rfl, rfl, hmode, rfl⟩
  | cons y ys ih =>
    rw [List.map_cons, childrenSize_cons] at hfit
    obtain ⟨hlo, hhi⟩ := hoff y List.mem_cons_self
    have hlay : page = pre ++ (childBytes y.1 ++ (((ys.map (·.1)).map childBytes).flatten ++ post)) := by
      rw [hpage]; simp
    have hentry := internalEntryAt_child pre _ hlay (by omega)
    rw [Nat.mod_eq_of_lt hhi] at hentry
    have hnext : page = (pre ++ childBytes y.1) ++ (((ys.map (·.1)).map childBytes).flatten ++ post) := by
      rw [hpage]; simp
    have hlen : (pre ++ childBytes y.1).length = pre.length + (4 + 2 + y.1.1.length) := by
      rw [List.length_append, length_childBytes]
    obtain ⟨hdr, u', hhdr, hload, hto⟩ := hvisit y List.mem_cons_self u hu hmode
    obtain ⟨u'', hr, hto'⟩ := ih (pre ++ childBytes y.1) hnext (by rw [hlen]; omega)
      (fun z hz => hoff z (List.mem_cons_of_mem _ hz))
      (fun z hz => hvisit z (List.mem_cons_of_mem _ hz)) u' (hto.pageFile.trans hu) hto.mode
    rw [hlen] at hr
    rw [loadChild] at hload
    refine ⟨u'', ?_, hto'.pageFile.trans hto.pageFile, hto'.mode, ?_⟩
    · simp only [List.length_cons, loadChildren, hentry, if_neg (Nat.not_lt.2 hlo), hhdr, hload]
      exact hr
    · rw [hto'.index, hto.index, List.foldl_cons]

/-- Loading the subtree of height `h` at `c` has the effect `x`, in every longer file too. -/
def LoadsAt (pf : PageFile) (h : Nat) (c : Entry) (x : LoadEffect) : Prop :=
  c.1.length ≤ kPageSummaryKeyBytes ∧ kPageFileHeaderSize + h ≤ c.2 ∧
    ∃ page, Holds pf c.2 page ∧ PageHeader.storedCrc page = (crc32 (page.take 57)).toNat ∧
      (∀ idx, x = .sets idx → (PageHeader.decode page).type = kPageTypeInternal) ∧
      ∀ pf', Extends pf pf' → ∀ (u : PagedBTree) (fuel : Nat), u.pageFile = some pf' →
        u.onDiskMode = false → h < fuel →
        ∃ u', loadChild (loadTreeRecursive fuel) u (PageHeader.decode page) c.2 =
          some (u', .ok ()) ∧ LoadsTo u u' (x.apply u.index)

theorem loadsAt_leaf {pf : PageFile} {source : List Entry} {off : Nat} {ess : List (List Entry)}
    (h : LeafChain pf source off ess) {key : Key} (hkey : key.length ≤ kPageSummaryKeyBytes) :
    LoadsAt pf 0 (key, off) (.adds ess.flatten) := by
  obtain ⟨page, es, next, hp, hl⟩ := h.head
  refine ⟨hkey, hp.lo, page, hp, hl.crc, (fun idx h => by cases h),
    fun pf' hext u fuel hu hmode _ => ?_⟩
  rw [loadChild, if_pos hl.type]
  exact deserializeLeafChain_spec (h.mono hext) u hu hmode false

/-- An internal page over children that fit, loaded. -/
theorem loadTreeRecursive_internal {pf : PageFile} {u : PagedBTree} {hdr : PageHeader} {off fuel : Nat}
    {ys : List (Entry × LoadEffect)} (ht : hdr.type = kPageTypeInternal)
    (hn : hdr.keyCount = ys.length)
    (hfit : kPageHeaderSize + childrenSize (ys.map (·.1)) ≤ kPageSize)
    (hholds : Holds pf off (pageOf hdr ((ys.map (·.1)).map childBytes).flatten))
    (hoff : ∀ y ∈ ys, kPageFileHeaderSize ≤ y.1.2 ∧ y.1.2 < 2 ^ 32)
    (hvisit : ∀ y ∈ ys, ∀ v : PagedBTree, v.pageFile = some pf → v.onDiskMode = false →
      ∃ hdr v', v.readPageHeader y.1.2 = .ok hdr ∧
        loadChild (loadTreeRecursive fuel) v hdr y.1.2 = some (v', .ok ()) ∧
        LoadsTo v v' (y.2.apply v.index))
    (hu : u.pageFile = some pf) (hmode : u.onDiskMode = false) :
    ∃ u', loadTreeRecursive (fuel + 1) off u = some (u', .ok ()) ∧
      LoadsTo u u' (ys.foldl (fun idx y => y.2.apply idx) SortedMap.empty) := by
  have hk : kPageSize = 4096 := rfl
  have hcount := length_le_childrenSize (ys.map (·.1))
  rw [List.length_map] at hcount
  have hlay : pageOf hdr ((ys.map (·.1)).map childBytes).flatten = _ :=
    pageOf_eq (by rw [length_childrenBytes]; exact hfit)
  have hstored : hdr.stored.keyCount = ys.length := by
    rw [← hn]
    exact Nat.mod_eq_of_lt (by omega)
  have hpre : hdr.encode.length = kPageHeaderSize := PageHeader.length_encode hdr
  obtain ⟨u', hr, hto⟩ := loadChildren_spec hdr.encode hlay
    (by rw [hpre]; exact hfit) hoff hvisit u.clearIndex hu hmode
  rw [hpre] at hr
  have htype : hdr.stored.type = kPageTypeInternal := ht
  have hne : kPageTypeInternal ≠ kPageTypeLeaf := by decide
  rw [loadTreeRecursive, readPageHeader_holds hu hholds (storedCrc_pageOf _ _), decode_pageOf]
  simp only [htype, if_neg hne, ne_eq, not_true, if_false]
  rw [readPageBytes_holds (show u.clearIndex.pageFile = some pf from hu) hholds, hstored]
  simp only [hr]
  obtain ⟨h1, -, h3⟩ := rebuildSummary_frame u'
  exact ⟨_, rfl, h1.trans hto.pageFile, rfl, h3.trans hto.index⟩

/-- **From one level to the next**: a page clears the index and loads its children. -/
theorem loadsAt_levels (t : PagedBTree) (source : List Entry) :
    Levels t source (fun pf => pf.nextOffset ≤ 2 ^ 32) loads LoadsAt where
  back hext hsize := hext.le.trans hsize
  mono := by
    rintro pf pf' h c x hext ⟨hkey, hlo, page, hp, hcrc, htype, hload⟩
    exact ⟨hkey, hlo, page, hext.holds hp, hcrc, htype,
      fun pf'' hext' => hload pf'' (hext.trans hext')⟩
  page := by
    intro pf pf' h y ys hlen hall hext hholds hsize
    have hk : kPageSize = 4096 := rfl
    have hle := hext.le
    have hoff : ∀ z ∈ y :: ys, kPageFileHeaderSize + h ≤ z.1.2 ∧
        z.1.2 + kPageSize ≤ pf.nextOffset := by
      intro z hz
      obtain ⟨-, hlo, page, hp, -⟩ := hall z hz
      exact ⟨hlo, hp.hi⟩
    have hfit : kPageHeaderSize + childrenSize ((y :: ys).map (·.1)) ≤ kPageSize := by
      refine group_fits (fun c hc => ?_) (by rw [List.length_map]; exact hlen)
      obtain ⟨z, hz, rfl⟩ := List.mem_map.1 hc
      exact (hall z hz).1
    obtain ⟨hy, hyend⟩ := hoff y List.mem_cons_self
    obtain ⟨hdr, hser, hdrtype, hcount⟩ : ∃ hdr : PageHeader, serializeInternalPage
        t.preferHistogramSummary t.maxLsn t.summary.summaryLsn ((y :: ys).map (·.1)) source =
          pageOf hdr (((y :: ys).map (·.1)).map childBytes).flatten ∧
        hdr.type = kPageTypeInternal ∧ hdr.keyCount = (y :: ys).length := by
      unfold serializeInternalPage
      rw [fitChildren_of_fits hfit]
      exact ⟨_, rfl, internalHeader_type _ _ _ _ _, List.length_map _⟩
    have hpage := hholds
    rw [hser] at hpage
    have htype : hdr.stored.type = kPageTypeInternal := hdrtype
    refine ⟨(hall y List.mem_cons_self).1, by simp only; omega, _, hholds, storedCrc_pageOf _ _,
      fun _ _ => by rw [hser, decode_pageOf]; exact htype, fun pf'' hext' u fuel hu hmode hf => ?_⟩
    have hne : kPageTypeInternal ≠ kPageTypeLeaf := by decide
    rw [hser, decode_pageOf, loadChild, htype, if_neg hne]
    cases fuel with
    | zero => cases hf
    | succ fuel =>
      obtain ⟨u', hr, hto⟩ := loadTreeRecursive_internal hdrtype hcount hfit (hext'.holds hpage)
        (fun z hz => by
          obtain ⟨h1, h2⟩ := hoff z hz
          exact ⟨by omega, by omega⟩)
        (fun z hz v hv hmv => by
          obtain ⟨-, -, page, hp, hcrc, -, hload⟩ := hall z hz
          obtain ⟨v', hr, hto⟩ := hload pf'' (hext.trans hext') v fuel hv hmv (by omega)
          exact ⟨_, v', readPageHeader_holds hv ((hext.trans hext').holds hp) hcrc, hr, hto⟩)
        hu hmode
      refine ⟨u', hr, hto.pageFile, hto.mode, hto.index.trans ?_⟩
      rw [loads, LoadEffect.apply, loadAll, List.foldl_map]
      rfl

/-! ## What stays -/

/-- The subtree brings no entry under the key. -/
def LoadEffect.Lacks (key : Key) : LoadEffect → Prop
  | .adds es => ∀ e ∈ es, e.1 ≠ key
  | .sets idx => idx.find? key = none

theorem find?_apply {key : Key} {x : LoadEffect} (h : x.Lacks key) {idx : SortedMap Key Nat}
    (hidx : idx.find? key = none) : (x.apply idx).find? key = none := by
  cases x with
  | sets idx' => exact h
  | adds es =>
    cases hf : (idx.insertAll es).find? key with
    | none => exact hf
    | some v =>
      rcases SortedMap.mem_of_find?_insertAll hf with h' | h'
      · rw [hidx] at h'
        cases h'
      · exact absurd rfl (h _ h')

theorem find?_loadAll {key : Key} {level : List (Key × LoadEffect)}
    (h : ∀ y ∈ level, y.2.Lacks key) : (loadAll level).find? key = none := by
  have hfold : ∀ (level : List (Key × LoadEffect)) (idx : SortedMap Key Nat),
      (∀ y ∈ level, y.2.Lacks key) → idx.find? key = none →
      (level.foldl (fun idx y => y.2.apply idx) idx).find? key = none := by
    intro level
    induction level with
    | nil => exact fun idx _ hidx => hidx
    | cons y ys ih =>
      intro idx h hidx
      exact ih _ (fun z hz => h z (List.mem_cons_of_mem _ hz))
        (find?_apply (h y List.mem_cons_self) hidx)
  exact hfold level _ h (SortedMap.find?_empty key)

/-- Groups of subtrees without the key are without it, and each is loaded by clearing first. -/
theorem groupLevel_lacks {key : Key} {fuel : Nat} {level : List (Key × LoadEffect)} :
    (∀ z ∈ groupLevel loads fuel level, ∃ idx, z.2 = .sets idx) ∧
      ((∀ y ∈ level, y.2.Lacks key) → ∀ z ∈ groupLevel loads fuel level, z.2.Lacks key) := by
  induction fuel generalizing level with
  | zero => exact ⟨fun z hz => absurd hz List.not_mem_nil, fun _ z hz => absurd hz List.not_mem_nil⟩
  | succ fuel ih =>
    cases level with
    | nil => exact ⟨fun z hz => absurd hz List.not_mem_nil,
        fun _ z hz => absurd hz List.not_mem_nil⟩
    | cons y ys =>
      rw [groupLevel]
      constructor
      · intro z hz
        rcases List.mem_cons.1 hz with rfl | hz
        · exact ⟨_, rfl⟩
        · exact ih.1 z hz
      · intro h z hz
        rcases List.mem_cons.1 hz with rfl | hz
        · exact find?_loadAll fun w hw => h w (List.mem_of_mem_take hw)
        · exact ih.2 (fun w hw => h w (List.mem_of_mem_drop hw)) z hz

theorem groupLevel_tail {key : Key} {fuel : Nat} {level : List (Key × LoadEffect)}
    (h : ∀ y ∈ level.tail, y.2.Lacks key) :
    ∀ z ∈ (groupLevel loads fuel level).tail, z.2.Lacks key := by
  cases fuel with
  | zero => exact fun z hz => absurd hz List.not_mem_nil
  | succ fuel =>
    cases level with
    | nil => exact fun z hz => absurd hz List.not_mem_nil
    | cons y ys =>
      rw [groupLevel, List.tail_cons]
      have h96 : kInternalMaxEntries = 95 + 1 := rfl
      rw [h96, List.drop_succ_cons]
      exact groupLevel_lacks.2 fun w hw => h w (List.mem_of_mem_drop hw)

/-- **Only the last internal child stays**: over children that are loaded by clearing first, the key
of the first one alone is gone. -/
theorem loadAll_topLevel_lacks {key : Key} {fuel : Nat} {level : List (Key × LoadEffect)}
    (hsets : ∀ y ∈ level, ∃ idx, y.2 = .sets idx) (htail : ∀ y ∈ level.tail, y.2.Lacks key)
    (htwo : 2 ≤ level.length) : (loadAll (topLevel loads fuel level)).find? key = none := by
  have hlast : ∀ level : List (Key × LoadEffect), (∀ y ∈ level, ∃ idx, y.2 = .sets idx) →
      (∀ y ∈ level.tail, y.2.Lacks key) → 2 ≤ level.length →
      (loadAll level).find? key = none := by
    intro level hsets htail htwo
    obtain ⟨front, y, rfl⟩ := List.eq_nil_or_concat level |>.resolve_left (by rintro rfl; simp at htwo)
    obtain ⟨idx, hy⟩ := hsets y (by simp)
    have hmem : y ∈ (front.concat y).tail := by
      cases front with
      | nil => simp at htwo
      | cons w ws => simp
    have hlacks := htail y hmem
    rw [hy] at hlacks
    rw [loadAll, List.concat_eq_append, List.foldl_append, List.foldl_cons, List.foldl_nil, hy]
    exact hlacks
  induction fuel generalizing level with
  | zero => exact hlast level hsets htail htwo
  | succ fuel ih =>
    rw [topLevel]
    split
    · exact hlast level hsets htail htwo
    · rename_i hmany
      refine ih (@groupLevel_lacks key _ _).1 (groupLevel_tail htail) ?_
      have hlen := congrArg List.length (@map_fst_groupLevel _ loads level.length level)
      rw [List.length_map] at hlen
      have hgroups := @length_groupKeys (level.map (·.1)) (by rw [List.length_map]; omega)
      rw [List.length_map] at hgroups
      omega

/-- Chains that start with the whole map bring it whole. -/
theorem loadAll_adds {m : SortedMap Key Nat} {key : Key} {level : List (Key × LoadEffect)}
    (h : ∀ y ∈ level, ∃ es, y.2 = .adds es ∧ ∀ e ∈ es, e ∈ m.entries) :
    loadAll ((key, .adds m.entries) :: level) = m := by
  have hfold : ∀ level : List (Key × LoadEffect),
      (∀ y ∈ level, ∃ es, y.2 = .adds es ∧ ∀ e ∈ es, e ∈ m.entries) →
      level.foldl (fun idx y => y.2.apply idx) m = m := by
    intro level
    induction level with
    | nil => exact fun _ => rfl
    | cons y ys ih =>
      intro h
      obtain ⟨es, hy, hes⟩ := h y List.mem_cons_self
      have hsame : m.insertAll es = m := by
        refine SortedMap.ext_find? fun k => Option.ext fun v => ?_
        rw [SortedMap.find?_insertAll hes (fun _ _ h => h)]
        refine ⟨fun h => h.elim id fun he => SortedMap.mem_entries_iff.1 (hes _ he), .inl⟩
      rw [List.foldl_cons, hy, LoadEffect.apply, hsame]
      exact ih fun z hz => h z (List.mem_cons_of_mem _ hz)
  rw [loadAll, List.foldl_cons]
  have hfirst : (LoadEffect.adds m.entries).apply SortedMap.empty = m :=
    SortedMap.insertAll_eq fun _ => Iff.rfl
  rw [hfirst]
  exact hfold level h

/-! ## Together -/

/-- The effect of the leaf at place `i`: the chain from it on. -/
def leafEffect (m : SortedMap Key Nat) (i : Nat) : LoadEffect :=
  .adds ((leafChunks m.entries.length m.entries).drop i).flatten

/-- **What the reload brings back** is the map exactly when the root's children are leaves. -/
theorem loadAll_rootLevel {m : SortedMap Key Nat} (hfit : KeysFit m.entries)
    (hmany : ¬ (leafKeys m).length ≤ 1) :
    loadAll (rootLevel loads m (leafEffect m)) = m ↔
      (leafKeys m).length ≤ kInternalMaxEntries := by
  have hflat := flatten_leafChunks hfit (Nat.le_refl m.entries.length)
  obtain ⟨key, keys, hkeys⟩ := List.exists_cons_of_ne_nil
    (show leafKeys m ≠ [] by intro hnil; rw [hnil] at hmany; exact hmany (by simp))
  obtain ⟨chunk, chunks, hchunks⟩ := List.exists_cons_of_ne_nil
    (show leafChunks m.entries.length m.entries ≠ [] by
      intro hnil
      rw [leafKeys, hnil] at hkeys
      cases hkeys)
  have hlevel : (leafKeys m).zipIdx.map (fun k => (k.1, leafEffect m k.2)) =
      (key, .adds m.entries) :: (keys.zipIdx 1).map fun k => (k.1, leafEffect m k.2) := by
    rw [hkeys, List.zipIdx_cons, List.map_cons, leafEffect, List.drop_zero, hflat]
  have hrest : ∀ {i}, 1 ≤ i → ∀ e ∈ ((leafChunks m.entries.length m.entries).drop i).flatten,
      e ∈ chunks.flatten := by
    intro i hi e he
    obtain ⟨c, hc, hec⟩ := List.mem_flatten.1 he
    obtain ⟨j, rfl⟩ := Nat.exists_eq_add_of_le' hi
    rw [hchunks, List.drop_succ_cons] at hc
    exact List.mem_flatten.2 ⟨c, List.mem_of_mem_drop hc, hec⟩
  rw [hchunks, List.flatten_cons] at hflat
  have hlater : ∀ y ∈ (keys.zipIdx 1).map fun k => (k.1, leafEffect m k.2),
      ∃ i, 1 ≤ i ∧ y.2 = leafEffect m i := by
    intro y hy
    obtain ⟨k, hk, rfl⟩ := List.mem_map.1 hy
    exact ⟨k.2, List.le_snd_of_mem_zipIdx hk, rfl⟩
  have hlen : ((leafKeys m).zipIdx.map fun k => (k.1, leafEffect m k.2)).length =
      (leafKeys m).length := by rw [List.length_map, List.length_zipIdx]
  obtain ⟨n, hn⟩ : ∃ n, (leafKeys m).length = n + 1 := ⟨keys.length, by rw [hkeys]; rfl⟩
  rw [rootLevel, hn, topLevel, hlen, ← hn]
  by_cases hle : (leafKeys m).length ≤ kInternalMaxEntries
  · rw [if_pos hle, hlevel]
    refine ⟨fun _ => hle, fun _ => loadAll_adds fun y hy => ?_⟩
    obtain ⟨i, hi, he⟩ := hlater y hy
    refine ⟨_, he, fun e hmem => ?_⟩
    rw [← hflat]
    exact List.mem_append_right _ (hrest hi e hmem)
  · rw [if_neg hle]
    refine ⟨fun heq => ?_, fun h => absurd h hle⟩
    -- the first entry of the map is in the first leaf only
    obtain ⟨e, l, rfl⟩ := leafChunks_ne_nil hfit
      (show chunk ∈ leafChunks m.entries.length m.entries by rw [hchunks]; exact List.mem_cons_self)
    have hfirst : ∀ e' ∈ chunks.flatten, e'.1 ≠ e.1 := by
      intro e' he' heq'
      have hsorted := m.sorted
      rw [← hflat] at hsorted
      have hlt := (List.pairwise_append.1 hsorted).2.2 e List.mem_cons_self e' he'
      rw [heq'] at hlt
      exact lt_irrefl _ hlt
    have htail : ∀ y ∈ ((leafKeys m).zipIdx.map fun k => (k.1, leafEffect m k.2)).tail,
        y.2.Lacks e.1 := by
      rw [hlevel, List.tail_cons]
      intro y hy
      obtain ⟨i, hi, he⟩ := hlater y hy
      rw [he]
      exact fun e' he' => hfirst e' (hrest hi e' he')
    have hgroups := congrArg List.length (@map_fst_groupLevel _ loads
      ((leafKeys m).zipIdx.map fun k => (k.1, leafEffect m k.2)).length
      ((leafKeys m).zipIdx.map fun k => (k.1, leafEffect m k.2)))
    have htwo := @length_groupKeys
      (((leafKeys m).zipIdx.map fun k => (k.1, leafEffect m k.2)).map (·.1))
      (by rw [List.length_map, hlen]; omega)
    rw [List.length_map] at hgroups htwo
    have hnone := @loadAll_topLevel_lacks e.1 n _ (@groupLevel_lacks e.1 _ _).1 (groupLevel_tail htail)
      (by rw [hgroups]; exact htwo.1)
    rw [hlen] at hnone
    rw [heq] at hnone
    have hin : e ∈ m.entries := by
      rw [← hflat]
      exact List.mem_append_left _ List.mem_cons_self
    rw [SortedMap.mem_entries_iff.1 hin] at hnone
    cases hnone

/-- **A healing reload of a persisted tree** returns, in memory mode, and has the whole map exactly
when the root's children are leaves. -/
theorem heal_spec (t : PagedBTree) {pf : PageFile} (ht : t.pageFile = some pf)
    {m : SortedMap Key Nat} (hne : m.entries ≠ []) (hm : Storable m) :
    ∃ t' pf' root, t.persistRootFromMap m = some (t', .ok root) ∧ t'.pageFile = some pf' ∧
      (pf'.nextOffset ≤ 2 ^ 32 → ∀ u : PagedBTree, u.pageFile = some pf' →
        ∃ u', u.loadTreeForHeal root = some (u', .ok ()) ∧ u'.onDiskMode = false ∧
          (u'.index = m ↔ (leafKeys m).length ≤ kInternalMaxEntries)) := by
  obtain ⟨pf', root, hr, -, hroot⟩ := persistRootImpl_levels t ht hne hm.keysFit
    (fun e he => (hm e he).2) (loadsAt_levels t m.entries) (leafEffect m)
    fun pf off key i hat hsize hchain =>
      loadsAt_leaf (hchain hsize) (leafKeys_short hm (List.mem_of_getElem? hat))
  refine ⟨_, pf', root, hr, rfl, fun hsize u hu => ?_⟩
  have h := hroot hsize
  have hu' : ({ u with onDiskMode := false } : PagedBTree).pageFile = some pf' := hu
  have hwalk : ({ u with onDiskMode := false } : PagedBTree).walkFuel = pf'.file.length + 1 := by
    simp only [walkFuel, hu, Option.map_some, Option.getD_some]
  by_cases hone : (leafKeys m).length ≤ 1
  · rw [if_pos hone] at h
    obtain ⟨page, hp, hl⟩ := h
    have h96 : kInternalMaxEntries = 96 := rfl
    obtain ⟨u', hload, hto⟩ := deserializeLeafChain_spec (.last hp hl (by decide))
      { u with onDiskMode := false } hu' rfl true
    have hrec : loadTreeRecursive (pf'.file.length + 1) root { u with onDiskMode := false } =
        some (u', .ok ()) := by
      rw [loadTreeRecursive, readPageHeader_holds hu' hp hl.crc]
      simp only [hl.type, if_true]
      exact hload
    refine ⟨{ u' with rootOffset := root }, ?_, hto.mode, ?_⟩
    · simp only [loadTreeForHeal, hwalk, hrec]
    · refine ⟨fun _ => by omega, fun _ => hto.index.trans ?_⟩
      rw [if_pos rfl, List.flatten_singleton]
      exact SortedMap.insertAll_eq fun _ => Iff.rfl
  · rw [if_neg hone] at h
    obtain ⟨height, key, -, hlo, page, hp, -, htype, hload⟩ := h
    have hlen := hp.length_le
    obtain ⟨u', hrec, hto⟩ := hload pf' Extends.rfl { u with onDiskMode := false }
      (pf'.file.length + 1) hu' rfl (by omega)
    have hne' : kPageTypeInternal ≠ kPageTypeLeaf := by decide
    rw [loadChild, htype _ rfl, if_neg hne'] at hrec
    refine ⟨{ u' with rootOffset := root }, ?_, hto.mode, ?_⟩
    · simp only [loadTreeForHeal, hwalk, hrec]
    · rw [← loadAll_rootLevel hm.keysFit hone]
      simp only [hto.index, loads, LoadEffect.apply]

/-! ## Sizes -/

theorem length_groupKeys_mul (fuel : Nat) (keys : List Key) :
    96 * (groupKeys fuel keys).length ≤ keys.length + 95 := by
  induction fuel generalizing keys with
  | zero => simp [groupKeys]
  | succ fuel ih =>
    cases keys with
    | nil => simp [groupKeys]
    | cons k ks =>
      have hrest := ih ((k :: ks).drop kInternalMaxEntries)
      have h96 : kInternalMaxEntries = 96 := rfl
      rw [List.length_drop] at hrest
      simp only [groupKeys, List.length_cons] at hrest ⊢
      omega

theorem nextOffset_appendGroups (t : PagedBTree) (source : List Entry) (fuel : Nat)
    (pf : PageFile) (children : List Entry) :
    (t.appendGroups source fuel pf children).1.nextOffset =
      pf.nextOffset + kPageSize * (t.appendGroups source fuel pf children).2.length := by
  have hk : kPageSize = 4096 := rfl
  induction fuel generalizing pf children with
  | zero => rfl
  | succ fuel ih =>
    cases children with
    | nil => rfl
    | cons c cs =>
      obtain ⟨group, hgroup⟩ : ∃ l, (c :: cs).take kInternalMaxEntries = c :: l := ⟨_, rfl⟩
      simp only [appendGroups, hgroup, List.length_cons]
      rw [ih, nextOffset_appendPages, List.length_singleton, hk]
      omega

/-- There are at most twice as many internal pages as leaves. -/
theorem buildInternalRoot_size (t : PagedBTree) (source : List Entry) {fuel root : Nat}
    {pf pf' : PageFile} {children : List Entry} (htwo : 2 ≤ children.length)
    (hf : children.length ≤ fuel)
    (hr : t.buildInternalRoot source fuel pf children = some (.ok (pf', root))) :
    pf'.nextOffset ≤ pf.nextOffset + kPageSize * (2 * children.length) := by
  have hk : kPageSize = 4096 := rfl
  have h96 : kInternalMaxEntries = 96 := rfl
  induction fuel generalizing pf children with
  | zero => omega
  | succ fuel ih =>
    rw [buildInternalRoot_eq t source fuel pf htwo] at hr
    split at hr
    · simp only [Option.some.injEq, Except.ok.injEq, Prod.mk.injEq] at hr
      obtain ⟨rfl, -⟩ := hr
      rw [nextOffset_appendPages, List.length_singleton, hk]
      omega
    · rename_i hmany
      obtain ⟨h2, hlt⟩ := length_appendGroups t source pf (not_le.1 hmany)
      have hrest := ih h2 (by omega) hr
      have hkeys := congrArg List.length
        (appendGroups_keys t source children.length pf children).2
      have hmul := length_groupKeys_mul children.length (children.map (·.1))
      rw [List.length_map] at hkeys hmul
      rw [nextOffset_appendGroups, hk] at hrest
      rw [hk]
      omega

/-- How far a persisted tree reaches. -/
theorem persistRootFromMap_size {t t' : PagedBTree} {pf pf' : PageFile} (ht : t.pageFile = some pf)
    {m : SortedMap Key Nat} (hm : Storable m) {root : Nat}
    (hr : t.persistRootFromMap m = some (t', .ok root)) (hf : t'.pageFile = some pf') :
    pf'.nextOffset ≤ pf.nextOffset + kPageSize * (3 * (leafKeys m).length) := by
  have hk : kPageSize = 4096 := rfl
  rcases persistRootImpl_cases ht hr with ⟨-, -, rfl⟩ |
    ⟨leaves, hleaves, -, ⟨e, he, -⟩ | ⟨pf'', root', -, hbuild, rfl⟩⟩
  · rw [ht] at hf
    cases hf
    exact Nat.le_add_right _ _
  · cases he
  · obtain ⟨leaves', hleaves', hall⟩ := serializeLeaves_spec t hm.keysFit.lt hm.keysFit
      (fun e he => (hm e he).2) (Nat.le_refl m.entries.length)
    rw [hleaves] at hleaves'
    injection hleaves' with hleaves'
    subst hleaves'
    have hcount := congrArg List.length (map_snd_leaves hall)
    rw [List.length_map, List.length_map] at hcount
    have hend := nextOffset_appendPages pf (linkLeaves pf.nextOffset (leaves.map (·.1)))
    rw [length_linkLeaves, List.length_map, hk] at hend
    have hleafKeys : (leafKeys m).length = leaves.length := by
      rw [leafKeys, List.length_map, hcount]
    injection hf with hf
    subst hf
    rw [hk]
    rcases hbuild with ⟨-, hone⟩ | ⟨htwo, hmany⟩
    · have := congrArg (fun r => r.1.nextOffset) hone
      simp only [hend] at this
      omega
    · have hlr := congrArg List.length (map_leafRefs pf.nextOffset (leaves.map (·.2)))
      rw [List.length_map, List.length_map] at hlr
      have hsize := buildInternalRoot_size t m.entries (by omega) (by omega) hmany
      rw [hk] at hsize
      omega

/-- A leaf holds at most 403 entries. -/
theorem length_leafChunks (fuel : Nat) (es : List Entry) :
    ∀ chunk ∈ leafChunks fuel es, chunk.length ≤ 403 := by
  induction fuel generalizing es with
  | zero => cases es <;> exact fun c hc => absurd hc List.not_mem_nil
  | succ fuel ih =>
    cases es with
    | nil => exact fun c hc => absurd hc List.not_mem_nil
    | cons e es =>
      intro c hc
      rcases List.mem_cons.1 hc with rfl | hc
      · have hfits := takeChunk_fits (show kPageHeaderSize ≤ kPageSize by decide) (e :: es)
        have hsize := length_le_bodySize 0 (takeChunk kPageHeaderSize (e :: es))
        have hk : kPageSize = 4096 := rfl
        have hh : kPageHeaderSize = 64 := rfl
        omega
      · exact ih _ c hc

theorem length_entries_le {m : SortedMap Key Nat} (hfit : KeysFit m.entries) :
    m.entries.length ≤ 403 * (leafKeys m).length := by
  have hsum : ∀ chunks : List (List Entry), (∀ c ∈ chunks, c.length ≤ 403) →
      chunks.flatten.length ≤ 403 * chunks.length := by
    intro chunks
    induction chunks with
    | nil => exact fun _ => Nat.le_refl 0
    | cons c cs ih =>
      intro h
      have hc := h c List.mem_cons_self
      have hcs := ih fun c' hc' => h c' (List.mem_cons_of_mem _ hc')
      rw [List.flatten_cons, List.length_append, List.length_cons]
      omega
  have h := hsum _ (length_leafChunks m.entries.length m.entries)
  rw [flatten_leafChunks hfit (Nat.le_refl _)] at h
  rw [leafKeys, List.length_map]
  exact h

theorem length_leafKeys_le {m : SortedMap Key Nat} (hfit : KeysFit m.entries) :
    (leafKeys m).length ≤ m.entries.length := by
  have hsub := heads_sublist (leafChunks m.entries.length m.entries)
    fun c hc => leafChunks_ne_nil hfit hc
  rw [flatten_leafChunks hfit (Nat.le_refl _)] at hsub
  have h := hsub.length_le
  rw [List.length_map (f := fun e : Entry => e.1)] at h
  exact h

/-! ## The whole claim, and a deep tree -/

/-- **Healing reconstructs the tree**: the reload of the root brings the whole map into memory. -/
def Heals (u : PagedBTree) (root : Nat) (m : SortedMap Key Nat) : Prop :=
  ∃ u', u.loadTreeForHeal root = some (u', .ok ()) ∧ u'.index = m ∧ u'.onDiskMode = false

/-- **When a healing reload reconstructs the tree**: its leaves fit below one internal page. -/
theorem heals_iff (t : PagedBTree) {pf : PageFile} (ht : t.pageFile = some pf)
    {m : SortedMap Key Nat} (hne : m.entries ≠ []) (hm : Storable m) :
    ∃ t' pf' root, t.persistRootFromMap m = some (t', .ok root) ∧ t'.pageFile = some pf' ∧
      (pf'.nextOffset ≤ 2 ^ 32 → ∀ u : PagedBTree, u.pageFile = some pf' →
        (∃ u', u.loadTreeForHeal root = some (u', .ok ())) ∧
          (Heals u root m ↔ (leafKeys m).length ≤ kInternalMaxEntries)) := by
  obtain ⟨t', pf', root, hr, hf, h⟩ := heal_spec t ht hne hm
  refine ⟨t', pf', root, hr, hf, fun hsize u hu => ?_⟩
  obtain ⟨u', hload, hmode, hiff⟩ := h hsize u hu
  refine ⟨⟨u', hload⟩, ?_⟩
  rw [← hiff]
  constructor
  · rintro ⟨u'', hload', hidx, -⟩
    rw [hload] at hload'
    cases hload'
    exact hidx
  · exact fun hidx => ⟨u', hload, hidx, hmode⟩

/-- One entry in a new page file. -/
theorem heals_iff_one :
    ∃ t' pf' root, (PagedBTree.new (some PageFile.new)).persistRootFromMap
        (SortedMap.empty.insert [0x61] 7) = some (t', .ok root) ∧ t'.pageFile = some pf' ∧
      ∀ u : PagedBTree, u.pageFile = some pf' → (∃ u', u.loadTreeForHeal root = some (u', .ok ())) ∧
        (Heals u root (SortedMap.empty.insert [0x61] 7) ↔
          (leafKeys (SortedMap.empty.insert [0x61] 7)).length ≤ kInternalMaxEntries) := by
  obtain ⟨t', pf', root, hr, hf, h⟩ := heals_iff (PagedBTree.new (some PageFile.new)) rfl
    (by decide : (SortedMap.empty.insert [0x61] 7 : SortedMap Key Nat).entries ≠ [])
    (by unfold Storable; decide)
  refine ⟨t', pf', root, hr, hf, h ?_⟩
  have hend : ((PagedBTree.new (some PageFile.new)).persistRootFromMap
      (SortedMap.empty.insert [0x61] 7)).map (fun r => r.1.pageFile.map (·.nextOffset))
        = some (some 8192) := by decide +kernel
  rw [hr, Option.map_some, hf, Option.map_some, Option.some.injEq, Option.some.injEq] at hend
  omega

/-- A key of two bytes. -/
def twoBytes (i : Nat) : Key := [UInt8.ofNat (i / 256), UInt8.ofNat (i % 256)]

theorem twoBytes_lt {i j : Nat} (h : i < j) (hj : j < 65536) : twoBytes i < twoBytes j := by
  have hbyte : ∀ {a b : Nat}, a < b → b < 256 → UInt8.ofNat a < UInt8.ofNat b := by
    intro a b hab hb
    rw [UInt8.lt_iff_toNat_lt, UInt8.toNat_ofNat', UInt8.toNat_ofNat']
    omega
  rw [twoBytes, twoBytes]
  by_cases hq : i / 256 = j / 256
  · rw [hq]
    exact List.Lex.cons (List.Lex.rel (hbyte (by omega) (by omega)))
  · exact List.Lex.rel (hbyte (by omega) (by omega))

/-- The first `n` of these keys. -/
def firstKeys (n : Nat) (h : n ≤ 65536) : SortedMap Key Nat where
  entries := (List.range n).map fun i => (twoBytes i, 1)
  sorted := by
    refine List.pairwise_map.2 (List.pairwise_lt_range.imp_of_mem fun _ hj hlt => ?_)
    exact twoBytes_lt hlt (Nat.lt_of_lt_of_le (List.mem_range.1 hj) h)

theorem firstKeys_spec {n : Nat} (h : n ≤ 65536) : (firstKeys n h).entries.length = n ∧
    ∀ e ∈ (firstKeys n h).entries, 1 ≤ e.1.length ∧ e.1.length ≤ 14 ∧ e.2 < 2 ^ 64 := by
  refine ⟨by rw [firstKeys, List.length_map, List.length_range], fun e he => ?_⟩
  obtain ⟨i, -, rfl⟩ := List.mem_map.1 he
  simp [twoBytes]

/-- More entries than 96 leaves hold make a tree of three levels: its reload does not give the map back. -/
theorem deep_tree_not_healed :
    ¬ ∀ (t : PagedBTree) (pf : PageFile) (m : SortedMap Key Nat), t.pageFile = some pf →
      m.entries ≠ [] → (∀ e ∈ m.entries, 1 ≤ e.1.length ∧ e.1.length ≤ 14 ∧ e.2 < 2 ^ 64) →
      ∃ t' root, t.persistRootFromMap m = some (t', .ok root) ∧
        ∀ u : PagedBTree, u.pageFile = t'.pageFile → Heals u root m := by
  intro h
  have hn : 38689 ≤ 65536 := by decide
  obtain ⟨hlen, hkeys⟩ := firstKeys_spec hn
  generalize firstKeys 38689 hn = m at hkeys hlen
  have hm : Storable m := fun e he => (hkeys e he).2
  have hne : m.entries ≠ [] := by
    intro hnil
    rw [hnil] at hlen
    cases hlen
  obtain ⟨t', root, hr, hall⟩ := h (PagedBTree.new (some PageFile.new)) PageFile.new m rfl hne hkeys
  obtain ⟨t'', pf', root', hr', hf, hspec⟩ :=
    heal_spec (PagedBTree.new (some PageFile.new)) rfl hne hm
  rw [hr] at hr'
  simp only [Option.some.injEq, Prod.mk.injEq, Except.ok.injEq] at hr'
  obtain ⟨rfl, rfl⟩ := hr'
  have hsize := persistRootFromMap_size rfl hm hr hf
  have hmost := length_leafKeys_le hm.keysFit
  have hleast := length_entries_le hm.keysFit
  have hstart : PageFile.new.nextOffset = 4096 := rfl
  have hk : kPageSize = 4096 := rfl
  have h96 : kInternalMaxEntries = 96 := rfl
  rw [hk] at hsize
  obtain ⟨u', hload, -, hiff⟩ := hspec (by omega) t' hf
  obtain ⟨u'', hload', hidx, -⟩ := hall t' rfl
  rw [hload] at hload'
  cases hload'
  have := hiff.1 hidx
  omega

end EBTree.BTree
