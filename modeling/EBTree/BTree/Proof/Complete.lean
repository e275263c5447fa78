import EBTree.BTree.Proof.Levels
import EBTree.BTree.Proof.Sound

/-!
# When a persisted tree has every entry

A leaf takes no entry whose key is longer than a page, and the loop over the leaves then never
ends. An internal page takes the children whose separators it has room for, and the rest of its
group is in no page.

* `serializeLeaves_stuck`: the loop that does not end.
* `SeparatorsFit m`: on every level every group of separators fits into its page.
* `full_topLevel`: the levels drop nothing exactly then.
* `persistsAll_iff`: when persisting a map returns and drops nothing.
-/

set_option autoImplicit false

namespace EBTree.BTree

open Lib

/-! ## What a tree lists -/

/-- The entries of the leaves that are reached from the page at an offset through the children that
the internal pages list. -/
def listedEntries (t : PagedBTree) : Nat → Nat → List Entry
  | 0, _ => []
  | fuel + 1, off =>
    match t.readPageHeader off, t.readPageBytes off with
    | .ok hdr, .ok page =>
      if hdr.type = kPageTypeLeaf then (leafEntries page).getD []
      else
        match childOffsets page hdr.keyCount kPageHeaderSize with
        | .ok offs => offs.flatMap (listedEntries t fuel)
        | .error _ => []
    | _, _ => []

/-- **Persisting the map returns and drops nothing**: it reports an error and the old root stays in
force, or every entry is in a leaf that the pages from the new root on list. -/
def PersistsAll (t : PagedBTree) (m : SortedMap Key Nat) : Prop :=
  ∃ t' r, t.persistRootFromMap m = some (t', r) ∧
    ((∃ e, r = .error e ∧ t'.rootOffset = t.rootOffset) ∨
      ∃ root, r = .ok root ∧ t'.rootOffset = root ∧
        ∀ e ∈ m.entries, e ∈ listedEntries t' t'.walkFuel root)

/-- The separators fit into one page. -/
def GroupFits (keys : List Key) : Prop :=
  kPageHeaderSize + (keys.map fun k => 4 + 2 + k.length).sum ≤ kPageSize

/-- Each group of separators fits into a page. -/
def GroupsFit : Nat → List Key → Prop
  | 0, _ => True
  | _, [] => True
  | fuel + 1, key :: keys => GroupFits ((key :: keys).take kInternalMaxEntries) ∧
      GroupsFit fuel ((key :: keys).drop kInternalMaxEntries)

/-- So on every level up to the root. -/
def LevelsFit : Nat → List Key → Prop
  | 0, keys => GroupFits keys
  | fuel + 1, keys =>
    if keys.length ≤ kInternalMaxEntries then GroupFits keys
    else GroupsFit keys.length keys ∧ LevelsFit fuel (groupKeys keys.length keys)

/-- The separators of every internal page fit into it. -/
def SeparatorsFit (m : SortedMap Key Nat) : Prop :=
  (leafKeys m).length ≤ 1 ∨ LevelsFit (leafKeys m).length (leafKeys m)

/-! ## Leaves that take nothing -/

theorem takeChunk_keysFit {used : Nat} (h : kPageHeaderSize ≤ used) (es : List Entry) :
    KeysFit (takeChunk used es) := by
  induction es generalizing used with
  | nil => exact fun e he => absurd he List.not_mem_nil
  | cons e es ih =>
    rw [takeChunk]
    split
    · exact fun e he => absurd he List.not_mem_nil
    · intro e' he'
      rcases List.mem_cons.1 he' with rfl | he'
      · omega
      · exact ih (by omega) e' he'

theorem fitEntries_start (plen pos : Nat) (es : List Entry) : fitEntries plen pos es <+: es := by
  induction es generalizing pos with
  | nil => exact List.prefix_rfl
  | cons e es ih =>
    rw [fitEntries]
    split
    · exact List.nil_prefix
    · exact List.cons_prefix_cons.2 ⟨rfl, ih _⟩

/-- What a leaf leaves over: the entries behind a start of its chunk. -/
theorem serializeLeafChunk_rest (maxLsn summaryLsn : Nat) (source es : List Entry) :
    ∃ out, out <+: takeChunk kPageHeaderSize es ∧
      (serializeLeafChunk maxLsn summaryLsn source es).2.2 = es.drop out.length := by
  unfold serializeLeafChunk
  simp only
  split
  · exact ⟨_, fitEntries_start _ _ _, rfl⟩
  · exact ⟨_, fitEntries_start _ _ _, rfl⟩

/-- **The loop over the leaves does not end** once a key is in front of it that no leaf takes. -/
theorem serializeLeaves_stuck (t : PagedBTree) (source : List Entry) (fuel : Nat) {es : List Entry}
    (h : ¬ KeysFit es) : t.serializeLeaves source fuel es = none := by
  induction fuel generalizing es with
  | zero =>
    cases es with
    | nil => exact absurd (fun e he => absurd he List.not_mem_nil) h
    | cons e es => rfl
  | succ fuel ih =>
    cases es with
    | nil => exact absurd (fun e he => absurd he List.not_mem_nil) h
    | cons e es =>
      obtain ⟨out, hout, hrest⟩ :=
        serializeLeafChunk_rest t.maxLsn t.summary.summaryLsn source (e :: es)
      -- the entries the leaf takes fit, so the one that does not is left over
      have hfit : KeysFit ((e :: es).take out.length) := by
        have hpre := (List.prefix_iff_eq_take.1 (hout.trans (takeChunk_start _ _)))
        rw [← hpre]
        exact fun e' he' => takeChunk_keysFit (Nat.le_refl _) _ e' (hout.subset he')
      have hleft : ¬ KeysFit ((e :: es).drop out.length) := by
        intro hdrop
        refine h fun e' he' => ?_
        rw [← List.take_append_drop out.length (e :: es)] at he'
        rcases List.mem_append.1 he' with he' | he'
        · exact hfit e' he'
        · exact hdrop e' he'
      rw [PagedBTree.serializeLeaves]
      simp only [hrest]
      split
      · rfl
      · rw [ih hleft]
        rfl

/-! ## Groups that do not fit -/

/-- The children below a page and the entries it lists of them. -/
abbrev Below := List Entry × List Entry

/-- How many of the separators a page has room for. -/
def fitCount (keys : List Key) : Nat :=
  (fitChildren kPageHeaderSize (keys.map fun k => (k, 0))).length

/-- What a page over children is worth: the entries below it, and those below the children that it
lists. -/
def listed (level : List (Key × Below)) : Below :=
  (level.flatMap (·.2.1), (level.take (fitCount (level.map (·.1)))).flatMap (·.2.2))

theorem length_fitChildren (pos : Nat) (cs : List Entry) :
    (fitChildren pos cs).length = (fitChildren pos (cs.map fun c => (c.1, 0))).length := by
  induction cs generalizing pos with
  | nil => rfl
  | cons c cs ih =>
    rw [List.map_cons, fitChildren, fitChildren]
    split
    · rfl
    · rw [List.length_cons, List.length_cons, ih]

theorem fitChildren_eq_take (cs : List Entry) :
    fitChildren kPageHeaderSize cs = cs.take (fitCount (cs.map (·.1))) := by
  rw [fitCount, List.map_map]
  have h := length_fitChildren kPageHeaderSize cs
  have heq : ((fun k : Key => (k, 0)) ∘ fun c : Entry => c.1) = fun c : Entry => (c.1, 0) := rfl
  rw [heq, ← h]
  exact List.prefix_iff_eq_take.1 (fitChildren_start _ _)

/-- A page has room for all separators exactly when they fit. -/
theorem fitCount_eq_iff (keys : List Key) : keys.length ≤ fitCount keys ↔ GroupFits keys := by
  have hsize : ∀ keys : List Key, childrenSize (keys.map fun k => (k, 0)) =
      (keys.map fun k => 4 + 2 + k.length).sum := by
    intro keys
    rw [childrenSize, List.map_map]
    rfl
  constructor
  · intro h
    have hpre := fitChildren_start kPageHeaderSize (keys.map fun k => (k, 0))
    have hall := hpre.eq_of_length_le (by rw [List.length_map]; exact h)
    have hfits := fitChildren_fits (show kPageHeaderSize ≤ kPageSize by decide)
      (keys.map fun k => (k, 0))
    rw [hall, hsize] at hfits
    exact hfits
  · intro h
    rw [GroupFits, ← hsize] at h
    rw [fitCount, fitChildren_of_fits h, List.length_map]

/-! ## Levels that drop nothing -/

/-- A subtree lists entries below it, and there are some below it. -/
def Lists (x : Below) : Prop := x.2.Sublist x.1 ∧ x.1 ≠ []

/-- It lists all of them. -/
def Full (x : Below) : Prop := x.2 = x.1

theorem flatMap_sublist {level : List (Key × Below)} (h : ∀ y ∈ level, Lists y.2) :
    (level.flatMap (·.2.2)).Sublist (level.flatMap (·.2.1)) := by
  induction level with
  | nil => exact List.Sublist.refl _
  | cons y ys ih =>
    rw [List.flatMap_cons, List.flatMap_cons]
    exact (h y List.mem_cons_self).1.append (ih fun z hz => h z (List.mem_cons_of_mem _ hz))

theorem listed_sublist {level : List (Key × Below)} (h : ∀ y ∈ level, Lists y.2) :
    (listed level).2.Sublist (listed level).1 := by
  rw [listed]
  refine (flatMap_sublist fun y hy => h y (List.mem_of_mem_take hy)).trans ?_
  have hsplit := List.take_append_drop (fitCount (level.map (·.1))) level
  conv_rhs => rw [← hsplit, List.flatMap_append]
  exact List.sublist_append_left _ _

theorem listed_lists {level : List (Key × Below)} (hne : level ≠ [])
    (h : ∀ y ∈ level, Lists y.2) : Lists (listed level) := by
  refine ⟨listed_sublist h, ?_⟩
  obtain ⟨y, ys, rfl⟩ := List.exists_cons_of_ne_nil hne
  have hy := (h y List.mem_cons_self).2
  rw [listed, List.flatMap_cons]
  intro hnil
  exact hy (List.append_eq_nil_iff.1 hnil).1

/-- Children that all list what is below them: exactly then the lists are the same. -/
theorem flatMap_eq_iff {level : List (Key × Below)} (h : ∀ y ∈ level, Lists y.2) :
    level.flatMap (·.2.2) = level.flatMap (·.2.1) ↔ ∀ y ∈ level, Full y.2 := by
  constructor
  · induction level with
    | nil => exact fun _ y hy => absurd hy List.not_mem_nil
    | cons y ys ih =>
      intro heq
      have hy := (h y List.mem_cons_self).1
      have hys := flatMap_sublist fun z hz => h z (List.mem_cons_of_mem y hz)
      have hlen := congrArg List.length heq
      rw [List.flatMap_cons, List.flatMap_cons, List.length_append, List.length_append] at hlen
      have h1 := hy.length_le
      have h2 := hys.length_le
      intro z hz
      rcases List.mem_cons.1 hz with rfl | hz
      · exact hy.eq_of_length (by omega)
      · exact ih (fun z hz => h z (List.mem_cons_of_mem _ hz)) (hys.eq_of_length (by omega)) z hz
  · intro hall
    exact List.flatMap_congr fun y hy => hall y hy

/-- **One page drops nothing** when its separators fit and its children drop nothing. -/
theorem full_listed {level : List (Key × Below)} (h : ∀ y ∈ level, Lists y.2) :
    Full (listed level) ↔ GroupFits (level.map (·.1)) ∧ ∀ y ∈ level, Full y.2 := by
  rw [← fitCount_eq_iff, List.length_map]
  constructor
  · intro hfull
    have htake : ∀ y ∈ level.take (fitCount (level.map (·.1))), Lists y.2 :=
      fun y hy => h y (List.mem_of_mem_take hy)
    have hlen := congrArg List.length hfull
    have hle := (flatMap_sublist htake).length_le
    have hsplit := congrArg (fun l => (l.flatMap fun y : Key × Below => y.2.1).length)
      (List.take_append_drop (fitCount (level.map (·.1))) level)
    simp only [listed] at hlen
    simp only [List.flatMap_append, List.length_append] at hsplit
    have hnone : (level.drop (fitCount (level.map (·.1)))).flatMap (fun y => y.2.1) = [] :=
      List.length_eq_zero_iff.1 (by omega)
    have hge : level.length ≤ fitCount (level.map (·.1)) := by
      by_contra hlt
      obtain ⟨y, hy⟩ := List.exists_mem_of_ne_nil (level.drop (fitCount (level.map (·.1))))
        (fun hnil => hlt (List.drop_eq_nil_iff.1 hnil))
      refine (h y (List.mem_of_mem_drop hy)).2 ?_
      rw [List.flatMap_eq_nil_iff] at hnone
      exact hnone y hy
    refine ⟨hge, (flatMap_eq_iff h).1 ?_⟩
    rw [Full, listed, List.take_of_length_le hge] at hfull
    exact hfull
  · rintro ⟨hge, hall⟩
    rw [Full, listed, List.take_of_length_le hge]
    exact (flatMap_eq_iff h).2 hall

theorem groupLevel_lists {fuel : Nat} {level : List (Key × Below)} (h : ∀ y ∈ level, Lists y.2) :
    ∀ z ∈ groupLevel listed fuel level, Lists z.2 := by
  induction fuel generalizing level with
  | zero => exact fun z hz => absurd hz List.not_mem_nil
  | succ fuel ih =>
    cases level with
    | nil => exact fun z hz => absurd hz List.not_mem_nil
    | cons y ys =>
      intro z hz
      rw [groupLevel] at hz
      rcases List.mem_cons.1 hz with rfl | hz
      · have h96 : kInternalMaxEntries = 95 + 1 := rfl
        exact listed_lists (by rw [h96]; exact List.cons_ne_nil _ _)
          fun w hw => h w (List.mem_of_mem_take hw)
      · exact ih (fun w hw => h w (List.mem_of_mem_drop hw)) z hz

/-- A level has below it what its children have. -/
theorem groupLevel_below {fuel : Nat} {level : List (Key × Below)} (hf : level.length ≤ fuel) :
    (groupLevel listed fuel level).flatMap (·.2.1) = level.flatMap (·.2.1) := by
  induction fuel generalizing level with
  | zero =>
    rw [List.length_eq_zero_iff.1 (Nat.le_zero.1 hf)]
    rfl
  | succ fuel ih =>
    cases level with
    | nil => rfl
    | cons y ys =>
      have h96 : kInternalMaxEntries = 96 := rfl
      have hlen : ((y :: ys).drop kInternalMaxEntries).length ≤ fuel := by
        rw [List.length_drop]
        simp only [List.length_cons] at hf ⊢
        omega
      rw [groupLevel, List.flatMap_cons, ih hlen]
      simp only [listed]
      rw [← List.flatMap_append, List.take_append_drop]

/-- **One level drops nothing** when each of its groups fits. -/
theorem full_groupLevel {fuel : Nat} {level : List (Key × Below)} (h : ∀ y ∈ level, Lists y.2)
    (hf : level.length ≤ fuel) :
    (∀ z ∈ groupLevel listed fuel level, Full z.2) ↔
      GroupsFit fuel (level.map (·.1)) ∧ ∀ y ∈ level, Full y.2 := by
  induction fuel generalizing level with
  | zero =>
    rw [List.length_eq_zero_iff.1 (Nat.le_zero.1 hf)]
    exact ⟨fun _ => ⟨trivial, fun y hy => absurd hy List.not_mem_nil⟩,
      fun _ z hz => absurd hz List.not_mem_nil⟩
  | succ fuel ih =>
    cases level with
    | nil =>
      exact ⟨fun _ => ⟨trivial, fun y hy => absurd hy List.not_mem_nil⟩,
        fun _ z hz => absurd hz List.not_mem_nil⟩
    | cons y ys =>
      have h96 : kInternalMaxEntries = 96 := rfl
      have hlen : ((y :: ys).drop kInternalMaxEntries).length ≤ fuel := by
        rw [List.length_drop]
        simp only [List.length_cons] at hf ⊢
        omega
      have hmem : ∀ w, w ∈ y :: ys ↔ w ∈ (y :: ys).take kInternalMaxEntries ∨
          w ∈ (y :: ys).drop kInternalMaxEntries := by
        intro w
        rw [← List.mem_append, List.take_append_drop]
      have hhead : Full (listed ((y :: ys).take kInternalMaxEntries)) ↔ _ :=
        full_listed fun w hw => h w (List.mem_of_mem_take hw)
      have htail : (∀ z ∈ groupLevel listed fuel ((y :: ys).drop kInternalMaxEntries), Full z.2) ↔
          _ := ih (fun w hw => h w (List.mem_of_mem_drop hw)) hlen
      rw [List.map_take] at hhead
      rw [List.map_drop] at htail
      rw [groupLevel, List.forall_mem_cons, hhead, htail, List.map_cons, GroupsFit]
      constructor
      · rintro ⟨⟨hg, ht⟩, hgs, hd⟩
        exact ⟨⟨hg, hgs⟩, fun w hw => ((hmem w).1 hw).elim (ht w) (hd w)⟩
      · rintro ⟨⟨hg, hgs⟩, hall⟩
        exact ⟨⟨hg, fun w hw => hall w ((hmem w).2 (.inl hw))⟩, hgs,
          fun w hw => hall w ((hmem w).2 (.inr hw))⟩

/-- **All levels drop nothing** when all separators fit. -/
theorem full_topLevel {fuel : Nat} {level : List (Key × Below)} (h : ∀ y ∈ level, Lists y.2) :
    (Full (listed (topLevel listed fuel level)) ↔
        LevelsFit fuel (level.map (·.1)) ∧ ∀ y ∈ level, Full y.2) ∧
      (listed (topLevel listed fuel level)).1 = level.flatMap (·.2.1) ∧
      (listed (topLevel listed fuel level)).2.Sublist (level.flatMap (·.2.1)) := by
  induction fuel generalizing level with
  | zero => exact ⟨full_listed h, rfl, listed_sublist h⟩
  | succ fuel ih =>
    rw [topLevel, LevelsFit, List.length_map]
    split
    · exact ⟨full_listed h, rfl, listed_sublist h⟩
    · have hgroups : ∀ z ∈ groupLevel listed level.length level, Lists z.2 := groupLevel_lists h
      obtain ⟨hfull, hbelow, hsub⟩ := ih hgroups
      rw [groupLevel_below (Nat.le_refl _)] at hbelow hsub
      rw [hfull, map_fst_groupLevel, full_groupLevel h (Nat.le_refl _)]
      refine ⟨?_, hbelow, hsub⟩
      constructor
      · rintro ⟨hl, hg, hall⟩
        exact ⟨⟨hg, hl⟩, hall⟩
      · rintro ⟨⟨hg, hl⟩, hall⟩
        exact ⟨hl, hg, hall⟩

/-! ## What a reader of the pages finds -/

/-- The subtree of height `h` at `c` lists what its worth says, in every longer file too. -/
def ListsAt (pf : PageFile) (h : Nat) (c : Entry) (x : Below) : Prop :=
  kPageFileHeaderSize + h ≤ c.2 ∧ (∃ page, Holds pf c.2 page) ∧
    ∀ pf', Extends pf pf' → ∀ (u : PagedBTree) (fuel : Nat), u.pageFile = some pf' → h < fuel →
      listedEntries u fuel c.2 = x.2

theorem listedEntries_leaf {u : PagedBTree} {pf : PageFile} (hu : u.pageFile = some pf)
    {source es : List Entry} {off next fuel : Nat} {page : Bytes} (hholds : Holds pf off page)
    (hleaf : IsLeaf source page es next) (hf : 0 < fuel) : listedEntries u fuel off = es := by
  cases fuel with
  | zero => cases hf
  | succ fuel =>
    rw [listedEntries, readPageHeader_holds hu hholds hleaf.crc, readPageBytes_holds hu hholds]
    simp only [hleaf.type, if_true, hleaf.entries, Option.getD_some]

/-- A chain starts with the leaf of its first entries. -/
theorem LeafChain.head_eq {pf : PageFile} {source : List Entry} {off : Nat}
    {ess : List (List Entry)} (h : LeafChain pf source off ess) :
    ∃ page es rest next, ess = es :: rest ∧ Holds pf off page ∧ IsLeaf source page es next := by
  cases h with
  | last hp hl _ => exact ⟨_, _, _, _, rfl, hp, hl⟩
  | link hp hl _ _ => exact ⟨_, _, _, _, rfl, hp, hl⟩

theorem listsAt_leaf {pf : PageFile} {source es : List Entry} {off : Nat}
    {rest : List (List Entry)} (h : LeafChain pf source off (es :: rest)) (key : Key) :
    ListsAt pf 0 (key, off) (es, es) := by
  obtain ⟨page, es', rest', next, heq, hholds, hleaf⟩ := h.head_eq
  injection heq with heq _
  subst heq
  exact ⟨hholds.lo, ⟨page, hholds⟩, fun pf' hext u fuel hu hf =>
    listedEntries_leaf hu (hext.holds hholds) hleaf hf⟩

/-- **A page lists the children it has room for.** -/
theorem listsAt_levels (t : PagedBTree) (source : List Entry) :
    Levels t source (fun pf => pf.nextOffset ≤ 2 ^ 32) listed ListsAt where
  back hext hsize := hext.le.trans hsize
  mono := by
    rintro pf pf' h c x hext ⟨hlo, ⟨page, hp⟩, hlist⟩
    exact ⟨hlo, ⟨page, hext.holds hp⟩, fun pf'' hext' => hlist pf'' (hext.trans hext')⟩
  page := by
    intro pf pf' h y ys _ hall hext hholds hsize
    have hk : kPageSize = 4096 := rfl
    have hoff : ∀ c ∈ (y :: ys).map (·.1), kPageFileHeaderSize + h ≤ c.2 ∧
        c.2 + kPageSize ≤ pf.nextOffset := by
      intro c hc
      obtain ⟨z, hz, rfl⟩ := List.mem_map.1 hc
      obtain ⟨hlo, ⟨page, hp⟩, -⟩ := hall z hz
      exact ⟨hlo, hp.hi⟩
    have hle := hext.le
    have hinternal : IsInternal (serializeInternalPage t.preferHistogramSummary t.maxLsn
        t.summary.summaryLsn ((y :: ys).map (·.1)) source)
        (fitChildren kPageHeaderSize ((y :: ys).map (·.1))) := by
      refine isInternal_pageOf (internalHeader_type _ _ _ _ _) rfl
        (fitChildren_fits (by decide) _) fun c hc => ?_
      obtain ⟨h1, h2⟩ := hoff c ((fitChildren_start _ _).subset hc)
      exact ⟨by omega, by omega⟩
    obtain ⟨hy, hyend⟩ := hoff y.1 (by simp)
    refine ⟨by simp only; omega, ⟨_, hholds⟩, fun pf'' hext' u fuel hu hf => ?_⟩
    cases fuel with
    | zero => cases hf
    | succ fuel =>
      have hpage := hext'.holds hholds
      have htype : kPageTypeInternal ≠ kPageTypeLeaf := by decide
      rw [listedEntries, readPageHeader_holds hu hpage hinternal.crc,
        readPageBytes_holds hu hpage]
      simp only [hinternal.type, if_neg htype, hinternal.offsets, listed]
      rw [fitChildren_eq_take, List.map_map, List.map_map, ← List.map_take, ← List.map_take,
        List.map_map, List.flatMap_map, List.flatMap_map]
      exact List.flatMap_congr fun z hz =>
        (hall z (List.mem_of_mem_take hz)).2.2 pf'' (hext.trans hext') u fuel hu (by omega)

/-! ## Together -/

theorem map_getD_zipIdx {α β : Type} (l : List α) (f : α → β) (d : α) :
    (l.map f).zipIdx.map (fun k => l.getD k.2 d) = l := by
  refine List.ext_getElem? fun i => ?_
  rw [List.getElem?_map, List.getElem?_zipIdx, List.getElem?_map]
  cases hi : l[i]? with
  | none => rfl
  | some x => simp [List.getD, hi]

/-- What the leaf at place `i` is worth. -/
def leafWorth (m : SortedMap Key Nat) (i : Nat) : Below :=
  ((leafChunks m.entries.length m.entries).getD i [],
    (leafChunks m.entries.length m.entries).getD i [])

/-- A key that no leaf takes: the call does not return. -/
theorem persistRootFromMap_stuck (t : PagedBTree) {pf : PageFile} (ht : t.pageFile = some pf)
    {m : SortedMap Key Nat} (h : ¬ KeysFit m.entries) : t.persistRootFromMap m = none := by
  have hempty : m.isEmpty = false := by
    cases hm : m.entries with
    | nil =>
      rw [hm] at h
      exact absurd (fun e he => absurd he List.not_mem_nil) h
    | cons e es => simp [SortedMap.isEmpty, hm]
  simp only [PagedBTree.persistRootFromMap, PagedBTree.persistRootImpl, ht, hempty,
    serializeLeaves_stuck t m.entries m.entries.length h]
  rfl

/-- **When persisting a map returns and drops nothing**: every key fits into a leaf, and the
separators of every internal page fit into it. -/
theorem persistsAll_iff (t : PagedBTree) {pf : PageFile} (ht : t.pageFile = some pf)
    (m : SortedMap Key Nat) (hlsn : ∀ e ∈ m.entries, e.2 < 2 ^ 64)
    (hroom : ∀ t' r pf', t.persistRootFromMap m = some (t', r) → t'.pageFile = some pf' →
      pf'.nextOffset ≤ 2 ^ 32) :
    PersistsAll t m ↔ KeysFit m.entries ∧ SeparatorsFit m := by
  by_cases hne : m.entries = []
  · have hempty : m.isEmpty = true := by simp [SortedMap.isEmpty, hne]
    constructor
    · intro _
      refine ⟨fun e he => ?_, .inl ?_⟩
      · rw [hne] at he
        cases he
      · simp [leafKeys, hne, leafChunks]
    · intro _
      refine ⟨{ t with rootOffset := kLegacyMapRoot }, .ok kLegacyMapRoot, ?_,
        .inr ⟨_, rfl, rfl, fun e he => ?_⟩⟩
      · simp [PagedBTree.persistRootFromMap, PagedBTree.persistRootImpl, ht, hempty]
      · rw [hne] at he
        cases he
  · by_cases hfit : KeysFit m.entries
    · have hchunks : ∀ {key : Key} {i : Nat}, (leafKeys m)[i]? = some key →
          ∃ es, (leafChunks m.entries.length m.entries)[i]? = some es ∧ es ≠ [] := by
        intro key i hat
        rw [leafKeys, List.getElem?_map] at hat
        cases hi : (leafChunks m.entries.length m.entries)[i]? with
        | none =>
          rw [hi] at hat
          cases hat
        | some es =>
          obtain ⟨e, l, rfl⟩ := leafChunks_ne_nil hfit (List.mem_of_getElem? hi)
          exact ⟨_, rfl, List.cons_ne_nil e l⟩
      obtain ⟨pf', root, hr, -, hroot⟩ := persistRootImpl_levels t ht hne hfit hlsn
        (listsAt_levels t m.entries) (leafWorth m) fun pf off key i hat hsize hchain => by
          obtain ⟨es, hes, -⟩ := hchunks hat
          obtain ⟨hi, hget⟩ := List.getElem?_eq_some_iff.1 hes
          have hc := hchain hsize
          rw [List.drop_eq_getElem_cons hi, hget] at hc
          have hw : leafWorth m i = (es, es) := by simp [leafWorth, List.getD, hes]
          rw [hw]
          exact listsAt_leaf hc key
      have hsize := hroom _ _ pf' hr rfl
      have h := hroot hsize
      -- the listed entries at the new root decide
      have hdecide : ∀ L, listedEntries { t with
            pageFile := some pf'
            rootOffset := root
            index := SortedMap.empty
            deltaDeleted := SortedMap.empty
            onDiskMode := true } (pf'.file.length + 1) root = L → L.Sublist m.entries →
          (PersistsAll t m ↔ L = m.entries) := by
        intro L hL hsub
        have hnodup : m.entries.Nodup := m.sorted.imp fun h => fun heq => by
          rw [heq] at h
          exact lt_irrefl _ h
        constructor
        · rintro ⟨t', r, hr', h'⟩
          rw [PagedBTree.persistRootFromMap, hr] at hr'
          simp only [Option.some.injEq, Prod.mk.injEq] at hr'
          obtain ⟨rfl, rfl⟩ := hr'
          rcases h' with ⟨e, he, -⟩ | ⟨root', hok, -, hin⟩
          · cases he
          · injection hok with hok
            subst hok
            refine hsub.eq_of_length_le ((List.Nodup.subperm hnodup fun e he => ?_).length_le)
            rw [← hL]
            exact hin e he
        · rintro rfl
          exact ⟨_, _, hr, .inr ⟨root, rfl, rfl, fun e he => hL ▸ he⟩⟩
      by_cases hone : (leafKeys m).length ≤ 1
      · rw [if_pos hone] at h
        obtain ⟨page, hholds, hleaf⟩ := h
        rw [hdecide m.entries (listedEntries_leaf rfl hholds hleaf (Nat.succ_pos _))
          (List.Sublist.refl _)]
        exact ⟨fun _ => ⟨hfit, .inl hone⟩, fun _ => rfl⟩
      · rw [if_neg hone] at h
        obtain ⟨height, key, hlo, ⟨page, hp⟩, hlist⟩ := h
        have hlists : ∀ y ∈ (leafKeys m).zipIdx.map fun k => (k.1, leafWorth m k.2), Lists y.2 := by
          intro y hy
          obtain ⟨k, hk, rfl⟩ := List.mem_map.1 hy
          obtain ⟨es, hes, hne'⟩ := hchunks (List.mem_zipIdx_iff_getElem?.1 hk)
          have hw : leafWorth m k.2 = (es, es) := by simp [leafWorth, List.getD, hes]
          exact ⟨List.Sublist.refl _, by rw [hw]; exact hne'⟩
        obtain ⟨hfull, hbelow, hsub⟩ := @full_topLevel (leafKeys m).length _ hlists
        have hwhole : ((leafKeys m).zipIdx.map fun k => (k.1, leafWorth m k.2)).flatMap (·.2.1) =
            m.entries := by
          rw [List.flatMap_map, List.flatMap_def]
          exact (congrArg List.flatten (map_getD_zipIdx _ _ [])).trans
            (flatten_leafChunks hfit (Nat.le_refl _))
        rw [hwhole] at hbelow hsub
        have hkeys : ((leafKeys m).zipIdx.map fun k => (k.1, leafWorth m k.2)).map (·.1) =
            leafKeys m := by
          rw [List.map_map]
          exact List.zipIdx_map_fst 0 (leafKeys m)
        have hlen := hp.length_le
        have heq : (listed (rootLevel listed m (leafWorth m))).2 = m.entries ↔
            Full (listed (rootLevel listed m (leafWorth m))) := by
          rw [Full, rootLevel, hbelow]
        rw [hdecide _ (hlist pf' Extends.rfl _ _ rfl (by omega)) hsub, heq]
        rw [hkeys] at hfull
        refine hfull.trans ⟨fun hl => ⟨hfit, .inr hl.1⟩, fun hs => ⟨hs.2.resolve_left hone, ?_⟩⟩
        intro y hy
        obtain ⟨k, -, rfl⟩ := List.mem_map.1 hy
        rfl
    · constructor
      · rintro ⟨t', r, hr, -⟩
        rw [persistRootFromMap_stuck t ht hfit] at hr
        cases hr
      · exact fun h => absurd h.1 hfit

/-- One entry in a new page file. -/
theorem persistsAll_iff_one :
    PersistsAll (PagedBTree.new (some PageFile.new)) (SortedMap.empty.insert [0x61] 7) ↔
      KeysFit (SortedMap.empty.insert [0x61] 7 : SortedMap Key Nat).entries ∧
        SeparatorsFit (SortedMap.empty.insert [0x61] 7) := by
  refine persistsAll_iff (PagedBTree.new (some PageFile.new)) rfl _ (by decide)
    fun t' r pf' hr hf => ?_
  have hend : ((PagedBTree.new (some PageFile.new)).persistRootFromMap
      (SortedMap.empty.insert [0x61] 7)).map (fun r => r.1.pageFile.map (·.nextOffset))
        = some (some 8192) := by decide +kernel
  rw [hr, Option.map_some, hf, Option.map_some, Option.some.injEq, Option.some.injEq] at hend
  omega

theorem mem_single (key : Key) (lsn : Nat) (e : Entry) :
    e ∈ (SortedMap.empty.insert key lsn).entries ↔ e = (key, lsn) := List.mem_singleton

/-- One key of 4023 bytes, one byte more than a leaf takes. -/
def pageKey : SortedMap Key Nat := SortedMap.empty.insert (List.replicate 4023 0x61) 1

theorem pageKey_stuck :
    ¬ ∀ (t : PagedBTree) (pf : PageFile) (m : SortedMap Key Nat), t.pageFile = some pf →
      (∀ e ∈ m.entries, e.1.length ≤ 65535 ∧ e.2 < 2 ^ 64) → PersistsAll t m := by
  intro h
  have hmem : ∀ e, e ∈ pageKey.entries ↔ e = (List.replicate 4023 0x61, 1) := by
    intro e
    unfold pageKey
    exact mem_single _ _ e
  have hstuck : ¬ KeysFit pageKey.entries := by
    intro hfit
    have hone := hfit _ ((hmem _).2 rfl)
    simp only [List.length_replicate] at hone
    exact absurd hone (by decide)
  obtain ⟨t', r, hr, -⟩ := h (PagedBTree.new (some PageFile.new)) PageFile.new pageKey rfl
    fun e he => by
      rw [(hmem e).1 he]
      simp only [List.length_replicate]
      decide
  rw [persistRootFromMap_stuck _ rfl hstuck] at hr
  cases hr

end EBTree.BTree
