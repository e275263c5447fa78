import EBTree.BTree.Pointers
import EBTree.BTree.Proof.Scan
import EBTree.BTree.Proof.Walks

/-!
# Pointers between pages have four bytes

* `Laid pf base n links`: the pages of `links` lie in the file from number `n` on, and what is read
  off each is its pointers in four bytes (`fourBytes`). `leaves_laid`, `appendGroups_laid`,
  `buildInternalRoot_laid`: the leaves, a level, and all levels.
* `persistRootFromMap_pointers`: a tree that was persisted has the pages of `treeLinks`, and all its
  pointers hold if and only if every page that is pointed to starts below 2^32.
* `pointers_wrap`: two leaves from the last page below 2^32 on.
-/

set_option autoImplicit false

namespace EBTree.BTree

open Lib

/-! ## What four bytes keep of a pointer -/

/-- The offsets of `l` as four bytes give them back; one in the file header is none. -/
def fourBytes (base : Nat) (l : List Nat) : List Nat :=
  (l.map fun j => pageAt base j % 2 ^ 32).filter fun off => kPageFileHeaderSize ≤ off

/-- Four bytes hold all of the offsets if and only if each is below 2^32. -/
theorem fourBytes_eq_iff {base : Nat} (hb : kPageFileHeaderSize ≤ base) (l : List Nat) :
    fourBytes base l = l.map (pageAt base) ↔ ∀ j ∈ l, pageAt base j < 2 ^ 32 := by
  constructor
  · intro h j hj
    have hmem : pageAt base j ∈ fourBytes base l := by
      rw [h]
      exact List.mem_map_of_mem hj
    obtain ⟨i, -, hi⟩ := List.mem_map.1 (List.mem_filter.1 hmem).1
    rw [← hi]
    exact Nat.mod_lt _ (by decide)
  · intro h
    have hmod : (l.map fun j => pageAt base j % 2 ^ 32) = l.map (pageAt base) :=
      List.map_congr_left fun j hj => Nat.mod_eq_of_lt (h j hj)
    rw [fourBytes, hmod, List.filter_eq_self]
    intro off hoff
    obtain ⟨j, -, rfl⟩ := List.mem_map.1 hoff
    have hle : base ≤ pageAt base j := Nat.le_add_right _ _
    exact decide_eq_true (Nat.le_trans hb hle)

/-! ## Pages that are laid out -/

/-- The pages of `links` lie in the file, the first one being number `n` from `base` on. -/
def Laid (pf : PageFile) (base n : Nat) (links : List (List Nat)) : Prop :=
  ∀ i l, links[i]? = some l →
    ∃ page, Holds pf (pageAt base (n + i)) page ∧ pagePointers page = .ok (fourBytes base l)

namespace Laid

variable {pf pf' : PageFile} {base n : Nat} {links : List (List Nat)}

theorem nil : Laid pf base n [] := fun _ _ h => absurd h (by simp)

theorem mono (h : Laid pf base n links) (he : Extends pf pf') : Laid pf' base n links := by
  intro i l hl
  obtain ⟨page, hp, hptr⟩ := h i l hl
  exact ⟨page, he.holds hp, hptr⟩

theorem cons {l : List Nat} {page : Bytes} (hp : Holds pf (pageAt base n) page)
    (hptr : pagePointers page = .ok (fourBytes base l)) (h : Laid pf base (n + 1) links) :
    Laid pf base n (l :: links) := by
  intro i l' hl
  cases i with
  | zero =>
    cases Option.some.inj hl
    exact ⟨page, hp, hptr⟩
  | succ i =>
    obtain ⟨page', hp', hptr'⟩ := h i l' hl
    rw [Nat.add_right_comm] at hp'
    exact ⟨page', hp', hptr'⟩

theorem append {more : List (List Nat)} (h : Laid pf base n links)
    (hmore : Laid pf base (n + links.length) more) : Laid pf base n (links ++ more) := by
  intro i l hl
  by_cases hi : i < links.length
  · rw [List.getElem?_append_left hi] at hl
    exact h i l hl
  · rw [List.getElem?_append_right (not_lt.1 hi)] at hl
    obtain ⟨page, hp, hptr⟩ := hmore (i - links.length) l hl
    rw [show n + links.length + (i - links.length) = n + i by omega] at hp
    exact ⟨page, hp, hptr⟩

/-- **The pointers of laid out pages hold** exactly where four bytes hold their offsets. -/
theorem pointersHold_iff (hb : kPageFileHeaderSize ≤ base) (h : Laid pf base 0 links) :
    PointersHold pf base links ↔ ∀ l ∈ links, ∀ j ∈ l, pageAt base j < 2 ^ 32 := by
  constructor
  · intro hp l hl
    obtain ⟨i, hi⟩ := List.mem_iff_getElem?.1 hl
    obtain ⟨page, hread, hptr⟩ := hp i l hi
    obtain ⟨page', hholds, hfour⟩ := h i l hi
    rw [Nat.zero_add] at hholds
    obtain rfl := Except.ok.inj (hread.symm.trans hholds.readPage)
    exact (fourBytes_eq_iff hb l).1 (Except.ok.inj (hfour.symm.trans hptr))
  · intro hlt i l hi
    obtain ⟨page, hholds, hfour⟩ := h i l hi
    rw [Nat.zero_add] at hholds
    refine ⟨page, hholds.readPage, ?_⟩
    rw [hfour, (fourBytes_eq_iff hb l).2 (hlt l (List.mem_of_getElem? hi))]

end Laid

/-! ## Leaves -/

/-- A leaf page that has no next leaf yet. -/
def EndLeaf (page : Bytes) : Prop :=
  ∃ hdr body, page = pageOf hdr body ∧ hdr.type = kPageTypeLeaf ∧ hdr.nextPageOffset = 0

theorem serializeLeafChunk_endLeaf (maxLsn summaryLsn : Nat) (source es : List Entry) :
    EndLeaf (serializeLeafChunk maxLsn summaryLsn source es).1 := by
  unfold serializeLeafChunk
  simp only
  split
  · exact ⟨_, _, rfl, rfl, rfl⟩
  · exact ⟨_, _, rfl, rfl, rfl⟩

theorem serializeLeaves_endLeaf (t : PagedBTree) {source : List Entry} {fuel : Nat}
    {es : List Entry} {leaves : List (Bytes × Key)}
    (h : t.serializeLeaves source fuel es = some leaves) : ∀ leaf ∈ leaves, EndLeaf leaf.1 := by
  induction fuel generalizing es leaves with
  | zero =>
    cases es with
    | nil =>
      cases h
      exact fun leaf hl => absurd hl List.not_mem_nil
    | cons e es => cases h
  | succ fuel ih =>
    cases es with
    | nil =>
      cases h
      exact fun leaf hl => absurd hl List.not_mem_nil
    | cons e es =>
      have hend := serializeLeafChunk_endLeaf t.maxLsn t.summary.summaryLsn source (e :: es)
      rw [PagedBTree.serializeLeaves] at h
      generalize serializeLeafChunk t.maxLsn t.summary.summaryLsn source (e :: es) = x at hend h
      simp only at h
      split at h
      · cases h
      obtain ⟨rest, hrest, rfl⟩ := Option.map_eq_some_iff.1 h
      intro leaf hl
      rcases List.mem_cons.1 hl with rfl | hl
      · exact hend
      · exact ih hrest leaf hl

theorem EndLeaf.length {page : Bytes} (h : EndLeaf page) : page.length = kPageSize := by
  obtain ⟨hdr, body, rfl, -, -⟩ := h
  exact length_pageOf hdr body

theorem EndLeaf.pointers {page : Bytes} (h : EndLeaf page) (base : Nat) :
    pagePointers page = .ok (fourBytes base []) := by
  obtain ⟨hdr, body, rfl, ht, hn⟩ := h
  have hnext : hdr.stored.nextPageOffset = 0 := by simp [PageHeader.stored, hn]
  rw [pagePointers, decode_pageOf, hnext]
  exact if_pos ht

/-- A leaf that was chained to the page at `pageAt base n`. -/
theorem EndLeaf.relink {page : Bytes} (h : EndLeaf page) (base n : Nat) :
    (relink page (pageAt base n)).length = kPageSize ∧
      pagePointers (relink page (pageAt base n)) = .ok (fourBytes base [n]) := by
  obtain ⟨hdr, body, rfl, ht, -⟩ := h
  rw [relink_pageOf]
  refine ⟨length_pageOf _ _, ?_⟩
  have hlist : fourBytes base [n]
      = if kPageFileHeaderSize ≤ pageAt base n % 2 ^ 32 then [pageAt base n % 2 ^ 32] else [] := by
    simp [fourBytes, List.filter_cons]
  rw [pagePointers, decode_pageOf, hlist]
  exact if_pos ht

theorem pageAt_succ (base n : Nat) : pageAt base (n + 1) = pageAt base n + kPageSize := by
  rw [pageAt, pageAt, Nat.mul_succ, Nat.add_assoc]

/-- The chained leaves, at whatever number they start. -/
theorem linkLeaves_links {leaves : List (Bytes × Key)} (hend : ∀ leaf ∈ leaves, EndLeaf leaf.1)
    (base n : Nat) :
    List.Forall₂ (fun page l => page.length = kPageSize ∧
        pagePointers page = .ok (fourBytes base l))
      (PagedBTree.linkLeaves (pageAt base n) (leaves.map (·.1))) (leafLinks n leaves.length) := by
  induction leaves generalizing n with
  | nil => exact .nil
  | cons leaf leaves ih =>
    have hleaf := hend leaf List.mem_cons_self
    have hrest := ih (fun l hl => hend l (List.mem_cons_of_mem _ hl)) (n + 1)
    rw [List.map_cons, linkLeaves_cons, ← pageAt_succ]
    cases leaves with
    | nil => exact .cons ⟨hleaf.length, hleaf.pointers base⟩ .nil
    | cons leaf' leaves => exact .cons (hleaf.relink base (n + 1)) hrest

/-- **Pages that are appended lie** where they are numbered. -/
theorem laid_appendPages {pf : PageFile} {base n : Nat} (hn : pf.nextOffset = pageAt base n)
    {pages : List Bytes} {links : List (List Nat)}
    (h : List.Forall₂ (fun page l => page.length = kPageSize ∧
      pagePointers page = .ok (fourBytes base l)) pages links) :
    Laid (pf.appendPages pages).1 base n links ∧
      (pf.appendPages pages).1.nextOffset = pageAt base (n + links.length) := by
  have hlen : ∀ page ∈ pages, page.length = kPageSize := by
    intro page hp
    obtain ⟨i, hi⟩ := List.mem_iff_getElem?.1 hp
    obtain ⟨hlt, rfl⟩ := List.getElem?_eq_some_iff.1 hi
    exact (h.get hlt (h.length_eq ▸ hlt)).1
  refine ⟨fun i l hl => ?_, ?_⟩
  · obtain ⟨hlt, rfl⟩ := List.getElem?_eq_some_iff.1 hl
    have hi : i < pages.length := h.length_eq ▸ hlt
    have hsplit : pages = pages.take i ++ pages[i] :: pages.drop (i + 1) := by
      rw [← List.drop_eq_getElem_cons hi, List.take_append_drop]
    have hholds : Holds (pf.appendPages pages).1
        (pf.nextOffset + kPageSize * (pages.take i).length) pages[i] :=
      holds_appendPages hlen hsplit
    rw [List.length_take, Nat.min_eq_left (Nat.le_of_lt hi), hn, pageAt, Nat.add_assoc,
      ← Nat.mul_add] at hholds
    exact ⟨pages[i], hholds, (h.get hi hlt).2⟩
  · rw [nextOffset_appendPages, hn, h.length_eq, pageAt, pageAt, Nat.add_assoc, ← Nat.mul_add]

/-! ## Internal pages -/

/-- Keys with page numbers, and where the pages lie. -/
def atBase (base : Nat) (cs : List Entry) : List Entry := cs.map fun c => (c.1, pageAt base c.2)

theorem fitChildren_atBase (base pos : Nat) (cs : List Entry) :
    fitChildren pos (atBase base cs) = atBase base (fitChildren pos cs) := by
  induction cs generalizing pos with
  | nil => rfl
  | cons c cs ih =>
    rw [atBase, List.map_cons, fitChildren, fitChildren]
    split
    · rfl
    · rw [← atBase, ih]
      rfl

/-- The children read off a page are those written, each in four bytes. -/
theorem childOffsets_fourBytes {page post : Bytes} {base : Nat} {cs : List Entry} (pre : Bytes)
    (hpage : page = pre ++ (((atBase base cs).map childBytes).flatten ++ post))
    (hfit : pre.length + childrenSize (atBase base cs) ≤ kPageSize) :
    childOffsets page cs.length pre.length = .ok (fourBytes base (cs.map (·.2))) := by
  induction cs generalizing pre with
  | nil => rfl
  | cons c cs ih =>
    rw [atBase, List.map_cons, ← atBase, childrenSize_cons] at hfit
    change pre.length + (4 + 2 + c.1.length + childrenSize (atBase base cs)) ≤ kPageSize at hfit
    have hlay : page = pre ++ (childBytes (c.1, pageAt base c.2) ++
        (((atBase base cs).map childBytes).flatten ++ post)) := by
      rw [hpage, atBase, List.map_cons, ← atBase, List.map_cons, List.flatten_cons]
      simp only [List.append_assoc]
    have hentry := internalEntryAt_child pre _ hlay
      (show pre.length + (4 + 2 + c.1.length) ≤ kPageSize by omega)
    have hlen : (pre ++ childBytes (c.1, pageAt base c.2)).length
        = pre.length + (4 + 2 + c.1.length) := by
      rw [List.length_append, length_childBytes]
    have hrest := ih (pre ++ childBytes (c.1, pageAt base c.2))
      (by rw [hlay, List.append_assoc]) (by rw [hlen]; omega)
    rw [hlen] at hrest
    simp only [List.length_cons, childOffsets, hentry, hrest]
    simp only [fourBytes, List.map_cons, List.filter_cons, decide_eq_true_eq]

theorem serializeInternalPage_pointers (p : Bool) (maxLsn summaryLsn base : Nat)
    (cs source : List Entry) :
    let page := serializeInternalPage p maxLsn summaryLsn (atBase base cs) source
    page.length = kPageSize ∧ pagePointers page = .ok (fourBytes base (childLinks cs)) := by
  have hne : kPageTypeInternal ≠ kPageTypeLeaf := by decide
  have htype : ∀ n, ({ internalHeader p maxLsn summaryLsn (atBase base cs) source with
      keyCount := n } : PageHeader).stored.type = kPageTypeInternal :=
    fun _ => internalHeader_type p maxLsn summaryLsn (atBase base cs) source
  have hfit := fitChildren_fits (show kPageHeaderSize ≤ kPageSize by decide) (atBase base cs)
  unfold serializeInternalPage childLinks
  rw [fitChildren_atBase] at hfit ⊢
  generalize fitChildren kPageHeaderSize cs = out at hfit ⊢
  have hk : kPageSize = 4096 := rfl
  have hout : (atBase base out).length = out.length := List.length_map _
  have hcount := length_le_childrenSize (atBase base out)
  have hpre := PageHeader.length_encode
    { internalHeader p maxLsn summaryLsn (atBase base cs) source with
      keyCount := (atBase base out).length }
  have hoffs := @childOffsets_fourBytes _ _ base out
    ({ internalHeader p maxLsn summaryLsn (atBase base cs) source with
      keyCount := (atBase base out).length } : PageHeader).encode
    (pageOf_eq (by rw [length_childrenBytes]; exact hfit)) (by rw [hpre]; exact hfit)
  have hstored : ({ internalHeader p maxLsn summaryLsn (atBase base cs) source with
      keyCount := (atBase base out).length } : PageHeader).stored.keyCount = out.length := by
    rw [← hout]
    exact Nat.mod_eq_of_lt (show (atBase base out).length < 2 ^ 16 by omega)
  rw [hpre] at hoffs
  refine ⟨length_pageOf _ _, ?_⟩
  rw [pagePointers, decode_pageOf, hstored]
  simp only [htype, hne, if_false]
  exact hoffs

section Levels

variable (t : PagedBTree) (source : List Entry) (base : Nat)

/-- One internal page. -/
theorem onePage_laid {pf : PageFile} {n : Nat} (hn : pf.nextOffset = pageAt base n)
    (cs : List Entry) :
    let pf' := (pf.appendPages [serializeInternalPage t.preferHistogramSummary t.maxLsn
      t.summary.summaryLsn (atBase base cs) source]).1
    Laid pf' base n [childLinks cs] ∧ pf'.nextOffset = pageAt base (n + 1) :=
  laid_appendPages hn (.cons (serializeInternalPage_pointers _ _ _ base cs source) .nil)

/-- **One level**: its pages are laid out, and the level refers to them. -/
theorem appendGroups_laid (fuel : Nat) {pf : PageFile} {n : Nat}
    (hn : pf.nextOffset = pageAt base n) (children : List Entry) :
    let r := t.appendGroups source fuel pf (atBase base children)
    let l := levelLinks fuel n children
    r.2 = atBase base l.2 ∧ Laid r.1 base n l.1 ∧ r.1.nextOffset = pageAt base (n + l.1.length) := by
  induction fuel generalizing pf n children with
  | zero => exact ⟨rfl, .nil, hn⟩
  | succ fuel ih =>
    cases children with
    | nil => exact ⟨rfl, .nil, hn⟩
    | cons c cs =>
      obtain ⟨group, hgroup⟩ : ∃ l, (c :: cs).take kInternalMaxEntries = c :: l := ⟨_, rfl⟩
      have htake : (atBase base (c :: cs)).take kInternalMaxEntries
          = (c.1, pageAt base c.2) :: atBase base group := by
        rw [atBase, ← List.map_take, hgroup]
        rfl
      have hdrop : (atBase base (c :: cs)).drop kInternalMaxEntries
          = atBase base ((c :: cs).drop kInternalMaxEntries) := by
        rw [atBase, ← List.map_drop, ← atBase]
      have hcons : atBase base (c :: group) = (c.1, pageAt base c.2) :: atBase base group := rfl
      obtain ⟨hpage, hnext⟩ := onePage_laid t source base hn (c :: group)
      have hoff := @appendPages_snd pf [serializeInternalPage t.preferHistogramSummary t.maxLsn
        t.summary.summaryLsn (atBase base (c :: group)) source] (by simp)
      rw [hcons] at hpage hnext hoff
      simp only [PagedBTree.appendGroups, htake, hdrop, levelLinks, hgroup]
      generalize (pf.appendPages [serializeInternalPage t.preferHistogramSummary t.maxLsn
        t.summary.summaryLsn ((c.1, pageAt base c.2) :: atBase base group) source]) = x
        at hpage hnext hoff ⊢
      obtain ⟨hlevel, hlaid, hend⟩ := ih hnext ((c :: cs).drop kInternalMaxEntries)
      have hext := (appendGroups_keys t source fuel x.1
        (atBase base ((c :: cs).drop kInternalMaxEntries))).1
      refine ⟨?_, ?_, ?_⟩
      · rw [hoff, hn, hlevel]
        rfl
      · exact (hpage.mono hext).append hlaid
      · rw [hend, List.length_cons]
        congr 1
        omega

/-- **All levels.** -/
theorem buildInternalRoot_laid {fuel n root : Nat} {pf pf' : PageFile}
    (hn : pf.nextOffset = pageAt base n) {children : List Entry} (htwo : 2 ≤ children.length)
    (hr : t.buildInternalRoot source fuel pf (atBase base children) = some (.ok (pf', root))) :
    Extends pf pf' ∧ Laid pf' base n (rootLinks fuel n children) ∧
      pf'.nextOffset = pageAt base (n + (rootLinks fuel n children).length) := by
  have hlen : ∀ cs : List Entry, (atBase base cs).length = cs.length := fun cs =>
    List.length_map _
  induction fuel generalizing pf n children with
  | zero =>
    match children, htwo with
    | c :: c' :: cs, _ =>
      have hl := hlen (c :: c' :: cs)
      rw [rootLinks]
      simp only [atBase, List.map_cons, PagedBTree.buildInternalRoot] at hr
      split at hr
      · rename_i hfew
        have hfew' : (c :: c' :: cs).length ≤ kInternalMaxEntries := by
          rw [← hl]
          exact hfew
        cases hr
        rw [if_pos hfew']
        exact ⟨Extends.appendPages pf [serializeInternalPage t.preferHistogramSummary t.maxLsn
          t.summary.summaryLsn (atBase base (c :: c' :: cs)) source],
          onePage_laid t source base hn (c :: c' :: cs)⟩
      · cases hr
  | succ fuel ih =>
    rw [buildInternalRoot_eq t source fuel pf (by rw [hlen]; exact htwo), hlen] at hr
    rw [rootLinks]
    split at hr
    · rename_i hfew
      cases hr
      rw [if_pos hfew]
      exact ⟨Extends.appendPages pf _, onePage_laid t source base hn children⟩
    · rename_i hmany
      rw [if_neg hmany]
      obtain ⟨hlevel, hlaid, hend⟩ := appendGroups_laid t source base children.length hn children
      obtain ⟨hmore, -⟩ := @length_appendGroups t source pf (atBase base children)
        (by rw [hlen]; exact not_le.1 hmany)
      have hext := (appendGroups_keys t source children.length pf (atBase base children)).1
      rw [hlen] at hmore
      rw [hlevel] at hr
      rw [hlevel, hlen] at hmore
      obtain ⟨hext', hrest, hlast⟩ := ih hend hmore hr
      refine ⟨hext.trans hext', (hlaid.mono hext').append hrest, ?_⟩
      rw [hlast, List.length_append, Nat.add_assoc]

end Levels

/-! ## The whole tree -/

theorem length_leafLinks (n count : Nat) : (leafLinks n count).length = count := by
  induction count generalizing n with
  | zero => rfl
  | succ count ih =>
    cases count with
    | zero => rfl
    | succ count => rw [leafLinks, List.length_cons, ih]

theorem leafRefs_atBase (base : Nat) (keys : List Key) :
    PagedBTree.leafRefs base keys = atBase base keys.zipIdx := by
  refine List.map_congr_left fun c _ => ?_
  rw [pageAt, Nat.mul_comm]

/-- With a page file, the levels over the leaves never fail. -/
theorem persistRootImpl_ok {t t' : PagedBTree} {pf : PageFile} (ht : t.pageFile = some pf)
    {m : SortedMap Key Nat} {st : Except Status Nat} (hr : t.persistRootImpl m = some (t', st)) :
    ∃ root, st = .ok root := by
  unfold PagedBTree.persistRootImpl at hr
  simp only [ht] at hr
  split at hr
  · cases hr
    exact ⟨_, rfl⟩
  split at hr
  · cases hr
  rename_i leaves hleaves
  by_cases hone : 1 < leaves.length
  · have hlr : ∀ first, (PagedBTree.leafRefs first (leaves.map (·.2))).length = leaves.length := by
      intro first
      have := congrArg List.length (map_leafRefs first (leaves.map (·.2)))
      simpa using this
    obtain ⟨pf', root, hbuild, -⟩ := @buildInternalRoot_total t m.entries leaves.length
      (pf.appendPages (PagedBTree.linkLeaves pf.nextOffset (leaves.map (·.1)))).1
      (PagedBTree.leafRefs (pf.appendPages (PagedBTree.linkLeaves pf.nextOffset
        (leaves.map (·.1)))).2 (leaves.map (·.2))) (by rw [hlr]; omega) (by rw [hlr])
    rw [if_pos hone, hbuild] at hr
    cases hr
    exact ⟨_, rfl⟩
  · rw [if_neg hone] at hr
    cases hr
    exact ⟨_, rfl⟩

theorem persistRootImpl_pageFile {t t' : PagedBTree} {pf : PageFile} (ht : t.pageFile = some pf)
    {m : SortedMap Key Nat} {st : Except Status Nat} (hr : t.persistRootImpl m = some (t', st)) :
    ∃ pf', t'.pageFile = some pf' := by
  rcases persistRootImpl_cases ht hr with ⟨-, -, rfl⟩ |
    ⟨leaves, -, -, ⟨e, -, rfl⟩ | ⟨pf'', root', -, -, rfl⟩⟩
  · exact ⟨pf, ht⟩
  · exact ⟨_, rfl⟩
  · exact ⟨_, rfl⟩

/-- **A tree that was persisted** has the pages of `treeLinks` from the old end on. -/
theorem persistRootFromMap_laid {t t' : PagedBTree} {pf pf' : PageFile}
    (ht : t.pageFile = some pf) {m : SortedMap Key Nat} {st : Except Status Nat}
    (hr : t.persistRootFromMap m = some (t', st)) (ht' : t'.pageFile = some pf') :
    ∃ links, treeLinks t m.entries = some links ∧
      Laid pf' pf.nextOffset 0 links ∧ pf'.nextOffset = pageAt pf.nextOffset links.length := by
  have hzero : pf.nextOffset = pageAt pf.nextOffset 0 := rfl
  obtain ⟨root, rfl⟩ := persistRootImpl_ok ht hr
  rcases persistRootImpl_cases ht hr with ⟨hempty, -, rfl⟩ |
    ⟨leaves, hleaves, hne, ⟨e, he, -⟩ | ⟨pf'', root', -, hbuilt, rfl⟩⟩
  · cases ht.symm.trans ht'
    refine ⟨[], ?_, .nil, hzero⟩
    rw [SortedMap.isEmpty_iff.1 hempty]
    rfl
  · cases he
  cases ht'
  obtain ⟨hlaid, hend⟩ := laid_appendPages hzero
    (linkLeaves_links (serializeLeaves_endLeaf t hleaves) pf.nextOffset 0)
  rw [← hzero, length_leafLinks, Nat.zero_add] at hend
  rw [← hzero] at hlaid
  rw [treeLinks, hleaves, Option.map_some]
  refine ⟨_, rfl, ?_⟩
  rcases hbuilt with ⟨hone, hpf⟩ | ⟨htwo, hbuild⟩
  · have hfile := congrArg Prod.fst hpf
    simp only at hfile
    rw [hfile]
    rw [if_neg (by omega), List.append_nil, length_leafLinks]
    exact ⟨hlaid, hend⟩
  · have hlr : 2 ≤ (leaves.map (·.2)).zipIdx.length := by
      rw [List.length_zipIdx, List.length_map]
      exact htwo
    rw [leafRefs_atBase] at hbuild
    obtain ⟨hext, hrest, hlast⟩ := buildInternalRoot_laid t m.entries pf.nextOffset hend hlr hbuild
    rw [if_pos (by omega), List.length_append, length_leafLinks]
    refine ⟨(hlaid.mono hext).append ?_, hlast⟩
    rwa [length_leafLinks, Nat.zero_add]

/-- **Persisting a map never fails, and all pointers of its pages hold if and only if every page
that one of them is to lead to starts below 2^32.** -/
theorem persistRootFromMap_pointers {t t' : PagedBTree} {pf pf' : PageFile}
    (ht : t.pageFile = some pf) {m : SortedMap Key Nat} {st : Except Status Nat}
    (hr : t.persistRootFromMap m = some (t', st)) (ht' : t'.pageFile = some pf') :
    ∃ links, treeLinks t m.entries = some links ∧ (∃ root, st = .ok root) ∧
      pf'.nextOffset = pageAt pf.nextOffset links.length ∧
      (PointersHold pf' pf.nextOffset links ↔
        ∀ l ∈ links, ∀ j ∈ l, pageAt pf.nextOffset j < 2 ^ 32) := by
  obtain ⟨links, hlinks, hlaid, hend⟩ := persistRootFromMap_laid ht hr ht'
  exact ⟨links, hlinks, persistRootImpl_ok ht hr, hend, hlaid.pointersHold_iff pf.header_le⟩

/-! ## The links of a map -/

theorem serializeLeaves_keys (t u : PagedBTree) (source : List Entry) (fuel : Nat)
    (es : List Entry) :
    (t.serializeLeaves source fuel es).map (·.map (·.2))
      = (u.serializeLeaves source fuel es).map (·.map (·.2)) := by
  induction fuel generalizing es with
  | zero => cases es <;> rfl
  | succ fuel ih =>
    cases es with
    | nil => rfl
    | cons e es =>
      have hchunk : (serializeLeafChunk t.maxLsn t.summary.summaryLsn source (e :: es)).2
          = (serializeLeafChunk u.maxLsn u.summary.summaryLsn source (e :: es)).2 := by
        unfold serializeLeafChunk
        simp only
        split <;> rfl
      simp only [PagedBTree.serializeLeaves, hchunk]
      split
      · rfl
      · have hrest := congrArg
          (Option.map ((serializeLeafChunk u.maxLsn u.summary.summaryLsn source (e :: es)).2.1 :: ·))
          (ih (serializeLeafChunk u.maxLsn u.summary.summaryLsn source (e :: es)).2.2)
        simp only [Option.map_map] at hrest ⊢
        exact hrest

/-- The links are those of the map, whatever the tree is that writes it. -/
theorem treeLinks_eq (t u : PagedBTree) (source : List Entry) :
    treeLinks t source = treeLinks u source := by
  have hof : ∀ v : PagedBTree, treeLinks v source
      = ((v.serializeLeaves source source.length source).map (·.map (·.2))).map fun keys =>
        leafLinks 0 keys.length ++
          if 1 < keys.length then rootLinks keys.length keys.length keys.zipIdx else [] := by
    intro v
    rw [treeLinks, Option.map_map]
    congr 1
    funext leaves
    simp only [Function.comp, List.length_map]
  rw [hof, hof, serializeLeaves_keys t u]

/-! ## Two leaves -/

theorem treeLinks_wideMap (t : PagedBTree) : treeLinks t wideMap.entries = some [[1], [], [0, 1]] := by
  rw [treeLinks_eq t (PagedBTree.new none)]
  decide +kernel

theorem persistRootFromMap_wideMap (pf : PageFile) :
    ∃ t' root, (PagedBTree.new (some pf)).persistRootFromMap wideMap = some (t', .ok root) := by
  refine persistRootImpl_total rfl ?_ ?_
  · unfold Writable
    decide +kernel
  · unfold KeysFit
    decide +kernel

/-- Into a new page file, all pointers of the two leaves hold. -/
theorem pointers_of_new :
    ∃ t' root pf', (PagedBTree.new (some PageFile.new)).persistRootFromMap wideMap
        = some (t', .ok root) ∧ t'.pageFile = some pf' ∧
      PointersHold pf' kPageFileHeaderSize [[1], [], [0, 1]] := by
  obtain ⟨t', root, hr⟩ := persistRootFromMap_wideMap PageFile.new
  obtain ⟨pf', hpf⟩ := persistRootImpl_pageFile rfl hr
  obtain ⟨links, hlinks, -, -, hiff⟩ := persistRootFromMap_pointers rfl hr hpf
  rw [treeLinks_wideMap] at hlinks
  cases hlinks
  exact ⟨t', root, pf', hr, hpf, hiff.2 (by decide)⟩

/-- A page file that ends one page below 2^32. -/
def almostFull : PageFile where
  file := PageFile.headerBytes (2 ^ 32 - kPageSize) ++ List.replicate (2 ^ 32 - kPageSize - 24) 0
  nextOffset := 2 ^ 32 - kPageSize
  header_le := by decide

/-- **The second leaf lands at 2^32**, where no pointer leads. -/
theorem pointers_wrap :
    ∃ t' root pf', (PagedBTree.new (some almostFull)).persistRootFromMap wideMap
        = some (t', .ok root) ∧ t'.pageFile = some pf' ∧
      ¬ PointersHold pf' almostFull.nextOffset [[1], [], [0, 1]] := by
  obtain ⟨t', root, hr⟩ := persistRootFromMap_wideMap almostFull
  obtain ⟨pf', hpf⟩ := persistRootImpl_pageFile rfl hr
  obtain ⟨links, hlinks, hlaid, -⟩ := persistRootFromMap_laid rfl hr hpf
  rw [treeLinks_wideMap] at hlinks
  cases hlinks
  refine ⟨t', root, pf', hr, hpf, fun hhold => ?_⟩
  have hlow := (hlaid.pointersHold_iff almostFull.header_le).1 hhold [1] (by decide) 1 (by decide)
  exact absurd hlow (by decide)

end EBTree.BTree
