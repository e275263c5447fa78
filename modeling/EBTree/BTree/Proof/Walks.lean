import EBTree.BTree.Proof.Sound

/-!
# Walks over the pages end

Whatever was persisted into a page file, and however long the file is, a lookup returns and a root
that was persisted loads.

* `Placed pf`: every page leads on from where it lies (`LeadsOn`): a leaf to the page behind it or to
  none, an internal page to pages in front of it. `persistRootImpl_placed`: persisting keeps it.
* `Placed.get`, `Placed.loadRoot`: lookups return, roots load.
* `persistRootImpl_appends`: what appending pages keeps, persisting keeps. `persistRootImpl_longer`,
  `persistRootImpl_root`: it takes nothing off the file, and the root is a page of it.
* `Headed.open`: a file that says where it ends is opened as it was.
* `persistRootImpl_total`, `keysFit_of_persistRootImpl`: persisting a map returns when its keys fit
  into pages, and not otherwise.
-/

set_option autoImplicit false

namespace EBTree.BTree

open Lib

/-- A page whose checksum is right, and where it leads to from its offset. -/
structure LeadsOn (off : Nat) (page : Bytes) : Prop where
  crc : PageHeader.storedCrc page = (crc32 (page.take 57)).toNat
  next : (PageHeader.decode page).type = kPageTypeLeaf →
    (PageHeader.decode page).nextPageOffset = 0 ∨
      (PageHeader.decode page).nextPageOffset = (off + kPageSize) % 2 ^ 32
  children : (PageHeader.decode page).type = kPageTypeInternal →
    ∃ offs, childOffsets page (PageHeader.decode page).keyCount kPageHeaderSize = .ok offs ∧
      ∀ c ∈ offs, kPageSize ∣ c ∧ c < off

/-- Every page leads on from where it lies. -/
def Placed (pf : PageFile) : Prop :=
  ∀ off page, PageOffset off → pf.readPage off = .ok page → LeadsOn off page

theorem leadsOn_leaf {source : List Entry} {page : Bytes} {es : List Entry} {off next : Nat}
    (h : IsLeaf source page es next) (hn : next = 0 ∨ next = (off + kPageSize) % 2 ^ 32) :
    LeadsOn off page where
  crc := h.crc
  next _ := by
    rw [h.next_eq]
    exact hn
  children ht := by
    rw [h.type] at ht
    exact absurd ht (by decide)

theorem leadsOn_internal (p : Bool) (maxLsn summaryLsn : Nat) {cs : List Entry}
    (source : List Entry) {off : Nat} (h : ∀ c ∈ cs, kPageSize ∣ c.2 ∧ c.2 < off) :
    LeadsOn off (serializeInternalPage p maxLsn summaryLsn cs source) := by
  have hk : kPageSize = 4096 := rfl
  obtain ⟨htype, offs, ho, hmem⟩ := serializeInternalPage_children p maxLsn summaryLsn cs source
  refine ⟨storedCrc_pageOf _ _, fun ht => ?_, fun _ => ⟨offs, ho, fun o hm => ?_⟩⟩
  · exact absurd (htype.symm.trans ht) (by decide)
  · obtain ⟨-, c, hc, rfl⟩ := hmem o hm
    obtain ⟨hd, hlt⟩ := h c hc
    have := Nat.mod_le c.2 (2 ^ 32)
    rw [hk] at hd ⊢
    exact ⟨by omega, by omega⟩

/-! ## Appending -/

theorem placed_new : Placed PageFile.new := by
  intro off page _ h
  have hlen := (readAt?_some (PageFile.readPage_ok.1 h)).1
  have hnil : PageFile.new.file.length = 0 := rfl
  have hk : kPageSize = 4096 := rfl
  omega

namespace Placed

variable {pf : PageFile}

theorem «open» (h : Placed pf) (hw : Whole pf) : Placed (PageFile.open pf.file) := by
  intro off page hoff hread
  refine h off page hoff ?_
  rw [PageFile.readPage_ok] at hread ⊢
  rwa [hw.open.2] at hread

/-- Pages that lead on from where they come to lie may be appended. -/
theorem appendPages (h : Placed pf) (hw : Whole pf) {pages : List Bytes}
    (hlen : ∀ p ∈ pages, p.length = kPageSize)
    (hpages : ∀ front page back, pages = front ++ page :: back →
      LeadsOn (pf.nextOffset + kPageSize * front.length) page) :
    Placed (pf.appendPages pages).1 := by
  intro off page hoff hread
  rcases readPage_appendPages_at hw hlen hoff.1 hoff.2 hread with hold | ⟨front, back, hp, rfl⟩
  · exact h off page hoff hold
  · exact hpages front page back hp

/-- One internal page over pages that are there. -/
theorem appendInternal (h : Placed pf) (hw : Whole pf) (t : PagedBTree) {cs : List Entry}
    (source : List Entry) (hcs : ∀ c ∈ cs, kPageSize ∣ c.2 ∧ c.2 < pf.nextOffset) :
    Placed (pf.appendPages [serializeInternalPage t.preferHistogramSummary t.maxLsn
      t.summary.summaryLsn cs source]).1 := by
  refine h.appendPages hw (fun p hp => ?_) fun front page back hp => ?_
  · rw [List.mem_singleton.1 hp]
    exact length_pageOf _ _
  · obtain ⟨rfl, rfl, rfl⟩ : front = [] ∧ page = _ ∧ back = [] := by
      rcases front with _ | ⟨p, front⟩
      · rw [List.nil_append, List.cons.injEq] at hp
        exact ⟨rfl, hp.1.symm, hp.2.symm⟩
      · rw [List.cons_append, List.cons.injEq] at hp
        exact absurd hp.2.symm (by simp)
    rw [List.length_nil, Nat.mul_zero, Nat.add_zero]
    exact leadsOn_internal _ _ _ source hcs

end Placed

/-- The chained leaves lead on. -/
theorem linkLeaves_leadsOn {source : List Entry} {leaves : List (Bytes × Key)}
    (hall : ∀ leaf ∈ leaves, ∃ chunk, LinksAsLeaf source leaf.1 chunk) (base : Nat) :
    ∀ front page back, PagedBTree.linkLeaves base (leaves.map (·.1)) = front ++ page :: back →
      LeadsOn (base + kPageSize * front.length) page := by
  induction leaves generalizing base with
  | nil =>
    intro front page back hp
    exact absurd hp.symm (by simp [PagedBTree.linkLeaves])
  | cons leaf leaves ih =>
    obtain ⟨chunk, hlast, hlink⟩ := hall leaf List.mem_cons_self
    intro front page back hp
    rw [List.map_cons, linkLeaves_cons] at hp
    rcases front with _ | ⟨p, front⟩
    · rw [List.nil_append, List.cons.injEq] at hp
      rw [List.length_nil, Nat.mul_zero, Nat.add_zero, ← hp.1]
      split
      · exact leadsOn_leaf hlast (.inl rfl)
      · exact leadsOn_leaf (hlink _) (.inr rfl)
    · rw [List.cons_append, List.cons.injEq] at hp
      have hrest := ih (fun l hl => hall l (List.mem_cons_of_mem _ hl)) (base + kPageSize) front page
        back hp.2
      rwa [List.length_cons, Nat.mul_succ, Nat.add_comm (kPageSize * _), ← Nat.add_assoc]

theorem leafRefs_below {base : Nat} (hd : kPageSize ∣ base) (keys : List Key) :
    ∀ c ∈ PagedBTree.leafRefs base keys,
      kPageSize ∣ c.2 ∧ c.2 < base + kPageSize * keys.length := by
  have hk : kPageSize = 4096 := rfl
  induction keys generalizing base with
  | nil => exact fun c hc => absurd hc List.not_mem_nil
  | cons key keys ih =>
    intro c hc
    rw [leafRefs_cons] at hc
    rw [List.length_cons, Nat.mul_succ]
    rcases List.mem_cons.1 hc with rfl | hc
    · exact ⟨hd, by omega⟩
    · obtain ⟨hdc, hlt⟩ := ih (Nat.dvd_add hd (Nat.dvd_refl _)) c hc
      exact ⟨hdc, by omega⟩

section Build

variable (t : PagedBTree) (source : List Entry)

/-- The file of one more internal page over pages that are there. -/
theorem onePage_placed {pf : PageFile} (hw : Whole pf) (h : Placed pf) {cs : List Entry}
    (hcs : ∀ c ∈ cs, kPageSize ∣ c.2 ∧ c.2 < pf.nextOffset) :
    let pf' := (pf.appendPages [serializeInternalPage t.preferHistogramSummary t.maxLsn
      t.summary.summaryLsn cs source]).1
    Whole pf' ∧ Placed pf' ∧ pf'.nextOffset = pf.nextOffset + kPageSize := by
  refine ⟨hw.appendPages fun p hp => ?_, h.appendInternal hw t source hcs, ?_⟩
  · rw [List.mem_singleton.1 hp]
    exact length_pageOf _ _
  · rw [nextOffset_appendPages, List.length_singleton, Nat.mul_one]

/-- **A level** over pages that are there. -/
theorem appendGroups_placed {fuel : Nat} {pf : PageFile} {children : List Entry} (hw : Whole pf)
    (h : Placed pf) (hcs : ∀ c ∈ children, kPageSize ∣ c.2 ∧ c.2 < pf.nextOffset) :
    let r := t.appendGroups source fuel pf children
    Whole r.1 ∧ Placed r.1 ∧ ∀ c ∈ r.2, kPageSize ∣ c.2 ∧ c.2 < r.1.nextOffset := by
  induction fuel generalizing pf children with
  | zero => exact ⟨hw, h, fun c hc => absurd hc List.not_mem_nil⟩
  | succ fuel ih =>
    cases children with
    | nil => exact ⟨hw, h, fun c hc => absurd hc List.not_mem_nil⟩
    | cons c cs =>
      have hk : kPageSize = 4096 := rfl
      obtain ⟨group, hgroup⟩ : ∃ l, (c :: cs).take kInternalMaxEntries = c :: l := ⟨_, rfl⟩
      have hsub : ∀ c' ∈ c :: group, kPageSize ∣ c'.2 ∧ c'.2 < pf.nextOffset := by
        intro c' hc'
        rw [← hgroup] at hc'
        exact hcs c' (List.mem_of_mem_take hc')
      obtain ⟨hw1, h1, hnext⟩ := onePage_placed t source hw h hsub
      have hoff := @appendPages_snd pf [serializeInternalPage t.preferHistogramSummary t.maxLsn
        t.summary.summaryLsn (c :: group) source] (by simp)
      simp only [PagedBTree.appendGroups, hgroup]
      generalize (pf.appendPages [serializeInternalPage t.preferHistogramSummary t.maxLsn
        t.summary.summaryLsn (c :: group) source]) = x at hw1 h1 hnext hoff ⊢
      have hle := (appendGroups_keys t source fuel x.1 ((c :: cs).drop kInternalMaxEntries)).1.le
      obtain ⟨hw2, h2, hbelow⟩ := @ih x.1 ((c :: cs).drop kInternalMaxEntries) hw1 h1
        fun c' hc' => by
          obtain ⟨hd, hlt⟩ := hcs c' (List.mem_of_mem_drop hc')
          exact ⟨hd, by omega⟩
      refine ⟨hw2, h2, fun c' hc' => ?_⟩
      rcases List.mem_cons.1 hc' with rfl | hc'
      · rw [hoff]
        exact ⟨hw.dvd, by omega⟩
      · exact hbelow c' hc'

/-- **All levels.** -/
theorem buildInternalRoot_placed {fuel : Nat} {pf pf' : PageFile} {root : Nat}
    {children : List Entry} (hw : Whole pf) (h : Placed pf)
    (hcs : ∀ c ∈ children, kPageSize ∣ c.2 ∧ c.2 < pf.nextOffset) (htwo : 2 ≤ children.length)
    (hr : t.buildInternalRoot source fuel pf children = some (.ok (pf', root))) : Placed pf' := by
  induction fuel generalizing pf children with
  | zero =>
    match children, htwo with
    | c :: c' :: cs, _ =>
      simp only [PagedBTree.buildInternalRoot] at hr
      split at hr
      · cases hr
        exact h.appendInternal hw t source hcs
      · cases hr
  | succ fuel ih =>
    rw [buildInternalRoot_eq t source fuel pf htwo] at hr
    split at hr
    · cases hr
      exact h.appendInternal hw t source hcs
    · rename_i hmany
      obtain ⟨hlen, -⟩ := length_appendGroups t source pf (not_le.1 hmany)
      obtain ⟨hw1, h1, hbelow⟩ := @appendGroups_placed t source children.length pf children hw h hcs
      exact ih hw1 h1 hbelow hlen hr

end Build

/-- **Persisting a map** keeps the pages leading on. -/
theorem persistRootImpl_placed {t t' : PagedBTree} {pf pf' : PageFile} (ht : t.pageFile = some pf)
    (hw : Whole pf) (h : Placed pf) {m : SortedMap Key Nat} (hm : Writable m)
    {st : Except Status Nat} (hr : t.persistRootImpl m = some (t', st))
    (ht' : t'.pageFile = some pf') : Placed pf' := by
  rcases persistRootImpl_cases ht hr with ⟨-, -, rfl⟩ | ⟨leaves, hleaves, -, hcase⟩
  · cases ht.symm.trans ht'
    exact h
  have hlinks := serializeLeaves_links t (fun e he => (hm e he).1) (fun e he => (hm e he).2) hleaves
  have hall : ∀ leaf ∈ leaves, ∃ chunk, LinksAsLeaf m.entries leaf.1 chunk := fun leaf hl =>
    (hlinks leaf hl).imp fun _ hc => hc.1
  have hgood := @linkLeaves_good (fun _ => True) PageOffset m.entries leaves pf.nextOffset hw.dvd
    (fun leaf hl => (hall leaf hl).imp fun _ hc => ⟨hc, fun _ _ => trivial⟩)
    (span_pageOffset _ _)
  have hlen := fun p hp => (hgood p hp).1
  have hleaf : Placed (pf.appendPages
      (PagedBTree.linkLeaves pf.nextOffset (leaves.map (·.1)))).1 :=
    h.appendPages hw hlen (linkLeaves_leadsOn hall _)
  have hw1 : Whole (pf.appendPages
      (PagedBTree.linkLeaves pf.nextOffset (leaves.map (·.1)))).1 := hw.appendPages hlen
  have hend := nextOffset_appendPages pf (PagedBTree.linkLeaves pf.nextOffset (leaves.map (·.1)))
  rw [length_linkLeaves, List.length_map] at hend
  rcases hcase with ⟨e, -, rfl⟩ | ⟨pf'', root, -, hbuilt, rfl⟩
  · cases ht'
    exact hleaf
  cases ht'
  rcases hbuilt with ⟨-, hpf⟩ | ⟨htwo, hbuild⟩
  · have h1 := congrArg Prod.fst hpf
    simp only at h1
    exact h1 ▸ hleaf
  · have hlr : (PagedBTree.leafRefs pf.nextOffset (leaves.map (·.2))).length = leaves.length := by
      have := congrArg List.length (map_leafRefs pf.nextOffset (leaves.map (·.2)))
      simpa using this
    refine buildInternalRoot_placed t m.entries hw1 hleaf (fun c hc => ?_) (by omega) hbuild
    have hbelow := leafRefs_below hw.dvd (leaves.map (·.2)) c hc
    rw [List.length_map] at hbelow
    exact ⟨hbelow.1, by omega⟩

/-! ## The file grows -/

section Appends

variable {R : PageFile → Prop} (happ : ∀ pf pages, R pf → R (pf.appendPages pages).1)

include happ

theorem appendGroups_appends (t : PagedBTree) (source : List Entry) (fuel : Nat) {pf : PageFile}
    (children : List Entry) (hp : R pf) : R (t.appendGroups source fuel pf children).1 := by
  induction fuel generalizing pf children with
  | zero => exact hp
  | succ fuel ih =>
    rw [PagedBTree.appendGroups]
    split
    · exact hp
    · exact ih _ (happ _ _ hp)

theorem buildInternalRoot_appends {t : PagedBTree} {source : List Entry} {fuel : Nat}
    {pf pf' : PageFile} {root : Nat} {children : List Entry} (hp : R pf)
    (htwo : 2 ≤ children.length)
    (hr : t.buildInternalRoot source fuel pf children = some (.ok (pf', root))) : R pf' := by
  induction fuel generalizing pf children with
  | zero =>
    obtain ⟨c, c', cs, rfl⟩ : ∃ c c' cs, children = c :: c' :: cs := by
      rcases children with _ | ⟨c, _ | ⟨c', cs⟩⟩
      · simp at htwo
      · simp at htwo
      · exact ⟨c, c', cs, rfl⟩
    simp only [PagedBTree.buildInternalRoot] at hr
    split at hr
    · cases hr
      exact happ pf [serializeInternalPage t.preferHistogramSummary t.maxLsn
        t.summary.summaryLsn (c :: c' :: cs) source] hp
    · cases hr
  | succ fuel ih =>
    rw [buildInternalRoot_eq t source fuel pf htwo] at hr
    split at hr
    · cases hr
      exact happ _ _ hp
    · rename_i hmany
      obtain ⟨hlen, -⟩ := length_appendGroups t source pf (not_le.1 hmany)
      exact ih (appendGroups_appends happ t source _ _ hp) hlen hr

/-- **Persisting a map appends pages**: what appending keeps holds of the file afterwards. -/
theorem persistRootImpl_appends {t t' : PagedBTree} {pf pf' : PageFile}
    (ht : t.pageFile = some pf) (hp : R pf) {m : SortedMap Key Nat} {st : Except Status Nat}
    (hr : t.persistRootImpl m = some (t', st)) (ht' : t'.pageFile = some pf') : R pf' := by
  rcases persistRootImpl_cases ht hr with ⟨-, -, rfl⟩ |
    ⟨leaves, -, -, ⟨e, -, rfl⟩ | ⟨pf'', root, -, ⟨-, hpf⟩ | ⟨htwo, hbuild⟩, rfl⟩⟩
  · cases ht.symm.trans ht'
    exact hp
  · cases ht'
    exact happ _ _ hp
  · cases ht'
    have h1 := congrArg Prod.fst hpf
    simp only at h1
    rw [h1]
    exact happ _ _ hp
  · cases ht'
    have hlr : (PagedBTree.leafRefs pf.nextOffset (leaves.map (·.2))).length = leaves.length := by
      have := congrArg List.length (map_leafRefs pf.nextOffset (leaves.map (·.2)))
      simpa using this
    exact buildInternalRoot_appends happ (happ _ _ hp) (by omega) hbuild

end Appends

theorem appendPages_longer (pf : PageFile) (pages : List Bytes) :
    pf.file.length ≤ (pf.appendPages pages).1.file.length := by
  unfold PageFile.appendPages
  split
  · exact Nat.le_refl _
  · simp only [length_overwrite]
    omega

/-- Persisting a map takes nothing off the file. -/
theorem persistRootImpl_longer {t t' : PagedBTree} {pf pf' : PageFile}
    (ht : t.pageFile = some pf) {m : SortedMap Key Nat} {st : Except Status Nat}
    (hr : t.persistRootImpl m = some (t', st)) (ht' : t'.pageFile = some pf') :
    pf.file.length ≤ pf'.file.length :=
  @persistRootImpl_appends (fun x => pf.file.length ≤ x.file.length)
    (fun x pages hx => Nat.le_trans hx (appendPages_longer x pages)) t t' pf pf' ht
    (Nat.le_refl _) m st hr ht'

/-! ## The header of the file -/

/-- The file says where it ends, or was not written yet. -/
def Headed (pf : PageFile) : Prop :=
  (pf.file = [] ∧ pf.nextOffset = kPageFileHeaderSize) ∨
    readAt? pf.file 0 24 = some (PageFile.headerBytes pf.nextOffset)

theorem headed_new : Headed PageFile.new := .inl ⟨rfl, rfl⟩

theorem Headed.appendPages {pf : PageFile} (h : Headed pf) (pages : List Bytes) :
    Headed (pf.appendPages pages).1 := by
  cases pages with
  | nil => exact h
  | cons p ps =>
    right
    simp only [PageFile.appendPages, List.isEmpty_cons, Bool.false_eq_true, if_false]
    rw [← PageFile.length_headerBytes (pf.nextOffset + kPageSize * (p :: ps).length)]
    exact readAt?_overwrite _ _ 0

/-- Persisting a map keeps the header right. -/
theorem persistRootImpl_headed {t t' : PagedBTree} {pf pf' : PageFile}
    (ht : t.pageFile = some pf) (h : Headed pf) {m : SortedMap Key Nat} {st : Except Status Nat}
    (hr : t.persistRootImpl m = some (t', st)) (ht' : t'.pageFile = some pf') : Headed pf' :=
  persistRootImpl_appends (fun _ pages hx => hx.appendPages pages) ht h hr ht'

/-- **A file that says where it ends** is opened as it was. -/
theorem Headed.open {pf : PageFile} (h : Headed pf) (hsize : pf.nextOffset < 2 ^ 64) :
    PageFile.open pf.file = pf := by
  have hfile := file_open pf.file
  have hnext : (PageFile.open pf.file).nextOffset = pf.nextOffset := by
    rcases h with ⟨hnil, hnext⟩ | hhdr
    · have hnone : readAt? [] 0 24 = none := readAt?_eq_none_iff.2 (by decide)
      rw [hnil, hnext, PageFile.open, hnone]
    · rw [nextOffset_open hhdr, Nat.mod_eq_of_lt hsize, Nat.max_eq_right pf.header_le]
  generalize PageFile.open pf.file = pf' at hfile hnext
  cases pf
  cases pf'
  cases hfile
  cases hnext
  rfl

/-- The root of a map that was persisted is a page of the file. -/
theorem persistRootImpl_root {Q : Entry → Prop} {t t' : PagedBTree} {pf pf' : PageFile}
    (ht : t.pageFile = some pf) (h : Good Q PageOffset pf) {m : SortedMap Key Nat}
    (hm : Writable m) (hq : ∀ e ∈ m.entries, Q e) {root : Nat}
    (hr : t.persistRootImpl m = some (t', .ok root)) (ht' : t'.pageFile = some pf')
    (hor : m.isEmpty = false ∨ kPageFileHeaderSize ≤ root) :
    PageOffset root ∧ root + kPageSize ≤ pf'.file.length := by
  obtain ⟨pf'', hpf, -, hgood⟩ := persistRootImpl_good ht paged_pageOffset h hm hq hr
  cases hpf.symm.trans ht'
  obtain ⟨hgood, hroot⟩ := hgood (span_pageOffset _ _)
  obtain ⟨hd, hge, hlt⟩ := hroot root rfl hor
  have hk : kPageSize = 4096 := rfl
  have hh : kPageFileHeaderSize = 4096 := rfl
  have hdn := hgood.whole.dvd
  have hlo := Nat.le_trans pf.header_le hge
  rw [hk] at hd hdn ⊢
  refine ⟨⟨hd, hlo⟩, ?_⟩
  rcases hgood.whole.pages with ⟨-, hnext⟩ | ⟨hle, -⟩
  · omega
  · omega

/-! ## Lookups return -/

section Lookup

variable {t : PagedBTree} {pf : PageFile} (ht : t.pageFile = some pf) (h : Placed pf)
include ht h

/-- One step along the leaves: it ends, or goes on to the next one. -/
theorem Placed.leafChain_step (key : Key) {off : Nat} (hd : kPageSize ∣ off) :
    (∃ r, ∀ fuel, t.getFromLeafChain key (fuel + 1) off = some r) ∨
      (off + kPageSize ≤ pf.file.length ∧ ∃ next,
        (∀ fuel, t.getFromLeafChain key (fuel + 1) off = t.getFromLeafChain key fuel next) ∧
          (next = 0 ∨ next = (off + kPageSize) % 2 ^ 32)) := by
  simp only [PagedBTree.getFromLeafChain, PagedBTree.readPageBytes, ht]
  by_cases hlo : off < kPageFileHeaderSize
  · exact .inl ⟨_, fun _ => if_pos hlo⟩
  simp only [if_neg hlo]
  cases hp : pf.readPage off with
  | error e => exact .inl ⟨.error e, fun _ => rfl⟩
  | ok page =>
    have hleads := h off page ⟨hd, not_lt.1 hlo⟩ hp
    by_cases htype : (PageHeader.decode page).type = kPageTypeLeaf
    · simp only [htype, ne_eq, not_true_eq_false, if_false]
      cases leafEntries page with
      | none => exact .inl ⟨.error (Status.corruptPage "invalid leaf page"), fun _ => rfl⟩
      | some es =>
        cases hf : SortedMap.findIn key es with
        | some lsn => exact .inl ⟨.ok lsn, fun _ => by simp only [hf]⟩
        | none =>
          exact .inr ⟨(readAt?_some (PageFile.readPage_ok.1 hp)).1, _, fun _ => by simp only [hf],
            hleads.next htype⟩
    · exact .inl ⟨.error (Status.corruptPage "expected leaf"), fun _ => by simp [htype]⟩

omit ht h in
theorem getFromLeafChain_zero (key : Key) {fuel : Nat} (hpos : 0 < fuel) :
    ∃ r, t.getFromLeafChain key fuel 0 = some r := by
  obtain ⟨n, rfl⟩ : ∃ n, fuel = n + 1 := ⟨fuel - 1, by omega⟩
  rw [PagedBTree.getFromLeafChain, if_pos (by decide)]
  exact ⟨_, rfl⟩

/-- A walk along leaves whose offsets four bytes hold: they only go up. -/
theorem Placed.leafChain_low {key : Key} {fuel off : Nat} (hd : kPageSize ∣ off)
    (hlt : off < 2 ^ 32) (hpos : 0 < fuel) (hfuel : pf.file.length < off + fuel) :
    ∃ r, t.getFromLeafChain key fuel off = some r := by
  have hk : kPageSize = 4096 := rfl
  induction fuel generalizing off with
  | zero => omega
  | succ fuel ih =>
    rcases h.leafChain_step ht key hd with ⟨r, hr⟩ | ⟨hend, next, hstep, hnext⟩
    · exact ⟨r, hr fuel⟩
    rw [hstep]
    have hzero : next = 0 ∨ (next = off + kPageSize ∧ off + kPageSize < 2 ^ 32) := by
      rw [hk] at hd hnext ⊢
      omega
    rcases hzero with rfl | ⟨rfl, hlt'⟩
    · exact getFromLeafChain_zero key (by omega)
    · exact ih (Nat.dvd_add hd (Nat.dvd_refl _)) hlt' (by omega) (by omega)

/-- A walk along the leaves: behind the first one the offsets are those four bytes hold. -/
theorem Placed.leafChain {key : Key} {off : Nat} (hd : kPageSize ∣ off) :
    ∃ r, t.getFromLeafChain key t.walkFuel off = some r := by
  have hk : kPageSize = 4096 := rfl
  have hfuel : t.walkFuel = pf.file.length + 1 := by simp [PagedBTree.walkFuel, ht]
  rw [hfuel]
  rcases h.leafChain_step ht key hd with ⟨r, hr⟩ | ⟨hend, next, hstep, hnext⟩
  · exact ⟨r, hr _⟩
  rw [hstep]
  have hcases : next = 0 ∨ (kPageSize ∣ next ∧ next < 2 ^ 32 ∧ 0 < next) := by
    rw [hk] at hd hnext ⊢
    omega
  rcases hcases with rfl | ⟨hdn, hlt, hpos⟩
  · exact getFromLeafChain_zero key (by omega)
  · exact h.leafChain_low ht hdn hlt (by omega) (by omega)

/-- A walk down from a page: each child lies in front of it. -/
theorem Placed.getFromDiskAt {key : Key} {fuel off : Nat} (hd : kPageSize ∣ off)
    (hlo : kPageFileHeaderSize ≤ off) (hfuel : off < fuel) :
    ∃ r, t.getFromDiskAt key fuel off = some r := by
  induction fuel generalizing off with
  | zero => omega
  | succ fuel ih =>
    unfold PagedBTree.getFromDiskAt
    cases hp : pf.readPage off with
    | error e =>
      simp only [PagedBTree.readPageHeader, ht, hp]
      exact ⟨_, rfl⟩
    | ok page =>
      have hleads := h off page ⟨hd, hlo⟩ hp
      simp only [PagedBTree.readPageHeader, PagedBTree.readPageBytes, ht, hp, hleads.crc, if_true]
      split
      · exact ⟨_, rfl⟩
      split
      · exact h.leafChain ht hd
      split
      · exact ⟨_, rfl⟩
      rename_i hint
      obtain ⟨offs, ho, hmem⟩ := hleads.children (not_not.1 hint)
      cases hch : childForKey page key (PageHeader.decode page).keyCount kPageHeaderSize 0 with
      | error e => exact ⟨_, rfl⟩
      | ok child =>
        simp only
        split
        · exact ⟨_, rfl⟩
        rename_i hclo
        rcases childForKey_mem ho hch with rfl | hm
        · exact absurd (show 0 < kPageFileHeaderSize by decide) hclo
        · obtain ⟨hdc, hlt⟩ := hmem child hm
          exact ih hdc (not_lt.1 hclo) (by omega)

/-- **A lookup returns.** -/
theorem Placed.get (hroot : t.onDiskMode = true → kPageFileHeaderSize ≤ t.rootOffset →
    kPageSize ∣ t.rootOffset) (key : Key) : ∃ r, t.get key = some r := by
  unfold PagedBTree.get
  split
  · exact ⟨_, rfl⟩
  cases t.index.find? key with
  | some lsn => exact ⟨_, rfl⟩
  | none =>
    simp only
    split
    · rename_i hdisk
      have hfuel : t.walkFuel = pf.file.length + 1 := by simp [PagedBTree.walkFuel, ht]
      by_cases hin : t.rootOffset < t.walkFuel
      · exact h.getFromDiskAt ht (hroot hdisk.1 hdisk.2) hdisk.2 hin
      · -- a root behind the end of the file
        have hnone : readAt? pf.file t.rootOffset kPageSize = none :=
          readAt?_eq_none_iff.2 (by omega)
        obtain ⟨n, hn⟩ : ∃ n, t.walkFuel = n + 1 := ⟨_, hfuel⟩
        rw [hn, PagedBTree.getFromDiskAt]
        simp only [PagedBTree.readPageHeader, ht, PageFile.readPage, hnone]
        exact ⟨_, rfl⟩
    · exact ⟨_, rfl⟩

/-- **A root in the file loads.** -/
theorem Placed.loadRoot {root : Nat} (hroot : PageOffset root)
    (hend : root + kPageSize ≤ pf.file.length) : (t.loadRoot root).2 = .ok () := by
  cases hp : pf.readPage root with
  | error e =>
    cases hr : readAt? pf.file root kPageSize with
    | none =>
      have := readAt?_eq_none_iff.1 hr
      omega
    | some page =>
      rw [PageFile.readPage_ok.2 hr] at hp
      cases hp
  | ok page =>
    have hleads := h root page hroot hp
    have hlo : ¬ root < kPageFileHeaderSize := not_lt.2 hroot.2
    simp only [PagedBTree.loadRoot, ht, if_neg hlo, PagedBTree.readPageHeader, hp, hleads.crc,
      if_true]

end Lookup

/-! ## Persisting returns -/

theorem keysFit_takeChunk {used : Nat} (h : kPageHeaderSize ≤ used) (es : List Entry) :
    KeysFit (takeChunk used es) := by
  induction es generalizing used with
  | nil => exact fun e he => absurd he List.not_mem_nil
  | cons e es ih =>
    rw [takeChunk]
    split
    · exact fun e he => absurd he List.not_mem_nil
    · rename_i hle
      intro e' he'
      rcases List.mem_cons.1 he' with rfl | he'
      · omega
      · exact ih (by omega) e' he'

/-- The leaves take all keys only if they fit into pages. -/
theorem keysFit_of_serializeLeaves (t : PagedBTree) {source : List Entry}
    (hlen : ∀ e ∈ source, e.1.length < 2 ^ 16) {fuel : Nat} {es : List Entry}
    (hlsn : ∀ e ∈ es, e.2 < 2 ^ 64) {leaves : List (Bytes × Key)}
    (h : t.serializeLeaves source fuel es = some leaves) : KeysFit es := by
  induction fuel generalizing es leaves with
  | zero =>
    cases es with
    | nil => exact fun e he => absurd he List.not_mem_nil
    | cons e es => cases h
  | succ fuel ih =>
    cases es with
    | nil => exact fun e he => absurd he List.not_mem_nil
    | cons e es =>
      obtain ⟨page, hp, -⟩ := serializeLeafChunk_spec t.maxLsn t.summary.summaryLsn (e :: es) hlsn
        hlen
      rw [PagedBTree.serializeLeaves, hp] at h
      simp only at h
      split at h
      · cases h
      obtain ⟨rest, hrest, -⟩ := Option.map_eq_some_iff.1 h
      have htail := ih (fun e' he' => hlsn e' (List.mem_of_mem_drop he')) hrest
      have hhead := keysFit_takeChunk (Nat.le_refl kPageHeaderSize) (e :: es)
      intro e' he'
      rw [← takeChunk_append_drop (e :: es)] at he'
      rcases List.mem_append.1 he' with he' | he'
      · exact hhead e' he'
      · exact htail e' he'

/-- **A map whose keys do not fit is never persisted.** -/
theorem keysFit_of_persistRootImpl {t t' : PagedBTree} {pf : PageFile} (ht : t.pageFile = some pf)
    {m : SortedMap Key Nat} (hm : Writable m) {st : Except Status Nat}
    (h : t.persistRootImpl m = some (t', st)) : KeysFit m.entries := by
  rcases persistRootImpl_cases ht h with ⟨hempty, -, -⟩ | ⟨leaves, hleaves, -, -⟩
  · rw [SortedMap.isEmpty_iff.1 hempty]
    exact fun e he => absurd he List.not_mem_nil
  · exact keysFit_of_serializeLeaves t (fun e he => (hm e he).1) (fun e he => (hm e he).2) hleaves

/-- **A map whose keys fit is persisted.** -/
theorem persistRootImpl_total {t : PagedBTree} {pf : PageFile} (ht : t.pageFile = some pf)
    {m : SortedMap Key Nat} (hm : Writable m) (hfit : KeysFit m.entries) :
    ∃ t' root, t.persistRootImpl m = some (t', .ok root) := by
  unfold PagedBTree.persistRootImpl
  simp only [ht]
  split
  · exact ⟨_, _, rfl⟩
  obtain ⟨leaves, hleaves, -⟩ := serializeLeaves_spec t (fun e he => (hm e he).1) hfit
    (fun e he => (hm e he).2) (Nat.le_refl m.entries.length)
  simp only [hleaves]
  by_cases hone : 1 < leaves.length
  · have hlr : ∀ first, (PagedBTree.leafRefs first (leaves.map (·.2))).length = leaves.length := by
      intro first
      have := congrArg List.length (map_leafRefs first (leaves.map (·.2)))
      simpa using this
    obtain ⟨pf', root, hr, -⟩ := @buildInternalRoot_total t m.entries leaves.length
      (pf.appendPages (PagedBTree.linkLeaves pf.nextOffset (leaves.map (·.1)))).1
      (PagedBTree.leafRefs (pf.appendPages (PagedBTree.linkLeaves pf.nextOffset
        (leaves.map (·.1)))).2 (leaves.map (·.2))) (by rw [hlr]; omega) (by rw [hlr])
    rw [if_pos hone, hr]
    exact ⟨_, _, rfl⟩
  · rw [if_neg hone]
    exact ⟨_, _, rfl⟩

end EBTree.BTree
