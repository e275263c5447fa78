import EBTree.BTree.Proof.Persist

/-!
# Lookups find nothing but what was put in

`get_after_persist` wants short keys, since a page states no more than fourteen bytes of a bound. A
lookup can miss a longer key, but it finds no entry that was not written. `GoodPage Q P page`: the
page leads to entries of `Q` and on to offsets of `P`.

* `getFromDiskAt_sound`: from an offset of `P` in a file whose pages at `P` are good (`Closed`), a
  lookup finds entries of `Q` only.
* `Closed.appendPages`, `persistRootImpl_closed`: persisting a map of entries of `Q` appends good
  pages, whatever its keys are.
-/

set_option autoImplicit false

namespace EBTree.BTree

open Lib

/-- What a page leads to: entries of `Q`, and offsets of `P`. -/
structure GoodPage (Q : Entry → Prop) (P : Nat → Prop) (page : Bytes) : Prop where
  entries : ∀ es, leafEntries page = some es → ∀ e ∈ es, Q e
  next : (PageHeader.decode page).type = kPageTypeLeaf →
    P (PageHeader.decode page).nextPageOffset ∨
      (PageHeader.decode page).nextPageOffset < kPageFileHeaderSize
  children : (PageHeader.decode page).type = kPageTypeInternal →
    ∃ offs, childOffsets page (PageHeader.decode page).keyCount kPageHeaderSize = .ok offs ∧
      ∀ off ∈ offs, P off

/-- The pages at the offsets of `P` are good. -/
def Closed (Q : Entry → Prop) (P : Nat → Prop) (pf : PageFile) : Prop :=
  ∀ off page, P off → pf.readPage off = .ok page → GoodPage Q P page

variable {Q : Entry → Prop} {P : Nat → Prop}

/-! ## Lookups -/

/-- A child that is chosen is one of the children. -/
theorem childForKey_mem {page : Bytes} {key : Key} {n pos child c : Nat} {offs : List Nat}
    (ho : childOffsets page n pos = .ok offs) (h : childForKey page key n pos child = .ok c) :
    c = child ∨ c ∈ offs := by
  induction n generalizing pos child offs with
  | zero =>
    cases h
    exact .inl rfl
  | succ n ih =>
    unfold childForKey at h
    unfold childOffsets at ho
    cases he : internalEntryAt page pos with
    | error e =>
      rw [he] at h
      cases h
    | ok x =>
      obtain ⟨off, sep, pos'⟩ := x
      rw [he] at h ho
      cases hr : childOffsets page n pos' with
      | error e =>
        simp only [hr] at ho
        cases ho
      | ok rest =>
        simp only [hr] at ho
        cases ho
        simp only at h
        split at h
        · rename_i hlt
          rw [if_neg (by omega)]
          exact ih hr h
        · rename_i hge
          rw [if_pos (by omega)]
          split at h
          · cases h
            exact .inl rfl
          · rcases ih hr h with rfl | hm
            · exact .inr List.mem_cons_self
            · exact .inr (List.mem_cons_of_mem _ hm)

section Lookup

variable {t : PagedBTree} {pf : PageFile} (ht : t.pageFile = some pf) (hc : Closed Q P pf)
include ht hc

theorem getFromLeafChain_sound {key : Key} {lsn fuel off : Nat} (hoff : P off)
    (h : t.getFromLeafChain key fuel off = some (.ok lsn)) : Q (key, lsn) := by
  induction fuel generalizing off with
  | zero => cases h
  | succ fuel ih =>
    unfold PagedBTree.getFromLeafChain at h
    split at h
    · cases h
    cases hp : pf.readPage off with
    | error e =>
      simp only [PagedBTree.readPageBytes, ht, hp] at h
      cases h
    | ok page =>
      have hgood := hc off page hoff hp
      simp only [PagedBTree.readPageBytes, ht, hp] at h
      split at h
      · cases h
      rename_i htype
      cases hes : leafEntries page with
      | none =>
        rw [hes] at h
        cases h
      | some es =>
        rw [hes] at h
        cases hf : SortedMap.findIn key es with
        | some lsn' =>
          simp only [hf] at h
          cases h
          exact hgood.entries es hes _ (SortedMap.mem_of_findIn hf)
        | none =>
          simp only [hf] at h
          rcases hgood.next (not_not.1 htype) with hn | hn
          · exact ih hn h
          · -- the last leaf
            cases fuel with
            | zero => cases h
            | succ fuel =>
              rw [PagedBTree.getFromLeafChain, if_pos hn] at h
              cases h

/-- **A lookup from an offset of `P` finds entries of `Q` only.** -/
theorem getFromDiskAt_sound {key : Key} {lsn fuel off : Nat} (hoff : P off)
    (h : t.getFromDiskAt key fuel off = some (.ok lsn)) : Q (key, lsn) := by
  induction fuel generalizing off with
  | zero => cases h
  | succ fuel ih =>
    unfold PagedBTree.getFromDiskAt at h
    cases hp : pf.readPage off with
    | error e =>
      simp only [PagedBTree.readPageHeader, ht, hp] at h
      cases h
    | ok page =>
      have hgood := hc off page hoff hp
      simp only [PagedBTree.readPageHeader, PagedBTree.readPageBytes, ht, hp] at h
      split at h
      · cases h
      rename_i hdr hhdr
      have hdec : PageHeader.decode page = hdr := by
        split at hhdr
        · cases hhdr
          rfl
        · cases hhdr
      rw [← hdec] at h
      split at h
      · cases h
      split at h
      · exact getFromLeafChain_sound ht hc hoff h
      split at h
      · cases h
      rename_i hint
      obtain ⟨offs, ho, hmem⟩ := hgood.children (not_not.1 hint)
      cases hch : childForKey page key (PageHeader.decode page).keyCount kPageHeaderSize 0 with
      | error e =>
        rw [hch] at h
        cases h
      | ok child =>
        rw [hch] at h
        simp only at h
        split at h
        · cases h
        rename_i hlo
        rcases childForKey_mem ho hch with rfl | hm
        · exact absurd (show 0 < kPageFileHeaderSize by decide) hlo
        · exact ih (hmem child hm) h

end Lookup

/-! ## Good pages -/

/-- A leaf is good when its entries are of `Q` and it is the last one or chained to `P`. -/
theorem goodPage_leaf {source : List Entry} {page : Bytes} {es : List Entry} {next : Nat}
    (h : IsLeaf source page es next) (hq : ∀ e ∈ es, Q e)
    (hn : P next ∨ next < kPageFileHeaderSize) : GoodPage Q P page where
  entries es' he := by
    rw [h.entries] at he
    cases he
    exact hq
  next _ := by
    rw [h.next_eq]
    exact hn
  children ht := by
    rw [h.type] at ht
    exact absurd ht (by decide)

theorem fitChildren_start (pos : Nat) (cs : List Entry) : fitChildren pos cs <+: cs := by
  induction cs generalizing pos with
  | nil => exact List.nil_prefix
  | cons c cs ih =>
    rw [fitChildren]
    split
    · exact List.nil_prefix
    · exact List.cons_prefix_cons.2 ⟨rfl, ih _⟩

theorem fitChildren_fits {pos : Nat} (h : pos ≤ kPageSize) (cs : List Entry) :
    pos + childrenSize (fitChildren pos cs) ≤ kPageSize := by
  induction cs generalizing pos with
  | nil => simpa [fitChildren] using h
  | cons c cs ih =>
    rw [fitChildren]
    split
    · simpa using h
    · rename_i hle
      have hrest := ih (not_lt.1 hle)
      rw [childrenSize_cons]
      omega

/-- The offsets read off an internal page are those written, in four bytes each. -/
theorem childOffsets_mod {page post : Bytes} {cs : List Entry} (pre : Bytes)
    (hpage : page = pre ++ ((cs.map childBytes).flatten ++ post))
    (hfit : pre.length + childrenSize cs ≤ kPageSize) :
    ∃ offs, childOffsets page cs.length pre.length = .ok offs ∧
      ∀ off ∈ offs, kPageFileHeaderSize ≤ off ∧ ∃ c ∈ cs, off = c.2 % 2 ^ 32 := by
  induction cs generalizing pre with
  | nil => exact ⟨[], rfl, by simp⟩
  | cons c cs ih =>
    rw [childrenSize_cons] at hfit
    have hlay : page = pre ++ (childBytes c ++ ((cs.map childBytes).flatten ++ post)) := by
      rw [hpage]; simp
    have hentry := internalEntryAt_child pre _ hlay (by omega)
    have hnext : page = (pre ++ childBytes c) ++ ((cs.map childBytes).flatten ++ post) := by
      rw [hpage]; simp
    have hlen : (pre ++ childBytes c).length = pre.length + (4 + 2 + c.1.length) := by
      rw [List.length_append, length_childBytes]
    obtain ⟨offs, ho, hmem⟩ := ih (pre ++ childBytes c) hnext (by rw [hlen]; omega)
    rw [hlen] at ho
    have hrest : ∀ off ∈ offs, kPageFileHeaderSize ≤ off ∧ ∃ c' ∈ c :: cs, off = c'.2 % 2 ^ 32 :=
      fun off hm =>
        ⟨(hmem off hm).1, (hmem off hm).2.imp fun _ h => ⟨List.mem_cons_of_mem _ h.1, h.2⟩⟩
    simp only [List.length_cons, childOffsets, hentry, ho]
    refine ⟨_, rfl, ?_⟩
    split
    · rename_i hlo
      intro off hm
      rcases List.mem_cons.1 hm with rfl | hm
      · exact ⟨hlo, c, List.mem_cons_self, rfl⟩
      · exact hrest off hm
    · exact hrest

/-- An offset that four bytes hold: not behind the file header, or of `P`. -/
def Leads (P : Nat → Prop) (off : Nat) : Prop :=
  off % 2 ^ 32 < kPageFileHeaderSize ∨ P (off % 2 ^ 32)

/-- The children of a serialized internal page, as they are read. -/
theorem serializeInternalPage_children (p : Bool) (maxLsn summaryLsn : Nat) (cs : List Entry)
    (source : List Entry) :
    let page := serializeInternalPage p maxLsn summaryLsn cs source
    (PageHeader.decode page).type = kPageTypeInternal ∧
      ∃ offs, childOffsets page (PageHeader.decode page).keyCount kPageHeaderSize = .ok offs ∧
        ∀ off ∈ offs, kPageFileHeaderSize ≤ off ∧ ∃ c ∈ cs, off = c.2 % 2 ^ 32 := by
  have htype : ∀ n, ({ internalHeader p maxLsn summaryLsn cs source with
      keyCount := n } : PageHeader).stored.type = kPageTypeInternal :=
    fun _ => internalHeader_type p maxLsn summaryLsn cs source
  have hfit := fitChildren_fits (show kPageHeaderSize ≤ kPageSize by decide) cs
  have hsub := (fitChildren_start kPageHeaderSize cs).subset
  unfold serializeInternalPage
  generalize fitChildren kPageHeaderSize cs = out at hfit hsub ⊢
  have hk : kPageSize = 4096 := rfl
  have hcount := length_le_childrenSize out
  have hpre := PageHeader.length_encode
    { internalHeader p maxLsn summaryLsn cs source with keyCount := out.length }
  obtain ⟨offs, ho, hmem⟩ := childOffsets_mod
    ({ internalHeader p maxLsn summaryLsn cs source with
      keyCount := out.length } : PageHeader).encode
    (pageOf_eq (by rw [length_childrenBytes]; exact hfit)) (by rw [hpre]; exact hfit)
  have hstored : ({ internalHeader p maxLsn summaryLsn cs source with
      keyCount := out.length } : PageHeader).stored.keyCount = out.length :=
    Nat.mod_eq_of_lt (show out.length < 2 ^ 16 by omega)
  rw [hpre] at ho
  refine ⟨by rw [decode_pageOf]; exact htype _, offs, by rw [decode_pageOf, hstored]; exact ho,
    fun off hm => ⟨(hmem off hm).1, ?_⟩⟩
  obtain ⟨-, c, hc, he⟩ := hmem off hm
  exact ⟨c, hsub hc, he⟩

/-- An internal page is good when its children lead to `P`. -/
theorem goodPage_internal (p : Bool) (maxLsn summaryLsn : Nat) {cs : List Entry}
    (source : List Entry) (h : ∀ c ∈ cs, Leads P c.2) :
    GoodPage Q P (serializeInternalPage p maxLsn summaryLsn cs source) := by
  have hne : kPageTypeInternal ≠ kPageTypeLeaf := by decide
  obtain ⟨htype, offs, ho, hmem⟩ := serializeInternalPage_children p maxLsn summaryLsn cs source
  refine ⟨fun es he => ?_, fun ht => absurd (htype.symm.trans ht) hne, fun _ => ⟨offs, ho, ?_⟩⟩
  · simp only [leafEntries, initLeafCursor, htype, ne_eq, hne, not_false_eq_true, if_true,
      Option.map_none] at he
    cases he
  · intro off hm
    obtain ⟨hlo, c, hcm, rfl⟩ := hmem off hm
    exact (h c hcm).resolve_left (by omega)

/-! ## Appending good pages -/

/-- A page file of whole pages behind a header, or with no page yet. A file of 2^64 bytes would be
opened at a smaller offset than it ends at. -/
structure Whole (pf : PageFile) : Prop where
  dvd : kPageSize ∣ pf.nextOffset
  pages : (pf.file = [] ∧ pf.nextOffset = kPageFileHeaderSize) ∨
    (pf.nextOffset ≤ pf.file.length ∧ kPageSize ∣ pf.file.length ∧
      ∃ n, kPageSize ∣ n ∧ n ≤ pf.file.length ∧
        readAt? pf.file 0 24 = some (PageFile.headerBytes n))

theorem whole_new : Whole PageFile.new := ⟨Nat.dvd_refl _, .inl ⟨rfl, rfl⟩⟩

theorem length_appendPages {pf : PageFile} {pages : List Bytes} (hne : pages ≠ [])
    (hlen : ∀ p ∈ pages, p.length = kPageSize) :
    (pf.appendPages pages).1.file.length
      = max pf.file.length (pf.nextOffset + kPageSize * pages.length) := by
  have hk : kPageFileHeaderSize = 4096 := rfl
  have hlo := pf.header_le
  cases pages with
  | nil => exact absurd rfl hne
  | cons p ps =>
    simp only [PageFile.appendPages, List.isEmpty_cons, Bool.false_eq_true, if_false,
      length_overwrite, PageFile.length_headerBytes, length_flatten_pages hlen]
    omega

theorem Whole.appendPages {pf : PageFile} (h : Whole pf) {pages : List Bytes}
    (hlen : ∀ p ∈ pages, p.length = kPageSize) : Whole (pf.appendPages pages).1 := by
  have hnext := nextOffset_appendPages pf pages
  have hd : kPageSize ∣ pf.nextOffset + kPageSize * pages.length :=
    Nat.dvd_add h.dvd (Nat.dvd_mul_right _ _)
  refine ⟨hnext ▸ hd, ?_⟩
  cases pages with
  | nil => exact h.pages
  | cons p ps =>
    have hl := @length_appendPages pf (p :: ps) (List.cons_ne_nil p ps) hlen
    refine .inr ⟨by omega, ?_, pf.nextOffset + kPageSize * (p :: ps).length, hd, by omega, ?_⟩
    · rw [hl]
      rcases Nat.le_total pf.file.length (pf.nextOffset + kPageSize * (p :: ps).length) with hle | hle
      · rw [Nat.max_eq_right hle]
        exact hd
      · rw [Nat.max_eq_left hle]
        rcases h.pages with ⟨hf, -⟩ | ⟨-, hdl, -⟩
        · rw [hf]
          exact Nat.dvd_zero _
        · exact hdl
    · simp only [PageFile.appendPages, List.isEmpty_cons, Bool.false_eq_true, if_false]
      rw [← PageFile.length_headerBytes (pf.nextOffset + kPageSize * (p :: ps).length)]
      exact readAt?_overwrite _ _ 0

theorem file_open (f : Bytes) : (PageFile.open f).file = f := by
  unfold PageFile.open
  split
  · split <;> rfl
  · rfl

/-- A file is opened at the end its header says. -/
theorem nextOffset_open {f : Bytes} {n : Nat}
    (h : readAt? f 0 24 = some (PageFile.headerBytes n)) :
    (PageFile.open f).nextOffset = max kPageFileHeaderSize (n % 2 ^ 64) := by
  have hmagic : leNat (fieldAt (PageFile.headerBytes n) 0 8) = PageFile.kPageFileMagic := by
    rw [PageFile.headerBytes, fieldAt_here (by simp), leNat_le]
    exact Nat.mod_eq_of_lt (by decide)
  have hoff : leNat (fieldAt (PageFile.headerBytes n) 8 8) = n % 2 ^ 64 := by
    rw [PageFile.headerBytes, fieldAt_skip (by simp), length_le, Nat.sub_self,
      fieldAt_here (by simp), leNat_le]
    norm_num
  simp only [PageFile.open, h, hmagic, if_true, hoff]

/-- Opening the file again finds the pages. -/
theorem Whole.open {pf : PageFile} (h : Whole pf) :
    Whole (PageFile.open pf.file) ∧ (PageFile.open pf.file).file = pf.file := by
  have hfile := file_open pf.file
  refine ⟨?_, hfile⟩
  have hk : kPageSize = 4096 := rfl
  have hh : kPageFileHeaderSize = 4096 := rfl
  rcases h.pages with ⟨hf, -⟩ | ⟨hle, hdl, n, hdn, hn, hhdr⟩
  · have hopen : PageFile.open [] = PageFile.new := by
      have : readAt? [] 0 24 = none := readAt?_eq_none_iff.2 (by decide)
      rw [PageFile.open, this]
      rfl
    rw [hf, hopen]
    exact whole_new
  · have hnext := nextOffset_open hhdr
    have hlo := pf.header_le
    rw [hk] at hdn
    refine ⟨?_, .inr ?_⟩
    · rw [hnext, hk, hh]
      omega
    · rw [hnext, hfile]
      have hmod := Nat.mod_le n (2 ^ 64)
      exact ⟨by omega, hdl, n, hdn, hn, hhdr⟩

/-- A page of a file that was appended to is an old page, or one of the pages appended, at its
place. -/
theorem readPage_appendPages_at {pf : PageFile} (hw : Whole pf) {pages : List Bytes}
    (hlen : ∀ p ∈ pages, p.length = kPageSize) {off : Nat} {page : Bytes} (hd : kPageSize ∣ off)
    (hlo : kPageFileHeaderSize ≤ off) (h : (pf.appendPages pages).1.readPage off = .ok page) :
    pf.readPage off = .ok page ∨ ∃ front back, pages = front ++ page :: back ∧
      off = pf.nextOffset + kPageSize * front.length := by
  have hk : kPageSize = 4096 := rfl
  have hh : kPageFileHeaderSize = 4096 := rfl
  cases pages with
  | nil => exact .inl h
  | cons p ps =>
  have hnext := nextOffset_appendPages pf (p :: ps)
  have hend := (readAt?_some (PageFile.readPage_ok.1 h)).1
  rw [length_appendPages (List.cons_ne_nil p ps) hlen] at hend
  -- a page that lies in the old file, and that keeps its bytes
  have hold : off + kPageSize ≤ pf.file.length →
      (∀ {bs}, readAt? pf.file off kPageSize = some bs →
        readAt? (pf.appendPages (p :: ps)).1.file off kPageSize = some bs) →
      pf.readPage off = .ok page := by
    intro hfit hkeep
    cases hr : readAt? pf.file off kPageSize with
    | none =>
      have := readAt?_eq_none_iff.1 hr
      omega
    | some old =>
      have hnew := PageFile.readPage_ok.2 (hkeep hr)
      rw [h] at hnew
      cases hnew
      exact PageFile.readPage_ok.2 hr
  by_cases hbefore : off < pf.nextOffset
  · have hfit : off + kPageSize ≤ pf.nextOffset := by
      obtain ⟨a, rfl⟩ := hd
      obtain ⟨b, hb⟩ := hw.dvd
      rw [hb, hk] at hbefore ⊢
      omega
    rcases hw.pages with ⟨-, hn⟩ | ⟨hle, -⟩
    · omega
    · refine .inl (hold (Nat.le_trans hfit hle) fun hr => ?_)
      exact ((Extends.appendPages pf (p :: ps)).holds ⟨hlo, hfit, hr⟩).read
  by_cases hbehind : pf.nextOffset + kPageSize * (p :: ps).length ≤ off
  · refine .inl (hold (by omega) fun hr => ?_)
    refine readAt?_overwrite_of_ge (readAt?_overwrite_of_ge hr ?_) ?_
    · rw [length_flatten_pages hlen]
      exact hbehind
    · rw [PageFile.length_headerBytes]
      omega
  · right
    obtain ⟨i, hi⟩ : ∃ i, off = pf.nextOffset + kPageSize * i := by
      obtain ⟨a, rfl⟩ := hd
      obtain ⟨b, hb⟩ := hw.dvd
      exact ⟨a - b, by rw [hb, ← Nat.mul_add]; congr 1; rw [hb, hk] at hbefore; omega⟩
    have hlt : i < (p :: ps).length := by
      rw [hk] at hi hbehind
      omega
    obtain ⟨front, back, hsplit, hfront⟩ : ∃ front back,
        p :: ps = front ++ (p :: ps)[i] :: back ∧ front.length = i :=
      ⟨(p :: ps).take i, (p :: ps).drop (i + 1),
        by rw [← List.drop_eq_getElem_cons, List.take_append_drop], by rw [List.length_take]; omega⟩
    have hnew := (@holds_appendPages pf _ _ _ _ hlen hsplit).readPage
    rw [hfront, ← hi, h] at hnew
    cases hnew
    exact ⟨front, back, hsplit, by rw [hfront, hi]⟩

theorem readPage_appendPages {pf : PageFile} (hw : Whole pf) {pages : List Bytes}
    (hlen : ∀ p ∈ pages, p.length = kPageSize) {off : Nat} {page : Bytes} (hd : kPageSize ∣ off)
    (hlo : kPageFileHeaderSize ≤ off) (h : (pf.appendPages pages).1.readPage off = .ok page) :
    pf.readPage off = .ok page ∨ page ∈ pages := by
  refine (readPage_appendPages_at hw hlen hd hlo h).imp id ?_
  rintro ⟨front, back, rfl, -⟩
  exact List.mem_append_right _ List.mem_cons_self

/-- The offsets of `P` are those of pages. -/
def Paged (P : Nat → Prop) : Prop := ∀ off, P off → kPageSize ∣ off ∧ kPageFileHeaderSize ≤ off

/-- **Good pages may be appended.** -/
theorem Closed.appendPages {pf : PageFile} (hw : Whole pf) (hP : Paged P) (h : Closed Q P pf)
    {pages : List Bytes} (hlen : ∀ p ∈ pages, p.length = kPageSize)
    (hgood : ∀ p ∈ pages, GoodPage Q P p) : Closed Q P (pf.appendPages pages).1 := by
  intro off page hoff hread
  obtain ⟨hd, hlo⟩ := hP off hoff
  rcases readPage_appendPages hw hlen hd hlo hread with hold | hnew
  · exact h off page hoff hold
  · exact hgood page hnew

/-! ## Persisting -/

/-- The leaves a map is written into hold entries of the map. -/
theorem serializeLeaves_links (t : PagedBTree) {source : List Entry}
    (hlen : ∀ e ∈ source, e.1.length < 2 ^ 16) {fuel : Nat} {es : List Entry}
    (hlsn : ∀ e ∈ es, e.2 < 2 ^ 64) {leaves : List (Bytes × Key)}
    (h : t.serializeLeaves source fuel es = some leaves) :
    ∀ leaf ∈ leaves, ∃ chunk, LinksAsLeaf source leaf.1 chunk ∧ ∀ e ∈ chunk, e ∈ es := by
  induction fuel generalizing es leaves with
  | zero =>
    cases es with
    | nil =>
      cases h
      simp
    | cons e es => cases h
  | succ fuel ih =>
    cases es with
    | nil =>
      cases h
      simp
    | cons e es =>
      obtain ⟨page, hp, hlinks⟩ := serializeLeafChunk_spec t.maxLsn t.summary.summaryLsn
        (e :: es) hlsn hlen
      rw [PagedBTree.serializeLeaves, hp] at h
      simp only at h
      split at h
      · cases h
      obtain ⟨rest, hrest, rfl⟩ := Option.map_eq_some_iff.1 h
      have htail := ih (fun e' he' => hlsn e' (List.mem_of_mem_drop he')) hrest
      intro leaf hm
      rcases List.mem_cons.1 hm with rfl | hm
      · exact ⟨_, hlinks, (takeChunk_start _ _).subset⟩
      · obtain ⟨chunk, hl, hsub⟩ := htail leaf hm
        exact ⟨chunk, hl, fun e' he' => List.mem_of_mem_drop (hsub e' he')⟩

/-- The pages between `lo` and `hi` are at offsets that lead to `P`. -/
def Span (P : Nat → Prop) (lo hi : Nat) : Prop :=
  ∀ off, kPageSize ∣ off → lo ≤ off → off < hi → Leads P off

theorem Span.mono {lo lo' hi hi' : Nat} (h : Span P lo hi) (hl : lo ≤ lo') (hh : hi' ≤ hi) :
    Span P lo' hi' := fun off hd h1 h2 => h off hd (by omega) (by omega)

/-- The chained leaves are good pages. -/
theorem linkLeaves_good {source : List Entry} {leaves : List (Bytes × Key)} {base : Nat}
    (hd : kPageSize ∣ base)
    (hall : ∀ leaf ∈ leaves, ∃ chunk, LinksAsLeaf source leaf.1 chunk ∧ ∀ e ∈ chunk, Q e)
    (hspan : Span P base (base + kPageSize * leaves.length)) :
    ∀ p ∈ PagedBTree.linkLeaves base (leaves.map (·.1)), p.length = kPageSize ∧ GoodPage Q P p := by
  induction leaves generalizing base with
  | nil => exact fun p hp => absurd hp List.not_mem_nil
  | cons leaf leaves ih =>
    obtain ⟨chunk, hlinks, hq⟩ := hall leaf List.mem_cons_self
    rw [List.length_cons, Nat.mul_succ] at hspan
    have hk : kPageSize = 4096 := rfl
    intro p hp
    rw [List.map_cons, linkLeaves_cons] at hp
    rcases List.mem_cons.1 hp with rfl | hp
    · split
      · exact ⟨hlinks.1.length, goodPage_leaf hlinks.1 hq (.inr (by decide))⟩
      · rename_i hne
        have hpos : 0 < leaves.length := by
          refine List.length_pos_of_ne_nil fun hnil => hne ?_
          rw [hnil, List.map_nil]
        have hlead := hspan (base + kPageSize) (Nat.dvd_add hd (Nat.dvd_refl _)) (by omega)
          (by rw [hk]; omega)
        exact ⟨(hlinks.2 _).length, goodPage_leaf (hlinks.2 _) hq hlead.symm⟩
    · refine ih (Nat.dvd_add hd (Nat.dvd_refl _))
        (fun l hl => hall l (List.mem_cons_of_mem _ hl)) (hspan.mono (by omega) (by omega)) p hp

theorem leafRefs_leads {base : Nat} (hd : kPageSize ∣ base) {keys : List Key}
    (hspan : Span P base (base + kPageSize * keys.length)) :
    ∀ c ∈ PagedBTree.leafRefs base keys, Leads P c.2 := by
  induction keys generalizing base with
  | nil => exact fun c hc => absurd hc List.not_mem_nil
  | cons key keys ih =>
    rw [List.length_cons, Nat.mul_succ] at hspan
    have hk : kPageSize = 4096 := rfl
    intro c hc
    rw [leafRefs_cons] at hc
    rcases List.mem_cons.1 hc with rfl | hc
    · exact hspan base hd (Nat.le_refl _) (by omega)
    · exact ih (Nat.dvd_add hd (Nat.dvd_refl _)) (hspan.mono (by omega) (by omega)) c hc

/-- A page file of good pages, whose end is aligned. -/
structure Good (Q : Entry → Prop) (P : Nat → Prop) (pf : PageFile) : Prop where
  whole : Whole pf
  closed : Closed Q P pf

theorem good_new : Good Q P PageFile.new := by
  refine ⟨whole_new, fun off page _ h => ?_⟩
  have hlen := (readAt?_some (PageFile.readPage_ok.1 h)).1
  have hnil : PageFile.new.file.length = 0 := rfl
  have hk : kPageSize = 4096 := rfl
  omega

theorem Good.open {pf : PageFile} (h : Good Q P pf) : Good Q P (PageFile.open pf.file) := by
  obtain ⟨hw, hf⟩ := h.whole.open
  refine ⟨hw, fun off page hoff hread => h.closed off page hoff ?_⟩
  rw [PageFile.readPage_ok] at hread ⊢
  rwa [hf] at hread

theorem Good.appendPages {pf : PageFile} (hP : Paged P) (h : Good Q P pf) {pages : List Bytes}
    (hlen : ∀ p ∈ pages, p.length = kPageSize) (hgood : ∀ p ∈ pages, GoodPage Q P p) :
    Good Q P (pf.appendPages pages).1 :=
  ⟨h.whole.appendPages hlen, h.closed.appendPages h.whole hP hlen hgood⟩

/-- One internal page over children that lead to `P`, and the offset it gets. -/
theorem Good.appendInternal {pf : PageFile} (hP : Paged P) (h : Good Q P pf) (t : PagedBTree)
    {cs : List Entry} (source : List Entry) (hcs : ∀ c ∈ cs, Leads P c.2) :
    Good Q P (pf.appendPages [serializeInternalPage t.preferHistogramSummary t.maxLsn
      t.summary.summaryLsn cs source]).1 := by
  refine h.appendPages hP (fun p hp => ?_) fun p hp => ?_
  · rw [List.mem_singleton.1 hp, serializeInternalPage]
    exact length_pageOf _ _
  · rw [List.mem_singleton.1 hp]
    exact goodPage_internal _ _ _ source hcs

section Build

variable (t : PagedBTree) (source : List Entry) (hP : Paged P) {hi : Nat}
include hP

/-- **A level over children that lead to `P`** keeps the file good and leads to `P`. -/
theorem appendGroups_good {fuel : Nat} {pf : PageFile} {children : List Entry} (h : Good Q P pf)
    (hcs : ∀ c ∈ children, Leads P c.2)
    (hhi : (t.appendGroups source fuel pf children).1.nextOffset ≤ hi)
    (hspan : Span P pf.nextOffset hi) :
    Good Q P (t.appendGroups source fuel pf children).1 ∧
      ∀ c ∈ (t.appendGroups source fuel pf children).2, Leads P c.2 := by
  induction fuel generalizing pf children with
  | zero => exact ⟨h, fun c hc => absurd hc List.not_mem_nil⟩
  | succ fuel ih =>
    cases children with
    | nil => exact ⟨h, fun c hc => absurd hc List.not_mem_nil⟩
    | cons c cs =>
      obtain ⟨group, hgroup⟩ : ∃ l, (c :: cs).take kInternalMaxEntries = c :: l := ⟨_, rfl⟩
      have hk : kPageSize = 4096 := rfl
      have hsub : ∀ c' ∈ c :: group, Leads P c'.2 := by
        intro c' hc'
        rw [← hgroup] at hc'
        exact hcs c' (List.mem_of_mem_take hc')
      have hnext := nextOffset_appendPages pf [serializeInternalPage t.preferHistogramSummary
        t.maxLsn t.summary.summaryLsn (c :: group) source]
      rw [List.length_singleton] at hnext
      have hone := h.appendInternal hP t source hsub
      have hoff := @appendPages_snd pf [serializeInternalPage t.preferHistogramSummary t.maxLsn
        t.summary.summaryLsn (c :: group) source] (by simp)
      simp only [PagedBTree.appendGroups, hgroup] at hhi ⊢
      generalize (pf.appendPages [serializeInternalPage t.preferHistogramSummary t.maxLsn
        t.summary.summaryLsn (c :: group) source]) = x at hnext hone hoff hhi ⊢
      have hext := (appendGroups_keys t source fuel x.1 ((c :: cs).drop kInternalMaxEntries)).1.le
      obtain ⟨hgood, hleads⟩ := ih hone (fun c' hc' => hcs c' (List.mem_of_mem_drop hc')) hhi
        (hspan.mono (by omega) (Nat.le_refl _))
      refine ⟨hgood, fun c' hc' => ?_⟩
      rcases List.mem_cons.1 hc' with rfl | hc'
      · rw [hoff]
        exact hspan _ h.whole.dvd (Nat.le_refl _) (by omega)
      · exact hleads c' hc'

/-- A single page at the end of the file. -/
theorem onePage_good {pf : PageFile} {children : List Entry} (h : Good Q P pf)
    (hcs : ∀ c ∈ children, Leads P c.2) :
    let pf' := (pf.appendPages [serializeInternalPage t.preferHistogramSummary t.maxLsn
      t.summary.summaryLsn children source]).1
    Good Q P pf' ∧ kPageSize ∣ pf.nextOffset ∧ pf.nextOffset ≤ pf.nextOffset ∧
      pf.nextOffset < pf'.nextOffset := by
  refine ⟨h.appendInternal hP t source hcs, h.whole.dvd, Nat.le_refl _, ?_⟩
  rw [nextOffset_appendPages, List.length_singleton]
  exact Nat.lt_add_of_pos_right (by decide)

omit hP in
/-- A root is built behind the pages that were there. -/
theorem buildInternalRoot_le {fuel : Nat} {pf pf' : PageFile} {root : Nat} {children : List Entry}
    (htwo : 2 ≤ children.length)
    (hr : t.buildInternalRoot source fuel pf children = some (.ok (pf', root))) :
    pf.nextOffset ≤ pf'.nextOffset := by
  induction fuel generalizing pf children with
  | zero =>
    match children, htwo with
    | c :: c' :: cs, _ =>
      simp only [PagedBTree.buildInternalRoot] at hr
      split at hr
      · cases hr
        exact Nat.le_add_right _ _
      · cases hr
  | succ fuel ih =>
    rw [buildInternalRoot_eq t source fuel pf htwo] at hr
    split at hr
    · cases hr
      exact (Extends.appendPages pf _).le
    · rename_i hmany
      obtain ⟨hlen, -⟩ := length_appendGroups t source pf (not_le.1 hmany)
      have hgroups := (appendGroups_keys t source children.length pf children).1.le
      exact Nat.le_trans hgroups (ih hlen hr)

/-- **All levels** keep the file good; the root is one of the new pages. -/
theorem buildInternalRoot_good {fuel : Nat} {pf pf' : PageFile} {root : Nat}
    {children : List Entry} (h : Good Q P pf) (hcs : ∀ c ∈ children, Leads P c.2)
    (htwo : 2 ≤ children.length)
    (hr : t.buildInternalRoot source fuel pf children = some (.ok (pf', root)))
    (hhi : pf'.nextOffset ≤ hi) (hspan : Span P pf.nextOffset hi) :
    Good Q P pf' ∧ kPageSize ∣ root ∧ pf.nextOffset ≤ root ∧ root < pf'.nextOffset := by
  induction fuel generalizing pf children with
  | zero =>
    match children, htwo with
    | c :: c' :: cs, _ =>
      simp only [PagedBTree.buildInternalRoot] at hr
      split at hr
      · cases hr
        exact onePage_good t source hP h hcs
      · cases hr
  | succ fuel ih =>
    rw [buildInternalRoot_eq t source fuel pf htwo] at hr
    split at hr
    · cases hr
      exact onePage_good t source hP h hcs
    · rename_i hmany
      obtain ⟨hlen, -⟩ := length_appendGroups t source pf (not_le.1 hmany)
      have hgroups := (appendGroups_keys t source children.length pf children).1.le
      have hle := buildInternalRoot_le t source hlen hr
      obtain ⟨hgood, hleads⟩ := appendGroups_good t source hP h hcs
        (Nat.le_trans hle hhi) hspan
      obtain ⟨hgood', hd, hlo, hlt⟩ := ih hgood hleads hlen hr (hspan.mono hgroups (Nat.le_refl _))
      exact ⟨hgood', hd, Nat.le_trans hgroups hlo, hlt⟩

end Build

/-- What `PersistRootImpl` leaves: the tree as it was but for the pages, or one that serves the map
from a new root. -/
theorem persistRootImpl_cases {t t' : PagedBTree} {pf : PageFile} (ht : t.pageFile = some pf)
    {m : SortedMap Key Nat} {st : Except Status Nat} (h : t.persistRootImpl m = some (t', st)) :
    (m.isEmpty = true ∧ st = .ok kLegacyMapRoot ∧ t' = { t with rootOffset := kLegacyMapRoot }) ∨
    ∃ leaves, t.serializeLeaves m.entries m.entries.length m.entries = some leaves ∧
      leaves ≠ [] ∧
      ((∃ e, st = .error e ∧ t' = { t with pageFile := some (pf.appendPages
          (PagedBTree.linkLeaves pf.nextOffset (leaves.map (·.1)))).1 }) ∨
        ∃ pf' root, st = .ok root ∧
          (leaves.length = 1 ∧ (pf', root) = pf.appendPages
              (PagedBTree.linkLeaves pf.nextOffset (leaves.map (·.1))) ∨
            2 ≤ leaves.length ∧ t.buildInternalRoot m.entries leaves.length (pf.appendPages
              (PagedBTree.linkLeaves pf.nextOffset (leaves.map (·.1)))).1
              (PagedBTree.leafRefs pf.nextOffset (leaves.map (·.2)))
                = some (.ok (pf', root))) ∧
          t' = { t with
            pageFile := some pf'
            rootOffset := root
            index := SortedMap.empty
            deltaDeleted := SortedMap.empty
            onDiskMode := true }) := by
  unfold PagedBTree.persistRootImpl at h
  rw [ht] at h
  simp only at h
  split at h
  · rename_i hempty
    cases h
    exact .inl ⟨hempty, rfl, by rw [← ht]⟩
  rename_i hempty
  right
  cases hleaves : t.serializeLeaves m.entries m.entries.length m.entries with
  | none =>
    rw [hleaves] at h
    cases h
  | some leaves =>
    have hne : leaves ≠ [] := by
      rintro rfl
      cases hm : m.entries with
      | nil => exact hempty (SortedMap.isEmpty_iff.2 hm)
      | cons e es =>
        rw [hm, List.length_cons, PagedBTree.serializeLeaves] at hleaves
        simp only at hleaves
        split at hleaves
        · cases hleaves
        · obtain ⟨rest, -, hrest⟩ := Option.map_eq_some_iff.1 hleaves
          cases hrest
    have hpages : PagedBTree.linkLeaves pf.nextOffset (leaves.map (·.1)) ≠ [] := by
      intro hnil
      have := congrArg List.length hnil
      rw [length_linkLeaves, List.length_map] at this
      exact hne (List.length_eq_zero_iff.1 this)
    have hfirst := @appendPages_snd pf _ hpages
    refine ⟨leaves, rfl, hne, ?_⟩
    simp only [hleaves, hfirst] at h
    by_cases hone : 1 < leaves.length
    · rw [if_pos hone] at h
      split at h
      · cases h
      · cases h
        exact .inl ⟨_, rfl, rfl⟩
      · rename_i pf' root hr
        cases h
        exact .inr ⟨pf', root, rfl, .inr ⟨hone, hr⟩, rfl⟩
    · rw [if_neg hone] at h
      cases h
      have hpos := List.length_pos_of_ne_nil hne
      exact .inr ⟨_, _, rfl, .inl ⟨by omega, Prod.ext rfl hfirst.symm⟩, rfl⟩

/-- Entries that a page has room for, and that the format can say. -/
def Writable (m : SortedMap Key Nat) : Prop :=
  ∀ e ∈ m.entries, e.1.length < 2 ^ 16 ∧ e.2 < 2 ^ 64

/-- **Persisting entries of `Q` keeps the pages good**, and the new root is one of them. -/
theorem persistRootImpl_good {t t' : PagedBTree} {pf : PageFile} (ht : t.pageFile = some pf)
    (hP : Paged P) (h : Good Q P pf) {m : SortedMap Key Nat} (hm : Writable m)
    (hq : ∀ e ∈ m.entries, Q e) {st : Except Status Nat}
    (hr : t.persistRootImpl m = some (t', st)) :
    ∃ pf', t'.pageFile = some pf' ∧ pf.nextOffset ≤ pf'.nextOffset ∧
      (Span P pf.nextOffset pf'.nextOffset →
        Good Q P pf' ∧ ∀ root, st = .ok root → m.isEmpty = false ∨ kPageFileHeaderSize ≤ root →
          kPageSize ∣ root ∧ pf.nextOffset ≤ root ∧ root < pf'.nextOffset) := by
  have hk : kPageSize = 4096 := rfl
  rcases persistRootImpl_cases ht hr with ⟨hempty, rfl, rfl⟩ | ⟨leaves, hleaves, hne, hcase⟩
  · refine ⟨pf, ht, Nat.le_refl _, fun _ => ⟨h, fun root hroot hor => ?_⟩⟩
    cases hroot
    rcases hor with hfull | hlo
    · exact absurd (hfull.symm.trans hempty) Bool.false_ne_true
    · exact absurd hlo (by decide)
  have hlinks := serializeLeaves_links t (fun e he => (hm e he).1) (fun e he => (hm e he).2) hleaves
  have hall : ∀ leaf ∈ leaves, ∃ chunk, LinksAsLeaf m.entries leaf.1 chunk ∧ ∀ e ∈ chunk, Q e :=
    fun leaf hl => (hlinks leaf hl).imp fun chunk hc => ⟨hc.1, fun e he => hq e (hc.2 e he)⟩
  have hend := nextOffset_appendPages pf (PagedBTree.linkLeaves pf.nextOffset (leaves.map (·.1)))
  rw [length_linkLeaves, List.length_map] at hend
  have hleafGood : Span P pf.nextOffset (pf.nextOffset + kPageSize * leaves.length) →
      Good Q P (pf.appendPages (PagedBTree.linkLeaves pf.nextOffset (leaves.map (·.1)))).1 :=
    fun hspan => h.appendPages hP
      (fun p hp => (linkLeaves_good h.whole.dvd hall hspan p hp).1)
      fun p hp => (linkLeaves_good h.whole.dvd hall hspan p hp).2
  rcases hcase with ⟨e, rfl, rfl⟩ | ⟨pf', root, rfl, hbuilt, rfl⟩
  · refine ⟨_, rfl, by omega, fun hspan => ⟨hleafGood (hend ▸ hspan), fun root hroot => ?_⟩⟩
    cases hroot
  rcases hbuilt with ⟨hone, hpf⟩ | ⟨htwo, hbuild⟩
  · have h1 := congrArg Prod.fst hpf
    have h2 := congrArg Prod.snd hpf
    simp only at h1 h2
    rw [← h1] at hend hleafGood
    have hsize : kPageSize * leaves.length = 4096 := by rw [hone, hk]
    refine ⟨pf', rfl, by omega, fun hspan => ⟨hleafGood (hend ▸ hspan), fun root' hroot _ => ?_⟩⟩
    cases hroot
    rw [appendPages_snd] at h2
    · exact ⟨h2 ▸ h.whole.dvd, by omega, by omega⟩
    · intro hnil
      have := congrArg List.length hnil
      rw [length_linkLeaves, List.length_map] at this
      simp only [List.length_nil] at this
      omega
  · have hlr : (PagedBTree.leafRefs pf.nextOffset (leaves.map (·.2))).length = leaves.length := by
      have := congrArg List.length (map_leafRefs pf.nextOffset (leaves.map (·.2)))
      simpa using this
    have hle := buildInternalRoot_le t m.entries (by omega) hbuild
    refine ⟨pf', rfl, by omega, fun hspan => ?_⟩
    have hgood := hleafGood (hspan.mono (Nat.le_refl _) (by omega))
    have hrefs := @leafRefs_leads P _ h.whole.dvd (leaves.map (·.2))
      (hspan.mono (Nat.le_refl _) (by rw [List.length_map]; omega))
    obtain ⟨hgood', hd, hlo, hlt⟩ := buildInternalRoot_good t m.entries hP hgood hrefs (by omega)
      hbuild (Nat.le_refl _) (hspan.mono (by omega) (Nat.le_refl _))
    refine ⟨hgood', fun root' hroot _ => ?_⟩
    cases hroot
    exact ⟨hd, by omega, hlt⟩

/-! ## Trees -/

/-- The offsets a page can be at. -/
def PageOffset (off : Nat) : Prop := kPageSize ∣ off ∧ kPageFileHeaderSize ≤ off

theorem paged_pageOffset : Paged PageOffset := fun _ h => h

/-- Every aligned offset leads to a page offset, also when four bytes do not hold it. -/
theorem span_pageOffset (lo hi : Nat) : Span PageOffset lo hi := by
  intro off hd _ _
  have hk : kPageSize = 4096 := rfl
  rcases Nat.lt_or_ge (off % 2 ^ 32) kPageFileHeaderSize with hlt | hge
  · exact .inl hlt
  · refine .inr ⟨?_, hge⟩
    rw [hk] at hd ⊢
    omega

/-- The tree finds entries of `Q` only: those of its index are, and its pages are good. -/
structure SoundTree (Q : Entry → Prop) (t : PagedBTree) : Prop where
  index : ∀ key lsn, t.index.find? key = some lsn → Q (key, lsn)
  pages : ∀ pf, t.pageFile = some pf → Good Q PageOffset pf
  root : t.onDiskMode = true → kPageFileHeaderSize ≤ t.rootOffset → kPageSize ∣ t.rootOffset

namespace SoundTree

variable {t : PagedBTree}

theorem new {pf : PageFile} (h : Good Q PageOffset pf) (prefer : Bool) :
    SoundTree Q { PagedBTree.new (some pf) with preferHistogramSummary := prefer } where
  index key lsn hf := by
    change SortedMap.empty.find? key = some lsn at hf
    rw [SortedMap.find?_empty] at hf
    cases hf
  pages pf' hpf := by
    cases hpf
    exact h
  root hd := absurd hd Bool.false_ne_true

theorem mono {Q' : Entry → Prop} (h : SoundTree Q t) (hq : ∀ e, Q e → Q' e) : SoundTree Q' t where
  index key lsn hf := hq _ (h.index key lsn hf)
  pages pf ht := by
    obtain ⟨hw, hc⟩ := h.pages pf ht
    refine ⟨hw, fun off page hoff hread => ?_⟩
    obtain ⟨he, hn, hch⟩ := hc off page hoff hread
    exact ⟨fun es hes e hm => hq e (he es hes e hm), hn, hch⟩
  root := h.root

/-- **A sound tree answers with entries of `Q` only.** -/
theorem get (h : SoundTree Q t) {key : Key} {lsn : Nat} (hg : t.get key = some (.ok lsn)) :
    Q (key, lsn) := by
  unfold PagedBTree.get at hg
  split at hg
  · cases hg
  cases hf : t.index.find? key with
  | some lsn' =>
    rw [hf] at hg
    cases hg
    exact h.index key _ hf
  | none =>
    rw [hf] at hg
    simp only at hg
    split at hg
    · rename_i hdisk
      cases hpf : t.pageFile with
      | none =>
        unfold PagedBTree.walkFuel PagedBTree.getFromDiskAt at hg
        simp only [PagedBTree.readPageHeader, hpf] at hg
        cases hg
      | some pf =>
        exact getFromDiskAt_sound hpf (h.pages pf hpf).closed
          ⟨h.root hdisk.1 hdisk.2, hdisk.2⟩ hg
    · cases hg

theorem put (h : SoundTree Q t) {key : Key} {lsn : Nat} (hq : Q (key, lsn)) :
    SoundTree Q (t.put key lsn) where
  index key' lsn' hf := by
    change (t.index.insert key lsn).find? key' = some lsn' at hf
    rw [SortedMap.find?_insert] at hf
    split at hf
    · rename_i hkey
      cases hf
      exact hkey ▸ hq
    · exact h.index key' lsn' hf
  pages := h.pages
  root := h.root

/-- Only the bounds change with the summary. -/
theorem of_summary (h : SoundTree Q t) {u : PagedBTree} (hi : u.index = t.index)
    (hp : u.pageFile = t.pageFile) (hm : u.onDiskMode = t.onDiskMode)
    (hr : u.rootOffset = t.rootOffset) : SoundTree Q u where
  index key lsn hf := h.index key lsn (hi ▸ hf)
  pages pf ht := h.pages pf (hp ▸ ht)
  root hd hlo := by
    rw [hr] at hlo ⊢
    exact h.root (hm ▸ hd) hlo

theorem rebuildSummary (h : SoundTree Q t) : SoundTree Q t.rebuildSummary := by
  unfold PagedBTree.rebuildSummary
  split
  · exact h.of_summary rfl rfl rfl rfl
  · split
    · exact h
    · exact h.of_summary rfl rfl rfl rfl

theorem deleteKey (h : SoundTree Q t) (key : Key) (lsn : Nat) : SoundTree Q (t.deleteKey key lsn) := by
  have hbase : SoundTree Q { t with
      index := t.index.erase key
      deltaDeleted := t.deltaDeleted.insert key ()
      maxLsn := max t.maxLsn lsn } := by
    refine ⟨fun key' lsn' hf => ?_, h.pages, h.root⟩
    rw [SortedMap.find?_erase] at hf
    split at hf
    · cases hf
    · exact h.index key' lsn' hf
  unfold PagedBTree.deleteKey PagedBTree.updateSummaryOnDelete
  split
  · exact hbase.of_summary rfl rfl rfl rfl
  split
  · exact hbase.of_summary rfl rfl rfl rfl
  split
  · exact hbase.of_summary rfl rfl rfl rfl
  · exact hbase.rebuildSummary

theorem rebuildSummaryFromCommitted (h : SoundTree Q t) (m : SortedMap Key Nat) :
    SoundTree Q (t.rebuildSummaryFromCommitted m) := by
  unfold PagedBTree.rebuildSummaryFromCommitted
  split
  · exact h.of_summary rfl rfl rfl rfl
  · exact h

theorem ensureSummaryLsnAtLeast (h : SoundTree Q t) (lsn : Nat) :
    SoundTree Q (t.ensureSummaryLsnAtLeast lsn) := h.of_summary rfl rfl rfl rfl

theorem loadFromMap (h : SoundTree Q t) {m : SortedMap Key Nat}
    (hq : ∀ key lsn, m.find? key = some lsn → Q (key, lsn)) : SoundTree Q (t.loadFromMap m) := by
  have hbase : SoundTree Q { t with
      index := m
      deltaDeleted := SortedMap.empty
      maxLsn := m.entries.foldl (fun n e => max n e.2) 0 } := ⟨hq, h.pages, h.root⟩
  have hsum := hbase.rebuildSummary
  exact ⟨hsum.index, hsum.pages, fun hd => absurd hd Bool.false_ne_true⟩

theorem persistRootFromMap (h : SoundTree Q t) {m : SortedMap Key Nat} (hm : Writable m)
    (hq : ∀ e ∈ m.entries, Q e) {t' : PagedBTree} {st : Except Status Nat}
    (hr : t.persistRootFromMap m = some (t', st)) :
    SoundTree Q t' ∧ ∀ root, st = .ok root → kPageFileHeaderSize ≤ root → kPageSize ∣ root := by
  unfold PagedBTree.persistRootFromMap at hr
  cases hpf : t.pageFile with
  | none =>
    rw [PagedBTree.persistRootImpl, hpf] at hr
    cases hr
    exact ⟨h, fun root hroot => by cases hroot⟩
  | some pf =>
    obtain ⟨pf', hpf', -, hgood⟩ :=
      persistRootImpl_good hpf paged_pageOffset (h.pages pf hpf) hm hq hr
    obtain ⟨hgood, hroot⟩ := hgood (span_pageOffset _ _)
    refine ⟨⟨?_, fun pf'' ht => ?_, ?_⟩, fun root hst hlo => (hroot root hst (.inr hlo)).1⟩
    · rcases persistRootImpl_cases hpf hr with ⟨-, -, rfl⟩ | ⟨_, -, -, ⟨e, -, rfl⟩ | ⟨_, _, -, -, rfl⟩⟩
      · exact h.index
      · exact h.index
      · simp
    · rw [hpf'] at ht
      cases ht
      exact hgood
    · rcases persistRootImpl_cases hpf hr with ⟨-, -, rfl⟩ | ⟨_, -, -, ⟨e, -, rfl⟩ | ⟨_, _, rfl, -, rfl⟩⟩
      · exact fun _ hlo => absurd (show kPageFileHeaderSize ≤ kLegacyMapRoot from hlo) (by decide)
      · exact h.root
      · exact fun _ hlo => (hroot _ rfl (.inr hlo)).1

theorem loadRoot (h : SoundTree Q t) {root : Nat}
    (hroot : kPageFileHeaderSize ≤ root → kPageSize ∣ root) : SoundTree Q (t.loadRoot root).1 := by
  unfold PagedBTree.loadRoot
  split
  · exact h
  split
  · exact h
  simp only
  split
  · exact ⟨by simp, h.pages, h.root⟩
  · exact ⟨by simp, h.pages, fun _ hlo => hroot hlo⟩

end SoundTree

end EBTree.BTree
