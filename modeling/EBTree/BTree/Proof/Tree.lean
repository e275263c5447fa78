import EBTree.BTree.Proof.Memory
import EBTree.BTree.Proof.Pages

/-!
# Trees in a page file

* `Holds pf off page`: the page lies at `off`; appending keeps it (`Extends.appendPages`).
* `LeafChain pf source off ess`: the leaves chained from `off` hold `ess`.
* `Node pf m h off lo`: a subtree of height `h` at `off` that finds every entry of `m` from the key
  `lo` on. Its constructors are the step from one level to the next.
* `LeafChain.get`, `Node.get`: a lookup in them answers what the map does.
-/

set_option autoImplicit false

namespace EBTree.BTree

open Lib

/-! ## Pages in a file -/

/-- The page file has the page at `off`, behind its header and in front of its end. -/
structure Holds (pf : PageFile) (off : Nat) (page : Bytes) : Prop where
  lo : kPageFileHeaderSize ≤ off
  hi : off + kPageSize ≤ pf.nextOffset
  read : readAt? pf.file off kPageSize = some page

/-- `pf'` has every page of `pf`. -/
structure Extends (pf pf' : PageFile) : Prop where
  le : pf.nextOffset ≤ pf'.nextOffset
  holds : ∀ {off page}, Holds pf off page → Holds pf' off page

theorem Extends.rfl {pf : PageFile} : Extends pf pf := ⟨Nat.le_refl _, fun h => h⟩

theorem Extends.trans {pf pf' pf'' : PageFile} (h : Extends pf pf') (h' : Extends pf' pf'') :
    Extends pf pf'' := ⟨Nat.le_trans h.le h'.le, fun hp => h'.holds (h.holds hp)⟩

theorem Holds.length_le {pf : PageFile} {off : Nat} {page : Bytes} (h : Holds pf off page) :
    off + kPageSize ≤ pf.file.length := (readAt?_some h.read).1

theorem Holds.readPage {pf : PageFile} {off : Nat} {page : Bytes} (h : Holds pf off page) :
    pf.readPage off = .ok page := PageFile.readPage_ok.2 h.read

theorem nextOffset_appendPages (pf : PageFile) (pages : List Bytes) :
    (pf.appendPages pages).1.nextOffset = pf.nextOffset + kPageSize * pages.length := by
  unfold PageFile.appendPages
  cases pages <;> simp

/-- Appending pages keeps the ones that are there. -/
theorem Extends.appendPages (pf : PageFile) (pages : List Bytes) :
    Extends pf (pf.appendPages pages).1 := by
  refine ⟨by rw [nextOffset_appendPages]; omega, fun {off page} h => ⟨h.lo, ?_, ?_⟩⟩
  · rw [nextOffset_appendPages]
    exact Nat.le_trans h.hi (Nat.le_add_right _ _)
  · cases pages with
    | nil => exact h.read
    | cons p ps =>
      have hlo := h.lo
      have hk : kPageFileHeaderSize = 4096 := Eq.refl _
      have hpages : readAt? (overwrite pf.file pf.nextOffset (p :: ps).flatten) off kPageSize
          = some page := readAt?_overwrite_of_le h.read h.hi
      exact readAt?_overwrite_of_ge hpages (by rw [PageFile.length_headerBytes]; omega)

theorem length_flatten_pages {pages : List Bytes} (h : ∀ p ∈ pages, p.length = kPageSize) :
    pages.flatten.length = kPageSize * pages.length := by
  induction pages with
  | nil => simp
  | cons p ps ih =>
    have hp := h p List.mem_cons_self
    have hps := ih fun q hq => h q (List.mem_cons_of_mem _ hq)
    rw [List.flatten_cons, List.length_append, hp, hps, List.length_cons, Nat.mul_succ]
    omega

/-- The pages appended lie one behind the other from the old end on. -/
theorem holds_appendPages {pf : PageFile} {pages front back : List Bytes} {page : Bytes}
    (hlen : ∀ p ∈ pages, p.length = kPageSize) (hp : pages = front ++ page :: back) :
    Holds (pf.appendPages pages).1 (pf.nextOffset + kPageSize * front.length) page := by
  have hhdr := pf.header_le
  have hk : kPageFileHeaderSize = 4096 := rfl
  have hpage : page.length = kPageSize := hlen page (by simp [hp])
  have hcount : pages.length = front.length + (back.length + 1) := by simp [hp]
  refine ⟨by omega, ?_, ?_⟩
  · rw [nextOffset_appendPages, hcount, Nat.mul_add, Nat.mul_succ]
    omega
  · have hfront : front.flatten.length = kPageSize * front.length :=
      length_flatten_pages fun p hpm => hlen p (by simp [hp, hpm])
    have hread : readAt? (overwrite pf.file pf.nextOffset pages.flatten)
        (pf.nextOffset + front.flatten.length) kPageSize = some page :=
      readAt?_overwrite_part front.flatten back.flatten (by simp [hp]) rfl hpage.symm
    rw [hfront] at hread
    have hne : pages.isEmpty = false := by simp [hp]
    simp only [PageFile.appendPages, hne]
    exact readAt?_overwrite_of_ge hread (by rw [PageFile.length_headerBytes]; omega)

theorem appendPages_snd {pf : PageFile} {pages : List Bytes} (h : pages ≠ []) :
    (pf.appendPages pages).2 = pf.nextOffset := by
  cases pages with
  | nil => exact absurd rfl h
  | cons p ps => rfl

/-! ## Chains of leaves -/

/-- The leaves chained from `off` on, with their entries. -/
inductive LeafChain (pf : PageFile) (source : List Entry) : Nat → List (List Entry) → Prop
  | last {off next : Nat} {page : Bytes} {es : List Entry} :
      Holds pf off page → IsLeaf source page es next → next < kPageFileHeaderSize →
      LeafChain pf source off [es]
  | link {off next : Nat} {page : Bytes} {es : List Entry} {ess : List (List Entry)} :
      Holds pf off page → IsLeaf source page es next → off < next →
      LeafChain pf source next ess → LeafChain pf source off (es :: ess)

namespace LeafChain

variable {pf pf' : PageFile} {source : List Entry} {off : Nat} {ess : List (List Entry)}

theorem mono (h : LeafChain pf source off ess) (he : Extends pf pf') :
    LeafChain pf' source off ess := by
  induction h with
  | last hp hl hn => exact .last (he.holds hp) hl hn
  | link hp hl hlt _ ih => exact .link (he.holds hp) hl hlt ih

/-- The first page of the chain. -/
theorem head (h : LeafChain pf source off ess) :
    ∃ page es next, Holds pf off page ∧ IsLeaf source page es next := by
  cases h with
  | last hp hl _ => exact ⟨_, _, _, hp, hl⟩
  | link hp hl _ _ => exact ⟨_, _, _, hp, hl⟩

/-- The offsets of a chain increase, so it is not longer than the file. -/
theorem length_le (h : LeafChain pf source off ess) : off + ess.length ≤ pf.file.length := by
  induction h with
  | last hp _ _ =>
    have := hp.length_le
    have hk : kPageSize = 4096 := rfl
    simp only [List.length_singleton]
    omega
  | link _ _ hlt _ ih =>
    simp only [List.length_cons]
    omega

end LeafChain

theorem readPageBytes_holds {t : PagedBTree} {pf : PageFile} (ht : t.pageFile = some pf)
    {off : Nat} {page : Bytes} (h : Holds pf off page) : t.readPageBytes off = .ok page := by
  simp only [PagedBTree.readPageBytes, ht, h.readPage]

theorem readPageHeader_holds {t : PagedBTree} {pf : PageFile} (ht : t.pageFile = some pf)
    {off : Nat} {page : Bytes} (h : Holds pf off page)
    (hc : PageHeader.storedCrc page = (crc32 (page.take 57)).toNat) :
    t.readPageHeader off = .ok (PageHeader.decode page) := by
  simp only [PagedBTree.readPageHeader, ht, h.readPage, hc, if_true]

/-- **A lookup along a chain of leaves** finds what the leaves hold. -/
theorem LeafChain.get {t : PagedBTree} {pf : PageFile} (ht : t.pageFile = some pf)
    {source : List Entry} {off : Nat} {ess : List (List Entry)} (h : LeafChain pf source off ess)
    (key : Key) {fuel : Nat} (hf : ess.length < fuel) :
    Answers (t.getFromLeafChain key fuel off) (SortedMap.findIn key ess.flatten) := by
  have hk : kPageFileHeaderSize = 4096 := rfl
  induction h generalizing fuel with
  | @last off next page es hp hl hn =>
    obtain ⟨fuel, rfl⟩ : ∃ n, fuel = n + 2 := ⟨fuel - 2, by simp at hf; omega⟩
    have hlo := hp.lo
    rw [List.flatten_singleton, PagedBTree.getFromLeafChain, if_neg (by omega),
      readPageBytes_holds ht hp]
    simp only [hl.type, hl.entries, hl.next_eq, ne_eq, not_true_eq_false, if_false]
    cases hfind : SortedMap.findIn key es with
    | some lsn => exact rfl
    | none =>
      simp only
      rw [PagedBTree.getFromLeafChain, if_pos hn]
      exact ⟨_, rfl⟩
  | @link off next page es ess hp hl _ _ ih =>
    obtain ⟨fuel, rfl⟩ : ∃ n, fuel = n + 1 := ⟨fuel - 1, by omega⟩
    have hlo := hp.lo
    rw [List.flatten_cons, SortedMap.findIn_append, PagedBTree.getFromLeafChain,
      if_neg (by omega), readPageBytes_holds ht hp]
    simp only [hl.type, hl.entries, hl.next_eq, ne_eq, not_true_eq_false, if_false]
    cases hfind : SortedMap.findIn key es with
    | some lsn => exact rfl
    | none => exact ih (by simp at hf; omega)

/-! ## Subtrees -/

/-- A subtree of height `h` at `off` through which the entries of `m` from the key `lo` on are
found. -/
inductive Node (pf : PageFile) (m : SortedMap Key Nat) : Nat → Nat → Key → Prop
  | leaf {off : Nat} {ess : List (List Entry)} {lo : Key} :
      LeafChain pf m.entries off ess → (∀ e ∈ ess.flatten, e ∈ m.entries) →
      (∀ e ∈ m.entries, ¬ e.1 < lo → e ∈ ess.flatten) → Node pf m 0 off lo
  | internal {h off : Nat} {page : Bytes} {c : Entry} {cs : List Entry} :
      Holds pf off page → IsInternal page (c :: cs) → (∀ c' ∈ c :: cs, c'.2 < off) →
      (∀ c' ∈ c :: cs, Node pf m h c'.2 c'.1) → Node pf m (h + 1) off c.1

namespace Node

variable {pf pf' : PageFile} {m : SortedMap Key Nat} {h off : Nat} {lo : Key}

theorem mono (hn : Node pf m h off lo) (he : Extends pf pf') : Node pf' m h off lo := by
  induction hn with
  | leaf hc hsub hall => exact .leaf (hc.mono he) hsub hall
  | internal hp hi hlt _ ih => exact .internal (he.holds hp) hi hlt ih

theorem bounds (hn : Node pf m h off lo) :
    kPageFileHeaderSize + h ≤ off ∧ off + kPageSize ≤ pf.nextOffset ∧
      off + kPageSize ≤ pf.file.length := by
  induction hn with
  | leaf hc _ _ =>
    obtain ⟨page, es, next, hp, -⟩ := hc.head
    exact ⟨hp.lo, hp.hi, hp.length_le⟩
  | @internal h off page c cs hp _ hlt _ ih =>
    have h1 := (ih c List.mem_cons_self).1
    have h2 := hlt c List.mem_cons_self
    exact ⟨by omega, hp.hi, hp.length_le⟩

end Node

/-- A key outside the bounds a leaf states is not in the map, when the keys are short enough to be
stated whole. -/
theorem find?_none_of_pruned {m : SortedMap Key Nat} (hshort : ∀ e ∈ m.entries, e.1.length ≤ 14)
    {hdr : PageHeader} (ht : hdr.type = kPageTypeLeaf)
    (hb : headerBounds hdr = sourceBounds m.entries) {key : Key}
    (hp : pageSummaryCoversKey hdr key = false) : m.find? key = none := by
  have htake : ∀ e ∈ m.entries, e.1.take kPageSummaryKeyBytes = e.1 :=
    fun e he => List.take_of_length_le (hshort e he)
  refine SortedMap.find?_eq_none_iff.2 fun e he hkey => ?_
  obtain ⟨first, hf⟩ : ∃ e, m.entries.head? = some e := by
    cases hm : m.entries with
    | nil => rw [hm] at he; cases he
    | cons a l => exact ⟨a, rfl⟩
  obtain ⟨last, hl⟩ : ∃ e, m.entries.getLast? = some e := by
    cases hm : m.entries.getLast? with
    | none => rw [List.getLast?_eq_none_iff.1 hm] at he; cases he
    | some a => exact ⟨a, rfl⟩
  have hlo := SortedMap.first_le hf he
  have hhi := SortedMap.le_last hl he
  simp only [pageSummaryCoversKey, hb, sourceBounds, hf, hl, Option.map_some, Option.getD_some,
    htake first (List.mem_of_head? hf), htake last (List.mem_of_getLast? hl), ht] at hp
  rw [hkey] at hlo hhi
  split at hp
  · cases hp
  · split at hp
    · rename_i hint
      exact absurd hint (by decide)
    · split at hp
      · rename_i hout
        exact absurd hlo (not_le.2 hout.2)
      · split at hp
        · rename_i hout
          exact absurd hhi (not_le.2 hout.2)
        · cases hp

/-- **The descent** from a subtree answers what the map does for every key it is responsible for,
and for every key that the map does not have. -/
theorem Node.get {t : PagedBTree} {pf : PageFile} (ht : t.pageFile = some pf)
    {m : SortedMap Key Nat} (hshort : ∀ e ∈ m.entries, e.1.length ≤ 14) {h off : Nat} {lo : Key}
    (hn : Node pf m h off lo) {key : Key} (hkey : ¬ key < lo ∨ m.find? key = none) {fuel : Nat}
    (hf : h < fuel) : Answers (t.getFromDiskAt key fuel off) (m.find? key) := by
  induction hn generalizing fuel with
  | @leaf off ess lo hc hsub hall =>
    obtain ⟨fuel, rfl⟩ : ∃ n, fuel = n + 1 := ⟨fuel - 1, by omega⟩
    obtain ⟨page, es, next, hp, hl⟩ := hc.head
    rw [PagedBTree.getFromDiskAt, readPageHeader_holds ht hp hl.crc]
    cases hcov : pageSummaryCoversKey (PageHeader.decode page) key with
    | false =>
      simp only [hcov, Bool.not_false, if_true]
      rw [find?_none_of_pruned hshort hl.type hl.bounds hcov]
      exact ⟨_, rfl⟩
    | true =>
      simp only [hcov, hl.type, Bool.not_true, if_true, Bool.false_eq_true, if_false]
      have hfuel : ess.length < t.walkFuel := by
        have hlen := hc.length_le
        simp only [PagedBTree.walkFuel, ht, Option.map_some, Option.getD_some]
        omega
      -- the chain has the key exactly when the map does
      have hfind : SortedMap.findIn key ess.flatten = m.find? key := by
        cases hm : m.find? key with
        | none =>
          refine SortedMap.findIn_eq_none_iff.2 fun e he => ?_
          exact SortedMap.find?_eq_none_iff.1 hm e (hsub e he)
        | some lsn =>
          have hmem := SortedMap.mem_entries_iff.2 hm
          have hge : ¬ key < lo := hkey.resolve_right (by simp [hm])
          have hin := hall _ hmem hge
          cases hfi : SortedMap.findIn key ess.flatten with
          | none => exact absurd rfl (SortedMap.findIn_eq_none_iff.1 hfi _ hin)
          | some lsn' =>
            have hmem' := SortedMap.mem_entries_iff.1 (hsub _ (SortedMap.mem_of_findIn hfi))
            rw [← hm, hmem']
      rw [← hfind]
      exact hc.get ht key hfuel
  | @internal h off page c cs hp hi hlt hnodes ih =>
    obtain ⟨fuel, rfl⟩ : ∃ n, fuel = n + 1 := ⟨fuel - 1, by omega⟩
    have hcov : pageSummaryCoversKey (PageHeader.decode page) key = true := by
      simp [pageSummaryCoversKey, hi.type]
    have hne : kPageTypeInternal ≠ kPageTypeLeaf := by decide
    rw [PagedBTree.getFromDiskAt, readPageHeader_holds ht hp hi.crc]
    simp only [hcov, hi.type, readPageBytes_holds ht hp, hi.choose, Bool.not_true, ne_eq,
      Bool.false_eq_true, if_false, hne, not_true_eq_false]
    by_cases hlow : key < c.1
    · -- no child: the key is in front of the subtree
      rw [hkey.resolve_left (not_not_intro hlow)]
      rw [chooseChild, if_pos hlow, if_pos (by decide)]
      exact ⟨_, rfl⟩
    · obtain ⟨c', hc', hk', he'⟩ := chooseChild_mem 0 hlow
      have hb := (hnodes c' hc').bounds.1
      rw [he', if_neg (by omega)]
      exact ih c' hc' (.inl hk') (by omega)

end EBTree.BTree
