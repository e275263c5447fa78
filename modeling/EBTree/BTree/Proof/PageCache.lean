import EBTree.BTree.Proof.CachedPageFile

/-!
# Runs of reads and appends

* `Sound`: the cache holds pages of the file and the stream has not failed. `step_sound`: a step
  whose reads stay within the pages keeps it.
* `page_cache_transparent`: where only stored pages are read, each list without repeats, the cache
  changes nothing and its containers stay together.
* `reads_within_pages`: reads within the pages do no harm, whatever they find there.
* `readPage_failed`: a stream that has failed gives no page any more.
-/

set_option autoImplicit false

namespace EBTree.BTree.CachedPageFile

open Lib Codec

variable {L : LzmaLib} {s s₀ : CachedPageFile} {o : Nat} {p : Bytes}

/-! ## Steps -/

inductive PageOp
  | appendPages (pages : List Bytes)
  | readPage (offset : Nat)
  | readPages (offsets : List Nat)

/-- The state after a call. -/
def step (L : LzmaLib) (s : CachedPageFile) : PageOp → CachedPageFile
  | .appendPages pages => (s.appendPages L pages).1
  | .readPage offset => (s.readPage L offset).1
  | .readPages offsets => (s.readPages L offsets).1

/-- The states that calls lead to, each of them allowed in the state before it. -/
inductive Reaches (L : LzmaLib) (allowed : CachedPageFile → PageOp → Prop) (s₀ : CachedPageFile) :
    CachedPageFile → Prop
  | start : Reaches L allowed s₀ s₀
  | call {s : CachedPageFile} {op : PageOp} (h : Reaches L allowed s₀ s) (ha : allowed s op) :
      Reaches L allowed s₀ (s.step L op)

/-- A page file that was opened and not read yet. -/
structure Opened (s : CachedPageFile) : Prop extends Format s where
  fine : s.readFailed = false
  cold : s.cache = .empty s.cache.capacity

/-- Appends write whole pages. -/
def WholePages (_ : CachedPageFile) : PageOp → Prop
  | .appendPages pages => ∀ page ∈ pages, page.length = kPageSize
  | .readPage _ => True
  | .readPages _ => True

/-- The offsets read hold stored pages, and those of a list are distinct. -/
def ReadsStored (L : LzmaLib) (s : CachedPageFile) : PageOp → Prop
  | .appendPages pages => ∀ page ∈ pages, page.length = kPageSize
  | .readPage offset => ∃ p, StoredAt L s offset p
  | .readPages offsets => offsets.Nodup ∧ ∀ o ∈ offsets, ∃ p, StoredAt L s o p

/-- Every read is answered from the cache or ends within the pages of the file. -/
def ReadsWithin (s : CachedPageFile) : PageOp → Prop
  | .appendPages pages => ∀ page ∈ pages, page.length = kPageSize
  | .readPage offset => s.cache.hit offset = true ∨ s.Fits offset
  | .readPages offsets => ∀ o ∈ offsets, s.cache.hit o = true ∨ s.Fits o

theorem ReadsStored.within {op : PageOp} (h : ReadsStored L s op) : s.ReadsWithin op := by
  cases op with
  | appendPages pages => exact h
  | readPage offset =>
    obtain ⟨p, hp⟩ := h
    exact .inr hp.fits
  | readPages offsets =>
    intro o ho
    obtain ⟨p, hp⟩ := h.2 o ho
    exact .inr hp.fits

/-! ## The invariant -/

/-- The cache holds pages of the file, and the stream has not failed. -/
structure Sound (L : LzmaLib) (s : CachedPageFile) : Prop extends Format s where
  fine : s.readFailed = false
  backed : s.cache.Backed
  contents : s.cache.Contents fun o q => kPageFileHeaderSize ≤ o → StoredAt L s o q

theorem Opened.sound (h : Opened s) : Sound L s := by
  refine ⟨h.toFormat, h.fine, ?_, ?_⟩
  · rw [h.cold]
    exact (LruCache.Coherent.empty _).backed
  · rw [h.cold]
    intro k v hv
    cases hv

/-- What a call does where its reads stay within the pages: it appends, or it changes the cache. -/
theorem step_within (hs : Sound L s) {op : PageOp} (h : s.ReadsWithin op) :
    (∃ pages, op = .appendPages pages) ∨
      ∃ os ks : List Nat,
        (∀ k ∈ ks, s.cache.hit k = false ∧ s.Fits k ∧
          (s.readStoredPage L k).2 = .ok (s.pageAt L k)) ∧
        (ReadsStored L s op → ks.Nodup) ∧
        s.step L op = { s with cache := (s.cache.useAll os).insertAll (s.pageAt L) ks } := by
  cases op with
  | appendPages pages => exact .inl ⟨pages, rfl⟩
  | readPage offset =>
    right
    by_cases hhit : s.cache.hit offset = true
    · refine ⟨[offset], [], by simp, fun _ => List.nodup_nil, ?_⟩
      simp only [step, readPage, hhit, if_true, LruCache.useAll, LruCache.insertAll, List.foldl_cons,
        List.foldl_nil]
    · have hfit := h.resolve_left hhit
      rw [Bool.not_eq_true] at hhit
      rcases readPage_miss (L := L) hs.fine hhit hfit with ⟨e, he⟩ | ⟨hok, hr⟩
      · refine ⟨[], [], by simp, fun _ => List.nodup_nil, ?_⟩
        rw [step, he]
        rfl
      · refine ⟨[], [offset], ?_, fun _ => List.nodup_singleton _, ?_⟩
        · intro k hk
          rw [List.mem_singleton] at hk
          subst hk
          exact ⟨hhit, hfit, hok⟩
        · rw [step, hr]
          rfl
  | readPages offsets =>
    right
    obtain ⟨ks, hks, hnd, hst, -⟩ := readPages_spec (L := L) hs.fine hs.backed h
    refine ⟨offsets, ks, fun k hk => ?_, fun hr => hnd hr.1, hst⟩
    obtain ⟨hm, hmiss, hok⟩ := hks k hk
    refine ⟨hmiss, (h k hm).resolve_left ?_, hok⟩
    rw [hmiss]
    decide

/-- **A step whose reads stay within the pages keeps the invariant.** -/
theorem step_sound (hs : Sound L s) {op : PageOp} (h : s.ReadsWithin op) :
    Sound L (s.step L op) := by
  rcases step_within hs h with ⟨pages, rfl⟩ | ⟨os, ks, hks, -, hst⟩
  · by_cases hp : pages = []
    · rw [step, appendPages, if_pos (by simp [hp])]
      exact hs
    · have hkeeps : ∀ {o p}, StoredAt L s o p → StoredAt L (s.step L (.appendPages pages)) o p :=
        fun hst => appendPages_keeps hs.toFormat hst pages
      rw [step, appendPages_eq hs.toFormat hp] at hkeeps ⊢
      exact ⟨⟨Nat.le_trans hs.header_le (Nat.le_add_right _ _), hs.wrapped⟩, hs.fine, hs.backed,
        fun k v hv hlo => hkeeps (hs.contents k v hv hlo)⟩
  · rw [hst]
    obtain ⟨-, hmap, hpages⟩ := s.cache.useAll_frame os
    have hsame : SameFile s { s with cache := (s.cache.useAll os).insertAll (s.pageAt L) ks } :=
      ⟨rfl, rfl, rfl⟩
    refine ⟨⟨hs.header_le, hs.wrapped⟩, hs.fine, (hs.backed.congr hmap hpages).insertAll _ _,
      (LruCache.Contents.congr ?_ hpages).insertAll fun k hk hlo => ?_⟩
    · exact fun k v hv hlo => (hs.contents k v hv hlo).congr hsame
    · obtain ⟨-, hfit, hok⟩ := hks k hk
      exact ((readStoredPage_fits hs.fine hfit).2 _ hok hlo).congr hsame

/-- **Stored pages stay** through such a step. -/
theorem step_keeps (hs : Sound L s) {op : PageOp} (h : s.ReadsWithin op) (hp : StoredAt L s o p) :
    StoredAt L (s.step L op) o p := by
  rcases step_within hs h with ⟨pages, rfl⟩ | ⟨os, ks, -, -, hst⟩
  · exact appendPages_keeps hs.toFormat hp pages
  · rw [hst]
    exact hp.congr ⟨rfl, rfl, rfl⟩

/-- **The containers of the cache stay together** where the lists read have no repeats. -/
theorem step_coherent (hs : Sound L s) (hc : s.cache.Coherent) {op : PageOp}
    (h : ReadsStored L s op) :
    (s.step L op).cache.Coherent ∧ (s.step L op).cache.capacity = s.cache.capacity := by
  rcases step_within hs h.within with ⟨pages, rfl⟩ | ⟨os, ks, hks, hnd, hst⟩
  · by_cases hp : pages = []
    · rw [step, appendPages, if_pos (by simp [hp])]
      exact ⟨hc, rfl⟩
    · rw [step, appendPages_eq hs.toFormat hp]
      exact ⟨hc, rfl⟩
  · rw [hst]
    refine ⟨(hc.useAll os).insertAll _ (hnd h) fun k hk => ?_, ?_⟩
    · rw [LruCache.hit_useAll]
      exact (hks k hk).1
    · rw [LruCache.insertAll_capacity]
      exact (s.cache.useAll_frame os).1

theorem StoredAt.header_le (h : StoredAt L s o p) : kPageFileHeaderSize ≤ o := by
  cases h with
  | raw f hw hf hlo => exact hlo
  | wrapped f codec payload hw hf hlo => exact hlo

/-! ## What reads give -/

/-- **`ReadPage` gives the page that is stored.** -/
theorem readPage_stored (hs : Sound L s) (h : StoredAt L s o p) : (s.readPage L o).2 = .ok p := by
  by_cases hhit : s.cache.hit o = true
  · obtain ⟨q, hq, hat⟩ := cachedAt_of_hit hs.backed hhit
    rw [readPage, if_pos hhit, hat, (hs.contents o q hq h.header_le).unique h]
  · rw [readPage, if_neg hhit, readStoredPage_stored h hs.fine]

/-- **`ReadPages` gives the pages that are stored**, in the order of the list. -/
theorem readPages_stored (hs : Sound L s) {offsets : List Nat} {page : Nat → Bytes}
    (h : ∀ o ∈ offsets, StoredAt L s o (page o)) :
    (s.readPages L offsets).2 = .ok (offsets.map page) := by
  have hfit : ∀ o ∈ offsets, s.cache.hit o = true ∨ s.Fits o := fun o ho => .inr (h o ho).fits
  obtain ⟨-, -, -, -, hout⟩ := readPages_spec (L := L) hs.fine hs.backed hfit
  refine hout page (fun o ho hhit => ?_) fun o ho _ => ?_
  · obtain ⟨q, hq, -⟩ := cachedAt_of_hit hs.backed hhit
    rw [hq, (hs.contents o q hq (h o ho).header_le).unique (h o ho)]
  · rw [readStoredPage_stored (h o ho) hs.fine]

/-! ## Runs -/

theorem Reaches.sound {allowed : CachedPageFile → PageOp → Prop}
    (hallowed : ∀ s op, allowed s op → s.ReadsWithin op) (h₀ : Opened s₀)
    (h : Reaches L allowed s₀ s) : Sound L s := by
  induction h with
  | start => exact h₀.sound
  | call _ ha ih => exact step_sound ih (hallowed _ _ ha)

theorem Reaches.coherent (h₀ : Opened s₀) (h : Reaches L (ReadsStored L) s₀ s) :
    s.cache.Coherent ∧ s.cache.capacity = s₀.cache.capacity := by
  induction h with
  | start =>
    refine ⟨?_, rfl⟩
    rw [h₀.cold]
    exact .empty _
  | call h ha ih =>
    have hs := h.sound (fun _ _ => ReadsStored.within) h₀
    obtain ⟨hc, hcap⟩ := step_coherent hs ih.1 ha
    exact ⟨hc, hcap.trans ih.2⟩

/-- **The page cache is transparent.** In every state that appends and reads of stored pages lead
to, the three containers hold the same offsets, not more than the capacity; the pages that are
appended are stored and stay so; and a read gives what is stored, in the order of its list. -/
theorem page_cache_transparent (hL : L.Lossless) (h₀ : Opened s₀)
    (h : Reaches L (ReadsStored L) s₀ s) :
    s.cache.Coherent ∧ s.cache.pages.entries.length ≤ s₀.cache.capacity ∧
      (∀ pages front page back, pages = front ++ page :: back →
        (∀ p ∈ pages, p.length = kPageSize) →
        (s.appendPages L pages).2 = s.nextOffset ∧
          StoredAt L (s.step L (.appendPages pages))
            (s.nextOffset + (s.appended L front).length) page) ∧
      (∀ o p op, StoredAt L s o p → ReadsStored L s op → StoredAt L (s.step L op) o p) ∧
      (∀ o p, StoredAt L s o p → (s.readPage L o).2 = .ok p) ∧
      (∀ offsets page, offsets.Nodup → (∀ o ∈ offsets, StoredAt L s o (page o)) →
        (s.readPages L offsets).2 = .ok (offsets.map page)) := by
  have hs := h.sound (fun _ _ => ReadsStored.within) h₀
  obtain ⟨hc, hcap⟩ := h.coherent h₀
  refine ⟨hc, ?_, fun pages front page back hsplit hp => ⟨?_, ?_⟩,
    fun o p op hst ha => step_keeps hs ha.within hst, fun o p => readPage_stored hs,
    fun offsets page _ => readPages_stored hs⟩
  · rw [LruCache.length_entries hc, ← hcap]
    exact hc.size
  · rw [appendPages, if_neg (by simp [hsplit])]
  · exact appendPages_stored hL hs.toFormat hsplit (hp page (by simp [hsplit]))

/-- A page file that does not exist yet, with room for one page in the cache. -/
def fresh : CachedPageFile := ⟨none, kPageFileHeaderSize, false, false, false, .empty 1⟩

theorem opened_fresh : Opened fresh :=
  ⟨⟨Nat.le_refl _, fun h => h⟩, rfl, rfl⟩

def zeroPage : Bytes := List.replicate kPageSize 0

theorem zeroPages : ∀ page ∈ [zeroPage], page.length = kPageSize := by
  intro page hp
  rw [List.mem_singleton] at hp
  subst hp
  exact List.length_replicate

/-- The file with one page. -/
def onePage : CachedPageFile := fresh.step storedLzma (.appendPages [zeroPage])

theorem onePage_stored : StoredAt storedLzma onePage kPageFileHeaderSize zeroPage :=
  have hsplit : [zeroPage] = [] ++ zeroPage :: [] := rfl
  appendPages_stored storedLzma_lossless opened_fresh.toFormat hsplit List.length_replicate

theorem reaches_onePage {allowed : CachedPageFile → PageOp → Prop}
    (ha : allowed fresh (.appendPages [zeroPage])) : Reaches storedLzma allowed fresh onePage :=
  .call .start ha

theorem page_cache_transparent_one :
    (onePage.step storedLzma (.readPage kPageFileHeaderSize)).cache.Coherent ∧
      ((onePage.step storedLzma (.readPage kPageFileHeaderSize)).readPage storedLzma
        kPageFileHeaderSize).2 = .ok zeroPage := by
  have hread : ReadsStored storedLzma onePage (.readPage kPageFileHeaderSize) := ⟨_, onePage_stored⟩
  have hs : Sound storedLzma onePage :=
    step_sound (opened_fresh.sound) (show fresh.ReadsWithin (.appendPages [zeroPage]) from zeroPages)
  have h := page_cache_transparent storedLzma_lossless opened_fresh
    (.call (reaches_onePage zeroPages) hread)
  exact ⟨h.1, h.2.2.2.2.1 _ _ (step_keeps hs hread.within onePage_stored)⟩

/-! ## Failed reads -/

/-- **Reads within the pages do no harm**, also where what they find is no page: in every state that
they and appends lead to, every stored page is read. -/
theorem reads_within_pages (h₀ : Opened s₀) (h : Reaches L ReadsWithin s₀ s) :
    (∀ o p, StoredAt L s o p → (s.readPage L o).2 = .ok p) ∧
      ∀ offsets page, (∀ o ∈ offsets, StoredAt L s o (page o)) →
        (s.readPages L offsets).2 = .ok (offsets.map page) := by
  have hs := h.sound (fun _ _ ha => ha) h₀
  exact ⟨fun o p => readPage_stored hs, fun offsets page => readPages_stored hs⟩

theorem reads_within_pages_one :
    (onePage.readPage storedLzma kPageFileHeaderSize).2 = .ok zeroPage :=
  (reads_within_pages opened_fresh (reaches_onePage zeroPages)).1 _ _ onePage_stored

/-- A read behind the end of the file leaves the stream failed. -/
theorem readPage_behind {f : Bytes} (hf : s.file = some f) (hw : s.wrapped = false)
    (hmiss : s.cache.hit o = false) (hend : f.length < o + kPageSize) :
    (s.readPage L o).1 = s.failed := by
  have hread : s.readStream f o kPageSize = none := by
    rw [readStream]
    split
    · rfl
    · exact readAt?_eq_none_iff.2 hend
  simp [readPage, hmiss, readStoredPage, hf, hw, hread]

/-- **A stream that has failed** gives no page that is not in the cache. -/
theorem readPage_failed (hfailed : s.readFailed = true) (hmiss : s.cache.hit o = false) :
    ∃ e, (s.readPage L o).2 = .error e := by
  rw [readPage, hmiss, if_neg (by decide), readStoredPage]
  cases s.file with
  | none => exact ⟨_, rfl⟩
  | some f =>
    simp only [readStream, hfailed, if_true]
    cases s.wrapped with
    | false => exact ⟨_, rfl⟩
    | true => exact ⟨_, rfl⟩

theorem onePage_file : ∃ f, onePage.file = some f ∧ f.length = 8192 := by
  have hdata : (fresh.appended storedLzma [zeroPage]).length = kPageSize := by
    have happ : fresh.appended storedLzma [zeroPage] = zeroPage := List.append_nil _
    rw [happ]
    exact List.length_replicate
  have hnew : newFile.length = 4096 := by
    rw [newFile, List.length_append, length_fileHeader, List.length_replicate]
    rfl
  refine ⟨_, congrArg CachedPageFile.file
    (appendPages_eq opened_fresh.toFormat (List.cons_ne_nil zeroPage [])), ?_⟩
  rw [length_overwrite, length_overwrite, length_fileHeader, hdata]
  exact (congrArg (fun n => max (max n (4096 + 4096)) (0 + 24)) hnew).trans rfl

/-- One read behind the end of the file, and the page in front of it is not read any more. -/
theorem read_behind_end_harms :
    ¬ ∀ (L : LzmaLib) (s₀ s : CachedPageFile), L.Lossless → Opened s₀ →
      Reaches L WholePages s₀ s → ∀ o p, StoredAt L s o p → (s.readPage L o).2 = .ok p := by
  intro h
  obtain ⟨f, hf, hl⟩ := onePage_file
  have hcold : ∀ o, onePage.cache.hit o = false := fun _ => rfl
  have hstate : onePage.step storedLzma (.readPage 8192) = onePage.failed :=
    readPage_behind hf rfl (hcold _) (by rw [hl]; decide)
  have hreach : Reaches storedLzma WholePages fresh (onePage.step storedLzma (.readPage 8192)) :=
    .call (reaches_onePage zeroPages) (show WholePages onePage (.readPage 8192) from trivial)
  have hstored : StoredAt storedLzma onePage.failed kPageFileHeaderSize zeroPage :=
    onePage_stored.congr ⟨rfl, rfl, rfl⟩
  rw [hstate] at hreach
  have hok := h storedLzma fresh _ storedLzma_lossless opened_fresh hreach _ _ hstored
  obtain ⟨e, he⟩ := readPage_failed (L := storedLzma) (s := onePage.failed) rfl
    (hcold kPageFileHeaderSize)
  rw [hok] at he
  cases he

end EBTree.BTree.CachedPageFile
