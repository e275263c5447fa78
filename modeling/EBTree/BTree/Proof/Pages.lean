import EBTree.BTree.PageCodec

/-!
# Page round trips

What is written into a page is read back from it.

* `leafEntries_plain`, `leafEntries_shared`: the entries of a leaf body, without and with a shared
  prefix.
* `serializeLeafChunk_spec`: a leaf chunk is a page whose cursor yields the entries that filled it.
* `childForKey_children`, `childOffsets_children`: the loops over an internal page are loops over
  the children written there.
-/

set_option autoImplicit false

namespace EBTree.BTree

open Lib

/-! ## Headers -/

@[simp] theorem length_pageOf (hdr : PageHeader) (body : Bytes) :
    (pageOf hdr body).length = kPageSize := by
  simp [pageOf, kPageSize, kPageHeaderSize]

@[simp] theorem decode_pageOf (hdr : PageHeader) (body : Bytes) :
    PageHeader.decode (pageOf hdr body) = hdr.stored :=
  PageHeader.decode_encode hdr _

theorem storedCrc_pageOf (hdr : PageHeader) (body : Bytes) :
    PageHeader.storedCrc (pageOf hdr body) = (crc32 ((pageOf hdr body).take 57)).toNat :=
  PageHeader.storedCrc_encode hdr _

theorem relink_pageOf (hdr : PageHeader) (body : Bytes) (next : Nat) :
    relink (pageOf hdr body) next = pageOf { hdr.stored with nextPageOffset := next } body := by
  have h : (pageOf hdr body).drop kPageHeaderSize = padTo (kPageSize - kPageHeaderSize) body := by
    rw [pageOf]
    exact List.drop_left' (PageHeader.length_encode hdr)
  rw [relink, decode_pageOf, h, pageOf]

theorem take_stored_key {key : Key} {n : Nat} (h : n ≤ kPageSummaryKeyBytes) (hn : n ≤ key.length) :
    (padTo kPageSummaryKeyBytes key).take n = key.take n := by
  rw [padTo, List.take_append_of_le_length (by rw [List.length_take]; omega), List.take_take,
    Nat.min_eq_left h]

/-- Storing a header again changes nothing. -/
@[simp] theorem PageHeader.stored_stored (h : PageHeader) : h.stored.stored = h.stored := by
  have hpad : ∀ key : Key, padTo kPageSummaryKeyBytes (padTo kPageSummaryKeyBytes key)
      = padTo kPageSummaryKeyBytes key := by
    intro key
    rw [padTo_of_le (by simp), length_padTo]
    simp
  simp [PageHeader.stored, hpad]

/-! ## Leaves -/

/-- The bytes the entries take without the first `plen` bytes of their keys. -/
def bodySize (plen : Nat) (es : List Entry) : Nat :=
  (es.map fun e => 2 + (e.1.drop plen).length + 8).sum

@[simp] theorem bodySize_nil (plen : Nat) : bodySize plen [] = 0 := rfl

@[simp] theorem bodySize_cons (plen : Nat) (e : Entry) (es : List Entry) :
    bodySize plen (e :: es) = 2 + (e.1.drop plen).length + 8 + bodySize plen es := by
  simp [bodySize]

theorem length_leafEntryBytes (plen : Nat) (e : Entry) :
    (leafEntryBytes plen e).length = 2 + (e.1.drop plen).length + 8 := by
  simp only [leafEntryBytes, List.length_append, length_le]
  omega

theorem length_leafBody (plen : Nat) (es : List Entry) :
    ((es.map (leafEntryBytes plen)).flatten).length = bodySize plen es := by
  induction es with
  | nil => rfl
  | cons e es ih => simp [length_leafEntryBytes, ih]

/-- Every entry takes at least ten bytes. -/
theorem length_le_bodySize (plen : Nat) (es : List Entry) : 10 * es.length ≤ bodySize plen es := by
  induction es with
  | nil => simp
  | cons e es ih =>
    rw [List.length_cons, bodySize_cons]
    omega

/-- The cursor at an entry reads it and moves behind it. -/
theorem nextLeafEntry_entry {page : Bytes} {plen : Nat} {e : Entry} {cur : LeafPageCursor}
    (pre post : Bytes) (hpage : page = pre ++ (leafEntryBytes plen e ++ post)) (hpos : cur.pos = pre.length)
    (hfit : pre.length + (2 + (e.1.drop plen).length + 8) ≤ kPageSize) (hlsn : e.2 < 2 ^ 64)
    (hkey : (if cur.hdr.reserved = kLeafPrefixFormat then cur.sharedPrefix ++ e.1.drop plen
      else e.1.drop plen) = e.1) :
    nextLeafEntry page cur
      = some (e, { cur with pos := pre.length + (2 + (e.1.drop plen).length + 8) }) := by
  have hk : kPageSize = 4096 := rfl
  -- the three fields of the entry
  have hlen : fieldAt page pre.length 2 = le 2 (e.1.drop plen).length :=
    fieldAt_of_append pre (e.1.drop plen ++ le 8 e.2 ++ post)
      (by rw [hpage]; simp [leafEntryBytes]) rfl (by simp)
  have hbytes : fieldAt page (pre.length + 2) (e.1.drop plen).length = e.1.drop plen :=
    fieldAt_of_append (pre ++ le 2 (e.1.drop plen).length) (le 8 e.2 ++ post)
      (by rw [hpage]; simp [leafEntryBytes]) (by simp) rfl
  have hval : fieldAt page (pre.length + 2 + (e.1.drop plen).length) 8 = le 8 e.2 :=
    fieldAt_of_append (pre ++ le 2 (e.1.drop plen).length ++ e.1.drop plen) post
      (by rw [hpage]; simp [leafEntryBytes])
      (by simp only [List.length_append, length_le]) (by simp)
  have hklen : leNat (fieldAt page pre.length 2) = (e.1.drop plen).length := by
    rw [hlen, leNat_le]
    exact Nat.mod_eq_of_lt (by omega)
  have hv : leNat (fieldAt page (pre.length + 2 + (e.1.drop plen).length) 8) = e.2 := by
    rw [hval, leNat_le]
    exact Nat.mod_eq_of_lt hlsn
  simp only [nextLeafEntry, hpos, hklen, hbytes, hv, hkey]
  rw [if_neg (by omega), if_neg (by omega)]
  simp only [Nat.add_assoc]

/-- **The cursor yields the entries laid out from its position on.** -/
theorem cursorEntries_body {page post : Bytes} {plen : Nat} {es : List Entry} (pre : Bytes)
    {cur : LeafPageCursor}
    (hpage : page = pre ++ ((es.map (leafEntryBytes plen)).flatten ++ post))
    (hpos : cur.pos = pre.length) (hfit : pre.length + bodySize plen es ≤ kPageSize)
    (hlsn : ∀ e ∈ es, e.2 < 2 ^ 64)
    (hkey : ∀ e ∈ es, (if cur.hdr.reserved = kLeafPrefixFormat
      then cur.sharedPrefix ++ e.1.drop plen else e.1.drop plen) = e.1) :
    cursorEntries page es.length cur = es := by
  induction es generalizing pre cur with
  | nil => rfl
  | cons e es ih =>
    rw [bodySize_cons] at hfit
    have hlay : page = pre ++ (leafEntryBytes plen e ++
        ((es.map (leafEntryBytes plen)).flatten ++ post)) := by
      rw [hpage]; simp
    have hnext := nextLeafEntry_entry pre _ hlay hpos (by omega) (hlsn e List.mem_cons_self)
      (hkey e List.mem_cons_self)
    have hrest : cursorEntries page es.length
        { cur with pos := pre.length + (2 + (e.1.drop plen).length + 8) } = es := by
      apply ih (pre ++ leafEntryBytes plen e)
      · rw [hpage]; simp
      · simp [length_leafEntryBytes]
      · rw [List.length_append, length_leafEntryBytes]; omega
      · exact fun e' he' => hlsn e' (List.mem_cons_of_mem _ he')
      · exact fun e' he' => hkey e' (List.mem_cons_of_mem _ he')
    rw [List.length_cons, cursorEntries, hnext]
    exact congrArg (e :: ·) hrest

/-- A page with a body that fits is the header, the body and zeros. -/
theorem pageOf_eq {hdr : PageHeader} {body : Bytes}
    (h : kPageHeaderSize + body.length ≤ kPageSize) :
    pageOf hdr body = hdr.encode ++
      (body ++ List.replicate (kPageSize - kPageHeaderSize - body.length) 0) := by
  rw [pageOf, padTo_of_le (by omega)]

/-- The entries of a leaf whose keys are stored whole. -/
theorem leafEntries_plain {hdr : PageHeader} {es : List Entry} (ht : hdr.type = kPageTypeLeaf)
    (hr : hdr.reserved ≠ kLeafPrefixFormat) (hn : hdr.keyCount = es.length)
    (hfit : kPageHeaderSize + bodySize 0 es ≤ kPageSize) (hlsn : ∀ e ∈ es, e.2 < 2 ^ 64) :
    leafEntries (pageOf hdr (es.map (leafEntryBytes 0)).flatten) = some es := by
  have hk : kPageSize = 4096 := rfl
  have hlen := length_le_bodySize 0 es
  have hcount : hdr.keyCount % 2 ^ 16 = es.length := by omega
  have hinit : initLeafCursor (pageOf hdr (es.map (leafEntryBytes 0)).flatten)
      = some ⟨hdr.stored, [], kPageHeaderSize⟩ := by
    simp [initLeafCursor, PageHeader.stored, ht, hr]
  rw [leafEntries, hinit, Option.map_some, Option.some.injEq]
  change cursorEntries _ (hdr.keyCount % 2 ^ 16) _ = es
  rw [hcount]
  refine cursorEntries_body hdr.encode (pageOf_eq (by rw [length_leafBody]; exact hfit))
    (by simp) (by simpa using hfit) hlsn fun e _ => ?_
  rw [if_neg (by exact hr), List.drop_zero]

/-- The entries of a leaf that stores the prefix `pre` of its keys once. -/
theorem leafEntries_shared {hdr : PageHeader} {es : List Entry} {pre : Key}
    (ht : hdr.type = kPageTypeLeaf) (hr : hdr.reserved = kLeafPrefixFormat)
    (hn : hdr.keyCount = es.length) (hpre : ∀ e ∈ es, pre <+: e.1)
    (hfit : kPageHeaderSize + 2 + pre.length + bodySize pre.length es ≤ kPageSize)
    (hlsn : ∀ e ∈ es, e.2 < 2 ^ 64) :
    leafEntries (pageOf hdr
      (le 2 pre.length ++ (pre ++ (es.map (leafEntryBytes pre.length)).flatten))) = some es := by
  have hk : kPageSize = 4096 := rfl
  have hh : kPageHeaderSize = 64 := rfl
  have hlen := length_le_bodySize pre.length es
  have hcount : hdr.keyCount % 2 ^ 16 = es.length := by omega
  have hbody := length_leafBody pre.length es
  generalize hpage : pageOf hdr
    (le 2 pre.length ++ (pre ++ (es.map (leafEntryBytes pre.length)).flatten)) = page
  have hdec : PageHeader.decode page = hdr.stored := by rw [← hpage, decode_pageOf]
  obtain ⟨post, hlay⟩ : ∃ post, page = hdr.encode ++ (le 2 pre.length ++ (pre ++
      ((es.map (leafEntryBytes pre.length)).flatten ++ post))) := by
    rw [← hpage, pageOf_eq (by simp [hbody]; omega)]
    simp only [List.append_assoc]
    exact ⟨_, rfl⟩
  have hplen : leNat (fieldAt page kPageHeaderSize 2) = pre.length := by
    rw [fieldAt_of_append hdr.encode _ hlay (by simp) (by simp), leNat_le]
    exact Nat.mod_eq_of_lt (by omega)
  have hshared : fieldAt page (kPageHeaderSize + 2) pre.length = pre :=
    fieldAt_of_append (hdr.encode ++ le 2 pre.length)
      ((es.map (leafEntryBytes pre.length)).flatten ++ post) (by rw [hlay]; simp) (by simp) rfl
  have hinit : initLeafCursor page
      = some ⟨hdr.stored, pre, kPageHeaderSize + 2 + pre.length⟩ := by
    have htype : hdr.stored.type = kPageTypeLeaf := ht
    have hres : hdr.stored.reserved = kLeafPrefixFormat := hr
    simp only [initLeafCursor, hdec, htype, hres, hplen, hshared, ne_eq, not_true_eq_false,
      if_true, if_false]
    rw [if_neg (by omega), if_neg (by omega)]
  rw [leafEntries, hinit, Option.map_some, Option.some.injEq]
  change cursorEntries _ (hdr.keyCount % 2 ^ 16) _ = es
  rw [hcount]
  have hbehind : page = (hdr.encode ++ le 2 pre.length ++ pre) ++
      ((es.map (leafEntryBytes pre.length)).flatten ++ post) := by
    rw [hlay]; simp
  have hpos : (hdr.encode ++ le 2 pre.length ++ pre).length = kPageHeaderSize + 2 + pre.length := by
    simp only [List.length_append, PageHeader.length_encode, length_le]
  refine cursorEntries_body _ hbehind hpos.symm (by rw [hpos]; exact hfit) hlsn fun e he => ?_
  rw [if_pos (by exact hr)]
  obtain ⟨s, hs⟩ := hpre e he
  rw [← hs, List.drop_left]

/-! ## Chunks -/

theorem takeChunk_start (used : Nat) (es : List Entry) : takeChunk used es <+: es := by
  induction es generalizing used with
  | nil => exact List.nil_prefix
  | cons e es ih =>
    rw [takeChunk]
    split
    · exact List.nil_prefix
    · exact List.cons_prefix_cons.2 ⟨rfl, ih _⟩

theorem takeChunk_fits {used : Nat} (h : used ≤ kPageSize) (es : List Entry) :
    used + bodySize 0 (takeChunk used es) ≤ kPageSize := by
  induction es generalizing used with
  | nil => simpa [takeChunk] using h
  | cons e es ih =>
    rw [takeChunk]
    split
    · simpa using h
    · rename_i hle
      have hrest := ih (not_lt.1 hle)
      rw [bodySize_cons, List.drop_zero]
      omega

theorem fitEntries_of_fits {plen pos : Nat} {es : List Entry}
    (h : pos + bodySize plen es ≤ kPageSize) : fitEntries plen pos es = es := by
  induction es generalizing pos with
  | nil => rfl
  | cons e es ih =>
    rw [bodySize_cons] at h
    rw [fitEntries, if_neg (by omega), ih (by omega)]

theorem take_commonPrefixLen (a b : Key) : a.take (commonPrefixLen a b) <+: b := by
  induction a generalizing b with
  | nil => simp
  | cons x a ih =>
    cases b with
    | nil => simp [commonPrefixLen]
    | cons y b =>
      rw [commonPrefixLen]
      split
      · rename_i hxy
        rw [List.take_succ_cons, hxy]
        exact List.cons_prefix_cons.2 ⟨rfl, ih b⟩
      · simp

/-- Every key of a chunk starts with the prefix measured for it. -/
theorem chunkCommonPrefix_shared {es : List Entry} {e : Entry} (he : e ∈ es) :
    chunkCommonPrefix es <+: e.1 := by
  -- cutting the prefix down for one key after the other
  have hfold : ∀ (l : List Entry) (pre : Key),
      l.foldl (fun pre (f : Entry) => pre.take (commonPrefixLen pre f.1)) pre <+: pre ∧
        ∀ f ∈ l, l.foldl (fun pre (f : Entry) => pre.take (commonPrefixLen pre f.1)) pre <+: f.1 := by
    intro l
    induction l with
    | nil =>
      intro pre
      exact ⟨List.prefix_rfl, fun f hf => absurd hf List.not_mem_nil⟩
    | cons f l ih =>
      intro pre
      obtain ⟨h1, h2⟩ := ih (pre.take (commonPrefixLen pre f.1))
      refine ⟨h1.trans (List.take_prefix _ _), fun g hg => ?_⟩
      rcases List.mem_cons.1 hg with rfl | hg
      · exact h1.trans (take_commonPrefixLen pre g.1)
      · exact h2 g hg
  match es, he with
  | [f], _ => exact List.nil_prefix
  | f :: f' :: l, he =>
    obtain ⟨h1, h2⟩ := hfold (f' :: l) f.1
    rcases List.mem_cons.1 he with rfl | he
    · exact h1
    · exact h2 e he

/-- Leaving a shared prefix out saves its length for every entry. -/
theorem bodySize_shared {pre : Key} {es : List Entry} (h : ∀ e ∈ es, pre <+: e.1) :
    bodySize pre.length es + es.length * pre.length = bodySize 0 es := by
  induction es with
  | nil => simp
  | cons e es ih =>
    have hle := (h e List.mem_cons_self).length_le
    have hes := ih fun e' he' => h e' (List.mem_cons_of_mem _ he')
    simp only [bodySize_cons, List.length_drop, List.length_cons, Nat.add_mul, Nat.one_mul,
      Nat.sub_zero]
    omega

/-- A chunk of two entries or more takes no more room with its shared prefix stored once. -/
theorem shared_chunk_fits {pre : Key} {chunk : List Entry} (hpre : ∀ e ∈ chunk, pre <+: e.1)
    (hlen : 2 ≤ chunk.length) (h4 : kMinLeafPrefixLen ≤ pre.length)
    (hfit : kPageHeaderSize + bodySize 0 chunk ≤ kPageSize) :
    kPageHeaderSize + 2 + pre.length + bodySize pre.length chunk ≤ kPageSize := by
  have hsave := bodySize_shared hpre
  have h2 : 2 * pre.length ≤ chunk.length * pre.length := Nat.mul_le_mul_right _ hlen
  have : kMinLeafPrefixLen = 4 := rfl
  omega

/-- The bounds a leaf of the map `source` states: the first fourteen bytes of its ends. -/
def sourceBounds (source : List Entry) : Key × Key :=
  (((source.head?.map (·.1)).getD []).take kPageSummaryKeyBytes,
    ((source.getLast?.map (·.1)).getD []).take kPageSummaryKeyBytes)

/-- A page that is a valid leaf of the map `source` with the entries `es`, chained to `next`. -/
structure IsLeaf (source : List Entry) (page : Bytes) (es : List Entry) (next : Nat) : Prop where
  length : page.length = kPageSize
  crc : PageHeader.storedCrc page = (crc32 (page.take 57)).toNat
  type : (PageHeader.decode page).type = kPageTypeLeaf
  next_eq : (PageHeader.decode page).nextPageOffset = next
  bounds : headerBounds (PageHeader.decode page) = sourceBounds source
  entries : leafEntries page = some es

/-- The bounds stored from a key read back when its length does not wrap. -/
theorem stored_bound {key : Key} (h : key.length < 2 ^ 16) :
    (padTo kPageSummaryKeyBytes (key.take kPageSummaryKeyBytes)).take
      (min (key.length % 2 ^ 16) kPageSummaryKeyBytes) = key.take kPageSummaryKeyBytes := by
  rw [Nat.mod_eq_of_lt h, take_stored_key (by omega) (by rw [List.length_take]; omega),
    List.take_take, Nat.min_eq_left (by omega), Nat.min_comm, ← List.take_take, List.take_length]

theorem isLeaf_pageOf {source : List Entry} {hdr : PageHeader} {body : Bytes} {es : List Entry}
    (ht : hdr.type = kPageTypeLeaf) (hb : headerBounds hdr.stored = sourceBounds source)
    (he : leafEntries (pageOf hdr body) = some es) :
    IsLeaf source (pageOf hdr body) es (hdr.nextPageOffset % 2 ^ 32) where
  length := length_pageOf hdr body
  crc := storedCrc_pageOf hdr body
  type := by rw [decode_pageOf]; exact ht
  next_eq := by rw [decode_pageOf]; rfl
  bounds := by rw [decode_pageOf]; exact hb
  entries := he

/-- A page is a leaf with these entries whatever the offset chained to it. -/
def LinksAsLeaf (source : List Entry) (page : Bytes) (es : List Entry) : Prop :=
  IsLeaf source page es 0 ∧ ∀ next, IsLeaf source (relink page next) es (next % 2 ^ 32)

/-- Two headers with the same fields a leaf is read by make the same leaf. -/
theorem linksAsLeaf_pageOf {source : List Entry} {hdr : PageHeader} {body : Bytes}
    {es : List Entry} (ht : hdr.type = kPageTypeLeaf) (hnext : hdr.nextPageOffset = 0)
    (hb : headerBounds hdr.stored = sourceBounds source) (hn : hdr.keyCount < 2 ^ 16)
    (he : ∀ hdr' : PageHeader, hdr'.type = hdr.type → hdr'.reserved = hdr.reserved →
      hdr'.keyCount = hdr.keyCount → leafEntries (pageOf hdr' body) = some es) :
    LinksAsLeaf source (pageOf hdr body) es := by
  refine ⟨?_, fun next => ?_⟩
  · have h := isLeaf_pageOf ht hb (he hdr rfl rfl rfl)
    rwa [hnext] at h
  · rw [relink_pageOf]
    refine isLeaf_pageOf ht ?_ (he _ rfl rfl (Nat.mod_eq_of_lt hn))
    have hst : ({ hdr.stored with nextPageOffset := next } : PageHeader).stored
        = { hdr.stored with nextPageOffset := next % 2 ^ 32 } := by
      have h := PageHeader.stored_stored hdr
      simp only [PageHeader.stored, PageHeader.mk.injEq] at h ⊢
      simp [h]
    rw [hst]
    exact hb

/-- The bounds in the header of every leaf of a tree. -/
theorem headerBounds_leafHeader {maxLsn summaryLsn : Nat} {source : List Entry}
    (hlen : ∀ e ∈ source, e.1.length < 2 ^ 16) (reserved : UInt8) (n : Nat) :
    headerBounds ({ leafHeader maxLsn summaryLsn source with
      reserved := reserved, keyCount := n } : PageHeader).stored = sourceBounds source := by
  have hend : ∀ o : Option Entry, (∀ e, o = some e → e ∈ source) →
      ((o.map (·.1)).getD []).length < 2 ^ 16 := by
    intro o ho
    cases o with
    | none => simp
    | some e => exact hlen e (ho e rfl)
  have hmin := hend source.head? fun e he => List.mem_of_head? he
  have hmax := hend source.getLast? fun e he => List.mem_of_getLast? he
  have hne : ({ leafHeader maxLsn summaryLsn source with
      reserved := reserved, keyCount := n } : PageHeader).stored.summaryType
        ≠ kSummaryTypeHistogram := by
    simp only [PageHeader.stored, leafHeader]
    split <;> decide
  rw [headerBounds, if_neg hne]
  simp only [PageHeader.stored, leafHeader, stored_bound hmin, stored_bound hmax, sourceBounds]

/-- **A leaf chunk holds the entries that fill a page**, and the rest is left for the next. -/
theorem serializeLeafChunk_spec (maxLsn summaryLsn : Nat) {source : List Entry} (es : List Entry)
    (hlsn : ∀ e ∈ es, e.2 < 2 ^ 64) (hlen : ∀ e ∈ source, e.1.length < 2 ^ 16) :
    ∃ page, serializeLeafChunk maxLsn summaryLsn source es
        = (page, ((takeChunk kPageHeaderSize es).head?.map (·.1)).getD [],
            es.drop (takeChunk kPageHeaderSize es).length) ∧
      LinksAsLeaf source page (takeChunk kPageHeaderSize es) := by
  have hk : kPageSize = 4096 := rfl
  have hh : kPageHeaderSize = 64 := rfl
  have hfit := takeChunk_fits (show kPageHeaderSize ≤ kPageSize by decide) es
  have hl : ∀ e ∈ takeChunk kPageHeaderSize es, e.2 < 2 ^ 64 :=
    fun e he => hlsn e ((takeChunk_start _ es).subset he)
  have hcount := length_le_bodySize 0 (takeChunk kPageHeaderSize es)
  unfold serializeLeafChunk
  generalize takeChunk kPageHeaderSize es = chunk at hfit hl hcount ⊢
  simp only
  split
  · rename_i huse
    simp only [usePrefix, decide_eq_true_eq] at huse
    have hpre : ∀ e ∈ chunk, chunkCommonPrefix chunk <+: e.1 := fun e he =>
      chunkCommonPrefix_shared he
    have hfit' := shared_chunk_fits hpre huse.2 huse.1 hfit
    rw [fitEntries_of_fits hfit']
    refine ⟨_, rfl, linksAsLeaf_pageOf rfl rfl (headerBounds_leafHeader hlen _ _) ?_ ?_⟩
    · change chunk.length < 2 ^ 16
      omega
    · intro hdr' ht hr hn
      exact leafEntries_shared ht hr hn hpre hfit' hl
  · rw [fitEntries_of_fits hfit]
    refine ⟨_, rfl, linksAsLeaf_pageOf rfl rfl (headerBounds_leafHeader hlen 0 _) ?_ ?_⟩
    · change chunk.length < 2 ^ 16
      omega
    · intro hdr' ht hr hn
      have hr0 : hdr'.reserved = 0 := hr
      exact leafEntries_plain ht (by rw [hr0]; decide) hn hfit hl

/-! ## Internal pages -/

/-- The bytes a list of children takes. -/
def childrenSize (cs : List Entry) : Nat := (cs.map fun c => 4 + 2 + c.1.length).sum

@[simp] theorem childrenSize_nil : childrenSize [] = 0 := rfl

@[simp] theorem childrenSize_cons (c : Entry) (cs : List Entry) :
    childrenSize (c :: cs) = 4 + 2 + c.1.length + childrenSize cs := by
  simp [childrenSize]

theorem length_childBytes (c : Entry) : (childBytes c).length = 4 + 2 + c.1.length := by
  simp only [childBytes, List.length_append, length_le]
  omega

theorem length_childrenBytes (cs : List Entry) :
    ((cs.map childBytes).flatten).length = childrenSize cs := by
  induction cs with
  | nil => rfl
  | cons c cs ih => simp [length_childBytes, ih]

theorem fitChildren_of_fits {pos : Nat} {cs : List Entry} (h : pos + childrenSize cs ≤ kPageSize) :
    fitChildren pos cs = cs := by
  induction cs generalizing pos with
  | nil => rfl
  | cons c cs ih =>
    rw [childrenSize_cons] at h
    rw [fitChildren, if_neg (by omega), ih (by omega)]

/-- A child is read back where it was written, its offset in four bytes. -/
theorem internalEntryAt_child {page : Bytes} {c : Entry} (pre post : Bytes)
    (hpage : page = pre ++ (childBytes c ++ post))
    (hfit : pre.length + (4 + 2 + c.1.length) ≤ kPageSize) :
    internalEntryAt page pre.length
      = .ok (c.2 % 2 ^ 32, c.1, pre.length + (4 + 2 + c.1.length)) := by
  have hk : kPageSize = 4096 := rfl
  have ho : fieldAt page pre.length 4 = le 4 c.2 :=
    fieldAt_of_append pre (le 2 c.1.length ++ c.1 ++ post)
      (by rw [hpage]; simp [childBytes]) rfl (by simp)
  have hl : fieldAt page (pre.length + 4) 2 = le 2 c.1.length :=
    fieldAt_of_append (pre ++ le 4 c.2) (c.1 ++ post)
      (by rw [hpage]; simp [childBytes]) (by simp) (by simp)
  have hs : fieldAt page (pre.length + 4 + 2) c.1.length = c.1 :=
    fieldAt_of_append (pre ++ le 4 c.2 ++ le 2 c.1.length) post
      (by rw [hpage]; simp [childBytes])
      (by simp only [List.length_append, length_le]) rfl
  have hklen : leNat (fieldAt page (pre.length + 4) 2) = c.1.length := by
    rw [hl, leNat_le]
    exact Nat.mod_eq_of_lt (by omega)
  have hoffset : leNat (fieldAt page pre.length 4) = c.2 % 2 ^ 32 := by
    rw [ho, leNat_le]
    rfl
  simp only [internalEntryAt, hklen, hoffset, hs]
  rw [if_neg (by omega), if_neg (by omega)]
  simp only [Nat.add_assoc]

/-- The last child whose separator is not beyond `key`, looked for up to the first one that is. -/
def chooseChild (key : Key) : Nat → List Entry → Nat
  | child, [] => child
  | child, c :: cs => if key < c.1 then child else chooseChild key c.2 cs

theorem childForKey_children {page post : Bytes} {cs : List Entry} (pre : Bytes) (key : Key)
    (child : Nat) (hpage : page = pre ++ ((cs.map childBytes).flatten ++ post))
    (hfit : pre.length + childrenSize cs ≤ kPageSize)
    (hoff : ∀ c ∈ cs, kPageFileHeaderSize ≤ c.2 ∧ c.2 < 2 ^ 32) :
    childForKey page key cs.length pre.length child = .ok (chooseChild key child cs) := by
  induction cs generalizing pre child with
  | nil => rfl
  | cons c cs ih =>
    rw [childrenSize_cons] at hfit
    obtain ⟨hlo, hhi⟩ := hoff c List.mem_cons_self
    have hlay : page = pre ++ (childBytes c ++ ((cs.map childBytes).flatten ++ post)) := by
      rw [hpage]; simp
    have hentry := internalEntryAt_child pre _ hlay (by omega)
    rw [Nat.mod_eq_of_lt hhi] at hentry
    have hnext : page = (pre ++ childBytes c) ++ ((cs.map childBytes).flatten ++ post) := by
      rw [hpage]; simp
    have hlen : (pre ++ childBytes c).length = pre.length + (4 + 2 + c.1.length) := by
      rw [List.length_append, length_childBytes]
    have hrest := ih (pre ++ childBytes c) c.2 hnext (by rw [hlen]; omega)
      fun c' hc' => hoff c' (List.mem_cons_of_mem _ hc')
    rw [hlen] at hrest
    simp only [List.length_cons, childForKey, hentry, chooseChild]
    rw [if_neg (by omega), hrest]
    split <;> rfl

theorem childOffsets_children {page post : Bytes} {cs : List Entry} (pre : Bytes)
    (hpage : page = pre ++ ((cs.map childBytes).flatten ++ post))
    (hfit : pre.length + childrenSize cs ≤ kPageSize)
    (hoff : ∀ c ∈ cs, kPageFileHeaderSize ≤ c.2 ∧ c.2 < 2 ^ 32) :
    childOffsets page cs.length pre.length = .ok (cs.map (·.2)) := by
  induction cs generalizing pre with
  | nil => rfl
  | cons c cs ih =>
    rw [childrenSize_cons] at hfit
    obtain ⟨hlo, hhi⟩ := hoff c List.mem_cons_self
    have hlay : page = pre ++ (childBytes c ++ ((cs.map childBytes).flatten ++ post)) := by
      rw [hpage]; simp
    have hentry := internalEntryAt_child pre _ hlay (by omega)
    rw [Nat.mod_eq_of_lt hhi] at hentry
    have hnext : page = (pre ++ childBytes c) ++ ((cs.map childBytes).flatten ++ post) := by
      rw [hpage]; simp
    have hlen : (pre ++ childBytes c).length = pre.length + (4 + 2 + c.1.length) := by
      rw [List.length_append, length_childBytes]
    have hrest := ih (pre ++ childBytes c) hnext (by rw [hlen]; omega)
      fun c' hc' => hoff c' (List.mem_cons_of_mem _ hc')
    rw [hlen] at hrest
    simp only [List.length_cons, childOffsets, hentry, hrest, if_pos hlo, List.map_cons]

/-- A key that is not below the first separator chooses a child whose separator it is not below. -/
theorem chooseChild_mem {key : Key} {c : Entry} {cs : List Entry} (child : Nat)
    (h : ¬ key < c.1) : ∃ c' ∈ c :: cs, ¬ key < c'.1 ∧ chooseChild key child (c :: cs) = c'.2 := by
  induction cs generalizing c child with
  | nil => exact ⟨c, List.mem_cons_self, h, by rw [chooseChild, if_neg h, chooseChild]⟩
  | cons d cs ih =>
    by_cases hd : key < d.1
    · refine ⟨c, List.mem_cons_self, h, ?_⟩
      rw [chooseChild, if_neg h, chooseChild, if_pos hd]
    · obtain ⟨c', hc', hk, he⟩ := ih c.2 hd
      refine ⟨c', List.mem_cons_of_mem _ hc', hk, ?_⟩
      rw [chooseChild, if_neg h, he]

/-- A page that is a valid internal page with the children `cs`. -/
structure IsInternal (page : Bytes) (cs : List Entry) : Prop where
  length : page.length = kPageSize
  crc : PageHeader.storedCrc page = (crc32 (page.take 57)).toNat
  type : (PageHeader.decode page).type = kPageTypeInternal
  choose : ∀ key, childForKey page key (PageHeader.decode page).keyCount kPageHeaderSize 0
    = .ok (chooseChild key 0 cs)
  offsets : childOffsets page (PageHeader.decode page).keyCount kPageHeaderSize
    = .ok (cs.map (·.2))

theorem internalHeader_type (p : Bool) (maxLsn summaryLsn : Nat) (children source : List Entry) :
    (internalHeader p maxLsn summaryLsn children source).type = kPageTypeInternal := by
  simp only [internalHeader]
  split <;> rfl

theorem length_le_childrenSize (cs : List Entry) : 6 * cs.length ≤ childrenSize cs := by
  induction cs with
  | nil => simp
  | cons c cs ih =>
    rw [List.length_cons, childrenSize_cons]
    omega

theorem isInternal_pageOf {hdr : PageHeader} {cs : List Entry} (ht : hdr.type = kPageTypeInternal)
    (hn : hdr.keyCount = cs.length) (hfit : kPageHeaderSize + childrenSize cs ≤ kPageSize)
    (hoff : ∀ c ∈ cs, kPageFileHeaderSize ≤ c.2 ∧ c.2 < 2 ^ 32) :
    IsInternal (pageOf hdr (cs.map childBytes).flatten) cs := by
  have hk : kPageSize = 4096 := rfl
  have hcount := length_le_childrenSize cs
  have hlay : pageOf hdr (cs.map childBytes).flatten = _ :=
    pageOf_eq (by rw [length_childrenBytes]; exact hfit)
  have hstored : hdr.stored.keyCount = cs.length := by
    rw [← hn]
    exact Nat.mod_eq_of_lt (by omega)
  have hpre : hdr.encode.length = kPageHeaderSize := PageHeader.length_encode hdr
  refine ⟨length_pageOf _ _, storedCrc_pageOf _ _, ?_, fun key => ?_, ?_⟩
  · rw [decode_pageOf]
    exact ht
  · rw [decode_pageOf, hstored, ← hpre]
    exact childForKey_children hdr.encode key 0 hlay (by rw [hpre]; exact hfit) hoff
  · rw [decode_pageOf, hstored, ← hpre]
    exact childOffsets_children hdr.encode hlay (by rw [hpre]; exact hfit) hoff

/-- **An internal page holds the children written into it**, when they fit. -/
theorem serializeInternalPage_spec (p : Bool) (maxLsn summaryLsn : Nat) {cs : List Entry}
    (source : List Entry) (hfit : kPageHeaderSize + childrenSize cs ≤ kPageSize)
    (hoff : ∀ c ∈ cs, kPageFileHeaderSize ≤ c.2 ∧ c.2 < 2 ^ 32) :
    IsInternal (serializeInternalPage p maxLsn summaryLsn cs source) cs := by
  unfold serializeInternalPage
  rw [fitChildren_of_fits hfit]
  exact isInternal_pageOf (internalHeader_type p maxLsn summaryLsn cs source) rfl hfit hoff

/-- What the header of an internal page states as bounds: the start of its first separator, and
its last separator up to the fourteen bytes there is room for. -/
theorem headerBounds_internal (p : Bool) (maxLsn summaryLsn : Nat) {cs : List Entry}
    (source : List Entry) {first last : Entry} (hf : cs.head? = some first)
    (hl : cs.getLast? = some last) (hlen : ∀ c ∈ cs, c.1.length < 2 ^ 16) :
    let b := headerBounds (PageHeader.decode
      (serializeInternalPage p maxLsn summaryLsn cs source))
    b.1 <+: first.1 ∧ b.2 = last.1.take kPageSummaryKeyBytes := by
  have hfirst := hlen first (List.mem_of_head? hf)
  have hlast := hlen last (List.mem_of_getLast? hl)
  simp only [serializeInternalPage, decode_pageOf]
  by_cases hp : p = true ∧ kTrieSummaryThreshold ≤ cs.length
  · -- the first six bytes of the first separator behind the bins
    have hbins : (buildHistogramBins source).length = 8 := by
      simp [buildHistogramBins, kHistogramBinCount]
    simp only [internalHeader, hp, hf, hl, headerBounds, PageHeader.stored, histogramStringBounds,
      Option.map_some, Option.getD_some, and_self, if_true]
    constructor
    · have h14 : (buildHistogramBins source ++ first.1.take 6).length ≤ kPageSummaryKeyBytes := by
        rw [List.length_append, List.length_take, hbins, show kPageSummaryKeyBytes = 14 from rfl]
        omega
      rw [padTo_of_le h14, List.append_assoc, fieldAt_skip (by omega), hbins]
      have hres : (UInt8.ofNat (min first.1.length 6)).toNat = min first.1.length 6 := by
        rw [UInt8.toNat_ofNat']; omega
      rw [hres, fieldAt, Nat.sub_self, List.drop_zero,
        List.take_append_of_le_length (by rw [List.length_take]; omega)]
      exact (List.take_prefix _ _).trans (List.take_prefix _ _)
    · have h14 : kPageSummaryKeyBytes = 14 := rfl
      have hm : min (min last.1.length kPageSummaryKeyBytes % 2 ^ 16) kPageSummaryKeyBytes
          = min last.1.length kPageSummaryKeyBytes := by omega
      rw [hm, take_stored_key (by omega) (by rw [List.length_take]; omega), List.take_take,
        Nat.min_eq_left (by omega), Nat.min_comm, ← List.take_take, List.take_length]
  · have hne : ∀ n : Nat, ({ internalHeader p maxLsn summaryLsn cs source with
        keyCount := n } : PageHeader).stored.summaryType ≠ kSummaryTypeHistogram := by
      intro n
      simp only [internalHeader, if_neg hp, PageHeader.stored]
      split <;> decide
    rw [headerBounds, if_neg (hne _)]
    simp only [internalHeader, if_neg hp, hf, hl, PageHeader.stored, Option.map_some,
      Option.getD_some, stored_bound hfirst, stored_bound hlast]
    exact ⟨List.take_prefix _ _, trivial⟩

end EBTree.BTree
