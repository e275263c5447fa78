import EBTree.BTree.Page
import EBTree.Lib.SortedMap

/-!
# Leaf and internal pages

The page bodies of `paged_btree.cc`: `serializeLeafChunk` and `serializeInternalPage` write them,
`leafEntries`, `childForKey` and `childOffsets` read them. `pageSummaryCoversKey` and
`rangeOverlapsSummary` prune by a page's header.
-/

set_option autoImplicit false

namespace EBTree.BTree

open Lib

abbrev Entry := Key × Nat

def kInternalMaxEntries : Nat := 96
def kTrieSummaryThreshold : Nat := 8
def kLeafPrefixFormat : UInt8 := 2
def kMinLeafPrefixLen : Nat := 4

/-! ## Writing leaves -/

def commonPrefixLen : Key → Key → Nat
  | a :: as, b :: bs => if a = b then commonPrefixLen as bs + 1 else 0
  | _, _ => 0

/-- The prefix every key shares, which `ChunkCommonPrefixFromKeys` measures. -/
def chunkCommonPrefix : List Entry → Key
  | e :: e' :: es =>
    (e' :: es).foldl (fun pre f => pre.take (commonPrefixLen pre f.1)) e.1
  | _ => []

/-- The entries that fill a page from `used` bytes on, each counted with its whole key. -/
def takeChunk (used : Nat) : List Entry → List Entry
  | [] => []
  | e :: es =>
    if kPageSize < used + (2 + e.1.length + 8) then []
    else e :: takeChunk (used + (2 + e.1.length + 8)) es

def usePrefix (chunk : List Entry) : Bool :=
  kMinLeafPrefixLen ≤ (chunkCommonPrefix chunk).length ∧ 2 ≤ chunk.length

/-- The entries of a chunk that the page takes from `pos` on, without the first `plen` bytes of
their keys. -/
def fitEntries (plen pos : Nat) : List Entry → List Entry
  | [] => []
  | e :: es =>
    if kPageSize < pos + 2 + (e.1.drop plen).length + 8 then []
    else e :: fitEntries plen (pos + 2 + (e.1.drop plen).length + 8) es

def leafEntryBytes (plen : Nat) (e : Entry) : Bytes :=
  le 2 (e.1.drop plen).length ++ (e.1.drop plen ++ le 8 e.2)

/-- The part of a leaf that is the same for every leaf of a tree: the bounds are those of the
whole map, and all versions are those of the tree. -/
def leafHeader (maxLsn summaryLsn : Nat) (source : List Entry) : PageHeader where
  type := kPageTypeLeaf
  keyCount := 0
  summaryType := if kTrieSummaryThreshold ≤ source.length then kSummaryTypeTrie else kSummaryTypeMinMax
  reserved := 0
  maxLsn := maxLsn
  summaryLsn := summaryLsn
  minKeyLen := ((source.head?.map (·.1)).getD []).length
  maxKeyLen := ((source.getLast?.map (·.1)).getD []).length
  minKey := ((source.head?.map (·.1)).getD []).take kPageSummaryKeyBytes
  maxKey := ((source.getLast?.map (·.1)).getD []).take kPageSummaryKeyBytes
  nextPageOffset := 0

def pageOf (hdr : PageHeader) (body : Bytes) : Bytes :=
  hdr.encode ++ padTo (kPageSize - kPageHeaderSize) body

/-- `SerializeLeafChunk` from the entries `es` on: the page, its first key and the entries left. -/
def serializeLeafChunk (maxLsn summaryLsn : Nat) (source es : List Entry) :
    Bytes × Key × List Entry :=
  let hdr := leafHeader maxLsn summaryLsn source
  let chunk := takeChunk kPageHeaderSize es
  if usePrefix chunk then
    let pre := chunkCommonPrefix chunk
    let out := fitEntries pre.length (kPageHeaderSize + 2 + pre.length) chunk
    (pageOf { hdr with reserved := kLeafPrefixFormat, keyCount := out.length }
        (le 2 pre.length ++ (pre ++ (out.map (leafEntryBytes pre.length)).flatten)),
      (out.head?.map (·.1)).getD [], es.drop out.length)
  else
    let out := fitEntries 0 kPageHeaderSize chunk
    (pageOf { hdr with keyCount := out.length } (out.map (leafEntryBytes 0)).flatten,
      (out.head?.map (·.1)).getD [], es.drop out.length)

/-- `PersistRootImpl` puts the offset of the next leaf into a page it has serialized. -/
def relink (page : Bytes) (next : Nat) : Bytes :=
  { PageHeader.decode page with nextPageOffset := next }.encode ++ page.drop kPageHeaderSize

/-! ## Writing internal pages -/

def histogramBinForKey (key : Key) : Nat :=
  (key.foldl (fun (h : UInt32) c => (h ^^^ c.toUInt32) * 16777619) 2166136261).toNat
    % kHistogramBinCount

def buildHistogramBins (source : List Entry) : Bytes :=
  (List.range kHistogramBinCount).map fun i =>
    UInt8.ofNat (source.countP fun e => histogramBinForKey e.1 = i)

/-- The header of `SerializeInternalPage`. The bins of the children are written over by those of
the map. -/
def internalHeader (preferHistogram : Bool) (maxLsn summaryLsn : Nat)
    (children source : List Entry) : PageHeader :=
  let minK := (children.head?.map (·.1)).getD []
  let maxK := (children.getLast?.map (·.1)).getD []
  if preferHistogram ∧ kTrieSummaryThreshold ≤ children.length then
    { type := kPageTypeInternal
      keyCount := 0
      summaryType := kSummaryTypeHistogram
      reserved := UInt8.ofNat (min minK.length 6)
      maxLsn := maxLsn
      summaryLsn := summaryLsn
      minKeyLen := kHistogramBinCount
      maxKeyLen := min maxK.length kPageSummaryKeyBytes
      minKey := buildHistogramBins source ++ minK.take 6
      maxKey := maxK.take kPageSummaryKeyBytes
      nextPageOffset := 0 }
  else
    { type := kPageTypeInternal
      keyCount := 0
      summaryType :=
        if kTrieSummaryThreshold ≤ children.length then kSummaryTypeTrie else kSummaryTypeMinMax
      reserved := 0
      maxLsn := maxLsn
      summaryLsn := summaryLsn
      minKeyLen := minK.length
      maxKeyLen := maxK.length
      minKey := minK.take kPageSummaryKeyBytes
      maxKey := maxK.take kPageSummaryKeyBytes
      nextPageOffset := 0 }

/-- The children an internal page takes from `pos` on. -/
def fitChildren (pos : Nat) : List Entry → List Entry
  | [] => []
  | c :: cs =>
    if kPageSize < pos + (4 + 2 + c.1.length) then []
    else c :: fitChildren (pos + (4 + 2 + c.1.length)) cs

def childBytes (c : Entry) : Bytes := le 4 c.2 ++ (le 2 c.1.length ++ c.1)

def serializeInternalPage (preferHistogram : Bool) (maxLsn summaryLsn : Nat)
    (children source : List Entry) : Bytes :=
  let out := fitChildren kPageHeaderSize children
  pageOf { internalHeader preferHistogram maxLsn summaryLsn children source with
    keyCount := out.length } (out.map childBytes).flatten

/-! ## Reading leaves -/

structure LeafPageCursor where
  hdr : PageHeader
  sharedPrefix : Key
  pos : Nat
  deriving DecidableEq, Repr

def initLeafCursor (page : Bytes) : Option LeafPageCursor :=
  let hdr := PageHeader.decode page
  if hdr.type ≠ kPageTypeLeaf then none
  else if hdr.reserved = kLeafPrefixFormat then
    if kPageSize < kPageHeaderSize + 2 then none
    else
      let plen := leNat (fieldAt page kPageHeaderSize 2)
      if kPageSize < kPageHeaderSize + 2 + plen then none
      else some ⟨hdr, fieldAt page (kPageHeaderSize + 2) plen, kPageHeaderSize + 2 + plen⟩
  else some ⟨hdr, [], kPageHeaderSize⟩

/-- `NextLeafEntry`: the entry at the cursor, and the position behind it. -/
def nextLeafEntry (page : Bytes) (cur : LeafPageCursor) : Option (Entry × LeafPageCursor) :=
  if kPageSize < cur.pos + 2 then none
  else
    let klen := leNat (fieldAt page cur.pos 2)
    if kPageSize < cur.pos + 2 + klen + 8 then none
    else
      let bytes := fieldAt page (cur.pos + 2) klen
      let key := if cur.hdr.reserved = kLeafPrefixFormat then cur.sharedPrefix ++ bytes else bytes
      some ((key, leNat (fieldAt page (cur.pos + 2 + klen) 8)),
        { cur with pos := cur.pos + 2 + klen + 8 })

/-- The entries the cursor yields, at most `n` of them. -/
def cursorEntries (page : Bytes) : Nat → LeafPageCursor → List Entry
  | 0, _ => []
  | n + 1, cur =>
    match nextLeafEntry page cur with
    | none => []
    | some (e, cur') => e :: cursorEntries page n cur'

/-- The entries of a leaf; `none` when it is no valid leaf. -/
def leafEntries (page : Bytes) : Option (List Entry) :=
  (initLeafCursor page).map fun cur => cursorEntries page cur.hdr.keyCount cur

/-! ## Reading internal pages -/

/-- The child offset and the separator at `pos`, and the position behind them. -/
def internalEntryAt (page : Bytes) (pos : Nat) : Except Status (Nat × Key × Nat) :=
  if kPageSize < pos + 4 + 2 then .error (Status.corruptPage "truncated internal page")
  else
    let klen := leNat (fieldAt page (pos + 4) 2)
    if kPageSize < pos + 4 + 2 + klen then .error (Status.corruptPage "truncated sep key")
    else .ok (leNat (fieldAt page pos 4), fieldAt page (pos + 4 + 2) klen, pos + 4 + 2 + klen)

/-- The loop of `GetFromDiskAt`: the last child whose separator is not beyond `key`, `child` if
there is none among the `n` entries from `pos` on. -/
def childForKey (page : Bytes) (key : Key) : Nat → Nat → Nat → Except Status Nat
  | 0, _, child => .ok child
  | n + 1, pos, child =>
    match internalEntryAt page pos with
    | .error e => .error e
    | .ok (off, sep, pos') =>
      if off < kPageFileHeaderSize then childForKey page key n pos' child
      else if key < sep then .ok child
      else childForKey page key n pos' off

/-- The loop of `ScanFromDiskAt`: the offsets of all children. -/
def childOffsets (page : Bytes) : Nat → Nat → Except Status (List Nat)
  | 0, _ => .ok []
  | n + 1, pos =>
    match internalEntryAt page pos with
    | .error e => .error e
    | .ok (off, _, pos') =>
      match childOffsets page n pos' with
      | .error e => .error e
      | .ok offs => .ok (if kPageFileHeaderSize ≤ off then off :: offs else offs)

/-! ## Pruning -/

/-- `HistogramStringBounds` of a header with a histogram. -/
def histogramStringBounds (hdr : PageHeader) : Key × Key :=
  (fieldAt hdr.minKey 8 (min hdr.reserved.toNat 6),
    hdr.maxKey.take (min hdr.maxKeyLen kPageSummaryKeyBytes))

/-- The bounds a header states; an empty one does not bound. -/
def headerBounds (hdr : PageHeader) : Key × Key :=
  if hdr.summaryType = kSummaryTypeHistogram then histogramStringBounds hdr
  else (hdr.minKey.take (min hdr.minKeyLen kPageSummaryKeyBytes),
    hdr.maxKey.take (min hdr.maxKeyLen kPageSummaryKeyBytes))

def pageSummaryCoversKey (hdr : PageHeader) (key : Key) : Bool :=
  if key = [] then true
  else if hdr.type = kPageTypeInternal then true
  else
    let b := headerBounds hdr
    if b.1 ≠ [] ∧ key < b.1 then false
    else if b.2 ≠ [] ∧ b.2 < key then false
    else true

def rangeOverlapsSummary (hdr : PageHeader) (rangeStart rangeEnd : Key) : Bool :=
  if hdr.type = kPageTypeInternal then true
  else
    let b := headerBounds hdr
    if b.2 ≠ [] ∧ b.2 < rangeStart then false
    else if b.1 ≠ [] ∧ rangeEnd < b.1 then false
    else true

end EBTree.BTree
