import EBTree.BTree.PageCodec

/-!
# The paged B-tree

`PagedBTree` (`paged_btree.cc`): an ordered map in memory over a tree of pages, with a summary of
its bounds that `scan` prunes by. A result of `none` is a call that does not return: the offsets a
walk over the pages visits lie in the file, so a walk of more steps than the file has bytes comes
back to an offset and goes on for ever.
-/

set_option autoImplicit false

namespace EBTree.BTree

open Lib

inductive PredicateOp
  | kEq | kRange
  deriving DecidableEq, Repr

structure TypedPlan where
  op : PredicateOp
  key : Key
  rangeEnd : Key
  snapshotLsn : Nat
  deriving DecidableEq, Repr

def planMatches (plan : TypedPlan) (key : Key) : Bool :=
  match plan.op with
  | .kEq => key = plan.key
  | .kRange => plan.key ≤ key ∧ key ≤ plan.rangeEnd

/-- Whether the header of a page leaves anything for the plan to find below it. -/
def planOverlaps (hdr : PageHeader) (plan : TypedPlan) : Bool :=
  match plan.op with
  | .kEq => pageSummaryCoversKey hdr plan.key
  | .kRange => rangeOverlapsSummary hdr plan.key plan.rangeEnd

structure BTreeSummary where
  minKey : Key
  maxKey : Key
  summaryLsn : Nat
  deriving DecidableEq, Repr

structure PagedBTree where
  pageFile : Option PageFile
  index : SortedMap Key Nat
  deltaDeleted : SortedMap Key Unit
  summary : BTreeSummary
  maxLsn : Nat
  rootOffset : Nat
  onDiskMode : Bool
  preferHistogramSummary : Bool

namespace PagedBTree

/-- The constructor. -/
def new (pageFile : Option PageFile) : PagedBTree where
  pageFile := pageFile
  index := SortedMap.empty
  deltaDeleted := SortedMap.empty
  summary := ⟨[], [], 0⟩
  maxLsn := 0
  rootOffset := 0
  onDiskMode := false
  preferHistogramSummary := false

/-! ## Updates in memory -/

/-- The summary with bounds moved out to `key`. -/
def widen (s : BTreeSummary) (key : Key) : BTreeSummary :=
  { s with
    minKey := if s.minKey = [] ∨ key < s.minKey then key else s.minKey
    maxKey := if s.maxKey = [] ∨ s.maxKey < key then key else s.maxKey }

def updateSummaryOnPut (t : PagedBTree) (key : Key) : PagedBTree :=
  let s :=
    if t.index.isEmpty ∧ t.deltaDeleted.isEmpty ∧ t.onDiskMode then widen t.summary key
    else if t.index.entries.length = 1 ∧ t.deltaDeleted.isEmpty then
      { t.summary with minKey := key, maxKey := key }
    else widen t.summary key
  { t with summary := { s with summaryLsn := t.maxLsn } }

def rebuildSummary (t : PagedBTree) : PagedBTree :=
  match t.index.entries.head?, t.index.entries.getLast? with
  | some first, some last => { t with summary := ⟨first.1, last.1, t.maxLsn⟩ }
  | _, _ => if t.onDiskMode then t else { t with summary := ⟨[], [], t.maxLsn⟩ }

def updateSummaryOnDelete (t : PagedBTree) (key : Key) : PagedBTree :=
  if t.index.isEmpty ∧ t.deltaDeleted.isEmpty ∧ t.onDiskMode then
    { t with summary := { t.summary with summaryLsn := t.maxLsn } }
  else if t.index.isEmpty ∧ t.deltaDeleted.isEmpty then
    { t with summary := ⟨[], [], t.maxLsn⟩ }
  else if key ≠ t.summary.minKey ∧ key ≠ t.summary.maxKey then
    { t with summary := { t.summary with summaryLsn := t.maxLsn } }
  else t.rebuildSummary

def put (t : PagedBTree) (key : Key) (dataLsn : Nat) : PagedBTree :=
  updateSummaryOnPut
    { t with
      deltaDeleted := t.deltaDeleted.erase key
      index := t.index.insert key dataLsn
      maxLsn := max t.maxLsn dataLsn } key

def deleteKey (t : PagedBTree) (key : Key) (dataLsn : Nat) : PagedBTree :=
  updateSummaryOnDelete
    { t with
      index := t.index.erase key
      deltaDeleted := t.deltaDeleted.insert key ()
      maxLsn := max t.maxLsn dataLsn } key

def loadFromMap (t : PagedBTree) (data : SortedMap Key Nat) : PagedBTree :=
  { rebuildSummary
      { t with
        index := data
        deltaDeleted := SortedMap.empty
        maxLsn := data.entries.foldl (fun n e => max n e.2) 0 } with
    onDiskMode := false }

def rebuildSummaryFromCommitted (t : PagedBTree) (committedLsn : SortedMap Key Nat) : PagedBTree :=
  match committedLsn.entries.head?, committedLsn.entries.getLast? with
  | some first, some last =>
    let maxLsn := committedLsn.entries.foldl (fun n e => max n e.2) t.maxLsn
    { t with summary := ⟨first.1, last.1, maxLsn⟩, maxLsn := maxLsn }
  | _, _ => t

def ensureSummaryLsnAtLeast (t : PagedBTree) (lsn : Nat) : PagedBTree :=
  { t with summary := { t.summary with summaryLsn := max t.summary.summaryLsn lsn } }

/-! ## Reading pages -/

def readPageBytes (t : PagedBTree) (offset : Nat) : Except Status Bytes :=
  match t.pageFile with
  | none => .error (Status.invalidArgument "no page file")
  | some pf => pf.readPage offset

def readPageHeader (t : PagedBTree) (offset : Nat) : Except Status PageHeader :=
  match t.pageFile with
  | none => .error (Status.invalidArgument "bad read")
  | some pf =>
    match pf.readPage offset with
    | .error e => .error e
    | .ok page =>
      if PageHeader.storedCrc page = (crc32 (page.take 57)).toNat then
        .ok (PageHeader.decode page)
      else .error (Status.corruptPage "page crc mismatch")

/-- `ReadPages`; a failed read of a run of pages is reported as that of a single page. -/
def readPages (t : PagedBTree) : List Nat → Except Status (List Bytes)
  | [] => .ok []
  | off :: offs =>
    match t.readPageBytes off with
    | .error e => .error e
    | .ok page =>
      match t.readPages offs with
      | .error e => .error e
      | .ok pages => .ok (page :: pages)

/-- More steps than a walk over the pages takes without coming back to an offset. -/
def walkFuel (t : PagedBTree) : Nat := ((t.pageFile.map fun pf => pf.file.length).getD 0) + 1

/-! ## Lookups -/

def getFromLeafChain (t : PagedBTree) (key : Key) : Nat → Nat → Option (Except Status Nat)
  | 0, _ => none
  | fuel + 1, offset =>
    if offset < kPageFileHeaderSize then some (.error (Status.notFound "key not on disk"))
    else
      match t.readPageBytes offset with
      | .error e => some (.error e)
      | .ok page =>
        if (PageHeader.decode page).type ≠ kPageTypeLeaf then
          some (.error (Status.corruptPage "expected leaf"))
        else
          match leafEntries page with
          | none => some (.error (Status.corruptPage "invalid leaf page"))
          | some es =>
            match SortedMap.findIn key es with
            | some lsn => some (.ok lsn)
            | none => t.getFromLeafChain key fuel (PageHeader.decode page).nextPageOffset

def getFromDiskAt (t : PagedBTree) (key : Key) : Nat → Nat → Option (Except Status Nat)
  | 0, _ => none
  | fuel + 1, offset =>
    match t.readPageHeader offset with
    | .error e => some (.error e)
    | .ok hdr =>
      if !pageSummaryCoversKey hdr key then
        some (.error (Status.notFound "key pruned by summary"))
      else if hdr.type = kPageTypeLeaf then t.getFromLeafChain key t.walkFuel offset
      else if hdr.type ≠ kPageTypeInternal then
        some (.error (Status.corruptPage "unknown page type"))
      else
        match t.readPageBytes offset with
        | .error e => some (.error e)
        | .ok page =>
          match childForKey page key hdr.keyCount kPageHeaderSize 0 with
          | .error e => some (.error e)
          | .ok child =>
            if child < kPageFileHeaderSize then
              some (.error (Status.notFound "no child for key"))
            else t.getFromDiskAt key fuel child

def get (t : PagedBTree) (key : Key) : Option (Except Status Nat) :=
  if t.deltaDeleted.contains key then some (.error (Status.notFound "key deleted in delta"))
  else
    match t.index.find? key with
    | some lsn => some (.ok lsn)
    | none =>
      if t.onDiskMode ∧ kPageFileHeaderSize ≤ t.rootOffset then
        t.getFromDiskAt key t.walkFuel t.rootOffset
      else some (.error (Status.notFound "key not in btree"))

/-! ## Scans -/

/-- The first loop of `ScanLeafChain`: the offsets of the chain, `some none` when a page cannot be
read or is no leaf. -/
def leafChain (t : PagedBTree) : Nat → Nat → Option (Option (List Nat))
  | 0, _ => none
  | fuel + 1, offset =>
    if offset < kPageFileHeaderSize then some (some [])
    else
      match t.readPageHeader offset with
      | .error _ => some none
      | .ok hdr =>
        if hdr.type ≠ kPageTypeLeaf then some none
        else (t.leafChain fuel hdr.nextPageOffset).map fun r => r.map (offset :: ·)

def scanLeafChain (t : PagedBTree) (offset : Nat) (plan : TypedPlan) : Option (List Entry) :=
  match t.leafChain t.walkFuel offset with
  | none => none
  | some none => some []
  | some (some chain) =>
    match t.readPages chain with
    | .error _ => some []
    | .ok pages =>
      some (pages.flatMap fun page =>
        ((leafEntries page).getD []).filter fun e => planMatches plan e.1)

/-- The loop over the children, `visit` being the scan of one of them. -/
def scanChildren (t : PagedBTree) (plan : TypedPlan)
    (visit : Nat → Option (Except Status (List Entry))) :
    List Nat → Option (Except Status (List Entry))
  | [] => some (.ok [])
  | off :: offs =>
    match t.readPageHeader off with
    | .error e => some (.error e)
    | .ok hdr =>
      if !planOverlaps hdr plan then t.scanChildren plan visit offs
      else
        match visit off with
        | none => none
        | some (.error e) => some (.error e)
        | some (.ok out) =>
          match t.scanChildren plan visit offs with
          | none => none
          | some (.error e) => some (.error e)
          | some (.ok outs) => some (.ok (out ++ outs))

def scanFromDiskAt (t : PagedBTree) (plan : TypedPlan) :
    Nat → Nat → Option (Except Status (List Entry))
  | 0, _ => none
  | fuel + 1, offset =>
    match t.readPageHeader offset with
    | .error e => some (.error e)
    | .ok hdr =>
      if !planOverlaps hdr plan then some (.ok [])
      else if hdr.type = kPageTypeLeaf then (t.scanLeafChain offset plan).map .ok
      else if hdr.type ≠ kPageTypeInternal then
        some (.error (Status.corruptPage "unknown page type"))
      else
        match t.readPageBytes offset with
        | .error e => some (.error e)
        | .ok page =>
          match childOffsets page hdr.keyCount kPageHeaderSize with
          | .error e => some (.error e)
          | .ok offs =>
            -- the children are read once before the loop, to have them in the cache
            match t.readPages offs with
            | .error e => some (.error e)
            | .ok _ => t.scanChildren plan (t.scanFromDiskAt plan fuel) offs

/-- `MergeDeltaIntoScan`: one entry for each key, those of the index over those from disk, without
the deleted keys, in order. -/
def mergeDeltaIntoScan (t : PagedBTree) (out : List Entry) : List Entry :=
  let merged := (SortedMap.empty.insertAll out).insertAll t.index.entries
  (t.deltaDeleted.entries.foldl (fun m d => m.erase d.1) merged).entries

def scan (t : PagedBTree) (plan : TypedPlan) : Option (Except Status (List Entry)) :=
  if 0 < plan.snapshotLsn ∧ t.summary.summaryLsn < plan.snapshotLsn then
    some (.error (Status.staleSummary "summary lsn behind snapshot"))
  else
    match plan.op with
    | .kEq =>
      if t.summary.minKey ≠ [] ∧ plan.key < t.summary.minKey then some (.ok [])
      else if t.summary.maxKey ≠ [] ∧ t.summary.maxKey < plan.key then some (.ok [])
      else
        match t.get plan.key with
        | none => none
        | some (.error _) => some (.ok [])
        | some (.ok lsn) => some (.ok [(plan.key, lsn)])
    | .kRange =>
      if t.summary.maxKey ≠ [] ∧ t.summary.maxKey < plan.key then some (.ok [])
      else if t.summary.minKey ≠ [] ∧ plan.rangeEnd < t.summary.minKey then some (.ok [])
      else if t.onDiskMode ∧ kPageFileHeaderSize ≤ t.rootOffset then
        match t.scanFromDiskAt plan t.walkFuel t.rootOffset with
        | none => none
        | some (.error e) => some (.error e)
        | some (.ok out) =>
          let out := (t.mergeDeltaIntoScan out).dropWhile fun e => e.1 < plan.key
          some (.ok (out.rdropWhile fun e => plan.rangeEnd < e.1))
      else
        let out := (t.index.entries.dropWhile fun e => e.1 < plan.key).takeWhile fun e =>
          e.1 ≤ plan.rangeEnd
        some (.ok (out.filter fun e => !t.deltaDeleted.contains e.1))

/-! ## Writing and loading a tree -/

/-- The first loop of `PersistRootImpl`: the leaves with their first keys. A leaf that takes no
entry leaves the iterator where it is, and the loop does not end. -/
def serializeLeaves (t : PagedBTree) (source : List Entry) :
    Nat → List Entry → Option (List (Bytes × Key))
  | _, [] => some []
  | 0, _ :: _ => none
  | fuel + 1, e :: es =>
    match serializeLeafChunk t.maxLsn t.summary.summaryLsn source (e :: es) with
    | (page, firstKey, rest) =>
      if rest.length = (e :: es).length then none
      else (t.serializeLeaves source fuel rest).map ((page, firstKey) :: ·)

/-- The pages of the leaves, each but the last one with the offset of the one behind it. -/
def linkLeaves : Nat → List Bytes → List Bytes
  | _, [] => []
  | _, [page] => [page]
  | base, page :: page' :: pages =>
    relink page (base + kPageSize) :: linkLeaves (base + kPageSize) (page' :: pages)

/-- Each leaf's first key and offset. -/
def leafRefs (first : Nat) (keys : List Key) : List Entry :=
  keys.zipIdx.map fun (k, i) => (k, first + i * kPageSize)

/-- One level of `BuildInternalRoot`: a page for each group of children, appended one by one. -/
def appendGroups (t : PagedBTree) (source : List Entry) :
    Nat → PageFile → List Entry → PageFile × List Entry
  | 0, pf, _ => (pf, [])
  | fuel + 1, pf, children =>
    match children.take kInternalMaxEntries with
    | [] => (pf, [])
    | c :: cs =>
      let page := serializeInternalPage t.preferHistogramSummary t.maxLsn t.summary.summaryLsn
        (c :: cs) source
      let (pf', off) := pf.appendPages [page]
      let (pf'', level) := t.appendGroups source fuel pf' (children.drop kInternalMaxEntries)
      (pf'', (c.1, off) :: level)

def buildInternalRoot (t : PagedBTree) (source : List Entry) :
    Nat → PageFile → List Entry → Option (Except Status (PageFile × Nat))
  | _, _, [] => some (.error (Status.internal "no children"))
  | _, pf, [c] => some (.ok (pf, c.2))
  | fuel, pf, children =>
    if children.length ≤ kInternalMaxEntries then
      some (.ok (pf.appendPages [serializeInternalPage t.preferHistogramSummary t.maxLsn
        t.summary.summaryLsn children source]))
    else
      match fuel with
      | 0 => none
      | fuel + 1 =>
        let (pf', level) := t.appendGroups source children.length pf children
        t.buildInternalRoot source fuel pf' level

/-- `PersistRootImpl`: the tree afterwards and the offset of the root. -/
def persistRootImpl (t : PagedBTree) (source : SortedMap Key Nat) :
    Option (PagedBTree × Except Status Nat) :=
  match t.pageFile with
  | none => some (t, .error (Status.internal "no page file"))
  | some pf =>
    if source.isEmpty then some ({ t with rootOffset := kLegacyMapRoot }, .ok kLegacyMapRoot)
    else
      match t.serializeLeaves source.entries source.entries.length source.entries with
      | none => none
      | some leaves =>
        let (pf', first) := pf.appendPages (linkLeaves pf.nextOffset (leaves.map (·.1)))
        let built :=
          if 1 < leaves.length then
            t.buildInternalRoot source.entries leaves.length pf'
              (leafRefs first (leaves.map (·.2)))
          else some (.ok (pf', first))
        match built with
        | none => none
        | some (.error e) => some ({ t with pageFile := some pf' }, .error e)
        | some (.ok (pf'', root)) =>
          some
            ({ t with
                pageFile := some pf''
                rootOffset := root
                index := SortedMap.empty
                deltaDeleted := SortedMap.empty
                onDiskMode := true },
              .ok root)

def persistRoot (t : PagedBTree) : Option (PagedBTree × Except Status Nat) :=
  t.persistRootImpl t.index

def persistRootFromMap (t : PagedBTree) (fullMap : SortedMap Key Nat) :
    Option (PagedBTree × Except Status Nat) :=
  t.persistRootImpl fullMap

def loadRoot (t : PagedBTree) (rootOffset : Nat) : PagedBTree × Except Status Unit :=
  match t.pageFile with
  | none => (t, .error (Status.internal "no page file"))
  | some _ =>
    if rootOffset < kPageFileHeaderSize then
      (t, .error (Status.invalidArgument "invalid root offset"))
    else
      let t := { t with index := SortedMap.empty, deltaDeleted := SortedMap.empty }
      match t.readPageHeader rootOffset with
      | .error e => (t, .error e)
      | .ok hdr =>
        ({ t with
            summary := ⟨(headerBounds hdr).1, (headerBounds hdr).2, hdr.summaryLsn⟩
            maxLsn := hdr.maxLsn
            rootOffset := rootOffset
            onDiskMode := true },
          .ok ())

end PagedBTree
end EBTree.BTree
