import EBTree.BTree.Page
import EBTree.Engine.ChainSpill

/-!
# The sidecar of the chains

`SaveToFile` and `LoadFromFile` of `VersionChainStore` (`version_chain_store.cc`), with the files of
its pager (`vcs_pager.cc`): an index file that holds every chain as `MergedChain` puts it together, a
metadata file with the nodes that spilled, and pages of these nodes, each linked to the next.
-/

set_option autoImplicit false

namespace EBTree.Engine

open Lib BTree

def kVidxMagicV1 : Nat := 0xEB56494458
def kVidxMagicV2Flag : Nat := 0xEB5649445832
def kVcsMetaMagic : Nat := 0xEB5643534D455441
def kPageTypeVcsChain : UInt8 := 4
def kVcsNodeRecordSize : Nat := 16
def kVcsNodesPerPage : Nat := (kPageSize - kPageHeaderSize) / kVcsNodeRecordSize

/-! ## Writing -/

/-- A node, in a page and in the sidecar files. -/
def VersionNode.encode (n : VersionNode) : Bytes := le 8 n.lsn ++ le 8 n.prevLsn

def VersionNode.decode (bs : Bytes) : VersionNode :=
  ⟨leNat (fieldAt bs 0 8), leNat (fieldAt bs 8 8)⟩

/-- A key behind its length in 16 bits, as many bytes of it as these say. -/
def encodeKey (key : Key) : Bytes := le 2 key.length ++ key.take (key.length % 2 ^ 16)

/-- Nodes behind their number in 32 bits, all of them. -/
def encodeNodes (nodes : List VersionNode) : Bytes :=
  le 4 nodes.length ++ nodes.flatMap VersionNode.encode

/-- The order in which an `unordered_map` is walked. -/
structure WalkOrder where
  order : List Key → List Key
  perm : ∀ keys, (order keys).Perm keys

/-- The order of the keys themselves. -/
def WalkOrder.byKey : WalkOrder := ⟨id, fun _ => List.Perm.refl _⟩

/-! ## The pages of the pager -/

structure VcsKeyOverflowMeta where
  headPage : Nat
  tailPage : Nat
  nodeCount : Nat
  deriving DecidableEq, Repr

/-- The structure's 24 bytes, the last four of which are padding. -/
def VcsKeyOverflowMeta.encode (m : VcsKeyOverflowMeta) : Bytes :=
  le 8 m.headPage ++ (le 8 m.tailPage ++ (le 4 m.nodeCount ++ [0, 0, 0, 0]))

def VcsKeyOverflowMeta.decode (bs : Bytes) : VcsKeyOverflowMeta :=
  ⟨leNat (fieldAt bs 0 8), leNat (fieldAt bs 8 8), leNat (fieldAt bs 16 4)⟩

/-- The page `WriteOverflowPage` fills: as many nodes as fit, behind a header without checksum. -/
def overflowPage (nodes : List VersionNode) : Bytes :=
  let nodes := nodes.take kVcsNodesPerPage
  let hdr : PageHeader :=
    { type := kPageTypeVcsChain
      keyCount := nodes.length
      summaryType := kSummaryTypeMinMax
      reserved := 0
      maxLsn := VersionChainStore.lastLsn nodes
      summaryLsn := 0
      minKeyLen := 0
      maxKeyLen := 0
      minKey := []
      maxKey := []
      nextPageOffset := 0 }
  padTo kPageSize (padTo kPageHeaderSize hdr.checked ++ nodes.flatMap VersionNode.encode)

def writeOverflowPage (pages : PageFile) (nodes : List VersionNode) :
    Except Status (PageFile × Nat) :=
  if nodes = [] then .error (Status.invalidArgument "invalid overflow write")
  else .ok (pages.appendPages [overflowPage nodes])

/-- The link from the page at `tail` to the one at `offset`, written over `next_page_offset`. -/
def linkPage (pages : PageFile) (tail offset : Nat) : Except Status PageFile :=
  match pages.readPage tail with
  | .error e => .error e
  | .ok page =>
    .ok { pages with file := overwrite pages.file tail (overwrite page 53 (le 4 offset)) }

/-- The loop of `SaveMeta` over the nodes of a key, `fuel` pages of it: the page file, the first and
the last page. -/
def savePages (pages : PageFile) (head tail : Nat) :
    Nat → List VersionNode → Except Status (PageFile × Nat × Nat)
  | 0, _ => .ok (pages, head, tail)
  | fuel + 1, nodes =>
    if nodes = [] then .ok (pages, head, tail)
    else
      match writeOverflowPage pages (nodes.take kVcsNodesPerPage) with
      | .error e => .error e
      | .ok (pages, offset) =>
        match (if tail = 0 then .ok pages else linkPage pages tail offset) with
        | .error e => .error e
        | .ok pages =>
          savePages pages (if head = 0 then offset else head) offset fuel
            (nodes.drop kVcsNodesPerPage)

namespace VcsPager

/-- `overflow_`: `AppendOverflow` makes an entry for a key along with its nodes. -/
def overflow (p : VcsPager) : SortedMap Key VcsKeyOverflowMeta :=
  (p.overflowNodes.filterValues fun nodes => nodes ≠ []).mapValues fun nodes =>
    ⟨0, 0, nodes.length % 2 ^ 32⟩

/-- The first loop of `SaveMeta`: `meta_out` with the pages of every key that has nodes. -/
def saveOverflow (p : VcsPager) : List Key → PageFile → SortedMap Key VcsKeyOverflowMeta →
    Except Status (PageFile × SortedMap Key VcsKeyOverflowMeta)
  | [], pages, metaOut => .ok (pages, metaOut)
  | key :: keys, pages, metaOut =>
    let nodes := p.loadOverflow key
    if nodes = [] then p.saveOverflow keys pages metaOut
    else
      match savePages pages 0 0 nodes.length nodes with
      | .error e => .error e
      | .ok (pages, head, tail) =>
        p.saveOverflow keys pages (metaOut.insert key ⟨head, tail, nodes.length % 2 ^ 32⟩)

/-- An entry of the metadata file: what `meta_out` says of the key, and its nodes. -/
def encodeMeta (p : VcsPager) (metaOut : SortedMap Key VcsKeyOverflowMeta) (key : Key) : Bytes :=
  encodeKey key ++ (((metaOut.find? key).getD ⟨0, 0, 0⟩).encode ++ encodeNodes (p.loadOverflow key))

/-- `SaveMeta`: the page file and the metadata file. -/
def saveMeta (p : VcsPager) (pages : PageFile) (nodesOrder metaOrder : WalkOrder) :
    Except Status (PageFile × Bytes) :=
  match p.saveOverflow (nodesOrder.order (p.overflowNodes.entries.map (·.1))) pages p.overflow with
  | .error e => .error e
  | .ok (pages, metaOut) =>
    .ok (pages, le 8 kVcsMetaMagic ++ (le 8 metaOut.entries.length ++
      (metaOrder.order (metaOut.entries.map (·.1))).flatMap (p.encodeMeta metaOut)))

end VcsPager

/-- The files after `SaveToFile`; the metadata file is written if the store has a pager and a path for
it. -/
structure SavedChains where
  index : Bytes
  pagerMeta : Option Bytes
  pages : PageFile

/-- The walks of `SaveToFile`: over `chains_`, `overflow_nodes_` and `meta_out`. -/
structure SaveOrder where
  chains : WalkOrder
  nodes : WalkOrder
  metaOut : WalkOrder

namespace SpillingChainStore

def keys (v : SpillingChainStore) : List Key := v.chains.entries.map (·.1)

/-- An entry of the index file. -/
def encodeEntry (v : SpillingChainStore) (key : Key) : Bytes :=
  encodeKey key ++ encodeNodes (v.mergedChain key)

/-- The magic number says whether a pager wrote the file. -/
def magic (v : SpillingChainStore) : Nat :=
  if v.pager.isSome then kVidxMagicV2Flag else kVidxMagicV1

def indexFile (v : SpillingChainStore) (ord : WalkOrder) : Bytes :=
  le 8 v.magic ++ (le 8 v.keys.length ++ (ord.order v.keys).flatMap v.encodeEntry)

/-- `SaveToFile`, `metaPath` saying whether `pager_meta_path_` names a file. -/
def saveToFile (v : SpillingChainStore) (metaPath : Bool) (pages : PageFile) (ord : SaveOrder) :
    Except Status SavedChains :=
  match v.pager with
  | none => .ok ⟨v.indexFile ord.chains, none, pages⟩
  | some p =>
    if metaPath then
      match p.saveMeta pages ord.nodes ord.metaOut with
      | .error e => .error e
      | .ok (pages, pagerMeta) => .ok ⟨v.indexFile ord.chains, some pagerMeta, pages⟩
    else .ok ⟨v.indexFile ord.chains, none, pages⟩

end SpillingChainStore

/-! ## Reading -/

/-- `in.read` of `n` bytes: these and the rest of the stream, if it has as many. -/
def takeBytes (n : Nat) (bs : Bytes) : Option (Bytes × Bytes) :=
  if n ≤ bs.length then some (bs.take n, bs.drop n) else none

def readNodes : Nat → Bytes → Option (List VersionNode × Bytes)
  | 0, bs => some ([], bs)
  | n + 1, bs =>
    match takeBytes kVcsNodeRecordSize bs with
    | none => none
    | some (b, bs) => (readNodes n bs).map fun x => (VersionNode.decode b :: x.1, x.2)

/-- A key and its nodes in the index file. A key that is cut off shows in the read behind it. -/
def readIndexEntry (bs : Bytes) : Except Status ((Key × List VersionNode) × Bytes) :=
  match takeBytes 2 bs with
  | none => .error (Status.corruptPage "truncated vidx key")
  | some (klen, bs) =>
    match takeBytes (leNat klen) bs with
    | none => .error (Status.corruptPage "truncated vidx node count")
    | some (key, bs) =>
      match takeBytes 4 bs with
      | none => .error (Status.corruptPage "truncated vidx node count")
      | some (count, bs) =>
        match readNodes (leNat count) bs with
        | none => .error (Status.corruptPage "truncated vidx node")
        | some (nodes, bs) => .ok ((key, nodes), bs)

/-- An entry of the metadata file. -/
def readMetaEntry (bs : Bytes) :
    Except Status ((Key × VcsKeyOverflowMeta × List VersionNode) × Bytes) :=
  match takeBytes 2 bs with
  | none => .error (Status.corruptPage "truncated vcs meta key")
  | some (klen, bs) =>
    match takeBytes (leNat klen) bs with
    | none => .error (Status.corruptPage "truncated vcs meta entry")
    | some (key, bs) =>
      match takeBytes 24 bs with
      | none => .error (Status.corruptPage "truncated vcs meta entry")
      | some (m, bs) =>
        match takeBytes 4 bs with
        | none => .error (Status.corruptPage "truncated vcs meta nodes")
        | some (count, bs) =>
          match readNodes (leNat count) bs with
          | none => .error (Status.corruptPage "truncated vcs meta node")
          | some (nodes, bs) => .ok ((key, VcsKeyOverflowMeta.decode m, nodes), bs)

/-- A pager that was read back: `overflow_nodes_`, `overflow_` and the page file. -/
structure LoadedPager where
  overflowNodes : SortedMap Key (List VersionNode)
  overflow : SortedMap Key VcsKeyOverflowMeta
  pages : PageFile

namespace LoadedPager

/-- The nodes of a page. -/
def pageNodes (page : Bytes) (count : Nat) : List VersionNode :=
  (List.range count).map fun i =>
    VersionNode.decode (fieldAt page (kPageHeaderSize + kVcsNodeRecordSize * i) kVcsNodeRecordSize)

/-- `ReadPageNodes`, `fuel` pages of it: a ring of pages is never left. -/
def readPageNodes (pages : PageFile) : Nat → Nat → Option (Except Status (List VersionNode))
  | _, 0 => some (.ok [])
  | 0, _ => none
  | fuel + 1, cur =>
    match pages.readPage cur with
    | .error e => some (.error e)
    | .ok page =>
      let hdr := PageHeader.decode page
      if hdr.type ≠ kPageTypeVcsChain then some (.error (Status.corruptPage "bad vcs page type"))
      else
        (readPageNodes pages fuel hdr.nextPageOffset).map fun
          | .error e => .error e
          | .ok nodes => .ok (pageNodes page hdr.keyCount ++ nodes)

/-- `LoadOverflow`: the nodes in memory, else those on the pages. -/
def loadOverflow (p : LoadedPager) (key : Key) : Option (Except Status (List VersionNode)) :=
  match p.overflowNodes.find? key with
  | some nodes => some (.ok nodes)
  | none =>
    match p.overflow.find? key with
    | none => some (.ok [])
    | some m =>
      if m.headPage = 0 then some (.ok [])
      else readPageNodes p.pages (p.pages.file.length + 1) m.headPage

/-- The loop of `LoadMeta`. -/
def loadEntries (p : LoadedPager) : Nat → Bytes → Except Status LoadedPager
  | 0, _ => .ok p
  | n + 1, bs =>
    match readMetaEntry bs with
    | .error e => .error e
    | .ok ((key, m, nodes), bs) =>
      { p with
        overflow := p.overflow.insert key m
        overflowNodes := if nodes = [] then p.overflowNodes else p.overflowNodes.insert key nodes
      }.loadEntries n bs

/-- `LoadMeta`. -/
def loadMeta (pages : PageFile) (bs : Bytes) : Except Status LoadedPager :=
  match takeBytes 16 bs with
  | none => .error (Status.corruptPage "bad vcs meta")
  | some (hdr, bs) =>
    if leNat (fieldAt hdr 0 8) ≠ kVcsMetaMagic then .error (Status.corruptPage "bad vcs meta")
    else loadEntries ⟨SortedMap.empty, SortedMap.empty, pages⟩ (leNat (fieldAt hdr 8 8)) bs

end LoadedPager

/-- A store that was read back. A lookup may be one that never returns. -/
structure LoadedChains where
  chains : SortedMap Key (List VersionNode)
  pager : Option LoadedPager

namespace LoadedChains

def inlineNodes (s : LoadedChains) (key : Key) : List VersionNode := (s.chains.find? key).getD []

def overflow (s : LoadedChains) (key : Key) : Option (Except Status (List VersionNode)) :=
  match s.pager with
  | none => some (.ok [])
  | some p => p.loadOverflow key

/-- `MergedChain`: nothing where the pager fails. -/
def mergedChain (s : LoadedChains) (key : Key) : Option (List VersionNode) :=
  (s.overflow key).map fun
    | .error _ => []
    | .ok nodes => nodes ++ s.inlineNodes key

/-- `Floor`. -/
def floor (s : LoadedChains) (key : Key) (snapshotLsn : Nat) : Option Nat :=
  (s.mergedChain key).map fun chain => VersionChainStore.floorOf chain snapshotLsn

/-- `Head`. -/
def head (s : LoadedChains) (key : Key) : Option Nat :=
  if s.inlineNodes key ≠ [] then some (VersionChainStore.lastLsn (s.inlineNodes key))
  else
    (s.overflow key).map fun
      | .error _ => 0
      | .ok nodes => VersionChainStore.lastLsn nodes

end LoadedChains

/-- What the pager of a store that is to be read finds: its metadata file, if a path was given for one
and the file is there, and the page file. -/
structure PagerFiles where
  metaFile : Option (Option Bytes)
  pages : PageFile

namespace SpillingChainStore

/-- `AppendOverflow` of the nodes one by one, out at the first that is refused. -/
def appendOverflowAll (p : VcsPager) (key : Key) : List VersionNode → Except Status VcsPager
  | [] => .ok p
  | node :: nodes =>
    match p.appendOverflow key node with
    | (p, .ok ()) => appendOverflowAll p key nodes
    | (_, .error e) => .error e

/-- What `LoadFromFile` does with an entry of the index file. -/
def takeIn (v : SpillingChainStore) (magic : Nat) (key : Key) (nodes : List VersionNode) :
    Except Status SpillingChainStore :=
  match v.pager with
  | none => .ok ⟨v.chains.insert key nodes, none⟩
  | some p =>
    if magic = kVidxMagicV2Flag ∧ kVcsInlineMax < nodes.length then
      let spill := nodes.length - kVcsInlineMax
      match appendOverflowAll p key (nodes.take spill) with
      | .error e => .error e
      | .ok p => .ok ⟨v.chains.insert key (nodes.drop spill), some p⟩
    else .ok ⟨v.chains.insert key nodes, some p⟩

/-- The loop of `LoadFromFile`. -/
def loadEntries (v : SpillingChainStore) (magic : Nat) : Nat → Bytes → Except Status SpillingChainStore
  | 0, _ => .ok v
  | n + 1, bs =>
    match readIndexEntry bs with
    | .error e => .error e
    | .ok ((key, nodes), bs) =>
      match v.takeIn magic key nodes with
      | .error e => .error e
      | .ok v => v.loadEntries magic n bs

/-- The end of `LoadFromFile`. `LoadMeta` forgets what was spilled before it opens the file. -/
def withMeta (v : SpillingChainStore) (magic : Nat) (files : Option PagerFiles) :
    Except Status LoadedChains :=
  match v.pager, files with
  | some p, some files =>
    match (if magic = kVidxMagicV2Flag then files.metaFile else none) with
    | none => .ok ⟨v.chains, some ⟨p.overflowNodes, p.overflow, files.pages⟩⟩
    | some none => .ok ⟨v.chains, some ⟨SortedMap.empty, SortedMap.empty, files.pages⟩⟩
    | some (some bs) =>
      match LoadedPager.loadMeta files.pages bs with
      | .error e => .error e
      | .ok p => .ok ⟨v.chains, some p⟩
  | _, _ => .ok ⟨v.chains, none⟩

/-- `LoadFromFile`, into a store with a pager if there are files for it. -/
def loadFromFile (index : Option Bytes) (files : Option PagerFiles) : Except Status LoadedChains :=
  match index with
  | none => .error (Status.notFound "vidx missing")
  | some bs =>
    match takeBytes 8 bs with
    | none => .error (Status.corruptPage "bad vidx magic")
    | some (magic, bs) =>
      if leNat magic ≠ kVidxMagicV1 ∧ leNat magic ≠ kVidxMagicV2Flag then
        .error (Status.corruptPage "bad vidx magic")
      else
        match takeBytes 8 bs with
        | none => .error (Status.corruptPage "truncated vidx header")
        | some (count, bs) =>
          match loadEntries ⟨SortedMap.empty, files.map fun _ => VcsPager.empty⟩ (leNat magic)
            (leNat count) bs with
          | .error e => .error e
          | .ok v => v.withMeta (leNat magic) files

end SpillingChainStore
end EBTree.Engine
