import EBTree.BTree.Paged

/-!
# The pointers between the pages of a tree

The pages `PersistRootImpl` writes lie one behind the other from the append offset on, so the pages
of a tree are numbered in that order, and which page points to which does not depend on the offset.
`treeLinks` lists that for a map; `pagePointers` are the offsets a reader takes out of a page.
-/

set_option autoImplicit false

namespace EBTree.BTree

open Lib

/-- The offsets a reader follows from a page: the next leaf, or the children. -/
def pagePointers (page : Bytes) : Except Status (List Nat) :=
  let hdr := PageHeader.decode page
  if hdr.type = kPageTypeLeaf then
    .ok (if kPageFileHeaderSize ≤ hdr.nextPageOffset then [hdr.nextPageOffset] else [])
  else childOffsets page hdr.keyCount kPageHeaderSize

/-- The leaves are the pages from number `n` on, each but the last one before the next. -/
def leafLinks : Nat → Nat → List (List Nat)
  | _, 0 => []
  | _, 1 => [[]]
  | n, count + 2 => [n + 1] :: leafLinks (n + 1) (count + 1)

/-- The children an internal page has room for, by their numbers. -/
def childLinks (children : List Entry) : List Nat :=
  (fitChildren kPageHeaderSize children).map (·.2)

/-- One level over `children`, which are keys with page numbers: the links of its pages, the first
of them being number `n`, and the level itself. -/
def levelLinks : Nat → Nat → List Entry → List (List Nat) × List Entry
  | 0, _, _ => ([], [])
  | fuel + 1, n, children =>
    match children.take kInternalMaxEntries with
    | [] => ([], [])
    | c :: cs =>
      let (links, level) := levelLinks fuel (n + 1) (children.drop kInternalMaxEntries)
      (childLinks (c :: cs) :: links, (c.1, n) :: level)

/-- The levels up to the root, from page number `n` on. -/
def rootLinks : Nat → Nat → List Entry → List (List Nat)
  | fuel, n, children =>
    if children.length ≤ kInternalMaxEntries then [childLinks children]
    else
      match fuel with
      | 0 => []
      | fuel + 1 =>
        let (links, level) := levelLinks children.length n children
        links ++ rootLinks fuel (n + links.length) level

/-- For each page of the tree of a map, in the order of the file, the pages it is to lead to. -/
def treeLinks (t : PagedBTree) (source : List Entry) : Option (List (List Nat)) :=
  (t.serializeLeaves source source.length source).map fun leaves =>
    leafLinks 0 leaves.length ++
      if 1 < leaves.length then rootLinks leaves.length leaves.length (leaves.map (·.2)).zipIdx
      else []

/-- Where page number `i` of a tree lies that was appended at `base`. -/
def pageAt (base i : Nat) : Nat := base + kPageSize * i

/-- Every page of the tree appended at `base` is there, and the pointers read off it are the offsets
of the pages it is to lead to. -/
def PointersHold (pf : PageFile) (base : Nat) (links : List (List Nat)) : Prop :=
  ∀ i l, links[i]? = some l →
    ∃ page, pf.readPage (pageAt base i) = .ok page ∧
      pagePointers page = .ok (l.map (pageAt base))

end EBTree.BTree
