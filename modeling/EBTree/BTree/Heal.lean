import EBTree.BTree.Paged

/-!
# Loading a whole tree into memory

`LoadTreeForHeal` (`paged_btree.cc`) and what it calls. As for the other walks, `none` is a call
that does not return.
-/

set_option autoImplicit false

namespace EBTree.BTree

open Lib

namespace PagedBTree

/-- What a load clears first. -/
def clearIndex (t : PagedBTree) : PagedBTree :=
  { t with
    index := SortedMap.empty
    deltaDeleted := SortedMap.empty
    summary := ⟨[], [], 0⟩
    maxLsn := 0 }

/-- `DeserializeLeafPage`, and the offset of the next page. -/
def deserializeLeafPage (t : PagedBTree) (page : Bytes) (clear : Bool) :
    PagedBTree × Except Status Nat :=
  let t := if clear then t.clearIndex else t
  let hdr := PageHeader.decode page
  if hdr.type ≠ kPageTypeLeaf then (t, .error (Status.corruptPage "not a leaf page"))
  else if PageHeader.storedCrc page ≠ (crc32 (page.take 57)).toNat then
    (t, .error (Status.corruptPage "leaf page crc mismatch"))
  else
    let t := { t with maxLsn := max t.maxLsn hdr.maxLsn }
    match leafEntries page with
    | none => (t, .error (Status.corruptPage "invalid leaf page"))
    | some es =>
      ({ t with
          index := t.index.insertAll es
          summary := ⟨hdr.minKey.take (min hdr.minKeyLen kPageSummaryKeyBytes),
            hdr.maxKey.take (min hdr.maxKeyLen kPageSummaryKeyBytes),
            max t.summary.summaryLsn hdr.summaryLsn⟩ },
        .ok hdr.nextPageOffset)

/-- The loop of `DeserializeLeafChain`. -/
def deserializeChainFrom : Nat → Nat → PagedBTree → Option (PagedBTree × Except Status Unit)
  | 0, _, _ => none
  | fuel + 1, offset, t =>
    if offset < kPageFileHeaderSize then some (t.rebuildSummary, .ok ())
    else
      match t.readPageBytes offset with
      | .error e => some (t, .error e)
      | .ok page =>
        match t.deserializeLeafPage page false with
        | (t, .error e) => some (t, .error e)
        | (t, .ok next) =>
          if next = 0 ∨ next < kPageFileHeaderSize then some (t.rebuildSummary, .ok ())
          else deserializeChainFrom fuel next t

def deserializeLeafChain (t : PagedBTree) (offset : Nat) (clear : Bool) :
    Option (PagedBTree × Except Status Unit) :=
  let t := if clear then t.clearIndex else t
  deserializeChainFrom t.walkFuel offset t

/-- The loop of `LoadTreeRecursive` over the `n` entries from `pos` on, `visit` being the load of a
child that is no leaf. -/
def loadChildren (visit : Nat → PagedBTree → Option (PagedBTree × Except Status Unit))
    (page : Bytes) : Nat → Nat → PagedBTree → Option (PagedBTree × Except Status Unit)
  | 0, _, t => some (t, .ok ())
  | n + 1, pos, t =>
    match internalEntryAt page pos with
    | .error e => some (t, .error e)
    | .ok (off, _, pos') =>
      if off < kPageFileHeaderSize then loadChildren visit page n pos' t
      else
        match t.readPageHeader off with
        | .error e => some (t, .error e)
        | .ok hdr =>
          let loaded :=
            if hdr.type = kPageTypeLeaf then t.deserializeLeafChain off false else visit off t
          match loaded with
          | none => none
          | some (t, .error e) => some (t, .error e)
          | some (t, .ok ()) => loadChildren visit page n pos' t

def loadTreeRecursive : Nat → Nat → PagedBTree → Option (PagedBTree × Except Status Unit)
  | 0, _, _ => none
  | fuel + 1, offset, t =>
    match t.readPageHeader offset with
    | .error e => some (t, .error e)
    | .ok hdr =>
      if hdr.type = kPageTypeLeaf then t.deserializeLeafChain offset true
      else if hdr.type ≠ kPageTypeInternal then
        some (t, .error (Status.corruptPage "unknown page type"))
      else
        -- every internal page that is entered clears what was loaded so far
        let t := t.clearIndex
        match t.readPageBytes offset with
        | .error e => some (t, .error e)
        | .ok page =>
          match loadChildren (loadTreeRecursive fuel) page hdr.keyCount kPageHeaderSize t with
          | none => none
          | some (t, .error e) => some (t, .error e)
          | some (t, .ok ()) => some ({ t.rebuildSummary with onDiskMode := false }, .ok ())

def loadTreeForHeal (t : PagedBTree) (rootOffset : Nat) :
    Option (PagedBTree × Except Status Unit) :=
  let t := { t with onDiskMode := false }
  match loadTreeRecursive t.walkFuel rootOffset t with
  | none => none
  | some (t, .error e) => some (t, .error e)
  | some (t, .ok ()) => some ({ t with rootOffset := rootOffset }, .ok ())

end PagedBTree
end EBTree.BTree
