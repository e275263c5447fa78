import EBTree.Common

/-!
# Pages and the page file

`PageHeader` (`page_format.h`), 64 packed bytes at the start of every page, and `PageFile`
(`page_file.cc`) without compression: pages of 4096 bytes appended behind a file header. The page
cache is left out, since a page is never written twice.
-/

set_option autoImplicit false

namespace EBTree.BTree

abbrev Key := Bytes

def kPageSize : Nat := 4096
def kPageFileHeaderSize : Nat := 4096
def kLegacyMapRoot : Nat := 1
def kPageTypeInternal : UInt8 := 1
def kPageTypeLeaf : UInt8 := 2
def kSummaryTypeMinMax : UInt8 := 0
def kSummaryTypeTrie : UInt8 := 1
def kSummaryTypeHistogram : UInt8 := 2
def kHistogramBinCount : Nat := 8
def kPageSummaryKeyBytes : Nat := 14

/-- `sizeof(PageHeader)`. -/
def kPageHeaderSize : Nat := 64

structure PageHeader where
  type : UInt8
  keyCount : Nat
  summaryType : UInt8
  reserved : UInt8
  maxLsn : Nat
  summaryLsn : Nat
  minKeyLen : Nat
  maxKeyLen : Nat
  minKey : Bytes
  maxKey : Bytes
  nextPageOffset : Nat
  deriving DecidableEq, Repr

namespace PageHeader

/-- The 57 bytes in front of `page_crc`, which it covers. -/
def checked (h : PageHeader) : Bytes :=
  [h.type] ++ (le 2 h.keyCount ++ ([h.summaryType] ++ ([h.reserved] ++ (le 8 h.maxLsn ++
    (le 8 h.summaryLsn ++ (le 2 h.minKeyLen ++ (le 2 h.maxKeyLen ++
      (padTo kPageSummaryKeyBytes h.minKey ++ (padTo kPageSummaryKeyBytes h.maxKey ++
        le 4 h.nextPageOffset)))))))))

/-- The header with its checksum, and three bytes of padding. -/
def encode (h : PageHeader) : Bytes :=
  h.checked ++ (le 4 (crc32 h.checked).toNat ++ [0, 0, 0])

def decode (page : Bytes) : PageHeader where
  type := (fieldAt page 0 1).headD 0
  keyCount := leNat (fieldAt page 1 2)
  summaryType := (fieldAt page 3 1).headD 0
  reserved := (fieldAt page 4 1).headD 0
  maxLsn := leNat (fieldAt page 5 8)
  summaryLsn := leNat (fieldAt page 13 8)
  minKeyLen := leNat (fieldAt page 21 2)
  maxKeyLen := leNat (fieldAt page 23 2)
  minKey := fieldAt page 25 14
  maxKey := fieldAt page 39 14
  nextPageOffset := leNat (fieldAt page 53 4)

/-- The stored `page_crc` of a page. -/
def storedCrc (page : Bytes) : Nat := leNat (fieldAt page 57 4)

@[simp] theorem length_checked (h : PageHeader) : h.checked.length = 57 := by
  simp [checked, kPageSummaryKeyBytes]

@[simp] theorem length_encode (h : PageHeader) : h.encode.length = kPageHeaderSize := by
  simp [encode, kPageHeaderSize]

/-- What a header reads back as: each number in its width, each key in fourteen bytes. -/
def stored (h : PageHeader) : PageHeader :=
  { h with
    keyCount := h.keyCount % 2 ^ 16
    maxLsn := h.maxLsn % 2 ^ 64
    summaryLsn := h.summaryLsn % 2 ^ 64
    minKeyLen := h.minKeyLen % 2 ^ 16
    maxKeyLen := h.maxKeyLen % 2 ^ 16
    minKey := padTo kPageSummaryKeyBytes h.minKey
    maxKey := padTo kPageSummaryKeyBytes h.maxKey
    nextPageOffset := h.nextPageOffset % 2 ^ 32 }

/-- **A header reads back** from the start of its page. -/
theorem decode_encode (h : PageHeader) (body : Bytes) : decode (h.encode ++ body) = h.stored := by
  simp only [decode, stored, encode, checked, List.append_assoc, kPageSummaryKeyBytes]
  -- every field is skipped up to the one that is read
  simp only [fieldAt_here, fieldAt_skip, length_le, length_padTo, List.length_singleton,
    Nat.reduceLeDiff, Nat.reduceSub, le_refl, leNat_le, List.headD_cons]
  rfl

/-- A header's checksum is found right. -/
theorem storedCrc_encode (h : PageHeader) (body : Bytes) :
    storedCrc (h.encode ++ body) = (crc32 ((h.encode ++ body).take 57)).toNat := by
  have hc : (h.encode ++ body).take 57 = h.checked := by
    rw [encode, List.append_assoc]
    exact List.take_left' (length_checked h)
  have hf : fieldAt (h.encode ++ body) 57 4 = le 4 (crc32 h.checked).toNat :=
    fieldAt_of_append h.checked ([0, 0, 0] ++ body) (by simp [encode]) (by simp) (by simp)
  rw [hc, storedCrc, hf, leNat_le]
  exact Nat.mod_eq_of_lt (crc32 h.checked).toNat_lt

end PageHeader

/-! ## The page file -/

/-- A page file: the bytes of the file and the offset the next page goes to, which lies behind the
file header. -/
structure PageFile where
  file : Bytes
  nextOffset : Nat
  header_le : kPageFileHeaderSize ≤ nextOffset
  deriving DecidableEq

namespace PageFile

def kPageFileMagic : Nat := 0xEB50414745524C

/-- The header `SaveHeader` writes: magic, next offset, no flags, and padding to 24 bytes. -/
def headerBytes (nextOffset : Nat) : Bytes :=
  le 8 kPageFileMagic ++ (le 8 nextOffset ++ (le 4 0 ++ [0, 0, 0, 0]))

@[simp] theorem length_headerBytes (n : Nat) : (headerBytes n).length = 24 := by
  simp [headerBytes]

/-- The constructor on a path where there is no page file yet. -/
def new : PageFile := ⟨[], kPageFileHeaderSize, Nat.le_refl _⟩

/-- The constructor on a path whose file holds `f`: the next offset of its header, where it has one.
No writer stores an offset inside the file header. -/
def «open» (f : Bytes) : PageFile :=
  match readAt? f 0 24 with
  | some hdr =>
    if leNat (fieldAt hdr 0 8) = kPageFileMagic then
      ⟨f, max kPageFileHeaderSize (leNat (fieldAt hdr 8 8)), Nat.le_max_left _ _⟩
    else ⟨f, kPageFileHeaderSize, Nat.le_refl _⟩
  | none => ⟨f, kPageFileHeaderSize, Nat.le_refl _⟩

/-- `AppendPages`. A file that does not exist yet is created with a zero-filled header area, which
writing behind its end does as well. -/
def appendPages (pf : PageFile) (pages : List Bytes) : PageFile × Nat :=
  if pages.isEmpty then (pf, 0)
  else
    let nextOffset := pf.nextOffset + kPageSize * pages.length
    let file := overwrite pf.file pf.nextOffset pages.flatten
    ({ file := overwrite file 0 (headerBytes nextOffset)
       nextOffset := nextOffset
       header_le := Nat.le_trans pf.header_le (Nat.le_add_right _ _) },
      pf.nextOffset)

/-- `ReadPage` without the cache. -/
def readPage (pf : PageFile) (offset : Nat) : Except Status Bytes :=
  match readAt? pf.file offset kPageSize with
  | some page => .ok page
  | none => .error (Status.ioError "pagefile read failed")

theorem readPage_ok {pf : PageFile} {offset : Nat} {page : Bytes} :
    pf.readPage offset = .ok page ↔ readAt? pf.file offset kPageSize = some page := by
  unfold readPage
  cases readAt? pf.file offset kPageSize <;> simp

end PageFile
end EBTree.BTree
