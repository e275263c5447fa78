import EBTree.BTree.Page
import EBTree.Codec.Registry
import EBTree.Lib.LruCache

/-!
# The page file with its cache

`PageFile` (`page_file.cc`) with the wrapped format, the cache and the stream that all reads share.
The stream is modelled by whether it has failed: a read that ends behind the file's end sets the
state, seeks and reads of a failed stream do nothing, and nothing clears it once the file is open.
-/

set_option autoImplicit false

namespace EBTree.BTree

open Lib Codec

def kPageCodecRaw : UInt8 := 0
def kPageCodecLzma : UInt8 := 3
def kStoredPageHeaderSize : Nat := 5

/-- `file` is `none` while there is no file; `readFailed` is the state of `read_file_`. -/
structure CachedPageFile where
  file : Option Bytes
  nextOffset : Nat
  compressPages : Bool
  wrapped : Bool
  readFailed : Bool
  cache : LruCache Nat Bytes

namespace CachedPageFile

/-! ## Writing -/

/-- The header that `SaveHeader` writes: the magic, the next offset and the flags. -/
def fileHeader (nextOffset : Nat) (wrapped : Bool) : Bytes :=
  le 8 PageFile.kPageFileMagic ++ (le 8 nextOffset ++
    (le 4 (if wrapped then 1 else 0) ++ [0, 0, 0, 0]))

@[simp] theorem length_fileHeader (n : Nat) (wrapped : Bool) :
    (fileHeader n wrapped).length = 24 := by
  simp [fileHeader]

/-- The file that `AppendPages` creates. -/
def newFile : Bytes :=
  fileHeader kPageFileHeaderSize false ++ List.replicate (kPageFileHeaderSize - 24) 0

section
variable (L : LzmaLib)

/-- The codec and the payload that a page is stored with in the wrapped format. -/
def encodePage (compressPages : Bool) (page : Bytes) : UInt8 × Bytes :=
  if compressPages then
    match lzmaCompressPreset L .kPageBlock page with
    | .ok lz =>
      if lz.compressed = true ∧ lz.payload.length < page.length then (kPageCodecLzma, lz.payload)
      else (kPageCodecRaw, page)
    | .error _ => (kPageCodecRaw, page)
  else (kPageCodecRaw, page)

/-- `WriteStoredPage`: what is written of a page. -/
def storedBytes (compressPages wrapped : Bool) (page : Bytes) : Bytes :=
  if wrapped then
    let stored := encodePage L compressPages page
    le 4 (kStoredPageHeaderSize + stored.2.length) ++ (stored.1 :: stored.2)
  else page

/-- `AppendPages`, and the offset of the first page. -/
def appendPages (s : CachedPageFile) (pages : List Bytes) : CachedPageFile × Nat :=
  if pages.isEmpty then (s, 0)
  else
    let wrapped := s.wrapped || s.compressPages
    let data := (pages.map (storedBytes L s.compressPages wrapped)).flatten
    let nextOffset := s.nextOffset + data.length
    let file := overwrite (s.file.getD newFile) s.nextOffset data
    ({ s with
       file := some (overwrite file 0 (fileHeader nextOffset wrapped))
       nextOffset := nextOffset
       wrapped := wrapped }, s.nextOffset)

/-! ## Reading -/

/-- The payload of a stored page, decoded. -/
def decodePayload (codec : UInt8) (payload : Bytes) : Except Status Bytes :=
  if codec = kPageCodecRaw then
    if payload.length ≠ kPageSize then .error (.corruptPage "raw page size mismatch")
    else .ok payload
  else if codec = kPageCodecLzma then
    if payload.length < 4 then .error (.corruptPage "lzma page trunc")
    else if leNat (payload.take 4) ≠ kPageSize then
      .error (.corruptPage "lzma page usize mismatch")
    else lzmaDecompressPayload L payload (leNat (payload.take 4))
  else .error (.corruptPage "unknown page codec")

/-- A seek and a read on the shared stream. -/
def readStream (s : CachedPageFile) (f : Bytes) (offset n : Nat) : Option Bytes :=
  if s.readFailed then none else readAt? f offset n

/-- The stream after a read that it could not complete. -/
def failed (s : CachedPageFile) : CachedPageFile := { s with readFailed := true }

/-- `ReadStoredPage`. -/
def readStoredPage (s : CachedPageFile) (offset : Nat) : CachedPageFile × Except Status Bytes :=
  match s.file with
  | none => (s, .error (.ioError "pagefile read open failed"))
  | some f =>
    if s.wrapped then
      match s.readStream f offset kStoredPageHeaderSize with
      | none => (s.failed, .error (.ioError "pagefile stored header read failed"))
      | some hdr =>
        let totalSize := leNat (hdr.take 4)
        if totalSize < kStoredPageHeaderSize then
          (s, .error (.corruptPage "stored page size invalid"))
        else
          match s.readStream f (offset + kStoredPageHeaderSize)
              (totalSize - kStoredPageHeaderSize) with
          | none => (s.failed, .error (.ioError "pagefile stored payload read failed"))
          | some payload => (s, decodePayload L (hdr.getD 4 0) payload)
    else
      match s.readStream f offset kPageSize with
      | none => (s.failed, .error (.ioError "pagefile read failed"))
      | some page => (s, .ok page)

/-- `cache_page`. -/
def cachePage (s : CachedPageFile) (offset : Nat) (page : Bytes) : CachedPageFile :=
  { s with cache := s.cache.insert offset page }

/-- What `cache_pages_.at` gives; it throws where the page is not there. -/
def cachedAt (s : CachedPageFile) (offset : Nat) : Except Status Bytes :=
  match s.cache.pages.find? offset with
  | some page => .ok page
  | none => .error (.internal "std::out_of_range")

/-- `ReadPage`. -/
def readPage (s : CachedPageFile) (offset : Nat) : CachedPageFile × Except Status Bytes :=
  if s.cache.hit offset then ({ s with cache := s.cache.touch offset }, s.cachedAt offset)
  else
    match s.readStoredPage L offset with
    | (s, .error e) => (s, .error e)
    | (s, .ok page) => (s.cachePage offset page, .ok page)

/-! ## Reading a list of pages -/

/-- The offsets of a list that are not in the cache, with their places in it, sorted. -/
def pendingOf (s : CachedPageFile) (offsets : List Nat) : List (Nat × Nat) :=
  (offsets.zipIdx.filter fun x => !s.cache.hit x.1).mergeSort fun a b => a.1 ≤ b.1

/-- The first loop of `ReadPages`: what is in the cache is taken and used. -/
def takeHits (s : CachedPageFile) (offsets : List Nat) : CachedPageFile :=
  { s with cache := s.cache.useAll offsets }

/-- The pages of a run behind the page at `prev`: those that follow it without a gap. -/
def splitRun (prev : Nat) : List (Nat × Nat) → List (Nat × Nat) × List (Nat × Nat)
  | [] => ([], [])
  | x :: xs =>
    if x.1 = prev + kPageSize then
      let split := splitRun x.1 xs
      (x :: split.1, split.2)
    else ([], x :: xs)

/-- The pages of a blob, put into the cache and into their places. -/
def placeRun (blob : Bytes) (runOffset : Nat) : Nat → List (Nat × Nat) → CachedPageFile →
    List Bytes → CachedPageFile × List Bytes
  | _, [], s, out => (s, out)
  | i, x :: xs, s, out =>
    let page := fieldAt blob (i * kPageSize) kPageSize
    placeRun blob runOffset (i + 1) xs (s.cachePage (runOffset + i * kPageSize) page)
      (out.set x.2 page)

/-- The read of a run of pages as one blob. -/
def readRun (s : CachedPageFile) (runOffset : Nat) (run : List (Nat × Nat)) (out : List Bytes) :
    CachedPageFile × Except Status (List Bytes) :=
  match s.file with
  | none => (s, .error (.ioError "pagefile read open failed"))
  | some f =>
    match s.readStream f runOffset (run.length * kPageSize) with
    | none => (s.failed, .error (.ioError "page run read failed"))
    | some blob =>
      let placed := placeRun blob runOffset 0 run s out
      (placed.1, .ok placed.2)

/-- The read of a single page. -/
def readSingle (s : CachedPageFile) (x : Nat × Nat) (out : List Bytes) :
    CachedPageFile × Except Status (List Bytes) :=
  match s.readStoredPage L x.1 with
  | (s, .error e) => (s, .error e)
  | (s, .ok page) => (s.cachePage x.1 page, .ok (out.set x.2 page))

/-- The second loop of `ReadPages`; a round takes at least one page. -/
def readRuns : Nat → List (Nat × Nat) → CachedPageFile → List Bytes →
    CachedPageFile × Except Status (List Bytes)
  | 0, _, s, out => (s, .ok out)
  | _ + 1, [], s, out => (s, .ok out)
  | fuel + 1, x :: xs, s, out =>
    let split := if s.wrapped then ([], xs) else splitRun x.1 xs
    let r := if split.1.isEmpty then s.readSingle L x out else s.readRun x.1 (x :: split.1) out
    match r with
    | (s, .error e) => (s, .error e)
    | (s, .ok out) => readRuns fuel split.2 s out

/-- `ReadPages`. -/
def readPages (s : CachedPageFile) (offsets : List Nat) :
    CachedPageFile × Except Status (List Bytes) :=
  let hits := offsets.mapM fun offset =>
    if s.cache.hit offset then s.cachedAt offset else .ok []
  match hits with
  | .error e => (s, .error e)
  | .ok out =>
    let pending := s.pendingOf offsets
    readRuns L pending.length pending (s.takeHits offsets) out

end

end CachedPageFile
end EBTree.BTree
