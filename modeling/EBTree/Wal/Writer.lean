import EBTree.Lib.SortedMap
import EBTree.Wal.Segment

/-!
# Writing the log

`WalWriter` (`wal.cc`) in its buffered mode: the state of one writer, the bytes of its file
included, and `Append`, `AppendMany`, `Fsync`, `TruncateTo`, `RebuildKeyIndex` and
`SyncExternalTail` on it. The file is what a reader of the path sees once the stream is flushed.
-/

set_option autoImplicit false

namespace EBTree.Wal

open Lib

/-! ## Unchecked readers

`RebuildKeyIndex` and `TruncateTo` read headers, keys and values off a stream and stop where it
ends; the first also resynchronises on padding and on a wrong checksum. -/

/-- A record as the stream loops read it, of either layout. -/
structure RawRecord where
  lsn : Nat
  op : UInt8
  key : Key
  value : Value
  deriving DecidableEq, Repr

def RawRecord.isData (r : RawRecord) : Bool :=
  r.op == WalOp.kPut.code || r.op == WalOp.kDelete.code

/-- A V1 record off the stream. -/
def readRawV1At (f : Bytes) (offset : Nat) : Option (RawRecord × Nat) := do
  let hdr := WalRecordHeader.decode (← readAt? f offset kHeaderSizeV1)
  let key ← readAt? f (offset + kHeaderSizeV1) hdr.keyLen
  let value ← readAt? f (offset + kHeaderSizeV1 + hdr.keyLen) hdr.valueLen
  some (⟨hdr.lsn, hdr.op, key, value⟩, offset + kHeaderSizeV1 + hdr.keyLen + hdr.valueLen)

/-- A V2 record off the stream, nothing checked. -/
def readRawV2At (f : Bytes) (offset : Nat) : Option (RawRecord × Nat) := do
  let hdr := WalRecordHeaderV2.decode (← readAt? f offset kHeaderSizeV2)
  let key ← readAt? f (offset + kHeaderSizeV2) hdr.keyLen
  let value ← readAt? f (offset + kHeaderSizeV2 + hdr.keyLen) hdr.valueLen
  some (⟨hdr.lsn, hdr.op, key, value⟩, offset + kHeaderSizeV2 + hdr.keyLen + hdr.valueLen)

/-- The header at `offset`, when the file holds one. -/
def headerV2At (f : Bytes) (offset : Nat) : Option WalRecordHeaderV2 :=
  (readAt? f offset kHeaderSizeV2).map WalRecordHeaderV2.decode

/-- The checks of `RebuildKeyIndex`: neither padding nor a wrong checksum. -/
def headerAccepted (f : Bytes) (offset : Nat) : Bool :=
  match headerV2At f offset with
  | some hdr => !hdr.isPadding && hdr.verifyCrc
  | none => false

theorem readRawV1At_some {f : Bytes} {o n : Nat} {r : RawRecord}
    (h : readRawV1At f o = some (r, n)) : o < n ∧ n ≤ f.length := by
  simp only [readRawV1At, Option.bind_eq_bind, Option.bind_eq_some_iff] at h
  obtain ⟨bs, -, key, -, value, hv, h⟩ := h
  cases h
  have := (readAt?_some hv).1
  simp only [kHeaderSizeV1] at this ⊢
  omega

theorem readRawV2At_some {f : Bytes} {o n : Nat} {r : RawRecord}
    (h : readRawV2At f o = some (r, n)) : o < n ∧ n ≤ f.length := by
  simp only [readRawV2At, Option.bind_eq_bind, Option.bind_eq_some_iff] at h
  obtain ⟨bs, -, key, -, value, hv, h⟩ := h
  cases h
  have := (readAt?_some hv).1
  simp only [kHeaderSizeV2] at this ⊢
  omega

/-- Where a stream loop goes on that has come to the end of `f`. -/
def streamEnd (f : Bytes) (offset : Nat) : Nat := max (offset + 1) f.length

theorem streamEnd_gt (f : Bytes) (offset : Nat) : offset < streamEnd f offset := by
  unfold streamEnd; omega

theorem le_streamEnd (f : Bytes) (offset : Nat) : f.length ≤ streamEnd f offset := by
  unfold streamEnd; omega

/-- Where `RebuildKeyIndex` goes on after it accepted no record: to the next sector after padding
or a complete record with a wrong checksum, out of the loop where the stream ended. -/
def rebuildSkip (f : Bytes) (offset : Nat) : Nat :=
  match headerV2At f offset with
  | none => streamEnd f offset
  | some hdr =>
    if hdr.isPadding ∨ (readRawV2At f offset).isSome then alignUpWalSector offset
    else streamEnd f offset

theorem alignUpWalSector_gt (o : Nat) : o < alignUpWalSector o := (walReader []).skip_gt o

/-- The V1 loop: out at the first record the stream does not hold. -/
def rawReaderV1 (f : Bytes) : Reader RawRecord where
  read := readRawV1At f
  skip := streamEnd f
  read_gt h := (readRawV1At_some h).1
  skip_gt := streamEnd_gt f

/-- The loop of `TruncateTo`. -/
def rawReaderV2 (f : Bytes) : Reader RawRecord where
  read := readRawV2At f
  skip := streamEnd f
  read_gt h := (readRawV2At_some h).1
  skip_gt := streamEnd_gt f

/-- The V2 loop of `RebuildKeyIndex`. -/
def rebuildReader (f : Bytes) : Reader RawRecord where
  read o := if headerAccepted f o then readRawV2At f o else none
  skip := rebuildSkip f
  read_gt h := by
    split at h
    · exact (readRawV2At_some h).1
    · cases h
  skip_gt o := by
    unfold rebuildSkip
    split
    · exact streamEnd_gt f o
    · split
      · exact alignUpWalSector_gt o
      · exact streamEnd_gt f o

/-! ## State -/

/-- An entry of `WalKeyIndex`: the last record indexed for a key. -/
structure WalKeyIndexEntry where
  offset : Nat
  lsn : Nat
  deriving DecidableEq, Repr

abbrev WalKeyIndex := SortedMap Key WalKeyIndexEntry

namespace WalKeyIndex

def update (ix : WalKeyIndex) (offset : Nat) (key : Key) (lsn : Nat) : WalKeyIndex :=
  ix.insert key ⟨offset, lsn⟩

/-- `Lookup`: the offset of a record of `key` after `afterLsn`. -/
def lookup (ix : WalKeyIndex) (key : Key) (afterLsn : Nat) : Option Nat :=
  match ix.find? key with
  | some e => if e.lsn ≤ afterLsn then none else some e.offset
  | none => none

end WalKeyIndex

structure PendingIndexEntry where
  offset : Nat
  key : Key
  lsn : Nat
  deriving DecidableEq, Repr

structure WalWriter where
  file : Bytes
  maxLsn : Nat
  formatV2 : Bool
  keyIndex : WalKeyIndex
  pendingIndex : List PendingIndexEntry
  fileOffset : Nat
  tailDataEnd : Nat

namespace WalWriter

/-- `EnsureWalMagicLocked`, called where `format_v2_` is not set. -/
def ensureWalMagicLocked (w : WalWriter) : WalWriter :=
  if w.formatV2 then w
  else { w with file := overwrite w.file 0 magicBytes, formatV2 := true, fileOffset := 8 }

/-- Index the data records among `frames`, in order. -/
def indexFrames (ix : WalKeyIndex) (frames : List (Nat × RawRecord)) : WalKeyIndex :=
  frames.foldl (fun ix x => ix.update x.1 x.2.key x.2.lsn) ix

def maxLsnOf (frames : List (Nat × RawRecord)) : Nat :=
  frames.foldl (fun m x => max m x.2.lsn) 0

/-- `RebuildKeyIndex`. Entries of the old index stay, unless the file is empty. -/
def rebuildKeyIndex (w : WalWriter) : WalWriter :=
  let f := w.file
  let formatV2 := 8 < f.length && detectFormatV2OnDisk f
  let readOffset := if formatV2 then walDataOffsetOnDisk f true else 0
  if 0 < f.length then
    let R := if formatV2 then rebuildReader f else rawReaderV1 f
    let frames := R.scan f.length readOffset
    let indexed := if formatV2 then frames.filter (·.2.isData) else frames
    let dataEnd := R.lastEnd f.length readOffset readOffset
    { w with
      maxLsn := maxLsnOf frames
      formatV2 := formatV2
      keyIndex := indexFrames w.keyIndex indexed
      pendingIndex := []
      fileOffset := if 0 < dataEnd then dataEnd else f.length
      tailDataEnd := if 0 < dataEnd then dataEnd else w.tailDataEnd }
  else
    { w with
      maxLsn := 0
      formatV2 := false
      keyIndex := .empty
      pendingIndex := []
      fileOffset := 0
      tailDataEnd := 0 }.ensureWalMagicLocked

/-- The constructor on a path whose file holds `f`, or does not exist yet (`f` empty). -/
def «open» (f : Bytes) : WalWriter :=
  rebuildKeyIndex ⟨f, 0, false, .empty, [], 0, 0⟩

/-- What `ExtendTailFromOffset` finds in a file from `startOffset` on: the end of the last record, the
largest LSN, and the records. -/
structure TailExtent where
  dataEnd : Nat
  maxLsn : Nat
  found : List (Nat × RawRecord)

def extendTailFromOffset (f : Bytes) (startOffset : Nat) : TailExtent :=
  if detectFormatV2OnDisk f then
    let o := max startOffset 8
    let frames := (walReader f).scan f.length o
    { dataEnd := (walReader f).lastEnd f.length o startOffset
      maxLsn := frames.foldl (fun m x => max m x.2.lsn) 0
      found := frames.map fun x => (x.1, ⟨x.2.lsn, x.2.op.code, x.2.key, x.2.value⟩) }
  else
    let frames := (rawReaderV1 f).scan f.length startOffset
    { dataEnd := (rawReaderV1 f).lastEnd f.length startOffset startOffset
      maxLsn := maxLsnOf frames
      found := frames }

/-- `SyncExternalTailLocked`: take in what lies beyond the data this writer knows of. -/
def syncExternalTailLocked (w : WalWriter) : WalWriter :=
  if w.file.length ≤ w.tailDataEnd then w else
  let ext := extendTailFromOffset w.file w.tailDataEnd
  { w with
    keyIndex := indexFrames w.keyIndex (ext.found.filter (·.2.isData))
    maxLsn := if w.maxLsn < ext.maxLsn then ext.maxLsn else w.maxLsn
    tailDataEnd := if ext.dataEnd ≤ w.tailDataEnd then w.tailDataEnd else ext.dataEnd
    fileOffset :=
      if ext.dataEnd ≤ w.tailDataEnd ∨ ext.dataEnd ≤ w.fileOffset then w.fileOffset
      else ext.dataEnd }

/-- `AppendRecordV2` of the record with header `r.bareHeader`. -/
def appendRecordV2 (w : WalWriter) (r : WalRecord) : WalWriter :=
  { w with
    file := overwrite w.file w.fileOffset r.encode
    fileOffset := w.fileOffset + r.size
    tailDataEnd := w.fileOffset + r.size
    pendingIndex :=
      if r.op = .kPut ∨ r.op = .kDelete then
        w.pendingIndex ++ [⟨w.fileOffset, r.key, r.lsn⟩]
      else w.pendingIndex }

/-- What a caller asks to append. -/
structure Item where
  op : WalOp
  key : Key
  value : Value
  txnId : UInt32
  deriving DecidableEq, Repr

namespace Item

/-- The lengths a header can hold. -/
def InBounds (it : Item) : Prop := it.key.length ≤ 65535 ∧ it.value.length ≤ 65535

instance (it : Item) : Decidable it.InBounds := by unfold InBounds; infer_instance

def record (it : Item) (lsn : Nat) : WalRecord := ⟨lsn, it.op, it.key, it.value, it.txnId⟩

end Item

/-- The 64-bit LSN counter's next value. -/
def nextLsn (lsn : Nat) : Nat := (lsn + 1) % 2 ^ 64

/-- The part of `Append` after the magic and the tail: the LSN is taken before the lengths are
checked. -/
def appendItem (w : WalWriter) (it : Item) : WalWriter × Except Status Nat :=
  let lsn := nextLsn w.maxLsn
  let w := { w with maxLsn := lsn }
  if it.InBounds then (w.appendRecordV2 (it.record lsn), .ok lsn)
  else (w, .error (Status.invalidArgument "wal record too large"))

def append (w : WalWriter) (it : Item) : WalWriter × Except Status Nat :=
  w.ensureWalMagicLocked.syncExternalTailLocked.appendItem it

def appendItems (w : WalWriter) : List Item → WalWriter × List (Except Status Nat)
  | [] => (w, [])
  | it :: its =>
    let (w, st) := w.appendItem it
    let (w, sts) := w.appendItems its
    (w, st :: sts)

/-- `AppendMany`: each item with its own status. -/
def appendMany (w : WalWriter) (items : List Item) : WalWriter × List (Except Status Nat) :=
  if items.isEmpty then (w, [])
  else w.ensureWalMagicLocked.syncExternalTailLocked.appendItems items

/-- What `AppendTxnControl` appends. -/
def txnControl (op : WalOp) (txnId : UInt32) (metaLsn : UInt64) : Item :=
  ⟨op, [], le 8 metaLsn.toNat, txnId⟩

def fsync (w : WalWriter) : WalWriter :=
  { w with
    keyIndex := w.pendingIndex.foldl (fun ix e => ix.update e.offset e.key e.lsn) w.keyIndex
    pendingIndex := [] }

/-- The first record `TruncateTo` keeps; the end of the file when it keeps none. -/
def keepFrom (w : WalWriter) (walLsn : Nat) : Nat :=
  let f := w.file
  let readOffset := if w.formatV2 && detectFormatV2OnDisk f then 8 else 0
  let R := if w.formatV2 then rawReaderV2 f else rawReaderV1 f
  match (R.scan f.length readOffset).find? fun x => walLsn < x.2.lsn with
  | some x => x.1
  | none => f.length

/-- The bytes `TruncateTo` leaves in the file: the magic alone, or the kept records alone. -/
def truncated (w : WalWriter) (walLsn : Nat) : Bytes :=
  let keep := w.keepFrom walLsn
  if w.formatV2 ∧ keep = w.file.length then magicBytes
  else if keep < w.file.length then w.file.drop keep
  else []

def truncateTo (w : WalWriter) (walLsn : Nat) : WalWriter :=
  let f := w.truncated walLsn
  let w := { w with file := f, fileOffset := f.length, pendingIndex := [] }.rebuildKeyIndex
  { w with maxLsn := if w.maxLsn < walLsn then walLsn else w.maxLsn }

def ensureMinLsn (w : WalWriter) (minLsn : Nat) : WalWriter :=
  { w with maxLsn := if w.maxLsn < minLsn then minLsn else w.maxLsn }

/-! ## Runs of calls -/

/-- One call of a client of the log. -/
inductive Call
  | append (it : Item)
  | appendTxnControl (op : WalOp) (txnId : UInt32) (metaLsn : UInt64)
  | fsync
  deriving DecidableEq

namespace Call

/-- What the call appends. -/
def item? : Call → Option Item
  | append it => some it
  | appendTxnControl op txnId metaLsn => some (txnControl op txnId metaLsn)
  | fsync => none

/-- The call as `WalWriter` runs it, and the record it acknowledged. -/
def run (w : WalWriter) (c : Call) : WalWriter × Option WalRecord :=
  match c.item? with
  | none => (w.fsync, none)
  | some it =>
    match w.append it with
    | (w, .ok lsn) => (w, some (it.record lsn))
    | (w, .error _) => (w, none)

end Call

/-- A run of calls, and the records acknowledged with the LSNs that were assigned. -/
def runCalls (w : WalWriter) : List Call → WalWriter × List WalRecord
  | [] => (w, [])
  | c :: cs =>
    let (w, r) := c.run w
    let (w, rs) := w.runCalls cs
    (w, r.toList ++ rs)

end WalWriter
end EBTree.Wal
