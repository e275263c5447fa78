import EBTree.Engine.StoredRecord

/-!
# Reading many records at once

`ReadRecordsAtOffsets` (`datafile.cc`): the offsets are sorted, and the records are taken from windows
of a mapped file, or from blobs that are read at one go, and one by one from the stream where neither
serves.
-/

set_option autoImplicit false

namespace EBTree.Engine

open Lib Codec

namespace DataFile

/-- Where the record whose header is `bs` ends. -/
def recordEnd (offset : Nat) (bs : Bytes) : Nat :=
  offset + kDataHeaderSize + (DataRecordHeader.decode bs).keyLen +
    (DataRecordHeader.decode bs).valueLen

/-- `ParseRecordAt`, in bytes that may hold a part of the record. -/
def parseRecordAt (L : LzmaLib) (base : Bytes) (recordOffset : Nat) (reclaimGeneration : UInt8) :
    Except Status ReadOut :=
  match readAt? base recordOffset kDataHeaderSize with
  | none => .error (.ioError "datafile record out of view")
  | some bs =>
    if !DataRecordHeader.verifyCrc bs then .error (.corruptPage "datafile crc mismatch")
    else if !generationVisible (recordGeneration bs) reclaimGeneration then
      .error (.notFound "reclaimed generation")
    else if base.length < recordEnd recordOffset bs then .error (.ioError "datafile record truncated")
    else
      let hdr := DataRecordHeader.decode bs
      let key := fieldAt base (recordOffset + kDataHeaderSize) hdr.keyLen
      let payload := fieldAt base (recordOffset + kDataHeaderSize + hdr.keyLen) hdr.valueLen
      match decodeRecordValue L bs payload with
      | .error e => .error e
      | .ok value => .ok ⟨key, value, hdr.lsn, hdr.deleted⟩

section
variable (L : LzmaLib) (file : Bytes) (reclaimGeneration : UInt8)

/-- `read_one_stream`. An index beyond the values is passed over. -/
def readOneStream (offset outIdx : Nat) (values : List Value) : Except Status (List Value) :=
  match readAt? file offset kDataHeaderSize with
  | none => .error (.ioError "datafile batch record read failed")
  | some bs =>
    if !DataRecordHeader.verifyCrc bs then .error (.corruptPage "datafile crc mismatch")
    else if !generationVisible (recordGeneration bs) reclaimGeneration then .ok values
    else if file.length < recordEnd offset bs then
      .error (.ioError "datafile batch payload read failed")
    else
      let hdr := DataRecordHeader.decode bs
      if hdr.deleted then .ok values
      else
        match decodeRecordValue L bs
          (fieldAt file (offset + kDataHeaderSize + hdr.keyLen) hdr.valueLen) with
        | .error e => .error e
        | .ok value => .ok (values.set outIdx value)

/-! ## Windows -/

/-- `try_parse_in_view`, nothing where it answers no. -/
def tryParseInView (view : Bytes) (windowStart offset outIdx : Nat) (values : List Value) :
    Option (List Value) :=
  if offset < windowStart then none
  else
    let rel := offset - windowStart
    match readAt? view rel kDataHeaderSize with
    | none => none
    | some bs =>
      if view.length < recordEnd rel bs then none
      else if !DataRecordHeader.verifyCrc bs then none
      else if !generationVisible (recordGeneration bs) reclaimGeneration then some values
      else if (DataRecordHeader.decode bs).deleted then some values
      else
        match parseRecordAt L view rel reclaimGeneration with
        | .error _ => none
        | .ok r => some (values.set outIdx r.value)

/-- The loop over a window: what it did not come to, and the values. -/
def parseView (view : Bytes) (windowStart : Nat) :
    List (Nat × Nat) → List Value → List (Nat × Nat) × List Value
  | [], values => ([], values)
  | (offset, outIdx) :: rest, values =>
    match tryParseInView L reclaimGeneration view windowStart offset outIdx values with
    | none => ((offset, outIdx) :: rest, values)
    | some values => parseView view windowStart rest values

/-- The loop over the windows; each round takes an entry at least. -/
def readWindows : Nat → MmapWindowManager → List (Nat × Nat) → List Value →
    Except Status (List Value)
  | _, _, [], values => .ok values
  | 0, _, _ :: _, values => .ok values
  | fuel + 1, m, (offset, outIdx) :: rest, values =>
    let (m, view) := m.pinWindow file offset
    let (left, parsed) :=
      if view = [] then ((offset, outIdx) :: rest, values)
      else parseView L reclaimGeneration view offset ((offset, outIdx) :: rest) values
    if left.length = rest.length + 1 then
      match readOneStream L file reclaimGeneration offset outIdx values with
      | .error e => .error e
      | .ok values => readWindows fuel m rest values
    else readWindows fuel m left parsed

/-! ## Blobs -/

def kStreamBlobCap : Nat := 256 * 1024

/-- The entries that go into a blob, those behind them, and the blob's end. The first one is taken
whatever its size. -/
def gather (blobStart : Nat) : Bool → Nat → List (Nat × Nat) →
    List (Nat × Nat) × List (Nat × Nat) × Nat
  | _, blobEnd, [] => ([], [], blobEnd)
  | first, blobEnd, (offset, outIdx) :: rest =>
    match readAt? file offset kDataHeaderSize with
    | none => ([], (offset, outIdx) :: rest, blobEnd)
    | some bs =>
      if !first && (kStreamBlobCap < recordEnd offset bs - blobStart || blobEnd + 4096 < offset) then
        ([], (offset, outIdx) :: rest, blobEnd)
      else
        let (taken, left, blobEnd) := gather blobStart false (max blobEnd (recordEnd offset bs)) rest
        ((offset, outIdx) :: taken, left, blobEnd)

/-- The loop over a blob, which does not ask whether a record is a deletion. -/
def parseBlob (blob : Bytes) (blobStart : Nat) :
    List (Nat × Nat) → List Value → Except Status (List Value)
  | [], values => .ok values
  | (offset, outIdx) :: rest, values =>
    match parseRecordAt L blob (offset - blobStart) reclaimGeneration with
    | .ok r => parseBlob blob blobStart rest (if r.value = [] then values else values.set outIdx r.value)
    | .error _ =>
      match readOneStream L file reclaimGeneration offset outIdx values with
      | .error e => .error e
      | .ok values => parseBlob blob blobStart rest values

/-- The loop over the blobs; each round takes an entry at least. -/
def readBlobs : Nat → List (Nat × Nat) → List Value → Except Status (List Value)
  | _, [], values => .ok values
  | 0, _ :: _, values => .ok values
  | fuel + 1, (offset, outIdx) :: rest, values =>
    let one :=
      match readOneStream L file reclaimGeneration offset outIdx values with
      | .error e => .error e
      | .ok values => readBlobs fuel rest values
    let (taken, left, blobEnd) :=
      gather file offset true (offset + kDataHeaderSize) ((offset, outIdx) :: rest)
    if taken.length ≤ 1 ∨ kStreamBlobCap < blobEnd - offset then one
    else
      match readAt? file offset (blobEnd - offset) with
      | none => one
      | some blob =>
        match parseBlob L file reclaimGeneration blob offset taken values with
        | .error e => .error e
        | .ok values => readBlobs fuel left values

end

/-- `ReadRecordsAtOffsets`, `sorted` being what `std::sort` makes of the offsets and indexes. A window
manager for another path is opened anew, and left aside where that fails. -/
def readRecordsAtOffsets (L : LzmaLib) (d : DataFile) (mmapMgr : Option MmapWindowManager)
    (sorted : List (Nat × Nat)) (values : List Value) (reclaimGeneration : UInt8) :
    Except Status (List Value) :=
  match mmapMgr with
  | some m => readWindows L d.file reclaimGeneration sorted.length m sorted values
  | none => readBlobs L d.file reclaimGeneration sorted.length sorted values

end DataFile

/-- A call of `Append`, with the settings it finds. -/
structure AppendCall where
  compressValues : Bool
  policy : CompressPolicy
  lsn : Nat
  key : Key
  value : Value
  deleted : Bool
  generation : UInt8

/-- The record the call writes. -/
def AppendCall.record (L : LzmaLib) (c : AppendCall) : StoredRecord :=
  storedRecord L c.compressValues c.policy c.lsn c.key c.value c.deleted c.generation

/-- The data file that the calls produce. -/
def appendedFile (L : LzmaLib) (calls : List AppendCall) : DataFile :=
  calls.foldl (fun d c => d.appendStored (c.record L)) ⟨[], SortedMap.empty⟩

end EBTree.Engine
