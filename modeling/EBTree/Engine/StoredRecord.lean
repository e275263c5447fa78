import EBTree.Engine.DatafileLoad

/-!
# Records with a codec and a generation

`DataFile::Append` with every codec and generation, and the readers that ask a record for its
generation: the loader (`parseStep`), `ReadRecordAt` (`datafile.cc`), `RebuildFromDataFile`
(`version_chain_store.cc`) and the loop of `MaybeGcSwap` (`shard_engine.cc`).

Codec and generation are two of the header's reserved bytes. The first two readers ask
`RecordGeneration`, the others take the first reserved byte for the generation.
-/

set_option autoImplicit false

namespace EBTree.Engine

open Lib Codec

/-! ## What is appended -/

/-- A record as `Append` lays it out: the value as it is stored, the codec it is stored with, and
the generation. -/
structure StoredRecord where
  lsn : Nat
  key : Key
  payload : Bytes
  deleted : Bool
  codec : UInt8
  generation : UInt8
  deriving DecidableEq, Repr

namespace StoredRecord

/-- The bytes in front of `record_crc`. The lengths are cast to 16 bits. -/
def checked (r : StoredRecord) : Bytes :=
  le 8 r.lsn ++ (le 2 r.key.length ++ (le 2 r.payload.length ++
    ([if r.deleted then 1 else 0] ++ [r.codec, r.generation, 0])))

def header (r : StoredRecord) : Bytes := r.checked ++ le 4 (crc32 r.checked).toNat

def encode (r : StoredRecord) : Bytes := r.header ++ (r.key ++ r.payload)

def size (r : StoredRecord) : Nat := kDataHeaderSize + r.key.length + r.payload.length

/-- The fields fit their widths. -/
structure InRange (r : StoredRecord) : Prop where
  lsn_lt : r.lsn < 2 ^ 64
  key_le : r.key.length ≤ 65535
  payload_le : r.payload.length ≤ 65535

end StoredRecord

/-- The byte `Append` writes for a codec. -/
def codecByte : ValueCodec → UInt8
  | .kLz4Fast => 2
  | .kLzma7z => 3
  | .kZstdFast => 4
  | _ => 0

/-- How `Append` stores a value: the codec and the payload. -/
def storeValue (L : LzmaLib) (compressValues : Bool) (policy : CompressPolicy) (value : Value)
    (deleted : Bool) : UInt8 × Bytes :=
  if !deleted && compressValues && !value.isEmpty then
    let cr := compressValue L value policy compressValues
    if cr.codec ≠ .kRaw then (codecByte cr.codec, cr.payload) else (0, value)
  else (0, value)

/-- The record that `Append` writes. -/
def storedRecord (L : LzmaLib) (compressValues : Bool) (policy : CompressPolicy) (lsn : Nat)
    (key : Key) (value : Value) (deleted : Bool) (generation : UInt8) : StoredRecord :=
  let stored := storeValue L compressValues policy value deleted
  ⟨lsn, key, stored.2, deleted, stored.1, generation⟩

namespace DataFile

/-- `Append`, to the file and to the index. -/
def appendStored (d : DataFile) (r : StoredRecord) : DataFile where
  file := d.file ++ r.encode
  lsnIndex := d.lsnIndex.insert r.lsn d.file.length

/-! ## The other readers -/

/-- A record as `ReadRecordAt` hands it out. -/
structure ReadOut where
  key : Key
  value : Value
  lsn : Nat
  deleted : Bool

/-- `ReadRecordAt`, with a generation that is being reclaimed. -/
def readRecordIn (L : LzmaLib) (d : DataFile) (offset : Nat) (reclaimGeneration : UInt8) :
    Except Status ReadOut :=
  match readAt? d.file offset kDataHeaderSize with
  | none => .error (.ioError "datafile record read failed")
  | some bs =>
    if !DataRecordHeader.verifyCrc bs then .error (.corruptPage "datafile crc mismatch")
    else if !generationVisible (recordGeneration bs) reclaimGeneration then
      .error (.notFound "reclaimed generation")
    else
      let hdr := DataRecordHeader.decode bs
      let key := padTo hdr.keyLen (fieldAt d.file (offset + kDataHeaderSize) hdr.keyLen)
      let payload := padTo hdr.valueLen
        (fieldAt d.file (offset + kDataHeaderSize + hdr.keyLen) hdr.valueLen)
      match decodeRecordValue L bs payload with
      | .error e => .error e
      | .ok value => .ok ⟨key, value, hdr.lsn, hdr.deleted⟩

/-- The test of `RebuildFromDataFile`: the record is passed over. -/
def rebuildPassesOver (bs : Bytes) (reclaimGeneration : UInt8) : Bool :=
  reclaimGeneration ≠ 0xFF && reservedByte bs 0 = reclaimGeneration

/-- The versions that `RebuildFromDataFile` collects, in the order of the file. -/
def rebuildVersions (f : Bytes) (reclaimGeneration : UInt8) : List (Key × Nat) :=
  (((rawReader f).scan f.length 0).filter fun x =>
    !rebuildPassesOver (fieldAt f x.1 kDataHeaderSize) reclaimGeneration).map
      fun x => (x.2.key, x.2.lsn)

/-- `ReadHeaderAtLsn`, which is handed the address of a header. The checksum it expects is that of
`sizeof(hdr) - sizeof(hdr->record_crc)` bytes at `&hdr`: the four low bytes of the address. -/
def readHeaderAtLsn (d : DataFile) (hdrAddr : UInt64) (lsn : Nat) : Except Status Bytes :=
  match d.lsnIndex.find? lsn with
  | none => .error (.notFound "lsn not indexed")
  | some offset =>
    match readAt? d.file offset kDataHeaderSize with
    | none => .error (.ioError "datafile header read failed")
    | some bs =>
      if leNat (fieldAt bs 16 4) ≠ (crc32 ((le 8 hdrAddr.toNat).take 4)).toNat then
        .error (.corruptPage "datafile crc mismatch")
      else .ok bs

/-- Whether the loop of `MaybeGcSwap` puts the swap off for one of the LSNs. -/
def gcDefers (d : DataFile) (hdrAddr : UInt64) (reclaimGeneration : UInt8) (refs : List Nat) :
    Bool :=
  refs.any fun lsn =>
    match d.readHeaderAtLsn hdrAddr lsn with
    | .error _ => false
    | .ok bs => reservedByte bs 0 = reclaimGeneration

end DataFile

end EBTree.Engine
