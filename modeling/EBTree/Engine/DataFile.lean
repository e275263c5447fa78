import EBTree.Lib.Scan
import EBTree.Lib.SortedMap
import EBTree.Common

/-!
# The data file

`DataFile` (`datafile.cc`): flushed versions one behind the other, each behind a packed header of 20
bytes whose checksum covers the first 16, and an index from LSNs to offsets. Values are stored as
they are: compression is off, and there is one generation of records.
-/

set_option autoImplicit false

namespace EBTree.Engine

open Lib

abbrev Key := Bytes
abbrev Value := Bytes

/-- `sizeof(DataRecordHeader)`. -/
def kDataHeaderSize : Nat := 20

structure DataRecordHeader where
  lsn : Nat
  keyLen : Nat
  valueLen : Nat
  deleted : Bool
  deriving DecidableEq, Repr

namespace DataRecordHeader

/-- The bytes in front of `record_crc`: the codec and the generation are zero. -/
def checked (h : DataRecordHeader) : Bytes :=
  le 8 h.lsn ++ (le 2 h.keyLen ++ (le 2 h.valueLen ++ ([if h.deleted then 1 else 0] ++ [0, 0, 0])))

def encode (h : DataRecordHeader) : Bytes := h.checked ++ le 4 (crc32 h.checked).toNat

def decode (bs : Bytes) : DataRecordHeader where
  lsn := leNat (fieldAt bs 0 8)
  keyLen := leNat (fieldAt bs 8 2)
  valueLen := leNat (fieldAt bs 10 2)
  deleted := (fieldAt bs 12 1).headD 0 ≠ 0

/-- The checksum stored in the bytes of a header is the one of the bytes in front of it. -/
def verifyCrc (bs : Bytes) : Bool := leNat (fieldAt bs 16 4) = (crc32 (bs.take 16)).toNat

@[simp] theorem length_checked (h : DataRecordHeader) : h.checked.length = 16 := by
  simp [checked]

@[simp] theorem length_encode (h : DataRecordHeader) : h.encode.length = kDataHeaderSize := by
  simp [encode, kDataHeaderSize]

theorem decode_encode {h : DataRecordHeader} (hl : h.lsn < 2 ^ 64) (hk : h.keyLen < 2 ^ 16)
    (hv : h.valueLen < 2 ^ 16) : decode h.encode = h := by
  have hd : (if h.deleted then (1 : UInt8) else 0) ≠ 0 ↔ h.deleted = true := by
    cases h.deleted <;> simp
  simp only [decode, encode, checked, List.append_assoc]
  simp only [fieldAt_here, fieldAt_skip, length_le, leNat_le, Nat.reduceLeDiff, Nat.reduceSub,
    le_refl, List.length_singleton, List.headD_cons, hd, Bool.decide_eq_true,
    Nat.mod_eq_of_lt (show h.lsn < 256 ^ 8 from hl),
    Nat.mod_eq_of_lt (show h.keyLen < 256 ^ 2 from hk),
    Nat.mod_eq_of_lt (show h.valueLen < 256 ^ 2 from hv)]

theorem verifyCrc_encode (h : DataRecordHeader) : verifyCrc h.encode = true := by
  have ht : h.encode.take 16 = h.checked := List.take_left' (length_checked h)
  have hf : fieldAt h.encode 16 4 = le 4 (crc32 h.checked).toNat :=
    fieldAt_of_append h.checked [] (by simp [encode]) (by simp) (by simp)
  have hlt : (crc32 h.checked).toNat < 256 ^ 4 := (crc32 h.checked).toNat_lt
  rw [verifyCrc, ht, hf, leNat_le, Nat.mod_eq_of_lt hlt, decide_eq_true_eq]

end DataRecordHeader

/-- A version in the data file. -/
structure DataRecord where
  lsn : Nat
  key : Key
  value : Value
  deleted : Bool
  deriving DecidableEq, Repr

namespace DataRecord

def header (r : DataRecord) : DataRecordHeader := ⟨r.lsn, r.key.length, r.value.length, r.deleted⟩

def encode (r : DataRecord) : Bytes := r.header.encode ++ (r.key ++ r.value)

def size (r : DataRecord) : Nat := kDataHeaderSize + r.key.length + r.value.length

@[simp] theorem length_encode (r : DataRecord) : r.encode.length = r.size := by
  simp [encode, size]; omega

theorem size_pos (r : DataRecord) : 0 < r.size := by simp [size, kDataHeaderSize]

/-- The fields fit their widths. -/
structure InRange (r : DataRecord) : Prop where
  lsn_lt : r.lsn < 2 ^ 64
  key_le : r.key.length ≤ 65535
  value_le : r.value.length ≤ 65535

theorem InRange.decode_header {r : DataRecord} (h : r.InRange) :
    DataRecordHeader.decode r.header.encode = r.header := by
  have hk := h.key_le
  have hv := h.value_le
  exact DataRecordHeader.decode_encode h.lsn_lt (by show r.key.length < 2 ^ 16; omega)
    (by show r.value.length < 2 ^ 16; omega)

end DataRecord

/-- A value some read hands out, with the LSN of the record it comes from. The source hands out the
value alone. -/
structure Version where
  lsn : Nat
  value : Value
  deriving DecidableEq, Repr

structure DataFile where
  file : Bytes
  lsnIndex : SortedMap Nat Nat

namespace DataFile

/-- `Append`, to the file and to the index. -/
def append (d : DataFile) (r : DataRecord) : DataFile where
  file := d.file ++ r.encode
  lsnIndex := d.lsnIndex.insert r.lsn d.file.length

/-- `ReadRecordAt`. What the stream does not hold of the key and the value stays zero. -/
def readRecordAt (d : DataFile) (offset : Nat) : Except Status DataRecord :=
  match readAt? d.file offset kDataHeaderSize with
  | none => .error (Status.ioError "datafile record read failed")
  | some bs =>
    if !DataRecordHeader.verifyCrc bs then .error (Status.corruptPage "datafile crc mismatch")
    else
      let hdr := DataRecordHeader.decode bs
      .ok
        { lsn := hdr.lsn
          key := padTo hdr.keyLen (fieldAt d.file (offset + kDataHeaderSize) hdr.keyLen)
          value := padTo hdr.valueLen
            (fieldAt d.file (offset + kDataHeaderSize + hdr.keyLen) hdr.valueLen)
          deleted := hdr.deleted }

/-- `DataFileReader::ReadByLsn`. -/
def readByLsn (d : DataFile) (lsn : Nat) : Except Status Version :=
  match d.lsnIndex.find? lsn with
  | none => .error (Status.notFound "lsn not in datafile index")
  | some offset =>
    match d.readRecordAt offset with
    | .error e => .error e
    | .ok r =>
      if r.deleted then .error (Status.notFound "deleted at lsn") else .ok ⟨r.lsn, r.value⟩

/-! ## Loading -/

/-- A record off the stream, nothing checked. -/
def readRawAt (f : Bytes) (offset : Nat) : Option (DataRecord × Nat) := do
  let hdr := DataRecordHeader.decode (← readAt? f offset kDataHeaderSize)
  let key ← readAt? f (offset + kDataHeaderSize) hdr.keyLen
  let value ← readAt? f (offset + kDataHeaderSize + hdr.keyLen) hdr.valueLen
  some (⟨hdr.lsn, key, value, hdr.deleted⟩, offset + kDataHeaderSize + hdr.keyLen + hdr.valueLen)

theorem readRawAt_some {f : Bytes} {o n : Nat} {r : DataRecord}
    (h : readRawAt f o = some (r, n)) : o < n ∧ n ≤ f.length := by
  simp only [readRawAt, Option.bind_eq_bind, Option.bind_eq_some_iff] at h
  obtain ⟨bs, -, key, -, value, hv, h⟩ := h
  cases h
  have := (readAt?_some hv).1
  simp only [kDataHeaderSize] at this ⊢
  omega

/-- One record of `ReadRecordsAtOffsets`: of a deletion the value stays empty. -/
def readBatchAt (d : DataFile) (offset : Nat) : Except Status Version :=
  match readAt? d.file offset kDataHeaderSize with
  | none => .error (Status.ioError "datafile batch record read failed")
  | some bs =>
    if !DataRecordHeader.verifyCrc bs then .error (Status.corruptPage "datafile crc mismatch")
    else
      match readRawAt d.file offset with
      | none => .error (Status.ioError "datafile batch payload read failed")
      | some (r, _) => .ok ⟨r.lsn, if r.deleted then [] else r.value⟩

/-- Whether `DataFileReader::ReadBatch` reads every record it is given. -/
def readBatchOk (d : DataFile) (offsets : List Nat) : Bool :=
  offsets.all fun o => (d.readBatchAt o).isOk

def headerAccepted (f : Bytes) (offset : Nat) : Bool :=
  match readAt? f offset kDataHeaderSize with
  | some bs => DataRecordHeader.verifyCrc bs
  | none => false

/-- The loop of `RebuildFromDataFile`. -/
def rawReader (f : Bytes) : Reader DataRecord where
  read := readRawAt f
  skip o := max (o + 1) f.length
  read_gt h := (readRawAt_some h).1
  skip_gt o := by omega

/-- The loop of `ParseRecordsIncremental`, over the whole file: a complete record with a wrong
checksum is passed over. -/
def loadReader (f : Bytes) : Reader DataRecord where
  read o := if headerAccepted f o then readRawAt f o else none
  skip o :=
    match readRawAt f o with
    | some (_, n) => if headerAccepted f o then max (o + 1) f.length else max (o + 1) n
    | none => max (o + 1) f.length
  read_gt h := by
    split at h
    · exact (readRawAt_some h).1
    · cases h
  skip_gt o := by
    split
    · split <;> omega
    · omega

/-- The records `LoadRecordsIncremental` puts into its map. -/
def loadRecords (d : DataFile) : List DataRecord :=
  ((loadReader d.file).scan d.file.length 0).map (·.2)

def loadStep (m : SortedMap Key (Value × Nat)) (r : DataRecord) : SortedMap Key (Value × Nat) :=
  if r.deleted then m.erase r.key else m.insert r.key (r.value, r.lsn)

/-- `LoadDatafileOnRecover`: the newest version of every key that is not deleted. -/
def load (d : DataFile) : SortedMap Key (Value × Nat) := d.loadRecords.foldl loadStep SortedMap.empty

/-- The loop of `DataFileLsnIndex::BuildFromFile`, which wants a whole header only. -/
def indexReader (f : Bytes) : Reader Nat where
  read o := (readAt? f o kDataHeaderSize).map fun bs =>
    let hdr := DataRecordHeader.decode bs
    (hdr.lsn, o + kDataHeaderSize + hdr.keyLen + hdr.valueLen)
  skip o := max (o + 1) f.length
  read_gt h := by
    obtain ⟨bs, -, h⟩ := Option.map_eq_some_iff.1 h
    cases h
    simp only [kDataHeaderSize]
    omega
  skip_gt o := by omega

def buildFromFile (f : Bytes) : SortedMap Nat Nat :=
  ((indexReader f).scan f.length 0).foldl (fun ix x => ix.insert x.2 x.1) SortedMap.empty

/-- `BuildLsnIndex`, `sidecar` being the index a checkpoint saved. -/
def buildLsnIndex (d : DataFile) (sidecar : Option (SortedMap Nat Nat)) : DataFile :=
  match sidecar with
  | some ix => if ix.isEmpty then { d with lsnIndex := buildFromFile d.file } else { d with lsnIndex := ix }
  | none => { d with lsnIndex := buildFromFile d.file }

/-! ## Reading what was appended -/

/-- The header, the key and the value of a record laid out at an offset. -/
theorem readAt?_encode (pre rest : Bytes) (r : DataRecord) :
    readAt? (pre ++ (r.encode ++ rest)) pre.length kDataHeaderSize = some r.header.encode ∧
      readAt? (pre ++ (r.encode ++ rest)) (pre.length + kDataHeaderSize) r.key.length
        = some r.key ∧
      readAt? (pre ++ (r.encode ++ rest)) (pre.length + kDataHeaderSize + r.key.length)
        r.value.length = some r.value := by
  have e : pre ++ (r.encode ++ rest) = pre ++ (r.header.encode ++ (r.key ++ (r.value ++ rest))) := by
    simp [DataRecord.encode]
  refine ⟨readAt?_of_append _ _ e rfl (by simp), ?_, ?_⟩
  · exact readAt?_of_append (pre ++ r.header.encode) (r.value ++ rest) (by simp [e]) (by simp) rfl
  · exact readAt?_of_append (pre ++ r.header.encode ++ r.key) rest (by simp [e])
      (by simp [Nat.add_assoc]) rfl

theorem padTo_fieldAt {f bs : Bytes} {o n : Nat} (h : readAt? f o n = some bs) :
    padTo n (fieldAt f o n) = bs := by
  obtain ⟨hle, hbs, hlen⟩ := readAt?_some h
  have hf : fieldAt f o n = bs := hbs.symm
  rw [hf, padTo, hlen, Nat.sub_self, List.replicate_zero, List.append_nil]
  exact List.take_of_length_le (by omega)

/-- **A record laid out at an offset reads back.** -/
theorem readRecordAt_encode {d : DataFile} {pre rest : Bytes} {r : DataRecord} (h : r.InRange)
    (hf : d.file = pre ++ (r.encode ++ rest)) : d.readRecordAt pre.length = .ok r := by
  obtain ⟨hh, hk, hv⟩ := readAt?_encode pre rest r
  rw [← hf] at hh hk hv
  have hkl : r.header.keyLen = r.key.length := rfl
  have hvl : r.header.valueLen = r.value.length := rfl
  simp only [readRecordAt, hh, DataRecordHeader.verifyCrc_encode, h.decode_header, hkl, hvl,
    padTo_fieldAt hk, padTo_fieldAt hv]
  rfl

theorem readRawAt_encode (pre rest : Bytes) {r : DataRecord} (h : r.InRange) :
    readRawAt (pre ++ (r.encode ++ rest)) pre.length = some (r, pre.length + r.size) := by
  obtain ⟨hh, hk, hv⟩ := readAt?_encode pre rest r
  have hkl : r.header.keyLen = r.key.length := rfl
  have hvl : r.header.valueLen = r.value.length := rfl
  simp only [readRawAt, hh, Option.bind_eq_bind, Option.bind_some, h.decode_header, hkl, hk, hvl, hv]
  simp [DataRecord.size, DataRecord.header, Nat.add_assoc]

theorem headerAccepted_encode (pre rest : Bytes) (r : DataRecord) :
    headerAccepted (pre ++ (r.encode ++ rest)) pre.length = true := by
  rw [headerAccepted, (readAt?_encode pre rest r).1]
  exact DataRecordHeader.verifyCrc_encode _

end DataFile
end EBTree.Engine
