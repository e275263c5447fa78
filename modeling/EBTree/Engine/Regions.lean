import EBTree.Engine.DataFile

/-!
# Regions of the data file

`RegionManager` (`region_manager.cc`) with the data file it is for (`datafile.cc`, `shard_engine.cc`):
each record carries the generation that was active when it was flushed, and the records of the
generation that is being reclaimed are passed over when the file is loaded. The file itself is never
written anew. Values are not compressed.
-/

set_option autoImplicit false

namespace EBTree.Engine

open Lib

/-! ## Records with a generation -/

/-- A record and its generation, which is in the header's reserved bytes. -/
structure RegionRecord where
  generation : UInt8
  record : DataRecord
  deriving DecidableEq, Repr

namespace DataRecordHeader

/-- The bytes in front of `record_crc`. -/
def checkedIn (h : DataRecordHeader) (generation : UInt8) : Bytes :=
  le 8 h.lsn ++ (le 2 h.keyLen ++ (le 2 h.valueLen ++
    ([if h.deleted then 1 else 0] ++ [0, generation, 0])))

def encodeIn (h : DataRecordHeader) (generation : UInt8) : Bytes :=
  h.checkedIn generation ++ le 4 (crc32 (h.checkedIn generation)).toNat

end DataRecordHeader

namespace RegionRecord

def encode (r : RegionRecord) : Bytes :=
  r.record.header.encodeIn r.generation ++ (r.record.key ++ r.record.value)

end RegionRecord

/-- A byte of `reserved`, in the bytes of a header. -/
def reservedByte (bs : Bytes) (i : Nat) : UInt8 := (fieldAt bs (13 + i) 1).headD 0

/-- `RecordCodec`. -/
def recordCodec (bs : Bytes) : UInt8 := if reservedByte bs 0 ≤ 4 then reservedByte bs 0 else 0

/-- `RecordGeneration`. -/
def recordGeneration (bs : Bytes) : UInt8 :=
  if recordCodec bs ≤ 4 ∧ (reservedByte bs 1 ≠ 0 ∨ reservedByte bs 2 ≠ 0) then reservedByte bs 1
  else if recordCodec bs ≤ 1 then 0
  else reservedByte bs 0

/-- `GenerationVisible`. -/
def generationVisible (recordGen reclaimGeneration : UInt8) : Bool :=
  !(reclaimGeneration ≠ 0xFF && recordGen = reclaimGeneration)

namespace DataFile

/-- The loop of `ParseRecordsIncremental`, with the generation of what it reads. -/
def regionReader (f : Bytes) : Reader RegionRecord where
  read o := ((loadReader f).read o).map fun x => (⟨recordGeneration (fieldAt f o kDataHeaderSize), x.1⟩, x.2)
  skip := (loadReader f).skip
  read_gt h := by
    obtain ⟨x, hx, he⟩ := Option.map_eq_some_iff.1 h
    cases he
    exact (loadReader f).read_gt hx
  skip_gt := (loadReader f).skip_gt

/-- The records of the file, of every generation. -/
def regionRecords (f : Bytes) : List RegionRecord := ((regionReader f).scan f.length 0).map (·.2)

/-- `LoadDatafileOnRecover`: what is loaded while a generation is reclaimed. -/
def loadVisible (f : Bytes) (reclaimGeneration : UInt8) : SortedMap Key (Value × Nat) :=
  ((regionRecords f).filter fun r => generationVisible r.generation reclaimGeneration).foldl
    (fun m r => loadStep m r.record) SortedMap.empty

end DataFile

/-! ## The generations -/

def kGcMagic : Nat := 0xEB710C

/-- `GcMetaCritical`, with the byte of `reserved` that is used. -/
structure GcMeta where
  magic : Nat
  epoch : UInt64
  activeGeneration : UInt8
  reclaimGeneration : UInt8
  crc32 : UInt32
  deriving DecidableEq, Repr

namespace GcMeta

/-- The bytes of a slot that was never written. -/
def zero : GcMeta := ⟨0, 0, 0, 0, 0⟩

/-- The bytes in front of `crc32`. -/
def checked (c : GcMeta) : Bytes :=
  le 8 c.magic ++ (le 8 c.epoch.toNat ++ ([c.activeGeneration, c.reclaimGeneration] ++
    [0, 0, 0, 0, 0, 0]))

/-- `ValidateCritical`. -/
def validateCritical (c : GcMeta) : Bool := c.magic = kGcMagic && c.crc32 = EBTree.crc32 c.checked

/-- `FinalizeCritical`. -/
def finalizeCritical (c : GcMeta) : GcMeta :=
  { c with magic := kGcMagic, crc32 := EBTree.crc32 { c with magic := kGcMagic }.checked }

end GcMeta

structure RegionManager where
  activeGeneration : UInt8
  reclaimGeneration : UInt8
  epoch : UInt64
  deriving DecidableEq, Repr

namespace RegionManager

/-- The generations without a file of them. -/
def initial : RegionManager := ⟨0, 0xFF, 0⟩

def ofMeta (c : GcMeta) : RegionManager := ⟨c.activeGeneration, c.reclaimGeneration, c.epoch⟩

/-- `Load`, from the slots the file has. -/
def load (slots : List GcMeta) : RegionManager :=
  let a := (slots[0]?).filter (·.validateCritical)
  let b := (slots[1]?).filter (·.validateCritical)
  match a, b with
  | some a, some b => if b.epoch ≤ a.epoch then ofMeta a else ofMeta b
  | some a, none => ofMeta a
  | none, some b => ofMeta b
  | none, none => initial

/-- `WriteSlot`: a file that is too short is filled up. -/
def writeSlot (slots : List GcMeta) (slot : Nat) (block : GcMeta) : List GcMeta :=
  (slots ++ List.replicate (slot + 1 - slots.length) GcMeta.zero).set slot block

/-- `SwapRegions`, and the slots afterwards. -/
def swapRegions (m : RegionManager) (slots : List GcMeta) : RegionManager × List GcMeta :=
  let m : RegionManager := ⟨1 - m.activeGeneration, m.activeGeneration, m.epoch + 1⟩
  (m, writeSlot slots (m.epoch % 2).toNat
    (GcMeta.finalizeCritical ⟨0, m.epoch, m.activeGeneration, m.reclaimGeneration, 0⟩))

end RegionManager

/-! ## The data file of a shard -/

/-- The data file and the file of the generations, with the `RegionManager` over them. -/
structure RegionStore where
  file : Bytes
  slots : List GcMeta
  regions : RegionManager

namespace RegionStore

/-- The files of a shard opened again. -/
def reopen (t : RegionStore) : RegionStore := { t with regions := RegionManager.load t.slots }

/-- No files. -/
def new : RegionStore := reopen ⟨[], [], RegionManager.initial⟩

/-- What opening the shard loads. -/
def load (t : RegionStore) : SortedMap Key (Value × Nat) :=
  DataFile.loadVisible t.file t.regions.reclaimGeneration

/-- Whether `MaybeGcSwap` swaps, `held` saying that a pin defers it. -/
def swaps (t : RegionStore) (threshold : Nat) (held : Bool) : Bool :=
  threshold ≠ 0 && !held && decide (threshold ≤ t.file.length)

def maybeGcSwap (t : RegionStore) (threshold : Nat) (held : Bool) : RegionStore :=
  if t.swaps threshold held then
    { t with
      regions := (t.regions.swapRegions t.slots).1
      slots := (t.regions.swapRegions t.slots).2 }
  else t

/-- `DataFile::Append`, with the generation that is active. -/
def append (t : RegionStore) (r : DataRecord) : RegionStore :=
  { t with file := t.file ++ RegionRecord.encode ⟨t.regions.activeGeneration, r⟩ }

/-- `FlushInternal`, which writes these records, as far as it gets. -/
def flushInternal (t : RegionStore) (threshold : Nat) (held : Bool) (written : List DataRecord) :
    RegionStore :=
  written.foldl append (t.maybeGcSwap threshold held)

end RegionStore

/-! ## Runs -/

/-- What happens to the data file: a flush, which may be that of a checkpoint, or a reopening. A
write or a deletion touches the memtable only, and the log is not seen here. -/
inductive RegionStep
  | flush (held : Bool) (written : List DataRecord)
  | reopen
  deriving DecidableEq, Repr

namespace RegionStep

/-- The records a step writes. -/
def written : RegionStep → List DataRecord
  | flush _ rs => rs
  | reopen => []

end RegionStep

def RegionStore.step (t : RegionStore) (threshold : Nat) : RegionStep → RegionStore
  | .flush held rs => t.flushInternal threshold held rs
  | .reopen => t.reopen

/-- The stores that steps satisfying `ok` make of no files, with the records flushed on the way. The
fields of a record fit, and the 64-bit epoch does not run out. -/
inductive RegionRun (threshold : Nat) (ok : RegionStore → RegionStep → Prop) :
    RegionStore → List DataRecord → Prop
  | opened : RegionRun threshold ok RegionStore.new []
  | step {t : RegionStore} {flushed : List DataRecord} {st : RegionStep} :
      RegionRun threshold ok t flushed → (∀ r ∈ st.written, r.InRange) →
      t.regions.epoch.toNat + 1 < 2 ^ 64 → ok t st →
      RegionRun threshold ok (t.step threshold st) (flushed ++ st.written)

end EBTree.Engine
