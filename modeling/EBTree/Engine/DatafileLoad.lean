import EBTree.Codec.Registry
import EBTree.Engine.Regions

/-!
# Loading the data file window by window

`ParseRecordsIncremental` and `LoadRecords` (`datafile.cc`), `MmapWindowManager` (`mmap_window.cc`)
and `LoadDatafileMmap` (`shard_engine.cc`), with every codec and every limit. Mapping a part of the
file succeeds and gives the file's bytes; a limit of zero is none.
-/

set_option autoImplicit false

namespace EBTree.Engine

open Lib Codec

/-! ## One record -/

/-- The codecs that a header names. -/
def wireCodec (wire : UInt8) : Option ValueCodec :=
  if wire = 1 then some .kLegacyRle
  else if wire = 2 then some .kLz4Fast
  else if wire = 3 then some .kLzma7z
  else if wire = 4 then some .kZstdFast
  else none

/-- `DecodeRecordValue`, `bs` being the bytes of the header. -/
def decodeRecordValue (L : LzmaLib) (bs payload : Bytes) : Except Status Bytes :=
  match wireCodec (recordCodec bs) with
  | none => .ok payload
  | some codec =>
    if payload = [] then .ok payload
    else if payload.length < 4 then .error (.corruptPage "datafile decompress failed")
    else
      let usize := leNat (payload.take 4)
      let body := if codec = .kLegacyRle then payload.drop 4 else payload
      match decompressValue L codec body usize with
      | .ok out => .ok out
      | .error _ => .error (.corruptPage "datafile decompress failed")

structure LoadCaps where
  lsnCap : Nat
  byteCap : Nat
  reclaimGeneration : UInt8

/-- A limit on bytes is there and below `n`. -/
def LoadCaps.cuts (caps : LoadCaps) (n : Nat) : Prop := 0 < caps.byteCap ∧ caps.byteCap < n

instance (caps : LoadCaps) (n : Nat) : Decidable (caps.cuts n) :=
  inferInstanceAs (Decidable (_ ∧ _))

abbrev LoadedMap := SortedMap Key (Value × Nat)

/-- What one round of the loop comes to: out of the loop, out of the function, or the next round
from `pos` on. -/
inductive ParseStep
  | stop
  | fail (e : Status)
  | next (pos : Nat) (out : LoadedMap) (localMax : Nat)

section
variable (L : LzmaLib) (caps : LoadCaps)

/-- A round of the loop of `ParseRecordsIncremental`. -/
def parseStep (data : Bytes) (base pos : Nat) (out : LoadedMap) (localMax : Nat) : ParseStep :=
  if caps.cuts (base + pos + 1) then .stop
  else
    match readAt? data pos kDataHeaderSize with
    | none => .stop
    | some bs =>
      let hdr := DataRecordHeader.decode bs
      let body := pos + kDataHeaderSize
      let next := body + hdr.keyLen + hdr.valueLen
      if caps.cuts (base + body) then .fail (.corruptPage "datafile truncated mid-record")
      else if data.length < next then .stop
      else if !DataRecordHeader.verifyCrc bs then .next next out localMax
      else if caps.cuts (base + next) then
        .fail (.corruptPage "datafile truncated mid-payload")
      else if 0 < caps.lsnCap ∧ caps.lsnCap < hdr.lsn then .next next out localMax
      else if !generationVisible (recordGeneration bs) caps.reclaimGeneration then
        .next next out localMax
      else
        let key := fieldAt data body hdr.keyLen
        match decodeRecordValue L bs (fieldAt data (body + hdr.keyLen) hdr.valueLen) with
        | .error e => .fail e
        | .ok decoded =>
          .next next (if hdr.deleted then out.erase key else out.insert key (decoded, hdr.lsn))
            (max localMax hdr.lsn)

/-- What a load leaves behind: its status, the bytes it consumed, the map and the largest LSN. -/
structure ParseResult where
  status : Except Status Unit
  consumed : Nat
  out : LoadedMap
  maxLsn : Nat

/-- The loop of `ParseRecordsIncremental`; a round takes at least a header, so `fuel` of the
data's size is enough. -/
def parseLoop (data : Bytes) (base : Nat) : Nat → Nat → LoadedMap → Nat → ParseResult
  | 0, pos, out, localMax => ⟨.ok (), pos, out, localMax⟩
  | fuel + 1, pos, out, localMax =>
    if data.length ≤ pos then ⟨.ok (), pos, out, localMax⟩
    else
      match parseStep L caps data base pos out localMax with
      | .stop => ⟨.ok (), pos, out, localMax⟩
      | .fail e => ⟨.error e, pos, out, localMax⟩
      | .next pos out localMax => parseLoop data base fuel pos out localMax

/-- `ParseRecordsIncremental`, which checks checksums: `max_lsn` is written when it succeeds. -/
def parseRecordsIncremental (data : Bytes) (base : Nat) (out : LoadedMap) (maxLsn : Nat) :
    ParseResult :=
  let r := parseLoop L caps data base data.length 0 out maxLsn
  match r.status with
  | .ok _ => r
  | .error _ => { r with maxLsn := maxLsn }

/-- `LoadRecords`: the whole file at once. -/
def loadRecordsWhole (file : Bytes) (out : LoadedMap) (maxLsn : Nat) : ParseResult :=
  parseRecordsIncremental L caps file 0 out maxLsn

end

/-! ## Windows -/

/-- `MmapWindowManager`: the active window is kept with the offset it starts at. -/
structure MmapWindowManager where
  windowSize : Nat
  active : Option (Nat × Bytes)

namespace MmapWindowManager

/-- `MmapWindow::MapReadOnly`. -/
def mapReadOnly (file : Bytes) (offset length : Nat) : Option (Nat × Bytes) :=
  if length = 0 ∨ file.length ≤ offset then none
  else some (offset, fieldAt file offset (min length (file.length - offset)))

def openReadOnly (windowSize : Nat) (file : Bytes) : MmapWindowManager :=
  ⟨windowSize, mapReadOnly file 0 (min file.length windowSize)⟩

/-- `PinWindow`: a part of the active window when it holds all that is asked for, else another
window. -/
def pinWindow (m : MmapWindowManager) (file : Bytes) (offset : Nat) : MmapWindowManager × Bytes :=
  if file.length ≤ offset then (m, [])
  else
    let mapLen := min m.windowSize (file.length - offset)
    let fresh := mapReadOnly file offset mapLen
    let remap := ({ m with active := fresh }, (fresh.map (·.2)).getD [])
    match m.active with
    | none => remap
    | some (start, view) =>
      if start ≤ offset ∧ offset + mapLen ≤ start + view.length then
        (m, fieldAt view (offset - start) mapLen)
      else remap

end MmapWindowManager

section
variable (L : LzmaLib) (caps : LoadCaps) (file : Bytes)

/-- The loop of `LoadDatafileMmap`; a round takes at least a byte. -/
def loadWindows : Nat → MmapWindowManager → Nat → LoadedMap → Nat → ParseResult
  | 0, _, offset, out, maxLsn => ⟨.ok (), offset, out, maxLsn⟩
  | fuel + 1, m, offset, out, maxLsn =>
    if file.length ≤ offset ∨ caps.cuts (offset + 1) then ⟨.ok (), offset, out, maxLsn⟩
    else
      let (m, view) := m.pinWindow file offset
      let r := if view = [] then ⟨.ok (), 0, out, maxLsn⟩
        else parseRecordsIncremental L caps view offset out maxLsn
      match r.status with
      | .error e => ⟨.error e, offset, r.out, r.maxLsn⟩
      | .ok _ =>
        if r.consumed = 0 then
          let step := min m.windowSize (file.length - offset)
          if step = 0 then ⟨.ok (), offset, r.out, r.maxLsn⟩
          else loadWindows fuel m (offset + step) r.out r.maxLsn
        else loadWindows fuel m (offset + r.consumed) r.out r.maxLsn

/-- `LoadDatafileMmap`. -/
def loadDatafileMmap (windowSize : Nat) (out : LoadedMap) (maxLsn : Nat) : ParseResult :=
  if file = [] then ⟨.ok (), 0, SortedMap.empty, 0⟩
  else loadWindows L caps file file.length (.openReadOnly windowSize file) 0 out maxLsn

end

end EBTree.Engine
