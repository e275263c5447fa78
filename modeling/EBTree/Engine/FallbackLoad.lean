import EBTree.Engine.DatafileLoad

/-!
# The load of the data file on recovery

`LoadDatafileOnRecover` (`shard_engine.cc`): a load without limits, and when it fails a second one up
to the size or the LSN of the last checkpoint, into the same map.
-/

set_option autoImplicit false

namespace EBTree.Engine

open Lib Codec

/-- The window size of the `MmapWindowManager` of a shard. -/
def kMmapWindowSize : Nat := 1048576

section
variable (L : LzmaLib) (file : Bytes)

/-- `LoadDatafileOnRecover`, with the `datafile_size` of the newest snapshot of the tlog, which is
zero if there is none, and the `data_lsn` of the superblock. -/
def loadDatafileOnRecover (datafileSize dataLsn : Nat) (reclaim : UInt8) (out : LoadedMap)
    (dataMax : Nat) : ParseResult :=
  let ds := loadDatafileMmap L ⟨0, 0, reclaim⟩ file kMmapWindowSize out dataMax
  match ds.status with
  | .ok _ => ds
  | .error _ =>
    if 0 < datafileSize then
      loadDatafileMmap L ⟨0, datafileSize, reclaim⟩ file kMmapWindowSize ds.out ds.maxLsn
    else if 0 < dataLsn then
      loadDatafileMmap L ⟨dataLsn, 0, reclaim⟩ file kMmapWindowSize ds.out ds.maxLsn
    else ds

end

/-- The limits of the second load, if there is one. -/
def fallbackCaps (datafileSize dataLsn : Nat) (reclaim : UInt8) : Option LoadCaps :=
  if 0 < datafileSize then some ⟨0, datafileSize, reclaim⟩
  else if 0 < dataLsn then some ⟨dataLsn, 0, reclaim⟩
  else none

/-! ## The records a load takes in -/

/-- What a round of `ParseRecordsIncremental` makes of the bytes at `pos`: out of the loop, out of
the function, a record that is passed over, or one that is put into the map. -/
inductive Round
  | stop
  | fail (e : Status)
  | skip (next : Nat)
  | take (next : Nat) (key : Key) (value : Option (Value × Nat)) (lsn : Nat)

section
variable (L : LzmaLib) (caps : LoadCaps) (file : Bytes)

def roundAt (pos : Nat) : Round :=
  if caps.cuts (pos + 1) then .stop
  else
    match readAt? file pos kDataHeaderSize with
    | none => .stop
    | some bs =>
      let hdr := DataRecordHeader.decode bs
      let body := pos + kDataHeaderSize
      let next := body + hdr.keyLen + hdr.valueLen
      if caps.cuts body then .fail (.corruptPage "datafile truncated mid-record")
      else if file.length < next then .stop
      else if !DataRecordHeader.verifyCrc bs then .skip next
      else if caps.cuts next then .fail (.corruptPage "datafile truncated mid-payload")
      else if 0 < caps.lsnCap ∧ caps.lsnCap < hdr.lsn then .skip next
      else if !generationVisible (recordGeneration bs) caps.reclaimGeneration then .skip next
      else
        match decodeRecordValue L bs (fieldAt file (body + hdr.keyLen) hdr.valueLen) with
        | .error e => .fail e
        | .ok decoded =>
          .take next (fieldAt file body hdr.keyLen)
            (if hdr.deleted then none else some (decoded, hdr.lsn)) hdr.lsn

/-- The records from `pos` on, up to the first that ends the load. -/
def takenFrom : Nat → Nat → List (Key × Option (Value × Nat))
  | 0, _ => []
  | fuel + 1, pos =>
    if file.length ≤ pos then []
    else
      match roundAt L caps file pos with
      | .stop => []
      | .fail _ => []
      | .skip next => takenFrom fuel next
      | .take next key value _ => (key, value) :: takenFrom fuel next

/-- The records of the file that a load with these limits reaches and puts into the map, tombstones
among them. -/
def takenRecords : List (Key × Option (Value × Nat)) := takenFrom L caps file file.length 0

end

end EBTree.Engine
