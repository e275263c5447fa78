import EBTree.Wal.Replay

/-!
# The physical attestor's scan of a log

`ScanWal` (`tools/ebtree_audit/physical_attestor.cc`) beside what the replayer of the engine
(`wal_segment.cc`) comes upon in the same file.
-/

set_option autoImplicit false

namespace EBTree.Audit

open Lib Wal Reader

/-- `WalScanStats`. -/
structure WalScanStats where
  recordCount : Nat
  maxLsn : Nat
  unreplayedTailCount : Nat
  deriving DecidableEq, Repr

/-- What is counted of records with these LSNs. -/
def WalScanStats.ofLsns (lsns : List Nat) (walLsn : Nat) : WalScanStats where
  recordCount := lsns.length
  maxLsn := lsns.foldl max 0
  unreplayedTailCount := (lsns.filter (walLsn < ·)).length

/-- The six bytes of `BADWAL`. -/
def badWal : Bytes := [66, 65, 68, 87, 65, 76]

/-- `IsBadWalMarker`. -/
def isBadWalMarker (f : Bytes) : Bool := readAt? f 0 6 = some badWal

/-- A header that is read lies in front of the next place. -/
theorem attestReader_gt {f : Bytes} {o lsn next : Nat}
    (h : ((readAt? f o kHeaderSizeV1).map fun bs =>
      let hdr := WalRecordHeader.decode bs
      (hdr.lsn, o + kHeaderSizeV1 + hdr.keyLen + hdr.valueLen)) = some (lsn, next)) :
    o < next := by
  obtain ⟨bs, -, h⟩ := Option.map_eq_some_iff.1 h
  cases h
  simp only [kHeaderSizeV1]
  omega

/-- The loop of `ScanWal`: a header of the V1 layout, and a seek over the key and the value, which
succeeds beyond the end of the file too. -/
def attestReader (f : Bytes) : Reader Nat where
  read o := (readAt? f o kHeaderSizeV1).map fun bs =>
    let hdr := WalRecordHeader.decode bs
    (hdr.lsn, o + kHeaderSizeV1 + hdr.keyLen + hdr.valueLen)
  skip := streamEnd f
  read_gt h := attestReader_gt h
  skip_gt := streamEnd_gt f

/-- `ScanWal`. -/
def scanWal (f : Bytes) (walLsn : Nat) : WalScanStats :=
  if isBadWalMarker f then ⟨0, 0, 0⟩
  else .ofLsns (((attestReader f).scan f.length 0).map (·.2)) walLsn

/-- The LSNs of the records that `ReplayPending` comes upon, in the format it detects. -/
def replayedLsns (f : Bytes) : List Nat :=
  if detectFormatV2OnDisk f then (acceptedV2 f).map (·.2.lsn)
  else ((rawReaderV1 f).scan f.length 0).map (·.2.lsn)

/-- The same counts of the engine's replayer; the records behind `walLsn` are those it replays. -/
def replayStats (f : Bytes) (walLsn : Nat) : WalScanStats := .ofLsns (replayedLsns f) walLsn

end EBTree.Audit
