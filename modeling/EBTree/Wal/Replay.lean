import EBTree.Memtable
import EBTree.Wal.Writer

/-!
# Replaying the log

`WalSegmentReplayer::ReplayPending` (`wal_segment.cc`): the records of a log after an LSN, put into
a memtable. A log without the magic is read in the V1 layout, and its records are never durable.
-/

set_option autoImplicit false

namespace EBTree.Wal

open Lib Reader

/-- What the replayer reads off a file: V1 records, or V2 records. -/
inductive ScannedRecord
  | v1 (r : RawRecord)
  | v2 (r : WalRecord)
  deriving DecidableEq

/-- The V1 loop of `ReplayPending`. -/
def scanWalV1 (f : Bytes) (afterLsn : Nat) : List RawRecord :=
  (((rawReaderV1 f).scan f.length 0).map (·.2)).filter (afterLsn < ·.lsn)

/-- The records the replayer sees in a file, in the format it detects. -/
def replayScan (f : Bytes) (afterLsn : Nat) : List ScannedRecord :=
  if detectFormatV2OnDisk f then (scanWalV2Sparse f afterLsn).map .v2
  else (scanWalV1 f afterLsn).map .v1

namespace WalRecord

def isData (r : WalRecord) : Bool := r.op == .kPut || r.op == .kDelete

end WalRecord

/-- What `ScanWalV2Records` sorts the records into. -/
structure V2Records where
  committedTxns : List UInt32
  abortedTxns : List UInt32
  dataRecords : List WalRecord

def scanWalV2Records (f : Bytes) (afterLsn : Nat) : V2Records :=
  let rs := scanWalV2Sparse f afterLsn
  { committedTxns := (rs.filter (·.op = .kTxnCommit)).map (·.txnId)
    abortedTxns := (rs.filter (·.op = .kTxnAbort)).map (·.txnId)
    dataRecords := rs.filter (·.isData) }

/-- One V1 record put into the memtable: every operation but a delete is a put. -/
def replayV1 (mt : MemTable) (r : RawRecord) : MemTable :=
  if r.op = WalOp.kDelete.code then MemTable.deleteKey mt r.key r.lsn 0 false
  else MemTable.put mt r.key r.value r.lsn 0 false

/-- One data record put into the memtable, unless its transaction was aborted. -/
def replayV2 (committed aborted : List UInt32) (mt : MemTable) (r : WalRecord) : MemTable :=
  if r.txnId ∈ aborted then mt
  else
    let durable := r.txnId = 0 ∨ r.txnId ∈ committed
    if r.op = .kDelete then MemTable.deleteKey mt r.key r.lsn r.txnId durable
    else MemTable.put mt r.key r.value r.lsn r.txnId durable

/-- `ReplayPending`. -/
def replayPending (f : Bytes) (mt : MemTable) (afterLsn : Nat) : MemTable :=
  if detectFormatV2OnDisk f then
    let v2 := scanWalV2Records f afterLsn
    v2.dataRecords.foldl (replayV2 v2.committedTxns v2.abortedTxns) mt
  else (scanWalV1 f afterLsn).foldl replayV1 mt

end EBTree.Wal
