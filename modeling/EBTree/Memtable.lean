import EBTree.Lib.SortedMap
import EBTree.Common

/-!
# The memtable

`MemTable` (`memtable.cc`): one entry for each key, the last one written. `memEntryVisible` is what
a reader makes of it (`snapshot_resolver.cc`).
-/

set_option autoImplicit false

namespace EBTree

open Lib

structure MemTableEntry where
  value : Bytes
  lsn : Nat
  deleted : Bool
  txnId : UInt32
  durable : Bool
  deriving DecidableEq, Repr

abbrev MemTable := SortedMap Bytes MemTableEntry

namespace MemTable

def put (mt : MemTable) (key value : Bytes) (lsn : Nat) (txnId : UInt32) (durable : Bool) :
    MemTable :=
  mt.insert key ⟨value, lsn, false, txnId, durable⟩

def deleteKey (mt : MemTable) (key : Bytes) (lsn : Nat) (txnId : UInt32) (durable : Bool) :
    MemTable :=
  mt.insert key ⟨[], lsn, true, txnId, durable⟩

def get (mt : MemTable) (key : Bytes) : Option MemTableEntry := mt.find? key

/-- `PromoteTxn`: the entries of the transaction become durable. -/
def promoteTxn (mt : MemTable) (txnId : UInt32) : MemTable :=
  if txnId = 0 then mt
  else mt.mapValues fun e => if e.txnId = txnId then { e with durable := true } else e

/-- `ClearTxn`: the entries of the transaction go. -/
def clearTxn (mt : MemTable) (txnId : UInt32) : MemTable :=
  if txnId = 0 then mt else mt.filterValues fun e => e.txnId ≠ txnId

end MemTable

structure SnapshotReadContext where
  readerTxnId : UInt32
  snapshotLsn : Nat
  deriving DecidableEq, Repr

/-- `MemEntryVisible`. A reader outside every transaction sees the durable entries; the test of the
snapshot does not change the outcome. -/
def memEntryVisible (entry : MemTableEntry) (ctx : SnapshotReadContext) : Bool :=
  if ctx.readerTxnId ≠ 0 ∧ entry.txnId = ctx.readerTxnId then true
  else if entry.durable then true
  else if 0 < ctx.snapshotLsn ∧ ctx.snapshotLsn < entry.lsn then false
  else false

theorem memEntryVisible_eq_durable (entry : MemTableEntry) {ctx : SnapshotReadContext}
    (h : ctx.readerTxnId = 0) : memEntryVisible entry ctx = entry.durable := by
  simp [memEntryVisible, h]

end EBTree
