import EBTree.BTree.Paged
import EBTree.Engine.VersionChain
import EBTree.Wal.Replay

/-!
# The shard engine

`ShardEngine` (`shard_engine.cc`): one log, data file, page file and superblock with the memtables,
the map of committed values, the tree and the version chains over them, and the operations that
write. Values are not compressed, regions are not reclaimed, and the log is not marked as corrupt by
a test. A result of `none` is a call that does not return, as for the tree.
-/

set_option autoImplicit false

namespace EBTree.Engine

open Lib Wal BTree

inductive DurabilityClass
  | kSync | kBalanced | kGroup | kAsync
  deriving DecidableEq, Repr

inductive RecoveryStrategy
  | kFastOpen | kFullReplay
  deriving DecidableEq, Repr

inductive RecoveryMode
  | kHot | kLazy
  deriving DecidableEq, Repr

inductive ShardRecoveryState
  | kWalPending | kLazyKey | kCommittedCold | kOnDiskLazy | kCommittedHot
  deriving DecidableEq, Repr

structure EngineOptions where
  durability : DurabilityClass
  syncOnCommit : Bool
  groupCommitBatchSize : Nat
  recoveryStrategy : RecoveryStrategy
  preferHistogramSummary : Bool
  lazyCommittedLoad : Bool
  /-- `std::hash`, as the platform has it. -/
  stdHash : Key → UInt64

namespace EngineOptions

/-- Writes go through `PutSyncFast` and `DeleteSyncFast`. -/
def syncPath (o : EngineOptions) : Bool := o.durability = .kSync || o.syncOnCommit

/-- Writes go through the batch pipeline. -/
def pipelined (o : EngineOptions) : Bool := o.durability = .kBalanced

/-- Whether the log record of a write carries its transaction: the write rule appends without. -/
def logsTxn (o : EngineOptions) : Bool := o.pipelined || o.syncPath

end EngineOptions

/-- `SuperBlockCritical`. -/
structure SuperBlock where
  epoch : Nat
  activeRoot : Nat
  dataLsn : Nat
  walLsn : Nat
  deriving DecidableEq, Repr

/-- What `SuperBlockStore::Load` returns where there is no file. -/
def SuperBlock.none : SuperBlock := ⟨0, 0, 0, 0⟩

structure GroupCommitState where
  pendingStableLsn : Nat
  putsSinceCommit : Nat
  deriving DecidableEq, Repr

/-! ## The cache of snapshot reads -/

/-- `SfsReadCache`: for a key hash and an epoch the LSN that was answered, the newest entry first,
`0` standing for a deletion. -/
structure SfsReadCache where
  lru : List (UInt64 × Nat)
  deriving DecidableEq, Repr

namespace SfsReadCache

def capacity : Nat := 16384

def cacheKey (keyHash : UInt64) (sEpoch : Nat) : UInt64 := (keyHash <<< 32) ^^^ UInt64.ofNat sEpoch

def lookup (c : SfsReadCache) (keyHash : UInt64) (sEpoch : Nat) : Option Nat :=
  c.lru.lookup (cacheKey keyHash sEpoch)

def insert (c : SfsReadCache) (keyHash : UInt64) (sEpoch lsn : Nat) : SfsReadCache :=
  ⟨((cacheKey keyHash sEpoch, lsn) ::
    c.lru.filter fun e => e.1 ≠ cacheKey keyHash sEpoch).take capacity⟩

end SfsReadCache

def sfsEpoch (snapshotLsn checkpointLsn : Nat) : Nat :=
  if checkpointLsn = 0 then snapshotLsn else snapshotLsn - snapshotLsn % checkpointLsn

/-! ## State -/

structure ShardEngine where
  opts : EngineOptions
  wal : WalWriter
  datafile : DataFile
  /-- The block `superblock_->Load` returns. -/
  superblock : SuperBlock
  btree : PagedBTree
  vcs : VersionChainStore
  memtable : MemTable
  immutable : MemTable
  flushing : MemTable
  committed : SortedMap Key (Value × Nat)
  stableLsn : Nat
  groupCommit : GroupCommitState
  /-- `sb_`, the block this engine loaded or committed last. -/
  sb : SuperBlock
  recoveryMode : RecoveryMode
  recoveryState : ShardRecoveryState
  lazyRootCorrupt : Bool
  walReplayPending : Bool
  snapshotPinCount : UInt32
  pinnedSnapshotLsn : Nat
  sfsCache : SfsReadCache
  /-- The sidecar of the data file's index. -/
  didx : Option (SortedMap Nat Nat)
  /-- The sidecar of the version chains. -/
  vidx : Option VersionChainStore

/-- An iteration order of `std::unordered_map`. -/
structure IterOrder where
  order : MemTable → List (Key × MemTableEntry)
  perm : ∀ mt, (order mt).Perm mt.entries

/-- The iteration in the order of the keys. -/
def IterOrder.byKey : IterOrder := ⟨SortedMap.entries, fun _ => List.Perm.refl _⟩

namespace ShardEngine

def memTablesEmpty (s : ShardEngine) : Bool :=
  s.memtable.isEmpty && s.immutable.isEmpty && s.flushing.isEmpty

/-- `ComputeRecoveryState`. -/
def computeRecoveryState (s : ShardEngine) : ShardRecoveryState :=
  if s.walReplayPending then .kWalPending
  else if s.recoveryMode = .kLazy ∨ s.lazyRootCorrupt then .kLazyKey
  else if !s.committed.isEmpty && s.memTablesEmpty then .kCommittedCold
  else if s.opts.lazyCommittedLoad ∨ (s.committed.isEmpty ∧ s.btree.onDiskMode) then .kOnDiskLazy
  else .kCommittedHot

def refreshRecoveryState (s : ShardEngine) : ShardEngine :=
  { s with recoveryState := s.computeRecoveryState }

/-- The map `btree_map` of the LSNs of the committed values. -/
def committedLsns (s : ShardEngine) : SortedMap Key Nat := s.committed.mapValues (·.2)

/-- `EnsureWalReplayed`. -/
def ensureWalReplayed (s : ShardEngine) : ShardEngine :=
  if s.walReplayPending then
    { s with
      memtable := replayPending s.wal.file s.memtable s.sb.walLsn
      walReplayPending := false }.refreshRecoveryState
  else s

/-! ## Writing -/

structure WriteRequest where
  key : Key
  value : Value
  isDelete : Bool
  txnId : UInt32
  deriving DecidableEq, Repr

namespace WriteRequest

/-- The record appended for the write. -/
def item (r : WriteRequest) (logsTxn : Bool) : WalWriter.Item where
  op := if r.isDelete then .kDelete else .kPut
  key := r.key
  value := if r.isDelete then [] else r.value
  txnId := if logsTxn then r.txnId else 0

/-- The write in the memtable, durable when it is not part of a transaction. -/
def apply (r : WriteRequest) (mt : MemTable) (lsn : Nat) : MemTable :=
  if r.isDelete then MemTable.deleteKey mt r.key lsn r.txnId (r.txnId = 0)
  else MemTable.put mt r.key r.value lsn r.txnId (r.txnId = 0)

end WriteRequest

/-- `GroupCommitter::Commit`. -/
def groupCommitNow (s : ShardEngine) : ShardEngine :=
  if s.groupCommit.pendingStableLsn = 0 then s
  else
    { s with
      wal := s.wal.fsync
      stableLsn := max s.stableLsn s.groupCommit.pendingStableLsn
      groupCommit := { s.groupCommit with putsSinceCommit := 0 } }

/-- What a durability class does with a write that was appended and put into the memtable. -/
def acknowledge (s : ShardEngine) (lsn : Nat) : ShardEngine :=
  if s.opts.pipelined then { s with wal := s.wal.fsync, stableLsn := max s.stableLsn lsn }
  else if s.opts.syncPath then { s with wal := s.wal.fsync, stableLsn := lsn }
  else if s.opts.durability = .kGroup then
    let g : GroupCommitState :=
      ⟨max s.groupCommit.pendingStableLsn lsn, s.groupCommit.putsSinceCommit + 1⟩
    let s := { s with groupCommit := g }
    if 0 < s.opts.groupCommitBatchSize ∧ s.opts.groupCommitBatchSize ≤ g.putsSinceCommit then
      s.groupCommitNow
    else s
  else s

/-- The body `Put` and `Delete` share; with the pipeline the write is alone in its batch. -/
def write (s : ShardEngine) (r : WriteRequest) : ShardEngine × Except Status Unit :=
  if r.key = [] then (s, .error (Status.invalidArgument "InvalidPlan: empty key"))
  else
    let s := s.ensureWalReplayed
    match s.wal.append (r.item s.opts.logsTxn) with
    | (wal, .error e) => ({ s with wal := wal }, .error e)
    | (wal, .ok lsn) =>
      ({ s with wal := wal, memtable := r.apply s.memtable lsn }.acknowledge lsn, .ok ())

def put (s : ShardEngine) (key : Key) (value : Value) (txnId : UInt32) :
    ShardEngine × Except Status Unit :=
  s.write ⟨key, value, false, txnId⟩

def delete (s : ShardEngine) (key : Key) (txnId : UInt32) : ShardEngine × Except Status Unit :=
  s.write ⟨key, [], true, txnId⟩

/-! ## Transaction control -/

def appendTxnBegin (s : ShardEngine) (txnId : UInt32) (snapshotLsn : Nat) : ShardEngine :=
  { s with
    wal := (s.wal.append (WalWriter.txnControl .kTxnBegin txnId (UInt64.ofNat snapshotLsn))).1 }

def appendTxnCommit (s : ShardEngine) (txnId : UInt32) : ShardEngine :=
  { s with wal := (s.wal.append (WalWriter.txnControl .kTxnCommit txnId 0)).1.fsync }

def appendTxnAbort (s : ShardEngine) (txnId : UInt32) : ShardEngine :=
  { s with wal := (s.wal.append (WalWriter.txnControl .kTxnAbort txnId 0)).1 }

/-- `PromoteTxn` on the three memtables. -/
def promoteTxn (s : ShardEngine) (txnId : UInt32) : ShardEngine :=
  { s with
    memtable := MemTable.promoteTxn s.memtable txnId
    immutable := MemTable.promoteTxn s.immutable txnId
    flushing := MemTable.promoteTxn s.flushing txnId }

/-- `ClearTxn` on the three memtables. -/
def clearTxn (s : ShardEngine) (txnId : UInt32) : ShardEngine :=
  { s with
    memtable := MemTable.clearTxn s.memtable txnId
    immutable := MemTable.clearTxn s.immutable txnId
    flushing := MemTable.clearTxn s.flushing txnId }

/-! ## Pins -/

def pinSnapshot (s : ShardEngine) (lsn : Nat) : ShardEngine :=
  { s with
    snapshotPinCount := s.snapshotPinCount + 1
    pinnedSnapshotLsn :=
      if s.pinnedSnapshotLsn = 0 ∨ lsn < s.pinnedSnapshotLsn then lsn else s.pinnedSnapshotLsn }

def releaseSnapshot (s : ShardEngine) : ShardEngine :=
  { s with
    snapshotPinCount := s.snapshotPinCount - 1
    pinnedSnapshotLsn := if s.snapshotPinCount = 1 then 0 else s.pinnedSnapshotLsn }

/-! ## Flushing -/

def rotateMemTableForFlush (s : ShardEngine) : ShardEngine :=
  { s with memtable := s.immutable, immutable := s.flushing, flushing := s.memtable }

/-- One round of the loop of `Flusher::Flush`. -/
def flushEntry (s : ShardEngine) (key : Key) (e : MemTableEntry) :
    Option (ShardEngine × Except Status Unit) :=
  match s.btree.get key with
  | none => none
  | some found =>
    let prevLsn := match found with
      | .ok lsn => lsn
      | .error _ => 0
    let (vcs, st) := s.vcs.append key e.lsn prevLsn
    let s :=
      { s with
        datafile := s.datafile.append ⟨e.lsn, key, if e.deleted then [] else e.value, e.deleted⟩
        committed :=
          if e.deleted then s.committed.erase key else s.committed.insert key (e.value, e.lsn)
        btree := if e.deleted then s.btree.deleteKey key e.lsn else s.btree.put key e.lsn
        vcs := vcs }
    match st with
    | .error err => some (s, .error err)
    | .ok () => some ({ s with stableLsn := max s.stableLsn e.lsn }, .ok ())

/-- The loop of `Flusher::Flush`, out at the first version the chains refuse. -/
def flushEntries (s : ShardEngine) :
    List (Key × MemTableEntry) → Option (ShardEngine × Except Status Unit)
  | [] => some (s, .ok ())
  | (key, e) :: es =>
    match s.flushEntry key e with
    | none => none
    | some (s, .error err) => some (s, .error err)
    | some (s, .ok ()) => s.flushEntries es

/-- `FlushInternal`. -/
def flushInternal (s : ShardEngine) (ord : IterOrder) : Option (ShardEngine × Except Status Unit) :=
  match { s with wal := s.wal.fsync }.flushEntries (ord.order s.flushing) with
  | none => none
  | some (s, .error e) => some (s, .error e)
  | some (s, .ok ()) => some ({ s with flushing := SortedMap.empty }, .ok ())

def flush (s : ShardEngine) (ord : IterOrder) : Option (ShardEngine × Except Status Unit) :=
  s.ensureWalReplayed.rotateMemTableForFlush.flushInternal ord

/-- `TryFlushBackground`, with the lock free. -/
def tryFlushBackground (s : ShardEngine) (ord : IterOrder) :
    Option (ShardEngine × Except Status Unit) :=
  if 0 < s.snapshotPinCount then some (s, .ok ()) else s.flush ord

/-! ## Folding the log into the chains -/

/-- A record as `FoldWalToVcs` reads it. -/
structure FoldRecord where
  lsn : Nat
  op : UInt8
  key : Key
  txnId : UInt32
  deriving DecidableEq, Repr

theorem headerEnd_gt {f : Bytes} {o n : Nat} {k : Nat} (hk : 0 < k) {r : FoldRecord}
    {dec : Bytes → FoldRecord × Nat} (hdec : ∀ bs, o + k ≤ (dec bs).2)
    (h : (readAt? f o k).map dec = some (r, n)) : o < n := by
  obtain ⟨bs, -, h⟩ := Option.map_eq_some_iff.1 h
  have := hdec bs
  rw [h] at this
  exact Nat.lt_of_lt_of_le (Nat.lt_add_of_pos_right hk) this

/-- The loop of `FoldWalToVcs` over a log with the magic: the header has to be there, of the key
what the stream does not hold is zero. -/
def foldReaderV2 (f : Bytes) : Reader FoldRecord where
  read o := (readAt? f o kHeaderSizeV2).map fun bs =>
    let hdr := WalRecordHeaderV2.decode bs
    (⟨hdr.lsn, hdr.op, padTo hdr.keyLen (fieldAt f (o + kHeaderSizeV2) hdr.keyLen), hdr.txnId⟩,
      o + kHeaderSizeV2 + hdr.keyLen + hdr.valueLen)
  skip := streamEnd f
  read_gt h := headerEnd_gt (by decide) (fun _ => Nat.le_add_right_of_le (Nat.le_add_right _ _)) h
  skip_gt := streamEnd_gt f

/-- The loop over a log of the V1 layout. -/
def foldReaderV1 (f : Bytes) : Reader FoldRecord where
  read o := (readAt? f o kHeaderSizeV1).map fun bs =>
    let hdr := WalRecordHeader.decode bs
    (⟨hdr.lsn, hdr.op, padTo hdr.keyLen (fieldAt f (o + kHeaderSizeV1) hdr.keyLen), 0⟩,
      o + kHeaderSizeV1 + hdr.keyLen + hdr.valueLen)
  skip := streamEnd f
  read_gt h := headerEnd_gt (by decide) (fun _ => Nat.le_add_right_of_le (Nat.le_add_right _ _)) h
  skip_gt := streamEnd_gt f

def FoldRecord.isData (r : FoldRecord) : Bool :=
  r.op == WalOp.kPut.code || r.op == WalOp.kDelete.code

/-- The records `FoldWalToVcs` offers to the chains. -/
def foldRecords (wal : WalWriter) (afterLsn : Nat) : List FoldRecord :=
  let f := wal.file
  if wal.formatV2 then
    let rs := (((foldReaderV2 f).scan f.length
      (walDataOffsetOnDisk f (detectFormatV2OnDisk f))).map (·.2)).filter (afterLsn < ·.lsn)
    let committedTxns := (rs.filter (·.op = WalOp.kTxnCommit.code)).map (·.txnId)
    (rs.filter (·.isData)).filter fun r => r.txnId = 0 ∨ r.txnId ∈ committedTxns
  else
    (((foldReaderV1 f).scan f.length 0).map (·.2)).filter (afterLsn < ·.lsn)

/-- The loop that appends to the chains: a version is passed over that its chain already has, or has
a newer one than. -/
def foldInto (vcs : VersionChainStore) :
    List FoldRecord → VersionChainStore × Except Status Unit
  | [] => (vcs, .ok ())
  | r :: rs =>
    if vcs.containsLsn r.key r.lsn then foldInto vcs rs
    else if vcs.head r.key ≠ 0 ∧ r.lsn ≤ vcs.head r.key then foldInto vcs rs
    else
      match vcs.append r.key r.lsn (vcs.head r.key) with
      | (vcs, .error e) => (vcs, .error e)
      | (vcs, .ok ()) => foldInto vcs rs

def foldWalToVcs (s : ShardEngine) : ShardEngine × Except Status Unit :=
  if s.wal.formatV2 && !detectFormatV2OnDisk s.wal.file then
    (s, .error (Status.corrupt "wal v2 magic"))
  else
    let (vcs, st) := foldInto s.vcs (foldRecords s.wal s.sb.walLsn)
    ({ s with vcs := vcs }, st)

/-! ## Checkpoints -/

/-- `superblock_->Commit(sb)` and `sb_ = sb`. -/
def commitSuperBlock (s : ShardEngine) (sb : SuperBlock) : ShardEngine :=
  { s with
    superblock := { sb with epoch := max s.superblock.epoch sb.epoch + 1 }
    sb := sb }

def commitSuperBlockInternal (s : ShardEngine) : Option (ShardEngine × Except Status Unit) :=
  let sb := { s.superblock with dataLsn := s.stableLsn }
  if s.lazyRootCorrupt then some (s.commitSuperBlock { sb with activeRoot := 0 }, .ok ())
  else
    let btree := (s.btree.rebuildSummaryFromCommitted s.committedLsns).ensureSummaryLsnAtLeast
      s.stableLsn
    match btree.persistRootFromMap s.committedLsns with
    | none => none
    | some (btree, .error e) => some ({ s with btree := btree }, .error e)
    | some (btree, .ok root) =>
      match btree.loadRoot root with
      | (btree, .error e) => some ({ s with btree := btree }, .error e)
      | (btree, .ok ()) =>
        some
          ({ s with btree := btree.ensureSummaryLsnAtLeast s.stableLsn }.commitSuperBlock
              { sb with walLsn := s.wal.maxLsn, activeRoot := root },
            .ok ())

inductive CheckpointPhase
  | afterFlush | afterVcsFold | afterTLog | beforeSuperBlock | afterSuperBlock | beforeWalTruncate
  deriving DecidableEq, Repr

/-- The sidecars, and what the pins leave of the chains. -/
def saveSidecars (s : ShardEngine) : ShardEngine :=
  { s with
    didx := some s.datafile.lsnIndex
    vidx := some s.vcs
    vcs := if 0 < s.pinnedSnapshotLsn then s.vcs.compactBelow s.pinnedSnapshotLsn else s.vcs }

/-- The end of a checkpoint that committed its superblock. -/
def truncateWal (s : ShardEngine) : ShardEngine :=
  { s with
    wal := if 0 < s.sb.walLsn then s.wal.truncateTo s.sb.walLsn else s.wal }.refreshRecoveryState

def interrupted : Except Status Unit := .error (Status.internal "checkpoint interrupted")

/-- `Checkpoint` from the superblock on. -/
def checkpointCommit (s : ShardEngine) (hook : CheckpointPhase → Bool) :
    Option (ShardEngine × Except Status Unit) :=
  match s.commitSuperBlockInternal with
  | none => none
  | some (s, .error e) => some (s, if hook .afterSuperBlock then interrupted else .error e)
  | some (s, .ok ()) =>
    if hook .beforeWalTruncate then some (s.saveSidecars, interrupted)
    else
      some (s.saveSidecars.truncateWal, if hook .afterSuperBlock then interrupted else .ok ())

/-- `Checkpoint`, `hook` saying at which phases it is interrupted. -/
def checkpoint (s : ShardEngine) (ord : IterOrder) (hook : CheckpointPhase → Bool) :
    Option (ShardEngine × Except Status Unit) :=
  let s := s.ensureWalReplayed
  let s := if s.opts.durability = .kGroup then s.groupCommitNow else s
  match s.rotateMemTableForFlush.flushInternal ord with
  | none => none
  | some (s, .error e) => some (s, .error e)
  | some (s, .ok ()) =>
    if hook .afterFlush then some (s, interrupted)
    else
      match s.foldWalToVcs with
      | (s, .error e) => some (s, .error e)
      | (s, .ok ()) =>
        if hook .afterVcsFold ∨ hook .afterTLog ∨ hook .beforeSuperBlock then some (s, interrupted)
        else s.checkpointCommit hook

end ShardEngine
end EBTree.Engine
