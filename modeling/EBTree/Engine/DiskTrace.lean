import EBTree.Engine.Recover
import EBTree.Engine.Run
import EBTree.Lib.WriteAhead

/-!
# What a call does to the disk

The calls that write (`shard_engine.cc`, `core_rules.cc`, `group_committer.cc`, `flusher.cc`) as the
effects they have on the log, the data file and the superblock, one after another. A crash may come
between any two of them.
-/

set_option autoImplicit false

namespace EBTree.Engine

open Lib Wal BTree ShardEngine

/-- One effect on the files. -/
inductive DiskEvent
  /-- The log is read from an LSN on. -/
  | walRead (afterLsn : Nat)
  | walAppend (it : WalWriter.Item)
  | walFsync
  | walTruncate (walLsn : Nat)
  | dataAppend (r : DataRecord)
  | superBlock (sb : SuperBlock)

structure Disk where
  wal : WalWriter
  datafile : DataFile
  superblock : SuperBlock

def ShardEngine.disk (s : ShardEngine) : Disk := ⟨s.wal, s.datafile, s.superblock⟩

/-- The LSNs of the records that a replay from `afterLsn` on reads. -/
def loggedLsns (f : Bytes) (afterLsn : Nat) : List Nat :=
  (replayScan f afterLsn).map fun
    | .v1 r => r.lsn
    | .v2 r => r.lsn

namespace Disk

def after (d : Disk) : DiskEvent → Disk
  | .walRead _ => d
  | .walAppend it => { d with wal := (d.wal.append it).1 }
  | .walFsync => { d with wal := d.wal.fsync }
  | .walTruncate walLsn => { d with wal := d.wal.truncateTo walLsn }
  | .dataAppend r => { d with datafile := d.datafile.append r }
  | .superBlock sb =>
    { d with superblock := { sb with epoch := max d.superblock.epoch sb.epoch + 1 } }

/-- The effect as one on a log, by LSNs. -/
def effect (d : Disk) : DiskEvent → LogEffect Nat
  | .walRead afterLsn => .log (loggedLsns d.wal.file afterLsn)
  | .walAppend it => .log ((d.wal.append it).2.toOption.toList)
  | .walFsync => .sync
  | .walTruncate _ => .log []
  | .dataAppend r => .apply r.lsn
  | .superBlock sb => .publish sb.dataLsn

def afterAll (d : Disk) (es : List DiskEvent) : Disk := es.foldl after d

def effects (d : Disk) : List DiskEvent → List (LogEffect Nat)
  | [] => []
  | e :: es => d.effect e :: (d.after e).effects es

end Disk

/-! ## The calls -/

namespace ShardEngine

/-- `EnsureWalReplayed`. -/
def replayEvents (s : ShardEngine) : List DiskEvent :=
  if s.walReplayPending then [.walRead s.sb.walLsn] else []

/-- `GroupCommitter::Commit`. -/
def groupCommitEvents (s : ShardEngine) : List DiskEvent :=
  if s.groupCommit.pendingStableLsn = 0 then [] else [.walFsync]

/-- What follows the append of a write: the sync of its durability class. -/
def acknowledgeEvents (s : ShardEngine) (lsn : Nat) : List DiskEvent :=
  if s.opts.pipelined ∨ s.opts.syncPath then [.walFsync]
  else if s.opts.durability = .kGroup ∧ 0 < s.opts.groupCommitBatchSize ∧
      s.opts.groupCommitBatchSize ≤ s.groupCommit.putsSinceCommit + 1 then
    { s with groupCommit :=
        ⟨max s.groupCommit.pendingStableLsn lsn, s.groupCommit.putsSinceCommit + 1⟩ }.groupCommitEvents
  else []

/-- `Put` and `Delete`. -/
def writeEvents (s : ShardEngine) (r : WriteRequest) : List DiskEvent :=
  if r.key = [] then []
  else
    s.replayEvents ++ .walAppend (r.item s.opts.logsTxn) ::
      match (s.wal.append (r.item s.opts.logsTxn)).2 with
      | .error _ => []
      | .ok lsn => s.acknowledgeEvents lsn

/-- The loop of `Flusher::Flush`. -/
def entryEvents (s : ShardEngine) : List (Key × MemTableEntry) → List DiskEvent
  | [] => []
  | (key, e) :: es =>
    match s.flushEntry key e with
    | none => []
    | some (_, .error _) =>
      [.dataAppend ⟨e.lsn, key, if e.deleted then [] else e.value, e.deleted⟩]
    | some (s', .ok ()) =>
      .dataAppend ⟨e.lsn, key, if e.deleted then [] else e.value, e.deleted⟩ :: s'.entryEvents es

/-- `Flusher::Flush`. -/
def flushInternalEvents (s : ShardEngine) (ord : IterOrder) : List DiskEvent :=
  .walFsync :: { s with wal := s.wal.fsync }.entryEvents (ord.order s.flushing)

def flushEvents (s : ShardEngine) (ord : IterOrder) : List DiskEvent :=
  s.replayEvents ++ s.ensureWalReplayed.rotateMemTableForFlush.flushInternalEvents ord

/-- `Checkpoint` from the superblock on. -/
def checkpointCommitEvents (s : ShardEngine) (hook : CheckpointPhase → Bool) : List DiskEvent :=
  match s.commitSuperBlockInternal with
  | some (s', .ok ()) =>
    .superBlock s'.sb ::
      if hook .beforeWalTruncate = false ∧ 0 < s'.sb.walLsn then [.walTruncate s'.sb.walLsn] else []
  | _ => []

/-- What is in front of the flush of a checkpoint. -/
def beforeFlushEvents (s : ShardEngine) : List DiskEvent :=
  s.replayEvents ++
    if s.ensureWalReplayed.opts.durability = .kGroup then s.ensureWalReplayed.groupCommitEvents
    else []

/-- What is behind the flush of a checkpoint. -/
def afterFlushEvents (s : ShardEngine) (hook : CheckpointPhase → Bool) : List DiskEvent :=
  if hook .afterFlush then []
  else
    match s.foldWalToVcs with
    | (_, .error _) => []
    | (s, .ok ()) =>
      if hook .afterVcsFold ∨ hook .afterTLog ∨ hook .beforeSuperBlock then []
      else s.checkpointCommitEvents hook

/-- `Checkpoint`. -/
def checkpointEvents (s : ShardEngine) (ord : IterOrder) (hook : CheckpointPhase → Bool) :
    List DiskEvent :=
  let s₁ := if s.ensureWalReplayed.opts.durability = .kGroup then
    s.ensureWalReplayed.groupCommitNow else s.ensureWalReplayed
  s.beforeFlushEvents ++ (s₁.rotateMemTableForFlush.flushInternalEvents ord ++
    match s₁.rotateMemTableForFlush.flushInternal ord with
    | some (s₂, .ok ()) => s₂.afterFlushEvents hook
    | _ => [])

/-- The effects of a call, up to where it does not return. -/
def events (s : ShardEngine) : Op → List DiskEvent
  | .write r => s.writeEvents r
  | .appendTxnBegin txnId snapshotLsn =>
    [.walAppend (WalWriter.txnControl .kTxnBegin txnId (UInt64.ofNat snapshotLsn))]
  | .appendTxnCommit txnId => [.walAppend (WalWriter.txnControl .kTxnCommit txnId 0), .walFsync]
  | .appendTxnAbort txnId => [.walAppend (WalWriter.txnControl .kTxnAbort txnId 0)]
  | .flush ord => s.flushEvents ord
  | .tryFlushBackground ord => if 0 < s.snapshotPinCount then [] else s.flushEvents ord
  | .checkpoint ord hook => s.checkpointEvents ord hook
  | .groupCommit => s.groupCommitEvents
  | _ => []

end ShardEngine

/-- The calls that write, and those that change no file. -/
def Op.writes : Op → Bool
  | .write _ | .appendTxnBegin _ _ | .appendTxnCommit _ | .appendTxnAbort _ | .promoteTxn _
  | .clearTxn _ | .pinSnapshot _ | .releaseSnapshot | .flush _ | .tryFlushBackground _
  | .checkpoint _ _ | .groupCommit => true
  | _ => false

/-! ## Runs with crashes -/

/-- The files, and the LSNs that are in the log and that were when it was synced. -/
structure Journal where
  disk : Disk
  ledger : Ledger Nat

namespace Journal

def after (j : Journal) (e : DiskEvent) : Journal :=
  ⟨j.disk.after e, j.ledger.after (j.disk.effect e)⟩

def afterAll (j : Journal) (es : List DiskEvent) : Journal := es.foldl after j

/-- What the log has, once a shard is opened that reads it when it is opened. -/
def opened (j : Journal) (s : ShardEngine) : Journal :=
  ⟨s.disk, j.ledger.reopened.after
    (.log (if s.opts.recoveryStrategy = .kFullReplay then loggedLsns s.wal.file s.sb.walLsn else []))⟩

/-- Nothing was ever written. -/
def none : Journal := ⟨⟨WalWriter.open [], ⟨[], SortedMap.empty⟩, SuperBlock.none⟩, ⟨[], []⟩⟩

/-- Each of the effects finds what it must. -/
def Ordered (j : Journal) (es : List DiskEvent) : Prop := j.ledger.Ordered (j.disk.effects es)

end Journal

/-- The engines that calls and crashes reach from an empty database. A crash comes after any of the
effects of a call, the last included; of the files only the superblock is what it was. -/
inductive DiskRun : ShardEngine → Journal → Prop
  | opened (opts : EngineOptions) :
    DiskRun (ShardEngine.open opts ShardFiles.none)
      (Journal.none.opened (ShardEngine.open opts ShardFiles.none))
  | call {s s' : ShardEngine} {j : Journal} {op : Op} :
    DiskRun s j → op.writes = true → s.step op = some s' → DiskRun s' (j.afterAll (s.events op))
  | crash {s : ShardEngine} {j : Journal} {op : Op} {done lost : List DiskEvent} {f : ShardFiles}
    (opts : EngineOptions) : DiskRun s j → op.writes = true → s.events op = done ++ lost →
    f.superblock = (j.afterAll done).disk.superblock →
    DiskRun (ShardEngine.open opts f) ((j.afterAll done).opened (ShardEngine.open opts f))

end EBTree.Engine
