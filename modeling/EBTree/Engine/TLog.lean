import EBTree.Engine.Run

/-!
# Reading at a timestamp

`TLogWriter`, `TLogReader` (`tlog.cc`) and the reads of `ShardEngine` over them (`shard_engine.cc`):
a checkpoint notes the size the data file has, with the time, and a read at a timestamp loads the
data file up to the size noted last by then.
-/

set_option autoImplicit false

namespace EBTree.Engine

open Lib Wal BTree

structure TLogEntry where
  pageOffset : Nat
  timestampSec : UInt32
  prevOffset : Nat
  deriving DecidableEq, Repr

/-- `sizeof(TLogEntry)`. -/
def kTLogEntrySize : Nat := 16

structure TLogIndexEntry where
  dataLsn : Nat
  walLsn : Nat
  datafileSize : Nat
  timestampSec : UInt32
  fileOffset : Nat
  deriving DecidableEq, Repr

/-- The log of the snapshots and its index, each a file that is appended to. -/
structure TLog where
  entries : List TLogEntry
  index : List TLogIndexEntry
  deriving DecidableEq, Repr

namespace TLog

def empty : TLog := ⟨[], []⟩

/-- `LatestSnapshot`. -/
def latestSnapshot (l : TLog) : TLogIndexEntry := l.index.getLast?.getD ⟨0, 0, 0, 0, 0⟩

/-- `AppendSnapshot`, `ts` being what `NowSeconds` says. -/
def appendSnapshot (l : TLog) (dataLsn datafileSize walLsn : Nat) (ts : UInt32) : TLog where
  entries := l.entries ++ [⟨datafileSize, ts, l.latestSnapshot.fileOffset % 2 ^ 32⟩]
  index := l.index ++
    [⟨dataLsn, walLsn, datafileSize, ts, l.entries.length * kTLogEntrySize % 2 ^ 32⟩]

/-- One round of the loop of `FindSnapshotAt`. -/
def better (ts : UInt32) (best : Option TLogIndexEntry) (snap : TLogIndexEntry) :
    Option TLogIndexEntry :=
  if snap.timestampSec ≤ ts then
    match best with
    | none => some snap
    | some b => if b.timestampSec ≤ snap.timestampSec then some snap else some b
  else best

def findSnapshotAt (l : TLog) (ts : UInt32) : Except Status TLogIndexEntry :=
  if l.index = [] then .error (Status.notFound "no tlog snapshots")
  else
    match l.index.foldl (better ts) none with
    | none => .error (Status.notFound "no snapshot at timestamp")
    | some snap => .ok snap

end TLog

/-! ## Loading the data file up to a size -/

namespace DataFile

/-- The loop of `ParseRecordsIncremental` with a `byte_cap`, which is none when it is zero. -/
def parseRecords (f : Bytes) (byteCap : Nat) :
    Nat → Nat → SortedMap Key (Value × Nat) → Except Status (SortedMap Key (Value × Nat))
  | 0, _, out => .ok out
  | fuel + 1, pos, out =>
    if f.length ≤ pos ∨ (0 < byteCap ∧ byteCap ≤ pos) then .ok out
    else
      match readAt? f pos kDataHeaderSize with
      | none => .ok out
      | some bs =>
        let hdr := DataRecordHeader.decode bs
        let next := pos + kDataHeaderSize + hdr.keyLen + hdr.valueLen
        if 0 < byteCap ∧ byteCap < pos + kDataHeaderSize then
          .error (Status.corruptPage "datafile truncated mid-record")
        else if !DataRecordHeader.verifyCrc bs then
          if f.length < next then .ok out else parseRecords f byteCap fuel next out
        else
          match readRawAt f pos with
          | none => .ok out
          | some (r, _) =>
            if 0 < byteCap ∧ byteCap < next then
              .error (Status.corruptPage "datafile truncated mid-payload")
            else parseRecords f byteCap fuel next (loadStep out r)

/-- `LoadDatafileMmap`, into an empty map. -/
def loadDatafile (d : DataFile) (byteCap : Nat) : Except Status (SortedMap Key (Value × Nat)) :=
  parseRecords d.file byteCap d.file.length 0 SortedMap.empty

end DataFile

/-! ## The engine with its log of snapshots -/

structure TimedEngine where
  shard : ShardEngine
  tlog : TLog

namespace TimedEngine

/-- An engine on no files. -/
def «open» (opts : EngineOptions) : TimedEngine := ⟨ShardEngine.open opts ShardFiles.none, TLog.empty⟩

def loadAsOfCommitted (t : TimedEngine) (ts : UInt32) :
    Except Status (SortedMap Key (Value × Nat)) :=
  match t.tlog.findSnapshotAt ts with
  | .error e => .error e
  | .ok snap => t.shard.datafile.loadDatafile snap.datafileSize

def getAsOf (t : TimedEngine) (key : Key) (ts : UInt32) : Except Status Value :=
  if key = [] then .error (Status.invalidArgument "InvalidPlan: empty key")
  else
    match t.loadAsOfCommitted ts with
    | .error e => .error e
    | .ok asof =>
      match asof.find? key with
      | none => .error (Status.notFound "key not found at timestamp")
      | some (value, _) => .ok value

def scanAsOf (t : TimedEngine) (plan : TypedPlan) (ts : UInt32) :
    Except Status (List (Key × Value)) :=
  match t.loadAsOfCommitted ts with
  | .error e => .error e
  | .ok asof => .ok ((asof.entries.filter fun e => planMatches plan e.1).map fun e => (e.1, e.2.1))

/-- `AppendTLogSnapshot`. -/
def appendTLogSnapshot (t : TimedEngine) (now : UInt32) : TimedEngine :=
  { t with
    tlog := t.tlog.appendSnapshot t.shard.stableLsn t.shard.datafile.file.length
      t.shard.wal.maxLsn now }

/-- `Checkpoint`, with the snapshot it appends between the fold and the superblock. -/
def checkpoint (t : TimedEngine) (ord : IterOrder) (hook : ShardEngine.CheckpointPhase → Bool)
    (now : UInt32) : Option (TimedEngine × Except Status Unit) :=
  let s := t.shard.ensureWalReplayed
  let s := if s.opts.durability = .kGroup then s.groupCommitNow else s
  match s.rotateMemTableForFlush.flushInternal ord with
  | none => none
  | some (s, .error e) => some ({ t with shard := s }, .error e)
  | some (s, .ok ()) =>
    if hook .afterFlush then some ({ t with shard := s }, ShardEngine.interrupted)
    else
      match s.foldWalToVcs with
      | (s, .error e) => some ({ t with shard := s }, .error e)
      | (s, .ok ()) =>
        if hook .afterVcsFold then some ({ t with shard := s }, ShardEngine.interrupted)
        else
          let t := { t with shard := s }.appendTLogSnapshot now
          if hook .afterTLog ∨ hook .beforeSuperBlock then some (t, ShardEngine.interrupted)
          else (t.shard.checkpointCommit hook).map fun x => ({ t with shard := x.1 }, x.2)

/-- The state after a call made at a time. -/
def step (t : TimedEngine) (now : UInt32) : Op → Option TimedEngine
  | .checkpoint ord hook => (t.checkpoint ord hook now).map (·.1)
  | op => (t.shard.step op).map fun s => { t with shard := s }

end TimedEngine

/-! ## Runs -/

/-- A checkpoint that was noted: when, at which size of the data file, the values that were
committed, and what had been written. -/
structure Checkpointed where
  timestamp : UInt32
  datafileSize : Nat
  committed : SortedMap Key (Value × Nat)
  history : History

/-- What a step adds to the checkpoints that were noted. -/
def noted (t t' : TimedEngine) (h : History) : List Checkpointed :=
  (t'.tlog.index.drop t.tlog.index.length).map fun e =>
    ⟨e.timestampSec, t'.shard.datafile.file.length, t'.shard.committed, h⟩

/-- The states that calls satisfying `ok` reach from an empty database, by a clock that does not go
back. -/
inductive TimedRun (ok : ShardEngine → History → Op → Prop) :
    TimedEngine → UInt32 → History → List Checkpointed → Prop
  | opened (opts : EngineOptions) (now : UInt32) :
      TimedRun ok (TimedEngine.open opts) now History.empty []
  | step {t t' : TimedEngine} {now now' : UInt32} {h : History} {cs : List Checkpointed} {op : Op} :
      TimedRun ok t now h cs → now ≤ now' → Client t.shard h op → ok t.shard h op →
      t.step now' op = some t' →
      TimedRun ok t' now' (h.after t.shard op) (cs ++ noted t t' (h.after t.shard op))

/-- The state, the history and the checkpoints after some calls, each at its time. -/
def runTimed (t : TimedEngine) (now : UInt32) (h : History) (cs : List Checkpointed) :
    List (UInt32 × Op) → Option (TimedEngine × UInt32 × History × List Checkpointed)
  | [] => some (t, now, h, cs)
  | (now', op) :: ops =>
    if now ≤ now' ∧ Client t.shard h op ∧ op.stays then
      match t.step now' op with
      | none => none
      | some t' =>
        runTimed t' now' (h.after t.shard op) (cs ++ noted t t' (h.after t.shard op)) ops
    else none

theorem TimedRun.ops {t t' : TimedEngine} {now now' : UInt32} {h h' : History}
    {cs cs' : List Checkpointed} (hr : TimedRun (fun _ _ op => op.stays = true) t now h cs)
    {ops : List (UInt32 × Op)} (hs : runTimed t now h cs ops = some (t', now', h', cs')) :
    TimedRun (fun _ _ op => op.stays = true) t' now' h' cs' := by
  induction ops generalizing t now h cs with
  | nil =>
    cases hs
    exact hr
  | cons x ops ih =>
    obtain ⟨now1, op⟩ := x
    rw [runTimed] at hs
    split at hs
    · rename_i hc
      split at hs
      · cases hs
      · rename_i t1 hstep
        exact ih (hr.step hc.1 hc.2.1 hc.2.2 hstep) hs
    · cases hs

/-- The latest checkpoint up to a timestamp. -/
def latest (cs : List Checkpointed) (ts : UInt32) : Option Checkpointed :=
  (cs.filter fun c => c.timestamp ≤ ts).getLast?

/-- What a read at a timestamp should find: the values committed at a checkpoint, and nothing
without one. -/
def ReadsAsOf (t : TimedEngine) (ts : UInt32) : Option Checkpointed → Prop
  | none =>
    (∀ key, key ≠ [] → ∃ m, t.getAsOf key ts = .error (Status.notFound m)) ∧
      ∀ plan, ∃ m, t.scanAsOf plan ts = .error (Status.notFound m)
  | some c =>
    (∀ key, key ≠ [] → t.getAsOf key ts =
      match c.committed.find? key with
      | none => .error (Status.notFound "key not found at timestamp")
      | some (value, _) => .ok value) ∧
    ∀ plan, t.scanAsOf plan ts =
      .ok ((c.committed.entries.filter fun e => planMatches plan e.1).map fun e => (e.1, e.2.1))

end EBTree.Engine
