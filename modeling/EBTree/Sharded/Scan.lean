import EBTree.Lib.SortOutcome
import EBTree.Sharded.Engine

/-!
# Calls over all shards

`Engine::Scan`, `ScanAtSnapshot`, `Flush`, `Checkpoint` and `RecoverFull` (`engine.cc`). A scan asks
the shards one by one, each in a thread of its own, and merges what they answer; a flush or a
checkpoint stops at the first shard that fails.
-/

set_option autoImplicit false

namespace EBTree.Sharded

open Lib EBTree.Engine

/-! ## One shard after the other -/

/-- `ShardHasOnDiskState`. -/
def hasOnDiskState (f : ShardFiles) : Bool :=
  f.superblock ≠ SuperBlock.none || f.wal ≠ [] || f.data ≠ []

/-- The loop of `Flush` and `Checkpoint`; a shard that is not open is passed over. -/
def eachOpened (f : Nat → ShardEngine → Option (ShardEngine × Except Status Unit)) :
    Nat → List Shard → Option (List Shard × Except Status Unit)
  | _, [] => some ([], .ok ())
  | i, .closed files :: shards =>
    (eachOpened f (i + 1) shards).map fun x => (.closed files :: x.1, x.2)
  | i, .opened s :: shards =>
    match f i s with
    | none => none
    | some (s, .error e) => some (.opened s :: shards, .error e)
    | some (s, .ok ()) => (eachOpened f (i + 1) shards).map fun x => (.opened s :: x.1, x.2)

/-- A scan of one shard, which `EnsureShardForScan` opens where it has files. -/
def scanShard (opts : EngineOptions)
    (f : ShardEngine → Option (ShardEngine × Except Status (List ShardEngine.Row))) :
    Shard → Option (Shard × Except Status (List ShardEngine.Row))
  | .closed files =>
    if hasOnDiskState files then
      (f (ShardEngine.open opts files)).map fun x => (.opened x.1, x.2)
    else some (.closed files, .ok [])
  | .opened s => (f s).map fun x => (.opened x.1, x.2)

/-- The statuses and rows of the shards; the first failure counts. -/
def scanShards (opts : EngineOptions)
    (f : Nat → ShardEngine → Option (ShardEngine × Except Status (List ShardEngine.Row))) :
    Nat → List Shard → Option (List Shard × Except Status (List ShardEngine.Row))
  | _, [] => some ([], .ok [])
  | i, sh :: shards =>
    match scanShard opts (f i) sh, scanShards opts f (i + 1) shards with
    | some (sh, r), some (shards, rs) => some (sh :: shards, do return (← r) ++ (← rs))
    | _, _ => none

def rowLess (a b : ShardEngine.Row) : Bool := decide (a.1 < b.1)

/-- `MergeScanRows`. -/
def mergeScanRows (rows : List ShardEngine.Row) : List ShardEngine.Row :=
  rows.mergeSort fun a b => !rowLess b a

namespace Engine

/-- The plan of a shard in `Scan`: its snapshot is not past what is stable there. -/
def shardPlan (plan : BTree.TypedPlan) (s : ShardEngine) : BTree.TypedPlan :=
  { plan with
    snapshotLsn := if 0 < plan.snapshotLsn then min plan.snapshotLsn s.stableLsn else s.stableLsn }

/-- A scan: one shard alone is asked directly. -/
def scanWith (e : Engine)
    (one : ShardEngine → Option (ShardEngine × Except Status (List ShardEngine.Row)))
    (each : Nat → ShardEngine → Option (ShardEngine × Except Status (List ShardEngine.Row))) :
    Option (Engine × Except Status (List ShardEngine.Row)) :=
  if e.shards.length = 1 then e.onShard 0 one
  else
    (scanShards e.opts each 0 e.shards).map fun x => ({ e with shards := x.1 }, x.2.map mergeScanRows)

def scan (e : Engine) (plan : BTree.TypedPlan) : Option (Engine × Except Status (List ShardEngine.Row)) :=
  e.scanWith (·.scan plan) fun _ s => s.scan (shardPlan plan s)

def scanAtSnapshot (e : Engine) (plan : BTree.TypedPlan) (token : SnapshotToken) (readerTxnId : UInt32) :
    Option (Engine × Except Status (List ShardEngine.Row)) :=
  e.scanWith (·.scanAtSnapshot plan ⟨readerTxnId, token.forShard 0⟩) fun i s =>
    s.scanAtSnapshot plan ⟨readerTxnId, token.forShard i⟩

def flush (e : Engine) (ords : Nat → IterOrder) : Option (Engine × Except Status Unit) :=
  (eachOpened (fun i s => s.flush (ords i)) 0 e.shards).map fun x => ({ e with shards := x.1 }, x.2)

/-- `Checkpoint`, its observer apart. -/
def checkpoint (e : Engine) (ords : Nat → IterOrder) (hooks : Nat → ShardEngine.CheckpointPhase → Bool) :
    Option (Engine × Except Status Unit) :=
  (eachOpened (fun i s => s.checkpoint (ords i) (hooks i)) 0 e.shards).map fun x =>
    ({ e with shards := x.1 }, x.2)

def recoverFull (e : Engine) : Engine := e.onOpened fun _ s => s.recoverFull

end Engine
end EBTree.Sharded
