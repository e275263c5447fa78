import EBTree.Engine.Run

/-!
# The engine over its shards

`Engine` (`engine.cc`, `engine_txn_lsv.cc`), `RouteShard` (`shard_router.cc`) and
`RangeTicketRegistry` (`range_ticket.cc`): a key belongs to one shard, and a shard is opened by the
first call for one of its keys. Every file opens, so a call for a shard always finds it.
-/

set_option autoImplicit false

namespace EBTree.Sharded

open Lib EBTree.Engine

/-! ## Routing -/

def fnv1a32 (key : Key) : UInt32 :=
  key.foldl (fun hash c => (hash ^^^ c.toUInt32) * 16777619) 2166136261

/-- `RouteShard`; the routing table of 256 shards holds the same for each key of one byte. -/
def routeShard (key : Key) (shardCount : Nat) : Nat :=
  if shardCount ≤ 1 then 0 else (fnv1a32 key).toNat % shardCount

def validateShardCount (shardCount : Nat) : Except Status Unit :=
  if shardCount = 1 ∨ shardCount = 4 ∨ shardCount = 16 ∨ shardCount = 256 then .ok ()
  else .error (Status.invalidArgument "shard_count must be 1, 4, 16, or 256")

/-! ## Range tickets -/

/-- A range an open transaction has scanned. -/
structure ActiveRangeTicket where
  txnId : UInt32
  snapshotLsn : Nat
  keyLo : Key
  keyHi : Key
  deriving DecidableEq, Repr

/-- `KeyInRange`: an empty bound is no bound. -/
def keyInRange (key lo hi : Key) : Bool :=
  !(lo ≠ [] && decide (key < lo)) && !(hi ≠ [] && decide (hi < key))

/-- `RangeTicketRegistry::ValidateCommit`: a key that had no version is not written into a range
another transaction has scanned. -/
def validateTickets (tickets : List ActiveRangeTicket) (txnId : UInt32)
    (writeSet : SortedMap Key Nat) : Except Status Unit :=
  if tickets.any fun ticket => ticket.txnId ≠ txnId ∧
      writeSet.entries.any fun w => keyInRange w.1 ticket.keyLo ticket.keyHi ∧ w.2 = 0 then
    .error (Status.conflict "phantom range conflict")
  else .ok ()

/-! ## Snapshots -/

/-- `SnapshotToken`: an LSN for each shard. -/
structure SnapshotToken where
  shardLsns : List Nat
  deriving DecidableEq, Repr

/-- A token made before a shard was counted stands for it with its first LSN. -/
def SnapshotToken.forShard (token : SnapshotToken) (shardId : Nat) : Nat :=
  (token.shardLsns[shardId]?).getD (token.shardLsns.head?.getD 0)

/-! ## State -/

/-- An entry of `shards_`: the engine of a shard, or the files it would be opened from. -/
inductive Shard
  | closed (files : ShardFiles)
  | opened (s : ShardEngine)

namespace Shard

/-- `ShardEngine::Create`, unless the shard is open. -/
def ensure (opts : EngineOptions) : Shard → ShardEngine
  | .closed files => ShardEngine.open opts files
  | .opened s => s

def engine? : Shard → Option ShardEngine
  | .closed _ => none
  | .opened s => some s

/-- A change of an open shard. -/
def onOpened (f : ShardEngine → ShardEngine) : Shard → Shard
  | .closed files => .closed files
  | .opened s => .opened (f s)

def files : Shard → ShardFiles
  | .closed files => files
  | .opened s => s.files

end Shard

/-- The tickets are those of the registry for the path of the engine. -/
structure Engine where
  opts : EngineOptions
  shards : List Shard
  tickets : List ActiveRangeTicket

namespace Engine

/-- `Open` on the files of the shards: one shard alone is opened at once. -/
def «open» (opts : EngineOptions) (eagerShardOpen : Bool) (files : List ShardFiles) :
    Except Status Engine :=
  (validateShardCount files.length).map fun _ =>
    ⟨opts, files.map fun f =>
      if files.length = 1 || eagerShardOpen then .opened (ShardEngine.open opts f) else .closed f, []⟩

/-- The loops over the shards that are open. -/
def onOpened (e : Engine) (f : Nat → ShardEngine → ShardEngine) : Engine :=
  { e with shards := e.shards.mapIdx fun i sh => sh.onOpened (f i) }

/-- A call on one shard, which `EnsureShard` opens. -/
def onShard {α : Type} (e : Engine) (id : Nat)
    (f : ShardEngine → Option (ShardEngine × Except Status α)) : Option (Engine × Except Status α) :=
  match e.shards[id]? with
  | none => some (e, .error (Status.internal "shard missing"))
  | some sh =>
    (f (sh.ensure e.opts)).map fun x => ({ e with shards := e.shards.set id (.opened x.1) }, x.2)

/-- `ShardForKey`. -/
def onKey {α : Type} (e : Engine) (key : Key)
    (f : ShardEngine → Option (ShardEngine × Except Status α)) : Option (Engine × Except Status α) :=
  e.onShard (routeShard key e.shards.length) f

/-! ## Reading and writing -/

def put (e : Engine) (key : Key) (value : Value) (txnId : UInt32) :
    Option (Engine × Except Status Unit) :=
  e.onKey key fun s => some (s.put key value txnId)

def delete (e : Engine) (key : Key) (txnId : UInt32) : Option (Engine × Except Status Unit) :=
  e.onKey key fun s => some (s.delete key txnId)

def get (e : Engine) (key : Key) : Option (Engine × Except Status Version) :=
  e.onKey key fun s => s.get key

def getAtSnapshot (e : Engine) (key : Key) (token : SnapshotToken) (readerTxnId : UInt32) :
    Option (Engine × Except Status Version) :=
  e.onKey key fun s =>
    s.getAtSnapshot key ⟨readerTxnId, token.forShard (routeShard key e.shards.length)⟩

def resolveLsnAtSnapshot (e : Engine) (key : Key) (token : SnapshotToken) :
    Option (Engine × Except Status Nat) :=
  e.onKey key fun s =>
    s.resolveLsnAtSnapshot key (token.forShard (routeShard key e.shards.length))

def resolveCurrentCommittedLsn (e : Engine) (key : Key) : Option (Engine × Except Status Nat) :=
  e.onKey key fun s => s.resolveCurrentCommittedLsn key

/-- `RefreshExternalWalForOCC`. -/
def refreshExternalWalForOCC (e : Engine) : Engine :=
  e.onOpened fun _ s => s.refreshExternalWalIfPending

def groupCommit (e : Engine) : Engine := e.onOpened fun _ s => s.groupCommitNow

/-! ## Transactions -/

/-- `CaptureSnapshot`; a shard that is not open stands with `0`. -/
def captureSnapshot (e : Engine) : SnapshotToken :=
  ⟨e.shards.map fun sh => (sh.engine?.map (·.stableLsn)).getD 0⟩

def pinSnapshot (e : Engine) (token : SnapshotToken) : Engine :=
  e.onOpened fun i s => s.pinSnapshot (token.forShard i)

def releaseSnapshot (e : Engine) : Engine := e.onOpened fun _ s => s.releaseSnapshot

/-- `AppendTxnBegin`, which opens every shard. -/
def appendTxnBegin (e : Engine) (txnId : UInt32) (token : SnapshotToken) : Engine :=
  { e with
    shards := e.shards.mapIdx fun i sh =>
      .opened ((sh.ensure e.opts).appendTxnBegin txnId (token.forShard i)) }

def appendTxnCommit (e : Engine) (txnId : UInt32) : Engine :=
  e.onOpened fun _ s => s.appendTxnCommit txnId

def appendTxnAbort (e : Engine) (txnId : UInt32) : Engine :=
  e.onOpened fun _ s => s.appendTxnAbort txnId

/-- `PromoteTxn` on `memtable()` and the others, which are those of shard 0. -/
def promoteTxn (e : Engine) (txnId : UInt32) : Engine :=
  { e with shards := e.shards.modify 0 (Shard.onOpened fun s => s.promoteTxn txnId) }

/-- `ClearTxn` on `memtable()` and the others, which are those of shard 0. -/
def clearTxn (e : Engine) (txnId : UInt32) : Engine :=
  { e with shards := e.shards.modify 0 (Shard.onOpened fun s => s.clearTxn txnId) }

def registerRangeTicket (e : Engine) (ticket : ActiveRangeTicket) : Engine :=
  { e with tickets := e.tickets ++ [ticket] }

def unregisterRangeTickets (e : Engine) (txnId : UInt32) : Engine :=
  { e with tickets := e.tickets.filter fun ticket => ticket.txnId ≠ txnId }

end Engine
end EBTree.Sharded
