import EBTree.Sharded.Scan

/-!
# Runs of a sharded engine

`Op`: the calls an engine takes. `calls`: the call each shard gets of one. `Run ok e h`: the engine
`e` is reached from an empty database by calls that come to shard calls satisfying `ok`; `h` is what
was written on the way, to whichever shard.
-/

set_option autoImplicit false

namespace EBTree.Sharded

open Lib EBTree.Engine

inductive Op
  | put (key : Key) (value : Value) (txnId : UInt32)
  | delete (key : Key) (txnId : UInt32)
  | get (key : Key)
  | getAtSnapshot (key : Key) (token : SnapshotToken) (readerTxnId : UInt32)
  | resolveLsnAtSnapshot (key : Key) (token : SnapshotToken)
  | resolveCurrentCommittedLsn (key : Key)
  | scan (plan : BTree.TypedPlan)
  | scanAtSnapshot (plan : BTree.TypedPlan) (token : SnapshotToken) (readerTxnId : UInt32)
  | pinSnapshot (token : SnapshotToken)
  | releaseSnapshot
  | appendTxnBegin (txnId : UInt32) (token : SnapshotToken)
  | appendTxnCommit (txnId : UInt32)
  | appendTxnAbort (txnId : UInt32)
  | flush (ords : Nat → IterOrder)
  | checkpoint (ords : Nat → IterOrder) (hooks : Nat → ShardEngine.CheckpointPhase → Bool)
  | groupCommit
  | recoverFull
  | registerRangeTicket (ticket : ActiveRangeTicket)
  | unregisterRangeTickets (txnId : UInt32)

namespace Engine

/-- The state after a call, `none` when it does not return. -/
def step (e : Engine) : Op → Option Engine
  | .put key value txnId => (e.put key value txnId).map (·.1)
  | .delete key txnId => (e.delete key txnId).map (·.1)
  | .get key => (e.get key).map (·.1)
  | .getAtSnapshot key token readerTxnId => (e.getAtSnapshot key token readerTxnId).map (·.1)
  | .resolveLsnAtSnapshot key token => (e.resolveLsnAtSnapshot key token).map (·.1)
  | .resolveCurrentCommittedLsn key => (e.resolveCurrentCommittedLsn key).map (·.1)
  | .scan plan => (e.scan plan).map (·.1)
  | .scanAtSnapshot plan token readerTxnId => (e.scanAtSnapshot plan token readerTxnId).map (·.1)
  | .pinSnapshot token => some (e.pinSnapshot token)
  | .releaseSnapshot => some e.releaseSnapshot
  | .appendTxnBegin txnId token => some (e.appendTxnBegin txnId token)
  | .appendTxnCommit txnId => some (e.appendTxnCommit txnId)
  | .appendTxnAbort txnId => some (e.appendTxnAbort txnId)
  | .flush ords => (e.flush ords).map (·.1)
  | .checkpoint ords hooks => (e.checkpoint ords hooks).map (·.1)
  | .groupCommit => some e.groupCommit
  | .recoverFull => some e.recoverFull
  | .registerRangeTicket ticket => some (e.registerRangeTicket ticket)
  | .unregisterRangeTickets txnId => some (e.unregisterRangeTickets txnId)

/-- The shard of a key. -/
def shardOf (e : Engine) (key : Key) : Nat := routeShard key e.shards.length

/-- The call the shard `i`, open as `s`, gets of a call, if any. -/
def calls (e : Engine) (i : Nat) (s : ShardEngine) : Op → Option Engine.Op
  | .put key value txnId =>
    if i = e.shardOf key then some (.write ⟨key, value, false, txnId⟩) else none
  | .delete key txnId => if i = e.shardOf key then some (.write ⟨key, [], true, txnId⟩) else none
  | .get key => if i = e.shardOf key then some (.get key) else none
  | .getAtSnapshot key token readerTxnId =>
    if i = e.shardOf key then some (.getAtSnapshot key ⟨readerTxnId, token.forShard i⟩) else none
  | .resolveLsnAtSnapshot key token =>
    if i = e.shardOf key then some (.resolveLsnAtSnapshot key (token.forShard i)) else none
  | .resolveCurrentCommittedLsn key =>
    if i = e.shardOf key then some (.resolveCurrentCommittedLsn key) else none
  | .scan plan => some (.scan (if e.shards.length = 1 then plan else shardPlan plan s))
  | .scanAtSnapshot plan token readerTxnId =>
    some (.scanAtSnapshot plan ⟨readerTxnId, token.forShard i⟩)
  | .pinSnapshot token => some (.pinSnapshot (token.forShard i))
  | .releaseSnapshot => some .releaseSnapshot
  | .appendTxnBegin txnId token => some (.appendTxnBegin txnId (token.forShard i))
  | .appendTxnCommit txnId => some (.appendTxnCommit txnId)
  | .appendTxnAbort txnId => some (.appendTxnAbort txnId)
  | .flush ords => some (.flush (ords i))
  | .checkpoint ords hooks => some (.checkpoint (ords i) (hooks i))
  | .groupCommit => some .groupCommit
  | .recoverFull => some .recoverFull
  | .registerRangeTicket _ => none
  | .unregisterRangeTickets _ => none

/-- What a write adds to the history, in whichever shard it is made. -/
def wrote (e : Engine) (r : ShardEngine.WriteRequest) : List Write :=
  ((e.shards[e.shardOf r.key]?).map fun sh => (sh.ensure e.opts).wrote r).getD []

end Engine

/-- What a call adds to the history. -/
def historyAfter (h : History) (e : Engine) : Op → History
  | .put key value txnId => { h with writes := h.writes ++ e.wrote ⟨key, value, false, txnId⟩ }
  | .delete key txnId => { h with writes := h.writes ++ e.wrote ⟨key, [], true, txnId⟩ }
  | .appendTxnCommit txnId => { h with commits := h.commits ++ [txnId] }
  | _ => h

/-- The 64-bit LSN counter of no shard reaches the magic of the log. -/
def Counted (e : Engine) : Prop :=
  ∀ sh ∈ e.shards, (sh.ensure e.opts).wal.maxLsn + 1 < Wal.kWalMagicV2

inductive Run (ok : Engine.Op → Prop) : Engine → History → Prop
  | opened {opts : EngineOptions} {eager : Bool} {n : Nat} {e : Engine} :
      Engine.open opts eager (List.replicate n ShardFiles.none) = .ok e → Run ok e History.empty
  | step {e e' : Engine} {h : History} {op : Op} :
      Run ok e h → Counted e →
      (∀ i sh o, e.shards[i]? = some sh → e.calls i (sh.ensure e.opts) op = some o → ok o) →
      e.step op = some e' → Run ok e' (historyAfter h e op)

end EBTree.Sharded
