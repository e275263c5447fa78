import EBTree.Engine.Read
import EBTree.Engine.Recover

/-!
# Runs of a shard engine

`Op`: the calls a shard engine takes, with what the platform decides (the order a hash table is
walked in, where a checkpoint is interrupted). `Run ok s h`: the state `s` is reached from an empty
database by calls that satisfy `ok` where they are made; `h` is what was written on the way, which
the engine itself forgets.
-/

set_option autoImplicit false

namespace EBTree.Engine

open Lib Wal BTree ShardEngine

/-- One call. -/
inductive Op
  | write (r : WriteRequest)
  | appendTxnBegin (txnId : UInt32) (snapshotLsn : Nat)
  | appendTxnCommit (txnId : UInt32)
  | appendTxnAbort (txnId : UInt32)
  | promoteTxn (txnId : UInt32)
  | clearTxn (txnId : UInt32)
  | pinSnapshot (lsn : Nat)
  | releaseSnapshot
  | flush (ord : IterOrder)
  | tryFlushBackground (ord : IterOrder)
  | checkpoint (ord : IterOrder) (hook : CheckpointPhase → Bool)
  | groupCommit
  | recoverFull
  | get (key : Key)
  | getAtSnapshot (key : Key) (ctx : SnapshotReadContext)
  | scan (plan : TypedPlan)
  | scanAtSnapshot (plan : TypedPlan) (ctx : SnapshotReadContext)
  | resolveLsnAtSnapshot (key : Key) (snapshotLsn : Nat)
  | resolveCurrentCommittedLsn (key : Key)
  /-- The process goes away and the files are opened again. -/
  | reopen (opts : EngineOptions)

/-- The call does not read the log in again: it neither opens the files nor recovers, nor looks for
other writers of the log. -/
def Op.stays : Op → Bool
  | .recoverFull => false
  | .resolveCurrentCommittedLsn _ => false
  | .reopen _ => false
  | _ => true

namespace ShardEngine

/-- The state after a call, `none` when it does not return. -/
def step (s : ShardEngine) : Op → Option ShardEngine
  | .write r => some (s.write r).1
  | .appendTxnBegin txnId snapshotLsn => some (s.appendTxnBegin txnId snapshotLsn)
  | .appendTxnCommit txnId => some (s.appendTxnCommit txnId)
  | .appendTxnAbort txnId => some (s.appendTxnAbort txnId)
  | .promoteTxn txnId => some (s.promoteTxn txnId)
  | .clearTxn txnId => some (s.clearTxn txnId)
  | .pinSnapshot lsn => some (s.pinSnapshot lsn)
  | .releaseSnapshot => some s.releaseSnapshot
  | .flush ord => (s.flush ord).map (·.1)
  | .tryFlushBackground ord => (s.tryFlushBackground ord).map (·.1)
  | .checkpoint ord hook => (s.checkpoint ord hook).map (·.1)
  | .groupCommit => some s.groupCommitNow
  | .recoverFull => some s.recoverFull
  | .get key => (s.get key).map (·.1)
  | .getAtSnapshot key ctx => (s.getAtSnapshot key ctx).map (·.1)
  | .scan plan => (s.scan plan).map (·.1)
  | .scanAtSnapshot plan ctx => (s.scanAtSnapshot plan ctx).map (·.1)
  | .resolveLsnAtSnapshot key snapshotLsn => (s.resolveLsnAtSnapshot key snapshotLsn).map (·.1)
  | .resolveCurrentCommittedLsn key => (s.resolveCurrentCommittedLsn key).map (·.1)
  | .reopen opts => some (ShardEngine.open opts s.files)

end ShardEngine

/-! ## What was written -/

/-- A record that was acknowledged, and the transaction that wrote it, `0` for autocommit. -/
structure Write where
  txnId : UInt32
  record : DataRecord
  deriving DecidableEq, Repr

structure History where
  writes : List Write
  commits : List UInt32

namespace History

def empty : History := ⟨[], []⟩

/-- The record was written outside every transaction, or by one whose commit record was written. -/
def Committed (h : History) (r : DataRecord) : Prop :=
  ∃ w ∈ h.writes, w.record = r ∧ (w.txnId = 0 ∨ w.txnId ∈ h.commits)

end History

/-- The version a write makes at an LSN. -/
def ShardEngine.WriteRequest.record (r : WriteRequest) (lsn : Nat) : DataRecord :=
  ⟨lsn, r.key, if r.isDelete then [] else r.value, r.isDelete⟩

/-- What a write adds to the history: nothing when it fails. -/
def ShardEngine.wrote (s : ShardEngine) (r : WriteRequest) : List Write :=
  if r.key = [] then []
  else
    match (s.wal.append (r.item s.opts.logsTxn)).2 with
    | .error _ => []
    | .ok lsn => [⟨r.txnId, r.record lsn⟩]

def History.after (h : History) (s : ShardEngine) : Op → History
  | .write r => { h with writes := h.writes ++ s.wrote r }
  | .appendTxnCommit txnId => { h with commits := h.commits ++ [txnId] }
  | _ => h

/-- What every client keeps to: `PromoteTxn` is called after the commit record is written, and the
64-bit LSN counter does not reach the magic of the log. -/
structure Client (s : ShardEngine) (h : History) (op : Op) : Prop where
  counter : s.wal.maxLsn + 1 < kWalMagicV2
  promote : ∀ txnId, op = .promoteTxn txnId → txnId ∈ h.commits

/-- The states that calls satisfying `ok` reach from an empty database. -/
inductive Run (ok : ShardEngine → History → Op → Prop) : ShardEngine → History → Prop
  | opened (opts : EngineOptions) : Run ok (ShardEngine.open opts ShardFiles.none) History.empty
  | step {s s' : ShardEngine} {h : History} {op : Op} :
      Run ok s h → Client s h op → ok s h op → s.step op = some s' → Run ok s' (h.after s op)

/-! ## Runs of given calls -/

def Op.promotes : Op → Option UInt32
  | .promoteTxn txnId => some txnId
  | _ => none

theorem Op.promotes_eq_some_iff {op : Op} {txnId : UInt32} :
    op.promotes = some txnId ↔ op = .promoteTxn txnId := by
  cases op <;> simp [Op.promotes]

instance (s : ShardEngine) (h : History) (op : Op) : Decidable (Client s h op) :=
  decidable_of_iff
    (s.wal.maxLsn + 1 < kWalMagicV2 ∧ op.promotes.all fun txnId => txnId ∈ h.commits)
    ⟨fun ⟨hc, hp⟩ => ⟨hc, fun txnId he => by
        rw [Op.promotes_eq_some_iff.2 he] at hp
        simpa using hp⟩,
      fun hc => ⟨hc.counter, by
        cases hp : op.promotes with
        | none => rfl
        | some txnId => simpa using hc.promote txnId (Op.promotes_eq_some_iff.1 hp)⟩⟩

/-- The state and the history after some calls, none of which may break what clients keep to. -/
def runOps (s : ShardEngine) (h : History) : List Op → Option (ShardEngine × History)
  | [] => some (s, h)
  | op :: ops =>
    if Client s h op then
      match s.step op with
      | none => none
      | some s' => runOps s' (h.after s op) ops
    else none

theorem Run.calls {ok : ShardEngine → History → Op → Prop} {ops : List Op}
    (hok : ∀ op ∈ ops, ∀ s h, ok s h op) {s s' : ShardEngine} {h h' : History} (hr : Run ok s h)
    (hs : runOps s h ops = some (s', h')) : Run ok s' h' := by
  induction ops generalizing s h with
  | nil =>
    cases hs
    exact hr
  | cons op ops ih =>
    rw [runOps] at hs
    split at hs
    · rename_i hc
      split at hs
      · cases hs
      · rename_i s1 hstep
        exact ih (fun op hop => hok op (List.mem_cons_of_mem _ hop))
          (hr.step hc (hok op List.mem_cons_self s h) hstep) hs
    · cases hs

theorem Run.ops {ok : ShardEngine → History → Op → Prop} (hok : ∀ s h op, ok s h op)
    {s s' : ShardEngine} {h h' : History} (hr : Run ok s h) {ops : List Op}
    (hs : runOps s h ops = some (s', h')) : Run ok s' h' :=
  hr.calls (fun op _ s h => hok s h op) hs

/-- Every write synced on its own, committed values loaded when the shard is opened. -/
def EngineOptions.sync : EngineOptions where
  durability := .kSync
  syncOnCommit := true
  groupCommitBatchSize := 0
  recoveryStrategy := .kFastOpen
  preferHistogramSummary := false
  lazyCommittedLoad := false
  stdHash _ := 0

end EBTree.Engine
