import EBTree.Sql.TransactionState

/-!
# Sessions of a process

`Database σ`: one process with its engine, the sessions `σ` on it and the counter the ids of
transactions are taken from. `Step`: the calls of the executor for a session, other calls on the
engine, and the end of the process, after which another one opens what is left of the files.
`Run`: the states a process goes through, with what an observer notes on the way.
-/

set_option autoImplicit false

namespace EBTree.Sql

open Lib Wal Sharded

structure Database (σ : Type) where
  engine : Engine
  sessions : σ → TransactionState
  /-- `g_next_txn_id`. -/
  nextTxnId : UInt32

inductive Step (σ : Type)
  | begin (t : σ)
  | commit (t : σ) (tier : Engine.DurabilityClass)
  | rollback (t : σ)
  | savepoint (t : σ) (name : String)
  | releaseSavepoint (t : σ) (name : String)
  | rollbackToSavepoint (t : σ) (name : String)
  | readKey (t : σ) (key : Engine.Key)
  | recordWriteIntent (t : σ) (key : Engine.Key)
  | recordReadSample (t : σ) (key : Engine.Key)
  | recordBeforePut (t : σ) (key : Engine.Key)
  | registerRangeScan (t : σ) (keyLo keyHi : Engine.Key)
  | put (t : σ) (key : Engine.Key) (value : Engine.Value)
  | delete (t : σ) (key : Engine.Key)
  /-- A call on one shard that is not made for a transaction. -/
  | call (id : Nat) (op : Engine.Op)
  /-- The process goes away, and another one opens these files. -/
  | restart (opts : Engine.EngineOptions) (eagerShardOpen : Bool) (left : List Engine.ShardFiles)

/-- The calls on a shard that are not made for a transaction. -/
def plain : Engine.Op → Bool
  | .write r => r.txnId = 0
  | .appendTxnBegin _ _ | .appendTxnCommit _ | .appendTxnAbort _ | .promoteTxn _ | .clearTxn _
  | .pinSnapshot _ | .releaseSnapshot | .reopen _ => false
  | _ => true

variable {σ : Type} [DecidableEq σ]

namespace Database

/-- A process that has just started on an engine. -/
def start (engine : Engine) : Database σ := ⟨engine, fun _ => .idle, 1⟩

/-- The state after a call of the session `t`. -/
def after (d : Database σ) (t : σ) (x : TransactionState × Engine) : Database σ :=
  { d with engine := x.2, sessions := Function.update d.sessions t x.1 }

/-- The state after a step, `none` when the call does not return. -/
def step (d : Database σ) : Step σ → Option (Database σ)
  | .begin t =>
    let x := (d.sessions t).begin d.engine d.nextTxnId
    some
      { d.after t (x.1, x.2.1) with
        nextTxnId := if (d.sessions t).active then d.nextTxnId else d.nextTxnId + 1 }
  | .commit t tier =>
    ((d.sessions t).commit d.engine tier).map fun x => d.after t (x.1, x.2.1)
  | .rollback t => ((d.sessions t).rollback d.engine).map fun x => d.after t (x.1, x.2.1)
  | .savepoint t name => some (d.after t (((d.sessions t).savepoint name).1, d.engine))
  | .releaseSavepoint t name => some (d.after t (((d.sessions t).releaseSavepoint name).1, d.engine))
  | .rollbackToSavepoint t name =>
    ((d.sessions t).rollbackToSavepoint d.engine name).map fun x => d.after t (x.1, x.2.1)
  | .readKey t key => ((d.sessions t).readKey d.engine key).map fun x => d.after t (x.1, x.2.1)
  | .recordWriteIntent t key => ((d.sessions t).recordWriteIntent d.engine key).map (d.after t)
  | .recordReadSample t key => ((d.sessions t).recordReadSample d.engine key).map (d.after t)
  | .recordBeforePut t key => ((d.sessions t).recordBeforePut d.engine key).map (d.after t)
  | .registerRangeScan t keyLo keyHi =>
    some (d.after t ((d.sessions t).registerRangeScan d.engine keyLo keyHi))
  | .put t key value =>
    (d.engine.put key value (d.sessions t).txnId).map fun x => { d with engine := x.1 }
  | .delete t key => (d.engine.delete key (d.sessions t).txnId).map fun x => { d with engine := x.1 }
  | .call id op =>
    (d.engine.onShard id fun s => (s.step op).map fun s => (s, .ok ())).map fun x =>
      { d with engine := x.1 }
  | .restart opts eagerShardOpen left =>
    match Engine.open opts eagerShardOpen left with
    | .ok engine => some (start engine)
    | .error _ => none

end Database

/-- What a step keeps to: calls outside sessions are not made for transactions, and what is left of
the logs when a process goes away is a first part of them. -/
def Possible (d : Database σ) : Step σ → Prop
  | .call _ op => plain op = true
  | .restart _ _ left =>
    List.Forall₂ (fun (sh : Shard) (f : Engine.ShardFiles) => f.wal <+: sh.files.wal)
      d.engine.shards left
  | _ => True

/-- The states that steps satisfying `ok` reach from empty files, where an observer that starts
with `h₀` notes `next`. -/
inductive Run {H : Type} (h₀ : H) (next : H → Database σ → Step σ → Database σ → H)
    (ok : Database σ → H → Step σ → Prop) : Database σ → H → Prop
  | start {opts : Engine.EngineOptions} {eagerShardOpen : Bool} {count : Nat} {engine : Engine} :
      Engine.open opts eagerShardOpen (List.replicate count .none) = .ok engine →
      Run h₀ next ok (.start engine) h₀
  | step {d d' : Database σ} {h : H} {st : Step σ} :
      Run h₀ next ok d h → Possible d st → ok d h st → d.step st = some d' →
      Run h₀ next ok d' (next h d st d')

/-! ## Runs of given steps -/

instance (d : Database σ) : (st : Step σ) → Decidable (Possible d st)
  | .call _ op => inferInstanceAs (Decidable (plain op = true))
  | .restart _ _ left =>
    inferInstanceAs (Decidable (List.Forall₂ (fun (sh : Shard) (f : Engine.ShardFiles) =>
      f.wal <+: sh.files.wal) d.engine.shards left))
  | .begin _ | .commit _ _ | .rollback _ | .savepoint _ _ | .releaseSavepoint _ _
  | .rollbackToSavepoint _ _ | .readKey _ _ | .recordWriteIntent _ _ | .recordReadSample _ _
  | .recordBeforePut _ _ | .registerRangeScan _ _ _ | .put _ _ _ | .delete _ _ => .isTrue trivial

/-- The state after some steps, and what was noted, where all of them are possible. -/
def runSteps {H : Type} (next : H → Database σ → Step σ → Database σ → H) (d : Database σ) (h : H) :
    List (Step σ) → Option (Database σ × H)
  | [] => some (d, h)
  | st :: sts =>
    if Possible d st then
      match d.step st with
      | none => none
      | some d' => runSteps next d' (next h d st d') sts
    else none

theorem Run.steps {H : Type} {h₀ : H} {next : H → Database σ → Step σ → Database σ → H}
    {ok : Database σ → H → Step σ → Prop} (hok : ∀ d h st, ok d h st) {d d' : Database σ} {h h' : H}
    (hr : Run h₀ next ok d h) {sts : List (Step σ)}
    (hs : runSteps next d h sts = some (d', h')) : Run h₀ next ok d' h' := by
  induction sts generalizing d h with
  | nil =>
    cases hs
    exact hr
  | cons st sts ih =>
    rw [runSteps] at hs
    split at hs
    · rename_i hposs
      split at hs
      · cases hs
      · rename_i d1 hstep
        exact ih (hr.step hposs (hok d h st) hstep) hs
    · cases hs

end EBTree.Sql
