import Mathlib.Logic.Function.Basic

/-!
# The write circuit

`RarMonitor` (`rar_monitor.cc`), the queue of `RarChainWorker` (`rar_chain_worker.cc`) and
`EvaluateSnapshotPolicy` (`policy_gate.cc`): with `write_circuit` set, `Engine::Put` and `Delete` ask
the monitor before they write. Writers, the worker and `Install` run side by side, and
`RefreshRuntimeState`, which all of them call, reads the statistics of the engine first and takes the
lock of the monitor later.
-/

set_option autoImplicit false

namespace EBTree.Audit

/-! ## Policy -/

inductive RarVerdict
  | kPass | kWarn | kRefuseStart
  deriving DecidableEq, Repr

/-- `RarPolicy`, what is asked of a running engine. -/
structure RarPolicy where
  requireUnexpectedPathZero : Bool
  maxDecompressFail : Nat
  deriving DecidableEq, Repr

/-- The counters of `EngineStats` the monitor looks at. -/
structure EngineStats where
  unexpectedPathTotal : Nat
  decompressFailTotal : Nat
  rarChainDropTotal : Nat
  deriving DecidableEq, Repr

/-- `EvaluateSnapshotPolicy`, with the reason. -/
def evaluateSnapshotPolicy (snapshot : EngineStats) (policy : RarPolicy) : RarVerdict × String :=
  if policy.requireUnexpectedPathZero ∧ 0 < snapshot.unexpectedPathTotal then
    (.kRefuseStart, "unexpected_path_total > 0")
  else if policy.maxDecompressFail < snapshot.decompressFailTotal then
    (.kRefuseStart, "decompress_fail exceeds max_decompress_fail")
  else (.kPass, "")

/-! ## The monitor -/

/-- `RarMonitorOptions` with `write_circuit` set. -/
structure RarMonitorOptions where
  runtimePolicy : RarPolicy
  rejectOnChainDrop : Bool
  maxQueueDepth : Nat
  deriving DecidableEq, Repr

structure RarMonitor where
  allowsWrite : Bool
  lastChainVerdict : RarVerdict
  lastChainReason : String
  lastChainSequence : Nat
  lastSeenDropTotal : Nat
  chainDropRejected : Bool
  deriving DecidableEq, Repr

namespace RarMonitor

/-- The fields of a monitor that was never installed. -/
def new : RarMonitor := ⟨true, .kPass, "", 0, 0, false⟩

/-- What `Install` sets. -/
def install (m : RarMonitor) (stats : EngineStats) : RarMonitor :=
  { m with chainDropRejected := false, lastSeenDropTotal := stats.rarChainDropTotal }

def warnChainDrop (opts : RarMonitorOptions) (m : RarMonitor) (newTotal : Nat) : RarMonitor :=
  if newTotal ≤ m.lastSeenDropTotal then m
  else
    { m with
      lastSeenDropTotal := newTotal
      chainDropRejected := m.chainDropRejected || opts.rejectOnChainDrop }

/-- `stats_ok`. -/
def statsOk (policy : RarPolicy) (stats : EngineStats) : Bool :=
  !(policy.requireUnexpectedPathZero && decide (0 < stats.unexpectedPathTotal)) &&
    !decide (policy.maxDecompressFail < stats.decompressFailTotal)

/-- The end of `RefreshRuntimeState`, under the lock. -/
def recompute (policy : RarPolicy) (m : RarMonitor) (stats : EngineStats) : RarMonitor :=
  { m with
    allowsWrite := statsOk policy stats && decide (m.lastChainVerdict = .kPass) &&
      !m.chainDropRejected }

/-- The start of `OnChainSnapshot`, under the lock. -/
def onChainSnapshot (m : RarMonitor) (verdict : RarVerdict) (reason : String) (sequence : Nat) :
    RarMonitor :=
  { m with
    lastChainVerdict := verdict, lastChainReason := reason, lastChainSequence := sequence }

end RarMonitor

/-! ## Threads -/

/-- Who calls `RefreshRuntimeState`. -/
inductive Caller
  | installer
  | worker
  | writer (t : Nat)
  deriving DecidableEq, Repr

/-- Where a caller is. -/
inductive Phase
  | idle
  /-- The worker has taken a job. -/
  | popped (checkpointLsn : Nat)
  /-- It has made the snapshot. -/
  | evaluated (verdict : RarVerdict) (reason : String)
  /-- In `RefreshRuntimeState`. -/
  | entered
  | read (stats : EngineStats)
  | warned (stats : EngineStats)
  /-- A writer, behind it. -/
  | refreshed
  deriving DecidableEq, Repr

/-- An engine, its monitor and those who call it. -/
structure MonitorSystem where
  opts : RarMonitorOptions
  stats : EngineStats
  monitor : RarMonitor
  queue : List Nat
  phase : Caller → Phase
  /-- The writers whose write the engine went on with, oldest first. -/
  admitted : List Nat
  /-- The writers that got `Corrupt`. -/
  refused : List Nat

inductive MonitorStep
  /-- The engine counts. -/
  | count (unexpectedPath decompressFail : Nat)
  /-- The checkpoint observer: `Enqueue`. -/
  | enqueue (checkpointLsn : Nat)
  | pop
  /-- `AttestExportSnapshot` and `EvaluateSnapshotPolicy`. -/
  | evaluate
  /-- The export or the append to the chain fails. -/
  | fail
  /-- `OnChainSnapshot`. -/
  | deliver (sequence : Nat)
  /-- A writer calls the guard. -/
  | guard (t : Nat)
  | readStats (c : Caller)
  | warn (c : Caller)
  | recompute (c : Caller)
  /-- `AllowsWrite`. -/
  | answer (t : Nat)
  deriving DecidableEq, Repr

namespace MonitorSystem

/-- The system when `Install` has set the guard. -/
def installed (opts : RarMonitorOptions) (m : RarMonitor) (stats : EngineStats) : MonitorSystem where
  opts := opts
  stats := stats
  monitor := m.install stats
  queue := []
  phase c := if c = .installer then .entered else .idle
  admitted := []
  refused := []

def goto (s : MonitorSystem) (c : Caller) (p : Phase) : MonitorSystem :=
  { s with phase := Function.update s.phase c p }

/-- Where a caller goes on behind `RefreshRuntimeState`. -/
def Caller.next : Caller → Phase
  | .writer _ => .refreshed
  | _ => .idle

/-- The state after a step; `none` where there is none to take. -/
def step (s : MonitorSystem) : MonitorStep → Option MonitorSystem
  | .count unexpectedPath decompressFail =>
    some { s with stats := { s.stats with
      unexpectedPathTotal := s.stats.unexpectedPathTotal + unexpectedPath
      decompressFailTotal := s.stats.decompressFailTotal + decompressFail } }
  | .enqueue checkpointLsn =>
    if s.opts.maxQueueDepth ≤ s.queue.length then
      some { s with stats := { s.stats with rarChainDropTotal := s.stats.rarChainDropTotal + 1 } }
    else some { s with queue := s.queue ++ [checkpointLsn] }
  | .pop =>
    match s.phase .worker, s.queue with
    | .idle, lsn :: queue => some ({ s with queue := queue }.goto .worker (.popped lsn))
    | _, _ => none
  | .evaluate =>
    match s.phase .worker with
    | .popped _ =>
      let v := evaluateSnapshotPolicy s.stats s.opts.runtimePolicy
      some (s.goto .worker (.evaluated v.1 v.2))
    | _ => none
  | .fail =>
    match s.phase .worker with
    | .popped _ | .evaluated _ _ => some (s.goto .worker .idle)
    | _ => none
  | .deliver sequence =>
    match s.phase .worker with
    | .evaluated verdict reason =>
      some ({ s with monitor := s.monitor.onChainSnapshot verdict reason sequence }.goto .worker
        .entered)
    | _ => none
  | .guard t =>
    match s.phase (.writer t) with
    | .idle => some (s.goto (.writer t) .entered)
    | _ => none
  | .readStats c =>
    match s.phase c with
    | .entered => some (s.goto c (.read s.stats))
    | _ => none
  | .warn c =>
    match s.phase c with
    | .read stats =>
      some ({ s with monitor := s.monitor.warnChainDrop s.opts stats.rarChainDropTotal }.goto c
        (.warned stats))
    | _ => none
  | .recompute c =>
    match s.phase c with
    | .warned stats =>
      some ({ s with monitor := s.monitor.recompute s.opts.runtimePolicy stats }.goto c
        (Caller.next c))
    | _ => none
  | .answer t =>
    match s.phase (.writer t) with
    | .refreshed =>
      if s.monitor.allowsWrite then
        some ({ s with admitted := s.admitted ++ [t] }.goto (.writer t) .idle)
      else some ({ s with refused := s.refused ++ [t] }.goto (.writer t) .idle)
    | _ => none

def runSteps (s : MonitorSystem) : List MonitorStep → Option MonitorSystem
  | [] => some s
  | st :: sts => (s.step st).bind (·.runSteps sts)

/-- The checkpoint LSNs a step offers to the queue. -/
def offers : MonitorStep → List Nat
  | .enqueue checkpointLsn => [checkpointLsn]
  | _ => []

/-- Those it takes out of it. -/
def takes (s : MonitorSystem) : MonitorStep → List Nat
  | .pop => s.queue.head?.toList
  | _ => []

/-- Those that some steps take out of it. -/
def taken (s : MonitorSystem) : List MonitorStep → List Nat
  | [] => []
  | st :: sts => s.takes st ++ ((s.step st).map fun s' => s'.taken sts).getD []

/-- `s'` is reached from `s` by some steps, in any order. -/
inductive Steps : MonitorSystem → MonitorSystem → Prop
  | refl (s : MonitorSystem) : Steps s s
  | step {s s' s'' : MonitorSystem} {st : MonitorStep} :
      Steps s s' → s'.step st = some s'' → Steps s s''

end MonitorSystem
end EBTree.Audit
