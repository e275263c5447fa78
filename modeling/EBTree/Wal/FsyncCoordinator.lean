import EBTree.Common

/-!
# The fsync coordinator of the log

`WalFsyncCoordinator` (`wal_fsync_coordinator.cc`): threads that wait for an LSN to be synced share
the `Fsync` one of them runs. What a thread does between two places where it lets go of the mutex is
one step; what it reads there beside the coordinator's own fields are its `Readings`.
-/

set_option autoImplicit false

namespace EBTree.Wal

structure WalFsyncConfig where
  maxBatchSize : Nat
  maxWaitUs : Nat
  walBatchBytes : Nat
  deriving DecidableEq, Repr

structure WalFsyncCoordinator where
  config : WalFsyncConfig
  flushedLsn : Nat
  maxPendingLsn : Nat
  pendingCount : Nat
  fsyncRunning : Bool
  batchDeadlineActive : Bool
  deriving DecidableEq, Repr

/-- What the clock and the log say to a thread. -/
structure Readings where
  /-- The spin of `Await` is over. -/
  coalesced : Bool
  /-- The deadline of the batch is over. -/
  timedOut : Bool
  /-- What `UnflushedBytes` returns, one call after the other. -/
  unflushed : Nat → Nat

namespace WalFsyncCoordinator

def new (config : WalFsyncConfig) : WalFsyncCoordinator where
  config :=
    { config with
      maxBatchSize := if config.maxBatchSize = 0 then 1 else config.maxBatchSize
      walBatchBytes := if config.walBatchBytes = 0 then 4096 else config.walBatchBytes }
  flushedLsn := 0
  maxPendingLsn := 0
  pendingCount := 0
  fsyncRunning := false
  batchDeadlineActive := false

def microBatch (c : WalFsyncCoordinator) : Bool := 1 < c.config.maxBatchSize && 0 < c.config.maxWaitUs

/-- `ShouldFlushLocked`. -/
def shouldFlush (c : WalFsyncCoordinator) (r : Readings) : Bool :=
  0 < c.pendingCount &&
    (c.config.maxBatchSize ≤ c.pendingCount || c.config.maxBatchSize ≤ 1 ||
      (0 < c.config.walBatchBytes && c.config.walBatchBytes ≤ r.unflushed 0) ||
      (c.batchDeadlineActive && r.timedOut))

/-- `RunFsyncLocked` up to its `Fsync`. -/
def beginFsync (c : WalFsyncCoordinator) : WalFsyncCoordinator :=
  { c with fsyncRunning := true, pendingCount := 0, batchDeadlineActive := false }

/-- `RunFsyncLocked` from the end of its `Fsync` on. -/
def endFsync (c : WalFsyncCoordinator) (target waiters : Nat) :
    Except Status Unit → WalFsyncCoordinator
  | .ok () => { c with fsyncRunning := false, flushedLsn := max c.flushedLsn target }
  | .error _ => { c with fsyncRunning := false, pendingCount := c.pendingCount + waiters }

/-- `Await` enters its LSN. -/
def enter (c : WalFsyncCoordinator) (lsn : Nat) : WalFsyncCoordinator :=
  { c with maxPendingLsn := max c.maxPendingLsn lsn, pendingCount := c.pendingCount + 1 }

end WalFsyncCoordinator

/-- Who runs an `Fsync`: `Await`, in front of its loop or in it, `FlushPending`, or the flusher. -/
inductive FsyncCaller
  | awaitFirst (lsn : Nat)
  | awaitLoop (lsn : Nat)
  | flushPending
  | flusher

/-- Where a thread is. -/
inductive FsyncPc
  | idle
  /-- In the spin of `Await`. -/
  | coalescing (lsn : Nat)
  /-- In the loop of `Await`. -/
  | waiting (lsn : Nat)
  /-- In the loop of `FlushPending`. -/
  | flushing
  /-- In the `Fsync` of `RunFsyncLocked`, which started with these records in the log. -/
  | fsync (target waiters : Nat) (records : List Nat) (caller : FsyncCaller)

/-- The coordinator, the log and the threads. -/
structure FsyncSystem (τ : Type) where
  coord : WalFsyncCoordinator
  /-- The LSNs of the records appended. -/
  log : List Nat
  /-- Those that were in the log when an `Fsync` started that succeeded. -/
  synced : List Nat
  pc : τ → FsyncPc
  /-- What `Await` returned, for which LSN. -/
  returns : List (Nat × Except Status Unit)

inductive FsyncStep (τ : Type)
  /-- A record is appended to the log. -/
  | append (lsn : Nat)
  /-- A thread calls `Await`. -/
  | await (t : τ) (lsn : Nat) (r : Readings)
  /-- A thread calls `FlushPending`. -/
  | flushPending (t : τ)
  /-- A round of the flusher. -/
  | flusher (t : τ) (r : Readings)
  /-- A thread that let go of the mutex goes on. -/
  | resume (t : τ) (r : Readings)
  /-- The `Fsync` of a thread ends. -/
  | endFsync (t : τ) (st : Except Status Unit)

namespace FsyncSystem

variable {τ : Type} [DecidableEq τ]

def new (config : WalFsyncConfig) : FsyncSystem τ :=
  ⟨.new config, [], [], fun _ => .idle, []⟩

def goto (s : FsyncSystem τ) (t : τ) (pc : FsyncPc) : FsyncSystem τ :=
  { s with pc := Function.update s.pc t pc }

/-- `Await` returns. -/
def ret (s : FsyncSystem τ) (t : τ) (lsn : Nat) (st : Except Status Unit) : FsyncSystem τ :=
  { s with pc := Function.update s.pc t .idle, returns := s.returns ++ [(lsn, st)] }

/-- A thread starts an `Fsync`. -/
def beginFsync (s : FsyncSystem τ) (t : τ) (caller : FsyncCaller) : FsyncSystem τ :=
  { s with
    coord := s.coord.beginFsync
    pc := Function.update s.pc t
      (.fsync s.coord.maxPendingLsn s.coord.pendingCount s.log caller) }

/-- `Await` between its spin and its loop. -/
def awaitFirst (s : FsyncSystem τ) (t : τ) (lsn : Nat) (r : Readings) : FsyncSystem τ :=
  if s.coord.shouldFlush r && !s.coord.fsyncRunning then s.beginFsync t (.awaitFirst lsn)
  else s.goto t (.waiting lsn)

/-- `Await` from its deadline on. -/
def activate (s : FsyncSystem τ) : FsyncSystem τ :=
  { s with coord := { s.coord with batchDeadlineActive := true } }

/-- The spin of `Await`, at the head of its loop. -/
def spin (s : FsyncSystem τ) (t : τ) (lsn : Nat) (r : Readings) : FsyncSystem τ :=
  if r.coalesced || 2 ≤ s.coord.pendingCount || s.coord.config.walBatchBytes ≤ r.unflushed 1 then
    s.activate.awaitFirst t lsn r
  else s.goto t (.coalescing lsn)

/-- `Await`. -/
def await (s : FsyncSystem τ) (t : τ) (lsn : Nat) (r : Readings) : FsyncSystem τ :=
  if lsn ≤ s.coord.flushedLsn then s.ret t lsn (.ok ())
  else
    let s := { s with coord := s.coord.enter lsn }
    if s.coord.pendingCount = 1 ∧ s.coord.microBatch then s.spin t lsn r
    else if !s.coord.batchDeadlineActive && s.coord.microBatch then s.activate.awaitFirst t lsn r
    else s.awaitFirst t lsn r

/-- A round of the loop of `Await`. -/
def awaitLoop (s : FsyncSystem τ) (t : τ) (lsn : Nat) (r : Readings) : FsyncSystem τ :=
  if lsn ≤ s.coord.flushedLsn then s.ret t lsn (.ok ())
  else if !s.coord.fsyncRunning && s.coord.shouldFlush r then s.beginFsync t (.awaitLoop lsn)
  else s.goto t (.waiting lsn)

/-- A round of the loop of `FlushPending`. -/
def flushLoop (s : FsyncSystem τ) (t : τ) (r : Readings) : FsyncSystem τ :=
  let c := s.coord
  if ¬ (0 < c.pendingCount ∨ 0 < r.unflushed 0 ∨ c.flushedLsn < c.maxPendingLsn) then s.goto t .idle
  else if c.fsyncRunning then s.goto t .flushing
  else if c.pendingCount = 0 ∧ r.unflushed 1 = 0 then s.goto t .idle
  -- `RunFsyncLocked` looks again
  else if c.pendingCount = 0 ∧ r.unflushed 2 = 0 then s.goto t .flushing
  else s.beginFsync t .flushPending

/-- What follows an `Fsync`. -/
def afterFsync (s : FsyncSystem τ) (t : τ) (st : Except Status Unit) : FsyncCaller → FsyncSystem τ
  | .awaitFirst lsn =>
    match st with
    | .error e => s.ret t lsn (.error e)
    | .ok () => if lsn ≤ s.coord.flushedLsn then s.ret t lsn (.ok ()) else s.goto t (.waiting lsn)
  | .awaitLoop lsn =>
    match st with
    | .error e => s.ret t lsn (.error e)
    | .ok () => s.goto t (.waiting lsn)
  | .flushPending => s.goto t (if st.isOk then .flushing else .idle)
  | .flusher => s.goto t .idle

/-- The state after a step; `none` where there is none to take. An LSN is awaited once its record is
in the log, and a record gets an LSN above those in the log. -/
def step (s : FsyncSystem τ) : FsyncStep τ → Option (FsyncSystem τ)
  | .append lsn =>
    if 0 < lsn ∧ ∀ n ∈ s.log, n < lsn then some { s with log := s.log ++ [lsn] } else none
  | .await t lsn r =>
    match s.pc t with
    | .idle => if lsn ∈ s.log then some (s.await t lsn r) else none
    | _ => none
  | .flushPending t =>
    match s.pc t with
    | .idle => some (s.goto t .flushing)
    | _ => none
  | .flusher t r =>
    match s.pc t with
    | .idle =>
      if s.coord.microBatch && s.coord.shouldFlush r && !s.coord.fsyncRunning then
        some (s.beginFsync t .flusher)
      else none
    | _ => none
  | .resume t r =>
    match s.pc t with
    | .coalescing lsn =>
      some (if lsn ≤ s.coord.flushedLsn then s.ret t lsn (.ok ()) else s.spin t lsn r)
    | .waiting lsn => some (s.awaitLoop t lsn r)
    | .flushing => some (s.flushLoop t r)
    | _ => none
  | .endFsync t st =>
    match s.pc t with
    | .fsync target waiters records caller =>
      let s :=
        { s with
          coord := s.coord.endFsync target waiters st
          synced := if st.isOk then s.synced ++ records else s.synced }
      some (s.afterFsync t st caller)
    | _ => none

/-- The states the threads reach, in any order of steps. -/
inductive Reach (config : WalFsyncConfig) : FsyncSystem τ → Prop
  | new : Reach config (new config)
  | step {s s' : FsyncSystem τ} {st : FsyncStep τ} :
      Reach config s → s.step st = some s' → Reach config s'

end FsyncSystem
end EBTree.Wal
