import Mathlib

/-!
# The snapshot-fair lock

`SnapshotFairRwLock` (`snapshot_fair_rw_lock.cc`), the lock of a shard. A call works under the gate
and is one step; two of them are not: a `lock` that has to wait goes on in `wake`, and
`try_lock_background_exclusive` reads the counter of the snapshot pins, which changes without the
gate, before it looks at the rest (`loadPins`, `grant`).
-/

set_option autoImplicit false

namespace EBTree.Engine

structure SnapshotFairRwLock where
  readers : UInt32
  appenders : UInt32
  foregroundWriter : Bool
  foregroundWaiting : UInt32
  backgroundWriter : Bool
  /-- The counter `snapshot_pins_` points to. -/
  snapshotPins : UInt32
  deriving DecidableEq, Repr

namespace SnapshotFairRwLock

def new : SnapshotFairRwLock := ⟨0, 0, false, 0, false, 0⟩

/-- What shared locks wait for. -/
def writer (l : SnapshotFairRwLock) : Bool := l.foregroundWriter || l.backgroundWriter

/-- What exclusive locks wait for. -/
def busy (l : SnapshotFairRwLock) : Bool := 0 < l.readers || 0 < l.appenders || l.writer

/-- `lock_shared` where it does not wait, and `try_lock_shared` where it succeeds. -/
def lockShared (l : SnapshotFairRwLock) : Option SnapshotFairRwLock :=
  if l.writer then none else some { l with readers := l.readers + 1 }

def unlockShared (l : SnapshotFairRwLock) : SnapshotFairRwLock :=
  if l.readers = 0 then l else { l with readers := l.readers - 1 }

/-- `lock_append_shared` where it does not wait. -/
def lockAppendShared (l : SnapshotFairRwLock) : Option SnapshotFairRwLock :=
  if l.writer then none else some { l with appenders := l.appenders + 1 }

def unlockAppendShared (l : SnapshotFairRwLock) : SnapshotFairRwLock :=
  if l.appenders = 0 then l else { l with appenders := l.appenders - 1 }

/-- `lock` up to its loop. -/
def lockEnter (l : SnapshotFairRwLock) : SnapshotFairRwLock :=
  { l with foregroundWaiting := l.foregroundWaiting + 1 }

/-- `lock` from where its loop ends. -/
def lockAcquire (l : SnapshotFairRwLock) : Option SnapshotFairRwLock :=
  if l.busy then none
  else some { l with foregroundWaiting := l.foregroundWaiting - 1, foregroundWriter := true }

def tryLock (l : SnapshotFairRwLock) : Option SnapshotFairRwLock :=
  if l.busy then none else some { l with foregroundWriter := true }

def unlock (l : SnapshotFairRwLock) : SnapshotFairRwLock := { l with foregroundWriter := false }

/-- `try_lock_background_exclusive` behind its test of the pins. -/
def tryLockBackgroundExclusive (l : SnapshotFairRwLock) : Option SnapshotFairRwLock :=
  if l.busy || 0 < l.foregroundWaiting then none else some { l with backgroundWriter := true }

def unlockBackgroundExclusive (l : SnapshotFairRwLock) : SnapshotFairRwLock :=
  { l with backgroundWriter := false }

end SnapshotFairRwLock

/-- The lock and the guards that use it, the objects of which each holds it at most once. -/
structure LockSystem (γ : Type) where
  lock : SnapshotFairRwLock
  /-- The guard that is between its two steps with the gate locked. -/
  gate : Option γ
  waiting : Finset γ
  shared : Finset γ
  append : Finset γ
  foreground : Finset γ
  background : Finset γ

inductive LockCall (γ : Type)
  | lockShared (g : γ)
  | tryLockShared (g : γ)
  | unlockShared (g : γ)
  | lockAppendShared (g : γ)
  | unlockAppendShared (g : γ)
  | lock (g : γ)
  /-- A waiting `lock` is woken, or wakes up by itself. -/
  | wake (g : γ)
  | tryLock (g : γ)
  | unlock (g : γ)
  | loadPins (g : γ)
  | grant (g : γ)
  | unlockBackgroundExclusive (g : γ)
  /-- Snapshots are pinned or released: the counter has a new value. -/
  | setPins (n : UInt32)
  | notifyPinsReleased

namespace LockSystem

variable {γ : Type} [DecidableEq γ]

def new : LockSystem γ := ⟨.new, none, ∅, ∅, ∅, ∅, ∅⟩

/-- The guard does not hold the lock and does not wait for it, and the gate is open to it. -/
def Enters (s : LockSystem γ) (g : γ) : Prop :=
  s.gate = none ∧ g ∉ s.waiting ∧ g ∉ s.shared ∧ g ∉ s.append ∧ g ∉ s.foreground ∧
    g ∉ s.background

instance (s : LockSystem γ) (g : γ) : Decidable (s.Enters g) := by
  unfold Enters
  infer_instance

/-- The state after a call; `none` where the call waits, or is not made: a guard unlocks what it
holds. -/
def step (s : LockSystem γ) : LockCall γ → Option (LockSystem γ)
  | .lockShared g =>
    if s.Enters g then
      s.lock.lockShared.map fun l => { s with lock := l, shared := insert g s.shared }
    else none
  | .tryLockShared g =>
    if s.Enters g then
      match s.lock.lockShared with
      | some l => some { s with lock := l, shared := insert g s.shared }
      | none => some s
    else none
  | .unlockShared g =>
    if s.gate = none ∧ g ∈ s.shared then
      some { s with lock := s.lock.unlockShared, shared := s.shared.erase g }
    else none
  | .lockAppendShared g =>
    if s.Enters g then
      s.lock.lockAppendShared.map fun l => { s with lock := l, append := insert g s.append }
    else none
  | .unlockAppendShared g =>
    if s.gate = none ∧ g ∈ s.append then
      some { s with lock := s.lock.unlockAppendShared, append := s.append.erase g }
    else none
  | .lock g =>
    if s.Enters g then
      match s.lock.lockEnter.lockAcquire with
      | some l => some { s with lock := l, foreground := insert g s.foreground }
      | none => some { s with lock := s.lock.lockEnter, waiting := insert g s.waiting }
    else none
  | .wake g =>
    if s.gate = none ∧ g ∈ s.waiting then
      match s.lock.lockAcquire with
      | some l =>
        some { s with lock := l, waiting := s.waiting.erase g, foreground := insert g s.foreground }
      | none => some s
    else none
  | .tryLock g =>
    if s.Enters g then
      match s.lock.tryLock with
      | some l => some { s with lock := l, foreground := insert g s.foreground }
      | none => some s
    else none
  | .unlock g =>
    if s.gate = none ∧ g ∈ s.foreground then
      some { s with lock := s.lock.unlock, foreground := s.foreground.erase g }
    else none
  | .loadPins g =>
    if s.Enters g then
      if 0 < s.lock.snapshotPins then some s else some { s with gate := some g }
    else none
  | .grant g =>
    if s.gate = some g then
      match s.lock.tryLockBackgroundExclusive with
      | some l => some { s with lock := l, gate := none, background := insert g s.background }
      | none => some { s with gate := none }
    else none
  | .unlockBackgroundExclusive g =>
    if s.gate = none ∧ g ∈ s.background then
      some
        { s with lock := s.lock.unlockBackgroundExclusive, background := s.background.erase g }
    else none
  | .setPins n => some { s with lock := { s.lock with snapshotPins := n } }
  | .notifyPinsReleased => if s.gate = none then some s else none

/-- The states that calls satisfying `ok` reach. -/
inductive Run (ok : LockSystem γ → LockCall γ → Prop) : LockSystem γ → Prop
  | new : Run ok new
  | step {s s' : LockSystem γ} {c : LockCall γ} :
      Run ok s → ok s c → s.step c = some s' → Run ok s'

end LockSystem
end EBTree.Engine
