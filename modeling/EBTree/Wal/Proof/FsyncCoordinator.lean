import EBTree.Wal.FsyncCoordinator

/-!
# What an acknowledged LSN stands for

* `FsyncSystem.Inv`: every record up to the watermark of the coordinator was in the log when an
  `Fsync` started that succeeded, and the one that runs covers every record up to its target.
  `Inv.step` is the step.
* `await_ok_synced`: `Await` returns success for such a record only, and no `Fsync` that fails makes
  it return success.
-/

set_option autoImplicit false

namespace EBTree.Wal

namespace FsyncSystem

variable {τ : Type} [DecidableEq τ] {s s' : FsyncSystem τ} {config : WalFsyncConfig} {t : τ}
  {lsn : Nat} {r : Readings}

/-- The LSN a call of `Await` is for. -/
def FsyncCaller.awaits : FsyncCaller → Option Nat
  | .awaitFirst lsn => some lsn
  | .awaitLoop lsn => some lsn
  | .flushPending => none
  | .flusher => none

/-- What a thread knows where it is: the LSN it waits for has its record in the log, and an `Fsync`
it runs covers every record up to its target. -/
def PcOk (s : FsyncSystem τ) : FsyncPc → Prop
  | .idle => True
  | .coalescing lsn => lsn ∈ s.log
  | .waiting lsn => lsn ∈ s.log
  | .flushing => True
  | .fsync target _ records caller =>
    (target = 0 ∨ target ∈ s.log) ∧ (∀ n ∈ s.log, n ≤ target → n ∈ records) ∧
      ∀ lsn, FsyncCaller.awaits caller = some lsn → lsn ∈ s.log

structure Inv (s : FsyncSystem τ) : Prop where
  pending : s.coord.maxPendingLsn = 0 ∨ s.coord.maxPendingLsn ∈ s.log
  watermark : s.coord.flushedLsn = 0 ∨ s.coord.flushedLsn ∈ s.log
  flushed : ∀ n ∈ s.log, n ≤ s.coord.flushedLsn → n ∈ s.synced
  threads : ∀ t, s.PcOk (s.pc t)
  returned : ∀ lsn, (lsn, .ok ()) ∈ s.returns → lsn ∈ s.synced

namespace Inv

omit [DecidableEq τ] in
/-- The coordinator changes, its watermark and its pending LSN apart. -/
theorem withCoord (hi : Inv s) {c : WalFsyncCoordinator}
    (hp : c.maxPendingLsn = s.coord.maxPendingLsn) (hf : c.flushedLsn = s.coord.flushedLsn) :
    Inv { s with coord := c } :=
  { hi with
    pending := by rw [hp]; exact hi.pending
    watermark := by rw [hf]; exact hi.watermark
    flushed := fun n hn hle => hi.flushed n hn (hf ▸ hle) }

theorem goto (hi : Inv s) (t : τ) {pc : FsyncPc} (hpc : s.PcOk pc) : Inv (s.goto t pc) :=
  { hi with
    threads := fun t' => by
      change s.PcOk (Function.update s.pc t pc t')
      by_cases ht : t' = t
      · rw [ht, Function.update_self]
        exact hpc
      · rw [Function.update_of_ne ht]
        exact hi.threads t' }

theorem ret (hi : Inv s) (t : τ) {lsn : Nat} {st : Except Status Unit}
    (hok : st = .ok () → lsn ∈ s.synced) : Inv (s.ret t lsn st) :=
  { hi.goto t (show s.PcOk .idle from trivial) with
    returned := fun n hn => by
      rcases List.mem_append.1 hn with hn | hn
      · exact hi.returned n hn
      · cases List.mem_singleton.1 hn
        exact hok rfl }

/-- An LSN up to the watermark is acknowledged. -/
theorem retOk (hi : Inv s) (t : τ) (hlsn : lsn ∈ s.log) (hle : lsn ≤ s.coord.flushedLsn) :
    Inv (s.ret t lsn (.ok ())) := hi.ret t fun _ => hi.flushed lsn hlsn hle

/-- **An `Fsync` starts**, and covers what is in the log. -/
theorem beginFsync (hi : Inv s) (t : τ) {caller : FsyncCaller}
    (hc : ∀ lsn, FsyncCaller.awaits caller = some lsn → lsn ∈ s.log) :
    Inv (s.beginFsync t caller) :=
  (hi.goto t (show s.PcOk (.fsync _ s.coord.pendingCount s.log caller) from
    ⟨hi.pending, fun _ hn _ => hn, hc⟩)).withCoord rfl rfl

theorem awaitFirst (hi : Inv s) (t : τ) (hlsn : lsn ∈ s.log) : Inv (s.awaitFirst t lsn r) := by
  unfold FsyncSystem.awaitFirst
  split
  · refine hi.beginFsync t fun n hn => ?_
    cases hn
    exact hlsn
  · exact hi.goto t hlsn

omit [DecidableEq τ] in
theorem activate (hi : Inv s) : Inv s.activate := hi.withCoord rfl rfl

theorem spin (hi : Inv s) (t : τ) (hlsn : lsn ∈ s.log) : Inv (s.spin t lsn r) := by
  unfold FsyncSystem.spin
  split
  · exact hi.activate.awaitFirst t hlsn
  · exact hi.goto t hlsn

omit [DecidableEq τ] in
/-- `Await` enters an LSN of the log. -/
theorem enter (hi : Inv s) (hlsn : lsn ∈ s.log) : Inv { s with coord := s.coord.enter lsn } :=
  { hi with
    pending := by
      change max s.coord.maxPendingLsn lsn = 0 ∨ max s.coord.maxPendingLsn lsn ∈ s.log
      rcases Nat.le_total s.coord.maxPendingLsn lsn with hle | hle
      · rw [Nat.max_eq_right hle]
        exact .inr hlsn
      · rw [Nat.max_eq_left hle]
        exact hi.pending }

theorem await (hi : Inv s) (t : τ) (hlsn : lsn ∈ s.log) : Inv (s.await t lsn r) := by
  have hin := hi.enter hlsn
  unfold FsyncSystem.await
  split
  · rename_i hle
    exact hi.retOk t hlsn hle
  · simp only
    split
    · exact hin.spin t hlsn
    split
    · exact hin.activate.awaitFirst t hlsn
    · exact hin.awaitFirst t hlsn

theorem awaitLoop (hi : Inv s) (t : τ) (hlsn : lsn ∈ s.log) : Inv (s.awaitLoop t lsn r) := by
  unfold FsyncSystem.awaitLoop
  split
  · rename_i hle
    exact hi.retOk t hlsn hle
  split
  · refine hi.beginFsync t fun n hn => ?_
    cases hn
    exact hlsn
  · exact hi.goto t hlsn

theorem flushLoop (hi : Inv s) (t : τ) : Inv (s.flushLoop t r) := by
  unfold FsyncSystem.flushLoop
  simp only
  split
  · exact hi.goto t trivial
  split
  · exact hi.goto t trivial
  split
  · exact hi.goto t trivial
  split
  · exact hi.goto t trivial
  · exact hi.beginFsync t fun n hn => by cases hn

omit [DecidableEq τ] in
theorem append (hi : Inv s) (hlsn : 0 < lsn) (hnew : ∀ n ∈ s.log, n < lsn) :
    Inv { s with log := s.log ++ [lsn] } := by
  have hmem : ∀ {n : Nat}, n ∈ s.log ++ [lsn] → n ∈ s.log ∨ n = lsn := fun hn =>
    (List.mem_append.1 hn).imp id List.mem_singleton.1
  -- a new record lies above every LSN that was taken off the log before
  have habove : ∀ {m : Nat}, (m = 0 ∨ m ∈ s.log) → ∀ {n : Nat}, n ∈ s.log ++ [lsn] → n ≤ m →
      n ∈ s.log := by
    intro m hm n hn hle
    rcases hmem hn with hn | rfl
    · exact hn
    · rcases hm with rfl | hm
      · omega
      · exact absurd (hnew m hm) (Nat.not_lt.2 hle)
  refine
    { pending := hi.pending.imp id (List.mem_append_left _)
      watermark := hi.watermark.imp id (List.mem_append_left _)
      flushed := fun n hn hle => hi.flushed n (habove hi.watermark hn hle) hle
      threads := fun t => ?_
      returned := hi.returned }
  have ht := hi.threads t
  change PcOk _ (s.pc t)
  cases hpc : s.pc t with
  | idle => trivial
  | coalescing n =>
    rw [hpc] at ht
    exact List.mem_append_left _ ht
  | waiting n =>
    rw [hpc] at ht
    exact List.mem_append_left _ ht
  | flushing => trivial
  | fsync target waiters records caller =>
    rw [hpc] at ht
    obtain ⟨htarget, hcover, hcaller⟩ := ht
    exact ⟨htarget.imp id (List.mem_append_left _),
      fun n hn hle => hcover n (habove htarget hn hle) hle,
      fun n hn => List.mem_append_left _ (hcaller n hn)⟩

omit [DecidableEq τ] in
/-- **An `Fsync` ends**: if it succeeded, the records up to its target are synced. -/
theorem endFsync (hi : Inv s) {target waiters : Nat} {records : List Nat}
    (htarget : target = 0 ∨ target ∈ s.log) (hcover : ∀ n ∈ s.log, n ≤ target → n ∈ records)
    (st : Except Status Unit) :
    Inv { s with
      coord := s.coord.endFsync target waiters st
      synced := if st.isOk then s.synced ++ records else s.synced } := by
  cases st with
  | error e => exact hi.withCoord rfl rfl
  | ok u =>
    have hsynced : ∀ n ∈ s.synced, n ∈ s.synced ++ records := fun n hn => List.mem_append_left _ hn
    refine
      { hi with
        watermark := ?_
        flushed := fun n hn hle => ?_
        returned := fun n hn => hsynced n (hi.returned n hn) }
    · change max s.coord.flushedLsn target = 0 ∨ max s.coord.flushedLsn target ∈ s.log
      rcases Nat.le_total s.coord.flushedLsn target with hle | hle
      · rw [Nat.max_eq_right hle]
        exact htarget
      · rw [Nat.max_eq_left hle]
        exact hi.watermark
    · rcases le_max_iff.1 (show n ≤ max s.coord.flushedLsn target from hle) with hle | hle
      · exact hsynced n (hi.flushed n hn hle)
      · exact List.mem_append_right _ (hcover n hn hle)

theorem afterFsync (hi : Inv s) (t : τ) (st : Except Status Unit) {caller : FsyncCaller}
    (hc : ∀ lsn, FsyncCaller.awaits caller = some lsn → lsn ∈ s.log) :
    Inv (s.afterFsync t st caller) := by
  cases caller with
  | awaitFirst lsn =>
    cases st with
    | error e => exact hi.ret t fun h => by cases h
    | ok u =>
      unfold FsyncSystem.afterFsync
      simp only
      split
      · rename_i hle
        exact hi.retOk t (hc lsn rfl) hle
      · exact hi.goto t (hc lsn rfl)
  | awaitLoop lsn =>
    cases st with
    | error e => exact hi.ret t fun h => by cases h
    | ok u => exact hi.goto t (hc lsn rfl)
  | flushPending =>
    refine hi.goto t ?_
    split <;> trivial
  | flusher => exact hi.goto t trivial

/-- **One step** of any thread keeps the invariant. -/
theorem step (hi : Inv s) {st : FsyncStep τ} (hs : s.step st = some s') : Inv s' := by
  cases st with
  | append lsn =>
    obtain ⟨⟨hlsn, hnew⟩, hs⟩ := Option.ite_none_right_eq_some.1 hs
    cases hs
    exact hi.append hlsn hnew
  | await t lsn r =>
    unfold FsyncSystem.step at hs
    simp only at hs
    split at hs
    · obtain ⟨hlsn, hs⟩ := Option.ite_none_right_eq_some.1 hs
      cases hs
      exact hi.await t hlsn
    · cases hs
  | flushPending t =>
    unfold FsyncSystem.step at hs
    simp only at hs
    split at hs
    · cases hs
      exact hi.goto t trivial
    · cases hs
  | flusher t r =>
    unfold FsyncSystem.step at hs
    simp only at hs
    split at hs
    · obtain ⟨-, hs⟩ := Option.ite_none_right_eq_some.1 hs
      cases hs
      exact hi.beginFsync t fun n hn => by cases hn
    · cases hs
  | resume t r =>
    have ht := hi.threads t
    unfold FsyncSystem.step at hs
    simp only at hs
    split at hs
    · rename_i lsn hpc
      rw [hpc] at ht
      cases hs
      split
      · rename_i hle
        exact hi.retOk t ht hle
      · exact hi.spin t ht
    · rename_i lsn hpc
      rw [hpc] at ht
      cases hs
      exact hi.awaitLoop t ht
    · cases hs
      exact hi.flushLoop t
    · cases hs
  | endFsync t st =>
    have ht := hi.threads t
    unfold FsyncSystem.step at hs
    simp only at hs
    split at hs
    · rename_i target waiters records caller hpc
      rw [hpc] at ht
      cases hs
      exact (hi.endFsync ht.1 ht.2.1 st).afterFsync t st ht.2.2
    · cases hs

end Inv

omit [DecidableEq τ] in
theorem inv_new (config : WalFsyncConfig) : Inv (new config : FsyncSystem τ) where
  pending := .inl rfl
  watermark := .inl rfl
  flushed _ hn _ := absurd hn List.not_mem_nil
  threads _ := trivial
  returned _ hn := absurd hn List.not_mem_nil

/-- An `Fsync` that fails lets the thread that ran it return its error, or go on. -/
theorem returns_afterFsync (s : FsyncSystem τ) (t : τ) (e : Status) (caller : FsyncCaller) :
    (s.afterFsync t (.error e) caller).coord = s.coord ∧
      (s.afterFsync t (.error e) caller).synced = s.synced ∧
      ∀ lsn, (lsn, .ok ()) ∈ (s.afterFsync t (.error e) caller).returns → (lsn, .ok ()) ∈ s.returns := by
  have hret : ∀ lsn lsn', (lsn', .ok ()) ∈ (s.ret t lsn (.error e)).returns →
      (lsn', .ok ()) ∈ s.returns := by
    intro lsn lsn' hn
    rcases List.mem_append.1 hn with hn | hn
    · exact hn
    · cases List.mem_singleton.1 hn
  cases caller with
  | awaitFirst lsn => exact ⟨rfl, rfl, hret lsn⟩
  | awaitLoop lsn => exact ⟨rfl, rfl, hret lsn⟩
  | flushPending => exact ⟨rfl, rfl, fun _ hn => hn⟩
  | flusher => exact ⟨rfl, rfl, fun _ hn => hn⟩

/-- **Success of `Await`** means that an `Fsync` succeeded that started when the record was in the
log, and an `Fsync` that fails acknowledges nothing. -/
theorem await_ok_synced (hr : Reach config s) :
    (∀ lsn, (lsn, .ok ()) ∈ s.returns → lsn ∈ s.synced) ∧
      ∀ t e s', s.step (.endFsync t (.error e)) = some s' →
        s'.synced = s.synced ∧ s'.coord.flushedLsn = s.coord.flushedLsn ∧
          ∀ lsn, (lsn, .ok ()) ∈ s'.returns → (lsn, .ok ()) ∈ s.returns := by
  have hi : Inv s := by
    induction hr with
    | new => exact inv_new config
    | step _ hs ih => exact ih.step hs
  refine ⟨hi.returned, fun t e s' hs => ?_⟩
  unfold FsyncSystem.step at hs
  simp only at hs
  split at hs
  · rename_i target waiters records caller hpc
    cases hs
    obtain ⟨hcoord, hsynced, hreturns⟩ := returns_afterFsync
      { s with coord := s.coord.endFsync target waiters (.error e), synced := s.synced } t e caller
    exact ⟨hsynced, congrArg (·.flushedLsn) hcoord, hreturns⟩
  · cases hs

/-- Record 5 is appended, awaited and synced. -/
theorem await_ok_synced_five : ∃ s : FsyncSystem Nat, (5, .ok ()) ∈ s.returns ∧ 5 ∈ s.synced := by
  have hstart : Reach ⟨1, 0, 0⟩ (new ⟨1, 0, 0⟩ : FsyncSystem Nat) := .new
  have hlog := @Reach.step Nat _ _ _ _ (.append 5) hstart rfl
  have hawait := @Reach.step Nat _ _ _ _ (.await 0 5 ⟨false, false, fun _ => 0⟩) hlog rfl
  have hsynced := @Reach.step Nat _ _ _ _ (.endFsync 0 (.ok ())) hawait rfl
  exact ⟨_, List.mem_singleton.2 rfl, (await_ok_synced hsynced).1 5 (List.mem_singleton.2 rfl)⟩

end FsyncSystem
end EBTree.Wal
