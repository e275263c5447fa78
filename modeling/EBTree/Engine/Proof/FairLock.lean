import EBTree.Engine.FairLock

/-!
# Exclusion of the snapshot-fair lock

* `LockSystem.Inv`: the counters count the guards, and a writer is alone. `Inv.step` is the step.
* `run_lock_excludes`: a run keeps exclusion, and gives the background lock only where no snapshot
  is pinned and no writer waits, as long as no snapshot is pinned between the two steps of
  `try_lock_background_exclusive`.
* `pin_during_try_lock`: a snapshot that is pinned between them.
-/

set_option autoImplicit false

namespace EBTree.Engine

theorem toNat_add_one {x : UInt32} {n : Nat} (hx : x.toNat = n) (hn : n + 1 < 2 ^ 32) :
    (x + 1).toNat = n + 1 := by
  rw [UInt32.toNat_add, UInt32.toNat_one, hx, Nat.mod_eq_of_lt hn]

theorem toNat_sub_one {x : UInt32} {n : Nat} (hx : x.toNat = n + 1) : (x - 1).toNat = n := by
  have hle : (1 : UInt32) ≤ x := UInt32.le_iff_toNat_le.2 (by rw [hx, UInt32.toNat_one]; omega)
  rw [UInt32.toNat_sub_of_le _ _ hle, hx, UInt32.toNat_one, Nat.add_sub_cancel]

theorem toNat_eq_zero {x : UInt32} (hx : ¬ 0 < x) : x.toNat = 0 := by
  rw [UInt32.lt_iff_toNat_lt, UInt32.toNat_zero] at hx
  omega

namespace LockSystem

variable {γ : Type} [DecidableEq γ] {s s' : LockSystem γ} {c : LockCall γ}

/-- At most one guard holds the lock exclusively, and then none holds it otherwise. -/
structure Exclusive (s : LockSystem γ) : Prop where
  one : s.foreground.card + s.background.card ≤ 1
  alone : s.foreground.card + s.background.card ≠ 0 → s.shared = ∅ ∧ s.append = ∅

/-- The lock excludes, and a call that gives the background lock away does so while no snapshot is
pinned and no writer waits. -/
structure Fair (s : LockSystem γ) : Prop where
  exclusive : Exclusive s
  grant : ∀ c s', s.step c = some s' → (∃ g ∈ s'.background, g ∉ s.background) →
    s.lock.snapshotPins = 0 ∧ s.waiting = ∅

/-- A counter has room for another guard, and no snapshot is pinned behind the test of the pins. -/
def Steady (s : LockSystem γ) : LockCall γ → Prop
  | .lockShared _ => s.shared.card + 1 < 2 ^ 32
  | .tryLockShared _ => s.shared.card + 1 < 2 ^ 32
  | .lockAppendShared _ => s.append.card + 1 < 2 ^ 32
  | .lock _ => s.waiting.card + 1 < 2 ^ 32
  | .setPins n => s.gate = none ∨ n = 0
  | _ => True

/-- The counters of the lock are right, and a writer is alone. -/
structure Inv (s : LockSystem γ) : Prop where
  readers : s.lock.readers.toNat = s.shared.card
  appenders : s.lock.appenders.toNat = s.append.card
  waiting : s.lock.foregroundWaiting.toNat = s.waiting.card
  foreground : s.lock.foregroundWriter.toNat = s.foreground.card
  background : s.lock.backgroundWriter.toNat = s.background.card
  one : s.lock.foregroundWriter = true → s.lock.backgroundWriter = false
  alone : s.lock.writer = true → s.shared = ∅ ∧ s.append = ∅
  pins : s.gate ≠ none → s.lock.snapshotPins = 0

omit [DecidableEq γ] in
theorem inv_new : Inv (new : LockSystem γ) where
  readers := rfl
  appenders := rfl
  waiting := rfl
  foreground := rfl
  background := rfl
  one h := absurd h Bool.false_ne_true
  alone h := absurd h Bool.false_ne_true
  pins h := absurd rfl h

namespace Inv

omit [DecidableEq γ] in
theorem exclusive (hi : Inv s) : Exclusive s := by
  have hf := hi.foreground
  have hb := hi.background
  have hone := hi.one
  have halone := hi.alone
  unfold SnapshotFairRwLock.writer at halone
  cases hfw : s.lock.foregroundWriter <;> cases hbw : s.lock.backgroundWriter <;>
    simp only [hfw, hbw, Bool.toNat_true, Bool.toNat_false, Bool.or_true, Bool.or_false,
      forall_const, Bool.false_eq_true, IsEmpty.forall_iff] at hf hb hone halone
  · exact ⟨by omega, fun h => absurd (by omega) h⟩
  · exact ⟨by omega, fun _ => halone⟩
  · exact ⟨by omega, fun _ => halone⟩
  · cases hone

omit [DecidableEq γ] in
/-- Where exclusive locks need not wait, nobody holds the lock. -/
theorem idle (hi : Inv s) (hb : s.lock.busy = false) :
    s.shared = ∅ ∧ s.append = ∅ ∧ s.foreground = ∅ ∧ s.background = ∅ ∧
      s.lock.foregroundWriter = false ∧ s.lock.backgroundWriter = false := by
  simp only [SnapshotFairRwLock.busy, SnapshotFairRwLock.writer, Bool.or_eq_false_iff,
    decide_eq_false_iff_not] at hb
  obtain ⟨⟨hr, ha⟩, hf, hbw⟩ := hb
  refine ⟨Finset.card_eq_zero.1 ?_, Finset.card_eq_zero.1 ?_, Finset.card_eq_zero.1 ?_,
    Finset.card_eq_zero.1 ?_, hf, hbw⟩
  · rw [← hi.readers, toNat_eq_zero hr]
  · rw [← hi.appenders, toNat_eq_zero ha]
  · rw [← hi.foreground, hf]
    rfl
  · rw [← hi.background, hbw]
    rfl

theorem lockShared (hi : Inv s) {g : γ} (hg : g ∉ s.shared) (hn : s.shared.card + 1 < 2 ^ 32)
    {l : SnapshotFairRwLock} (hl : s.lock.lockShared = some l) :
    Inv { s with lock := l, shared := insert g s.shared } := by
  unfold SnapshotFairRwLock.lockShared at hl
  split at hl
  · cases hl
  · rename_i hw
    cases hl
    exact
      { hi with
        readers := by rw [Finset.card_insert_of_notMem hg]; exact toNat_add_one hi.readers hn
        alone := fun h => absurd h hw }

theorem lockAppendShared (hi : Inv s) {g : γ} (hg : g ∉ s.append)
    (hn : s.append.card + 1 < 2 ^ 32) {l : SnapshotFairRwLock}
    (hl : s.lock.lockAppendShared = some l) :
    Inv { s with lock := l, append := insert g s.append } := by
  unfold SnapshotFairRwLock.lockAppendShared at hl
  split at hl
  · cases hl
  · rename_i hw
    cases hl
    exact
      { hi with
        appenders := by rw [Finset.card_insert_of_notMem hg]; exact toNat_add_one hi.appenders hn
        alone := fun h => absurd h hw }

theorem unlockShared (hi : Inv s) {g : γ} (hg : g ∈ s.shared) :
    Inv { s with lock := s.lock.unlockShared, shared := s.shared.erase g } := by
  have hcard := Finset.card_erase_add_one hg
  have hr : s.lock.readers.toNat = (s.shared.erase g).card + 1 := by rw [hi.readers, hcard]
  have hne : s.lock.readers ≠ 0 := fun h => by rw [h] at hr; exact absurd hr (by simp)
  have hs : s.lock.unlockShared = { s.lock with readers := s.lock.readers - 1 } := if_neg hne
  rw [hs]
  refine { hi with readers := toNat_sub_one hr, alone := fun h => ?_ }
  obtain ⟨hsh, hap⟩ := hi.alone h
  exact ⟨by simp [hsh], hap⟩

theorem unlockAppendShared (hi : Inv s) {g : γ} (hg : g ∈ s.append) :
    Inv { s with lock := s.lock.unlockAppendShared, append := s.append.erase g } := by
  have hcard := Finset.card_erase_add_one hg
  have hr : s.lock.appenders.toNat = (s.append.erase g).card + 1 := by rw [hi.appenders, hcard]
  have hne : s.lock.appenders ≠ 0 := fun h => by rw [h] at hr; exact absurd hr (by simp)
  have hs : s.lock.unlockAppendShared = { s.lock with appenders := s.lock.appenders - 1 } :=
    if_neg hne
  rw [hs]
  refine { hi with appenders := toNat_sub_one hr, alone := fun h => ?_ }
  obtain ⟨hsh, hap⟩ := hi.alone h
  exact ⟨hsh, by simp [hap]⟩

/-- `lock` counts itself among those who wait. -/
theorem lockEnter (hi : Inv s) {g : γ} (hg : g ∉ s.waiting) (hn : s.waiting.card + 1 < 2 ^ 32) :
    Inv { s with lock := s.lock.lockEnter, waiting := insert g s.waiting } :=
  { hi with
    waiting := by rw [Finset.card_insert_of_notMem hg]; exact toNat_add_one hi.waiting hn }

/-- One who waits gets the lock. -/
theorem lockAcquire (hi : Inv s) {g : γ} (hg : g ∈ s.waiting) {l : SnapshotFairRwLock}
    (hl : s.lock.lockAcquire = some l) :
    Inv { s with
      lock := l, waiting := s.waiting.erase g, foreground := insert g s.foreground } := by
  unfold SnapshotFairRwLock.lockAcquire at hl
  split at hl
  · cases hl
  · rename_i hb
    obtain ⟨hsh, hap, hfg, -, -, hbw⟩ := hi.idle (by simpa using hb)
    cases hl
    exact
      { hi with
        waiting := toNat_sub_one (by rw [hi.waiting, Finset.card_erase_add_one hg])
        foreground := by rw [hfg]; rfl
        one := fun _ => hbw
        alone := fun _ => ⟨hsh, hap⟩ }

theorem tryLock (hi : Inv s) (g : γ) {l : SnapshotFairRwLock} (hl : s.lock.tryLock = some l) :
    Inv { s with lock := l, foreground := insert g s.foreground } := by
  unfold SnapshotFairRwLock.tryLock at hl
  split at hl
  · cases hl
  · rename_i hb
    obtain ⟨hsh, hap, hfg, -, -, hbw⟩ := hi.idle (by simpa using hb)
    cases hl
    exact
      { hi with
        foreground := by rw [hfg]; rfl
        one := fun _ => hbw
        alone := fun _ => ⟨hsh, hap⟩ }

theorem unlock (hi : Inv s) {g : γ} (hg : g ∈ s.foreground) :
    Inv { s with lock := s.lock.unlock, foreground := s.foreground.erase g } := by
  have hfw : s.lock.foregroundWriter.toNat = (s.foreground.erase g).card + 1 := by
    rw [hi.foreground, Finset.card_erase_add_one hg]
  have hcard : (s.foreground.erase g).card = 0 := by
    have := Bool.toNat_le s.lock.foregroundWriter
    omega
  refine { hi with foreground := hcard.symm, one := fun h => absurd h Bool.false_ne_true, alone := fun h => ?_ }
  refine hi.alone ?_
  rw [SnapshotFairRwLock.writer, show s.lock.backgroundWriter = true from h, Bool.or_true]

theorem unlockBackgroundExclusive (hi : Inv s) {g : γ} (hg : g ∈ s.background) :
    Inv { s with
      lock := s.lock.unlockBackgroundExclusive, background := s.background.erase g } := by
  have hbw : s.lock.backgroundWriter.toNat = (s.background.erase g).card + 1 := by
    rw [hi.background, Finset.card_erase_add_one hg]
  have hcard : (s.background.erase g).card = 0 := by
    have := Bool.toNat_le s.lock.backgroundWriter
    omega
  refine { hi with background := hcard.symm, one := fun _ => rfl, alone := fun h => hi.alone ?_ }
  rw [SnapshotFairRwLock.writer, SnapshotFairRwLock.unlockBackgroundExclusive, Bool.or_false] at h
  rw [SnapshotFairRwLock.writer, h, Bool.true_or]

/-- The background lock is given where nobody holds the lock or waits for it. -/
theorem tryLockBackgroundExclusive (hi : Inv s) (g : γ) {l : SnapshotFairRwLock}
    (hl : s.lock.tryLockBackgroundExclusive = some l) :
    s.waiting = ∅ ∧
      Inv { s with lock := l, gate := none, background := insert g s.background } := by
  unfold SnapshotFairRwLock.tryLockBackgroundExclusive at hl
  split at hl
  · cases hl
  · rename_i hb
    simp only [Bool.or_eq_true, decide_eq_true_eq, not_or, Bool.not_eq_true] at hb
    obtain ⟨hsh, hap, -, hbg, hfw, -⟩ := hi.idle hb.1
    cases hl
    refine ⟨Finset.card_eq_zero.1 ?_, ?_⟩
    · rw [← hi.waiting, toNat_eq_zero hb.2]
    · exact
        { hi with
          background := by rw [hbg]; rfl
          one := fun h => absurd (hfw.symm.trans h) Bool.false_ne_true
          alone := fun _ => ⟨hsh, hap⟩
          pins := fun h => absurd rfl h }

/-- **One call** keeps the invariant. -/
theorem step (hi : Inv s) (hc : Steady s c) (hs : s.step c = some s') : Inv s' := by
  cases c with
  | lockShared g =>
    obtain ⟨hg, hs⟩ := Option.ite_none_right_eq_some.1 hs
    obtain ⟨l, hl, rfl⟩ := Option.map_eq_some_iff.1 hs
    exact hi.lockShared hg.2.2.1 hc hl
  | tryLockShared g =>
    obtain ⟨hg, hs⟩ := Option.ite_none_right_eq_some.1 hs
    split at hs
    · rename_i l hl
      cases hs
      exact hi.lockShared hg.2.2.1 hc hl
    · cases hs
      exact hi
  | unlockShared g =>
    obtain ⟨hg, hs⟩ := Option.ite_none_right_eq_some.1 hs
    cases hs
    exact hi.unlockShared hg.2
  | lockAppendShared g =>
    obtain ⟨hg, hs⟩ := Option.ite_none_right_eq_some.1 hs
    obtain ⟨l, hl, rfl⟩ := Option.map_eq_some_iff.1 hs
    exact hi.lockAppendShared hg.2.2.2.1 hc hl
  | unlockAppendShared g =>
    obtain ⟨hg, hs⟩ := Option.ite_none_right_eq_some.1 hs
    cases hs
    exact hi.unlockAppendShared hg.2
  | lock g =>
    obtain ⟨hg, hs⟩ := Option.ite_none_right_eq_some.1 hs
    have hin := hi.lockEnter hg.2.1 hc
    split at hs
    · rename_i l hl
      cases hs
      -- it waits for no time: it leaves those who wait as it entered
      have hacq := hin.lockAcquire (Finset.mem_insert_self g s.waiting) hl
      rw [Finset.erase_insert hg.2.1] at hacq
      exact hacq
    · cases hs
      exact hin
  | wake g =>
    obtain ⟨hg, hs⟩ := Option.ite_none_right_eq_some.1 hs
    split at hs
    · rename_i l hl
      cases hs
      exact hi.lockAcquire hg.2 hl
    · cases hs
      exact hi
  | tryLock g =>
    obtain ⟨hg, hs⟩ := Option.ite_none_right_eq_some.1 hs
    split at hs
    · rename_i l hl
      cases hs
      exact hi.tryLock g hl
    · cases hs
      exact hi
  | unlock g =>
    obtain ⟨hg, hs⟩ := Option.ite_none_right_eq_some.1 hs
    cases hs
    exact hi.unlock hg.2
  | loadPins g =>
    obtain ⟨hg, hs⟩ := Option.ite_none_right_eq_some.1 hs
    split at hs
    · cases hs
      exact hi
    · rename_i hp
      cases hs
      exact { hi with pins := fun _ => UInt32.le_zero_iff.1 (UInt32.not_lt.1 hp) }
  | grant g =>
    obtain ⟨hg, hs⟩ := Option.ite_none_right_eq_some.1 hs
    split at hs
    · rename_i l hl
      cases hs
      exact (hi.tryLockBackgroundExclusive g hl).2
    · cases hs
      exact { hi with pins := fun h => absurd rfl h }
  | unlockBackgroundExclusive g =>
    obtain ⟨hg, hs⟩ := Option.ite_none_right_eq_some.1 hs
    cases hs
    exact hi.unlockBackgroundExclusive hg.2
  | setPins n =>
    cases hs
    exact { hi with pins := fun h => hc.resolve_left h }
  | notifyPinsReleased =>
    obtain ⟨-, hs⟩ := Option.ite_none_right_eq_some.1 hs
    cases hs
    exact hi

/-- **The background lock** is given where no snapshot is pinned and no writer waits. -/
theorem grant (hi : Inv s) (hs : s.step c = some s')
    (hg : ∃ g ∈ s'.background, g ∉ s.background) : s.lock.snapshotPins = 0 ∧ s.waiting = ∅ := by
  obtain ⟨g, hg', hg⟩ := hg
  have hsame : s'.background ⊆ s.background → s.lock.snapshotPins = 0 ∧ s.waiting = ∅ :=
    fun hsub => absurd (hsub hg') hg
  cases c with
  | grant g0 =>
    obtain ⟨hgate, hs⟩ := Option.ite_none_right_eq_some.1 hs
    split at hs
    · rename_i l hl
      exact ⟨hi.pins (by rw [hgate]; exact Option.some_ne_none g0),
        (hi.tryLockBackgroundExclusive g0 hl).1⟩
    · cases hs
      exact hsame (Finset.Subset.refl _)
  | lockShared g0 =>
    obtain ⟨-, hs⟩ := Option.ite_none_right_eq_some.1 hs
    obtain ⟨l, -, rfl⟩ := Option.map_eq_some_iff.1 hs
    exact hsame (Finset.Subset.refl _)
  | lockAppendShared g0 =>
    obtain ⟨-, hs⟩ := Option.ite_none_right_eq_some.1 hs
    obtain ⟨l, -, rfl⟩ := Option.map_eq_some_iff.1 hs
    exact hsame (Finset.Subset.refl _)
  | setPins n =>
    cases hs
    exact hsame (Finset.Subset.refl _)
  | unlockBackgroundExclusive g0 =>
    obtain ⟨-, hs⟩ := Option.ite_none_right_eq_some.1 hs
    cases hs
    exact hsame (Finset.erase_subset _ _)
  | _ =>
    obtain ⟨-, hs⟩ := Option.ite_none_right_eq_some.1 hs
    have heq : s'.background = s.background := by
      try split at hs
      all_goals
        cases hs
        rfl
    exact hsame (Finset.subset_of_eq heq)

end Inv

/-- **The lock excludes** in every run whose calls are steady. -/
theorem run_lock_excludes (hr : Run Steady s) : Fair s := by
  have hi : Inv s := by
    induction hr with
    | new => exact inv_new
    | step _ hc hs ih => exact ih.step hc hs
  exact ⟨hi.exclusive, fun _ _ hs hg => hi.grant hs hg⟩

/-- A reader, and after it a writer in the background. -/
theorem run_lock_excludes_reader : ∃ s : LockSystem Nat, s.background = {1} ∧ Fair s := by
  refine ⟨⟨⟨0, 0, false, 0, true, 0⟩, none, ∅, ∅, ∅, ∅, {1}⟩, rfl, run_lock_excludes ?_⟩
  have hread : Run Steady (⟨⟨1, 0, false, 0, false, 0⟩, none, ∅, {0}, ∅, ∅, ∅⟩ : LockSystem Nat) :=
    Run.new.step (c := .lockShared 0) (show 0 + 1 < 2 ^ 32 by decide) rfl
  have hfree : Run Steady (⟨⟨0, 0, false, 0, false, 0⟩, none, ∅, ∅, ∅, ∅, ∅⟩ : LockSystem Nat) :=
    hread.step (c := .unlockShared 0) trivial rfl
  exact (hfree.step (c := .loadPins 1) trivial rfl).step (c := .grant 1) trivial rfl

/-- **A snapshot is pinned** between the two steps of `try_lock_background_exclusive`. -/
theorem pin_during_try_lock : ¬ ∀ s : LockSystem Nat, Run (fun _ _ => True) s → Fair s := by
  intro hall
  have hrun : Run (fun _ _ => True)
      (⟨⟨0, 0, false, 0, false, 1⟩, some 0, ∅, ∅, ∅, ∅, ∅⟩ : LockSystem Nat) :=
    (Run.new.step (c := .loadPins 0) trivial rfl).step (c := .setPins 1) trivial rfl
  have hpins := ((hall _ hrun).grant (.grant 0) _ rfl ⟨0, by decide, by decide⟩).1
  exact absurd hpins (by decide)

end LockSystem
end EBTree.Engine
