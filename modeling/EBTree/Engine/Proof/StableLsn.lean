import EBTree.Engine.StableLsn
import EBTree.Lib.MaxFold

/-!
# Where the stable LSN moves

* `step_log`: only an append appends to the log.
* `Inv`: what is flushed and what is acknowledged lies up to the stable LSN, and a write is in the
  memtable or flushed unless a newer one of its key is.
* `run_stable_iff`: the stable LSN covers every acknowledged write, and a `Get` sees it, in a run whose
  writers wake up in the order of their LSNs; and the next step moves the stable LSN back exactly if it
  wakes one up that does not.
* `stable_moves_back`: two writers.
-/

set_option autoImplicit false

namespace EBTree.Wal.FsyncSystem

variable {τ : Type} [DecidableEq τ] {s s' : FsyncSystem τ} {t : τ} {lsn : Nat} {r : Readings}

theorem awaitFirst_log : (s.awaitFirst t lsn r).log = s.log := by
  unfold awaitFirst
  split <;> rfl

theorem spin_log : (s.spin t lsn r).log = s.log := by
  unfold spin
  split
  · exact awaitFirst_log
  · rfl

theorem await_log : (s.await t lsn r).log = s.log := by
  unfold await
  split
  · rfl
  · simp only
    split
    · exact spin_log
    · split
      · exact awaitFirst_log
      · exact awaitFirst_log

theorem awaitLoop_log : (s.awaitLoop t lsn r).log = s.log := by
  unfold awaitLoop
  split
  · rfl
  · split <;> rfl

theorem flushLoop_log : (s.flushLoop t r).log = s.log := by
  unfold flushLoop
  simp only
  split
  · rfl
  · split
    · rfl
    · split
      · rfl
      · split <;> rfl

theorem afterFsync_log (st : Except Status Unit) (caller : FsyncCaller) :
    (s.afterFsync t st caller).log = s.log := by
  cases caller with
  | awaitFirst lsn =>
    cases st with
    | error e => rfl
    | ok u =>
      simp only [afterFsync]
      split <;> rfl
  | awaitLoop lsn => cases st <;> rfl
  | flushPending => rfl
  | flusher => rfl

/-- **Only an append** appends to the log. -/
theorem step_log {st : FsyncStep τ} (hst : ∀ lsn, st ≠ .append lsn) (hs : s.step st = some s') :
    s'.log = s.log := by
  cases st with
  | append lsn => exact absurd rfl (hst lsn)
  | await t lsn r =>
    simp only [step] at hs
    split at hs
    · obtain ⟨-, hs⟩ := Option.ite_none_right_eq_some.1 hs
      cases hs
      exact await_log
    · cases hs
  | flushPending t =>
    simp only [step] at hs
    split at hs
    · cases hs
      rfl
    · cases hs
  | flusher t r =>
    simp only [step] at hs
    split at hs
    · obtain ⟨-, hs⟩ := Option.ite_none_right_eq_some.1 hs
      cases hs
      rfl
    · cases hs
  | resume t r =>
    simp only [step] at hs
    split at hs
    · cases hs
      split
      · rfl
      · exact spin_log
    · cases hs
      exact awaitLoop_log
    · cases hs
      exact flushLoop_log
    · cases hs
  | endFsync t st =>
    simp only [step] at hs
    split at hs
    · cases hs
      exact afterFsync_log _ _
    · cases hs

end EBTree.Wal.FsyncSystem

namespace EBTree.Engine

open Lib Wal

namespace StableSystem

variable {τ : Type} [DecidableEq τ] {s s' : StableSystem τ} {config : WalFsyncConfig}

/-! ## The invariant -/

/-- The write a thread is about. -/
def WriterPc.write : WriterPc → Option (Key × Nat)
  | .idle => none
  | .appended key lsn => some (key, lsn)
  | .awaiting key lsn => some (key, lsn)

structure Inv (s : StableSystem τ) : Prop where
  logged : ∀ w ∈ s.written, w.2 ∈ s.fsync.log
  newest : ∀ key lsn, s.memtable.find? key = some lsn → ∀ x, (key, x) ∈ s.written → x ≤ lsn
  kept : ∀ w ∈ s.written, s.memtable.find? w.1 = none → ∃ lsn, (w.1, lsn) ∈ s.flushed ∧ w.2 ≤ lsn
  flushed : ∀ w ∈ s.flushed, w.2 ≤ s.stableLsn
  acked : ∀ w ∈ s.acked, w ∈ s.written ∧ w.2 ≤ s.stableLsn
  threads : ∀ t w, WriterPc.write (s.pc t) = some w → w ∈ s.written

/-- A writer that wakes up does not find a higher stable LSN than its own. -/
def InOrder (s : StableSystem τ) (st : StableStep τ) : Prop :=
  ∀ t key lsn, st = .wake t → s.pc t = .awaiting key lsn →
    (s.fsync.returns.any fun x => x.1 = lsn && x.2.isOk) = true → s.stableLsn ≤ lsn

omit [DecidableEq τ] in
theorem inv_new : Inv (new config : StableSystem τ) where
  logged _ hw := absurd hw List.not_mem_nil
  newest _ _ hf := by cases hf
  kept _ hw := absurd hw List.not_mem_nil
  flushed _ hw := absurd hw List.not_mem_nil
  acked _ hw := absurd hw List.not_mem_nil
  threads _ _ hw := by cases hw

namespace Inv

omit [DecidableEq τ] in
/-- The coordinator goes on. -/
theorem withFsync (hi : Inv s) {f : FsyncSystem τ} (hf : f.log = s.fsync.log) :
    Inv { s with fsync := f } :=
  { hi with logged := fun w hw => hf ▸ hi.logged w hw }

/-- A thread goes on with a write that was appended. -/
theorem withPc (hi : Inv s) (t : τ) (pc : WriterPc)
    (hpc : ∀ w, WriterPc.write pc = some w → w ∈ s.written) :
    Inv { s with pc := Function.update s.pc t pc } :=
  { hi with
    threads := fun t' w hw => by
      change WriterPc.write (Function.update s.pc t pc t') = some w at hw
      by_cases ht : t' = t
      · rw [ht, Function.update_self] at hw
        exact hpc w hw
      · rw [Function.update_of_ne ht] at hw
        exact hi.threads t' w hw }

omit [DecidableEq τ] in
/-- **New writes** are newer than those of the log. -/
theorem write (hi : Inv s) (key : Key) {lsn : Nat} (hnew : ∀ n ∈ s.fsync.log, n < lsn)
    {f : FsyncSystem τ} (hf : f.log = s.fsync.log ++ [lsn]) :
    Inv { s with
      fsync := f
      memtable := s.memtable.insert key lsn
      written := s.written ++ [(key, lsn)] } where
  logged w hw := by
    rw [hf]
    rcases List.mem_append.1 hw with hw | hw
    · exact List.mem_append_left _ (hi.logged w hw)
    · rw [List.mem_singleton.1 hw]
      exact List.mem_append_right _ (List.mem_singleton.2 rfl)
  newest k l hk x hx := by
    change (s.memtable.insert key lsn).find? k = some l at hk
    rw [SortedMap.find?_insert] at hk
    rcases List.mem_append.1 hx with hx | hx
    · split at hk
      · cases hk
        exact Nat.le_of_lt (hnew x (hi.logged _ hx))
      · exact hi.newest k l hk x hx
    · cases List.mem_singleton.1 hx
      rw [if_pos rfl] at hk
      cases hk
      exact Nat.le_refl _
  kept w hw hk := by
    change (s.memtable.insert key lsn).find? w.1 = none at hk
    rw [SortedMap.find?_insert] at hk
    split at hk
    · cases hk
    · rename_i hne
      rcases List.mem_append.1 hw with hw | hw
      · exact hi.kept w hw hk
      · rw [List.mem_singleton.1 hw] at hne
        exact absurd rfl hne
  flushed := hi.flushed
  acked w hw := ⟨List.mem_append_left _ (hi.acked w hw).1, (hi.acked w hw).2⟩
  threads t w hw := List.mem_append_left _ (hi.threads t w hw)

omit [DecidableEq τ] in
/-- The stable LSN rises. -/
theorem raise (hi : Inv s) {n : Nat} (hn : s.stableLsn ≤ n) : Inv { s with stableLsn := n } :=
  { hi with
    flushed := fun w hw => Nat.le_trans (hi.flushed w hw) hn
    acked := fun w hw => ⟨(hi.acked w hw).1, Nat.le_trans (hi.acked w hw).2 hn⟩ }

omit [DecidableEq τ] in
theorem ack (hi : Inv s) {ws : List (Key × Nat)} (hw : ∀ w ∈ ws, w ∈ s.written ∧ w.2 ≤ s.stableLsn) :
    Inv { s with acked := s.acked ++ ws } :=
  { hi with
    acked := fun w hm => by
      rcases List.mem_append.1 hm with hm | hm
      · exact hi.acked w hm
      · exact hw w hm }

omit [DecidableEq τ] in
/-- The records of a batch, one after the other. -/
theorem writes (items : List (Key × Nat)) {s : StableSystem τ} (hi : Inv s)
    (hfit : fitsLog s.fsync.log items) :
    Inv { s with
      fsync := { s.fsync with log := s.fsync.log ++ items.map (·.2) }
      memtable := putAll s.memtable items
      written := s.written ++ items } := by
  induction items generalizing s with
  | nil =>
    simpa [putAll] using hi
  | cons w items ih =>
    obtain ⟨hpair, hall⟩ := hfit
    obtain ⟨hlt, hpair⟩ := List.pairwise_cons.1 hpair
    have hnext := hi.write w.1 (hall w List.mem_cons_self).2
      (f := { s.fsync with log := s.fsync.log ++ [w.2] }) rfl
    have hfit' : fitsLog (s.fsync.log ++ [w.2]) items := by
      refine ⟨hpair, fun w' hw' => ⟨(hall w' (List.mem_cons_of_mem _ hw')).1, fun n hn => ?_⟩⟩
      rcases List.mem_append.1 hn with hn | hn
      · exact (hall w' (List.mem_cons_of_mem _ hw')).2 n hn
      · rw [List.mem_singleton.1 hn]
        exact hlt w' hw'
    have h := ih hnext hfit'
    simpa [putAll] using h

omit [DecidableEq τ] in
/-- **A flush** moves the entries of the memtable, and raises the stable LSN to theirs. -/
theorem flush (hi : Inv s) :
    Inv { s with
      memtable := SortedMap.empty
      flushed := s.flushed ++ s.memtable.entries
      stableLsn := (s.memtable.entries.map (·.2)).foldl max s.stableLsn } where
  logged := hi.logged
  newest _ _ hf := by cases hf
  kept w hw _ := by
    cases hm : s.memtable.find? w.1 with
    | none =>
      obtain ⟨lsn, hl, hle⟩ := hi.kept w hw hm
      exact ⟨lsn, List.mem_append_left _ hl, hle⟩
    | some lsn =>
      exact ⟨lsn, List.mem_append_right _ (SortedMap.mem_entries_iff.2 hm),
        hi.newest w.1 lsn hm w.2 hw⟩
  flushed w hw := by
    rcases List.mem_append.1 hw with hw | hw
    · exact Nat.le_trans (hi.flushed w hw) (le_foldl_max _ _).1
    · exact (le_foldl_max _ _).2 _ (List.mem_map.2 ⟨w, hw, rfl⟩)
  acked w hw := ⟨(hi.acked w hw).1, Nat.le_trans (hi.acked w hw).2 (le_foldl_max _ _).1⟩
  threads := hi.threads

/-- **A step** keeps the invariant, and moves the stable LSN back exactly if it wakes up a writer out
of order. -/
theorem step (hi : Inv s) {st : StableStep τ} (hs : s.step st = some s') :
    (s.stableLsn ≤ s'.stableLsn ↔ InOrder s st) ∧ (InOrder s st → Inv s') := by
  have hother : (∀ t, st ≠ .wake t) → s.stableLsn ≤ s'.stableLsn → Inv s' →
      (s.stableLsn ≤ s'.stableLsn ↔ InOrder s st) ∧ (InOrder s st → Inv s') :=
    fun hne hle hi' => ⟨⟨fun _ t _ _ he => absurd he (hne t), fun _ => hle⟩, fun _ => hi'⟩
  cases st with
  | append t key lsn =>
    simp only [StableSystem.step] at hs
    split at hs
    · obtain ⟨f, hf, rfl⟩ := Option.map_eq_some_iff.1 hs
      obtain ⟨⟨-, hnew⟩, hf⟩ := Option.ite_none_right_eq_some.1 hf
      cases hf
      have hw := hi.write key hnew (f := { s.fsync with log := s.fsync.log ++ [lsn] }) rfl
      refine hother (by simp) (Nat.le_refl _) (hw.withPc t _ fun w he => ?_)
      cases he
      exact List.mem_append_right _ (List.mem_singleton.2 rfl)
    · cases hs
  | await t r =>
    simp only [StableSystem.step] at hs
    split at hs
    · rename_i key lsn hpc
      obtain ⟨f, hf, rfl⟩ := Option.map_eq_some_iff.1 hs
      have hlog := FsyncSystem.step_log (by simp) hf
      refine hother (by simp) (Nat.le_refl _) ((hi.withFsync hlog).withPc t _ fun w he => ?_)
      cases he
      exact hi.threads t _ (by rw [hpc]; rfl)
    · cases hs
  | coordinator st =>
    simp only [StableSystem.step] at hs
    split at hs
    · cases hs
    · cases hs
    · rename_i hne _
      obtain ⟨f, hf, rfl⟩ := Option.map_eq_some_iff.1 hs
      have hlog := FsyncSystem.step_log (fun lsn he => hne lsn he) hf
      exact hother (by simp) (Nat.le_refl _) (hi.withFsync hlog)
  | wake t =>
    simp only [StableSystem.step] at hs
    split at hs
    · rename_i key lsn hpc hidle
      have hi' := hi.withPc t .idle fun w he => by cases he
      split at hs
      · rename_i hret
        cases hs
        have hiff : s.stableLsn ≤ lsn ↔ InOrder s (.wake t) := by
          refine ⟨fun hle t' key' lsn' he hpc' _ => ?_, fun ho => ho t key lsn rfl hpc hret⟩
          cases he
          cases hpc.symm.trans hpc'
          exact hle
        refine ⟨hiff, fun ho => ?_⟩
        refine (hi'.raise (hiff.2 ho)).ack fun w hw => ?_
        cases List.mem_singleton.1 hw
        exact ⟨hi.threads t _ (by rw [hpc]; rfl), Nat.le_refl _⟩
      · rename_i hret
        cases hs
        refine ⟨⟨fun _ t' key' lsn' he hpc' hret' => ?_, fun _ => Nat.le_refl _⟩, fun _ => hi'⟩
        cases he
        cases hpc.symm.trans hpc'
        exact absurd hret' hret
    · cases hs
  | batch items =>
    obtain ⟨hfit, hs⟩ := Option.ite_none_right_eq_some.1 hs
    cases hs
    have hmax := le_foldl_max (items.map (·.2)) s.stableLsn
    refine hother (by simp) hmax.1 ?_
    refine ((writes items hi hfit).raise hmax.1).ack fun w hw => ?_
    exact ⟨List.mem_append_right _ hw, hmax.2 _ (List.mem_map.2 ⟨w, hw, rfl⟩)⟩
  | flush =>
    cases hs
    exact hother (by simp) (le_foldl_max _ _).1 hi.flush

omit [DecidableEq τ] in
/-- **A `Get` sees** what was acknowledged, or something newer. -/
theorem get (hi : Inv s) {w : Key × Nat} (hw : w ∈ s.acked) : w.2 ≤ s.getLsn w.1 := by
  have hwr := (hi.acked w hw).1
  unfold getLsn
  cases hm : s.memtable.find? w.1 with
  | some lsn => exact hi.newest w.1 lsn hm w.2 hwr
  | none =>
    obtain ⟨lsn, hl, hle⟩ := hi.kept w hwr hm
    refine Nat.le_trans hle ((le_foldl_max _ _).2 lsn (List.mem_map.2 ⟨(w.1, lsn), ?_, rfl⟩))
    refine List.mem_filter.2 ⟨hl, decide_eq_true ⟨rfl, .inr (hi.flushed _ hl)⟩⟩

end Inv

/-! ## Runs -/

theorem Run.inv (hr : Run config InOrder s) : Inv s := by
  induction hr with
  | new => exact inv_new
  | step _ ho hs ih => exact (ih.step hs).2 ho

/-- **The stable LSN** covers every write that was acknowledged, and a `Get` sees it, in a run whose
writers wake up in the order of their LSNs, of batches and flushes too; and the next step does not
move it back exactly if it keeps to that order. -/
theorem run_stable_iff (hr : Run config InOrder s) :
    (∀ w ∈ s.acked, w.2 ≤ s.stableLsn ∧ w.2 ≤ s.getLsn w.1) ∧
      ∀ st s', s.step st = some s' → (s.stableLsn ≤ s'.stableLsn ↔ InOrder s st) :=
  have hi := hr.inv
  ⟨fun w hw => ⟨(hi.acked w hw).2, hi.get hw⟩, fun _ _ hs => (hi.step hs).1⟩

/-- Readings of a thread that does not wait. -/
def ready : Readings := ⟨true, true, fun _ => 0⟩

/-- The state after some steps. -/
def after (s : StableSystem τ) : List (StableStep τ) → Option (StableSystem τ)
  | [] => some s
  | st :: sts => (s.step st).bind fun s => after s sts

theorem Run.after {ok : StableSystem τ → StableStep τ → Prop} {sts : List (StableStep τ)}
    (hok : ∀ st ∈ sts, ∀ s, ok s st) (hr : Run config ok s) (hs : s.after sts = some s') :
    Run config ok s' := by
  induction sts generalizing s with
  | nil =>
    cases hs
    exact hr
  | cons st sts ih =>
    obtain ⟨s1, h1, h2⟩ := Option.bind_eq_some_iff.1 hs
    exact ih (fun st hst => hok st (List.mem_cons_of_mem _ hst))
      (hr.step (hok st List.mem_cons_self s) h1) h2

/-- Two threads put a key each, and one fsync is for both. -/
def twoWriters : List (StableStep Bool) :=
  [.append false [1] 1, .append true [2] 2, .await true ready, .coordinator (.endFsync true (.ok ())),
    .await false ready]

theorem run_stable_one : ∃ s : StableSystem Bool, Run ⟨1, 0, 0⟩ InOrder s ∧
    s.acked = [([1], 1)] ∧ 1 ≤ s.stableLsn := by
  have hops := (Option.any_eq_true _ _).1 (show ((new ⟨1, 0, 0⟩ : StableSystem Bool).after
    twoWriters).any (fun s => s.stableLsn = 0 ∧ (s.step (.wake false)).any fun s' =>
      s'.acked = [([1], 1)]) = true by decide +kernel)
  obtain ⟨s, hs, hx⟩ := hops
  obtain ⟨h0, hstep⟩ := of_decide_eq_true hx
  obtain ⟨s', hs', hacked⟩ := (Option.any_eq_true _ _).1 hstep
  have hok : ∀ st ∈ twoWriters, ∀ s, InOrder s st := by
    intro st hst s t key lsn he
    subst he
    simp [twoWriters] at hst
  have hr := Run.new.after hok hs
  have ho : InOrder s (.wake false) := fun t key lsn _ _ _ => by
    rw [h0]
    exact Nat.zero_le _
  have hr' := hr.step ho hs'
  have hacked' := of_decide_eq_true hacked
  exact ⟨s', hr', hacked', ((run_stable_iff hr').1 ([1], 1) (by rw [hacked']; simp)).1⟩

/-- **The stable LSN moves back**: the writer of the second record wakes up first. -/
theorem stable_moves_back : ¬ ∀ s : StableSystem Bool, Run ⟨1, 0, 0⟩ (fun _ _ => True) s →
    (∀ w ∈ s.acked, w.2 ≤ s.stableLsn) ∧
      ∀ st s', s.step st = some s' → s.stableLsn ≤ s'.stableLsn := by
  intro hall
  have hops := (Option.any_eq_true _ _).1 (show ((new ⟨1, 0, 0⟩ : StableSystem Bool).after
    (twoWriters ++ [.wake true])).any (fun s => s.stableLsn = 2 ∧
      (s.step (.wake false)).any fun s' => s'.stableLsn = 1) = true by decide +kernel)
  obtain ⟨s, hs, hx⟩ := hops
  obtain ⟨h2, hstep⟩ := of_decide_eq_true hx
  obtain ⟨s', hs', h1⟩ := (Option.any_eq_true _ _).1 hstep
  have hle := (hall s (Run.new.after (fun _ _ _ => trivial) hs)).2 _ s' hs'
  rw [h2, of_decide_eq_true h1] at hle
  exact absurd hle (by decide)

end StableSystem

end EBTree.Engine
