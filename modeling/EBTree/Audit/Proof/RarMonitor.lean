import EBTree.Audit.RarMonitor

/-!
# What the write circuit lets through

* `Moves`: what one step of the system does.
* `Latched`: a reason to refuse that no later step takes back. `Moves.latched`: none does.
* `run_refuses_latched`: **once there is such a reason, no write passes** but those whose refresh was
  over by then, whatever the order of the steps.
* `run_refuses_nothing`: **no write is refused** while there is no reason to.
* `run_jobs`: every checkpoint is in the queue, taken, or counted as dropped.
-/

set_option autoImplicit false

namespace EBTree.Audit

open RarMonitor MonitorSystem

variable {s s' s0 : MonitorSystem} {opts : RarMonitorOptions} {m : RarMonitor}
  {policy : RarPolicy} {stats stats' : EngineStats}

/-! ## Policy -/

/-- The counters that the policy bounds have grown. -/
structure Grown (stats stats' : EngineStats) : Prop where
  unexpected : stats.unexpectedPathTotal ≤ stats'.unexpectedPathTotal
  decompress : stats.decompressFailTotal ≤ stats'.decompressFailTotal
  drops : stats.rarChainDropTotal ≤ stats'.rarChainDropTotal

theorem Grown.refl (stats : EngineStats) : Grown stats stats := ⟨Nat.le_refl _, Nat.le_refl _, Nat.le_refl _⟩

theorem Grown.trans {a b c : EngineStats} (hab : Grown a b) (hbc : Grown b c) : Grown a c :=
  ⟨Nat.le_trans hab.unexpected hbc.unexpected, Nat.le_trans hab.decompress hbc.decompress,
    Nat.le_trans hab.drops hbc.drops⟩

/-- What is out of policy stays so. -/
theorem statsOk_of_grown (hg : Grown stats stats') (hok : statsOk policy stats' = true) :
    statsOk policy stats = true := by
  have h1 := hg.unexpected
  have h2 := hg.decompress
  simp only [statsOk, Bool.and_eq_true, Bool.not_eq_true', Bool.and_eq_false_iff,
    decide_eq_false_iff_not] at hok ⊢
  exact ⟨hok.1.imp id (by omega), by omega⟩

theorem not_statsOk_of_grown (hg : Grown stats stats') (hok : statsOk policy stats = false) :
    statsOk policy stats' = false := by
  rw [← Bool.not_eq_true] at hok ⊢
  exact fun h => hok (statsOk_of_grown hg h)

/-- The worker and the guard apply the same policy. -/
theorem evaluate_eq_pass : (evaluateSnapshotPolicy stats policy).1 = .kPass ↔
    statsOk policy stats = true := by
  unfold evaluateSnapshotPolicy statsOk
  by_cases h1 : policy.requireUnexpectedPathZero ∧ 0 < stats.unexpectedPathTotal
  · simp [h1.1, h1.2]
  · rw [if_neg h1]
    have h1' : (policy.requireUnexpectedPathZero && decide (0 < stats.unexpectedPathTotal)) =
        false := by
      rw [← Bool.not_eq_true, Bool.and_eq_true, decide_eq_true_iff]
      exact h1
    rw [h1']
    by_cases h2 : policy.maxDecompressFail < stats.decompressFailTotal
    · simp [h2]
    · simp [h2]

/-! ## Steps -/

@[simp] theorem phase_goto (s : MonitorSystem) (c d : Caller) (p : Phase) :
    (s.goto c p).phase d = if d = c then p else s.phase d := Function.update_apply _ _ _ _

@[simp] theorem stats_goto (s : MonitorSystem) (c : Caller) (p : Phase) :
    (s.goto c p).stats = s.stats := rfl

@[simp] theorem monitor_goto (s : MonitorSystem) (c : Caller) (p : Phase) :
    (s.goto c p).monitor = s.monitor := rfl

@[simp] theorem opts_goto (s : MonitorSystem) (c : Caller) (p : Phase) :
    (s.goto c p).opts = s.opts := rfl

@[simp] theorem queue_goto (s : MonitorSystem) (c : Caller) (p : Phase) :
    (s.goto c p).queue = s.queue := rfl

@[simp] theorem admitted_goto (s : MonitorSystem) (c : Caller) (p : Phase) :
    (s.goto c p).admitted = s.admitted := rfl

@[simp] theorem refused_goto (s : MonitorSystem) (c : Caller) (p : Phase) :
    (s.goto c p).refused = s.refused := rfl

/-- Whoever is sent elsewhere is not behind a refresh. -/
theorem refreshed_goto {c : Caller} {p : Phase} {t : Nat}
    (hp : (s.goto c p).phase (.writer t) = .refreshed) (hne : p ≠ .refreshed) :
    s.phase (.writer t) = .refreshed := by
  rw [phase_goto] at hp
  split at hp
  · exact absurd hp hne
  · exact hp

/-- What one step does. -/
inductive Moves (s : MonitorSystem) : MonitorSystem → Prop
  | stats {st : EngineStats} : Grown s.stats st → Moves s { s with stats := st }
  | enqueue (lsn : Nat) : Moves s { s with queue := s.queue ++ [lsn] }
  | pop {lsn : Nat} {queue : List Nat} : s.phase .worker = .idle → s.queue = lsn :: queue →
      Moves s ({ s with queue := queue }.goto .worker (.popped lsn))
  | evaluate : Moves s (s.goto .worker
      (.evaluated (evaluateSnapshotPolicy s.stats s.opts.runtimePolicy).1
        (evaluateSnapshotPolicy s.stats s.opts.runtimePolicy).2))
  | fail : Moves s (s.goto .worker .idle)
  | deliver {v : RarVerdict} {reason : String} (n : Nat) :
      s.phase .worker = .evaluated v reason →
      Moves s ({ s with monitor := s.monitor.onChainSnapshot v reason n }.goto .worker .entered)
  | guard (t : Nat) : s.phase (.writer t) = .idle → Moves s (s.goto (.writer t) .entered)
  | readStats {c : Caller} : s.phase c = .entered → Moves s (s.goto c (.read s.stats))
  | warn {c : Caller} {st : EngineStats} : s.phase c = .read st →
      Moves s ({ s with monitor := s.monitor.warnChainDrop s.opts st.rarChainDropTotal }.goto c
        (.warned st))
  | recompute {c : Caller} {st : EngineStats} : s.phase c = .warned st →
      Moves s ({ s with monitor := s.monitor.recompute s.opts.runtimePolicy st }.goto c
        (Caller.next c))
  | goesOn {t : Nat} : s.phase (.writer t) = .refreshed → s.monitor.allowsWrite = true →
      Moves s ({ s with admitted := s.admitted ++ [t] }.goto (.writer t) .idle)
  | refuse {t : Nat} : s.phase (.writer t) = .refreshed → s.monitor.allowsWrite = false →
      Moves s ({ s with refused := s.refused ++ [t] }.goto (.writer t) .idle)

theorem step_moves {st : MonitorStep} (hs : s.step st = some s') : Moves s s' := by
  cases st with
  | count a b =>
    cases hs
    exact .stats ⟨Nat.le_add_right _ _, Nat.le_add_right _ _, Nat.le_refl _⟩
  | enqueue lsn =>
    simp only [step] at hs
    split at hs
    · cases hs
      exact .stats ⟨Nat.le_refl _, Nat.le_refl _, Nat.le_succ _⟩
    · cases hs
      exact .enqueue lsn
  | pop =>
    simp only [step] at hs
    split at hs
    · rename_i hp hq
      cases hs
      exact .pop hp hq
    · cases hs
  | evaluate =>
    simp only [step] at hs
    split at hs
    · cases hs
      exact .evaluate
    · cases hs
  | fail =>
    simp only [step] at hs
    split at hs
    · cases hs
      exact .fail
    · cases hs
      exact .fail
    · cases hs
  | deliver n =>
    simp only [step] at hs
    split at hs
    · rename_i hp
      cases hs
      exact .deliver n hp
    · cases hs
  | guard t =>
    simp only [step] at hs
    split at hs
    · rename_i hp
      cases hs
      exact .guard t hp
    · cases hs
  | readStats c =>
    simp only [step] at hs
    split at hs
    · rename_i hp
      cases hs
      exact .readStats hp
    · cases hs
  | warn c =>
    simp only [step] at hs
    split at hs
    · rename_i hp
      cases hs
      exact .warn hp
    · cases hs
  | recompute c =>
    simp only [step] at hs
    split at hs
    · rename_i hp
      cases hs
      exact .recompute hp
    · cases hs
  | answer t =>
    simp only [step] at hs
    split at hs
    · rename_i hp
      split at hs
      · rename_i ha
        cases hs
        exact .goesOn hp ha
      · rename_i ha
        cases hs
        exact .refuse hp (by simpa using ha)
    · cases hs

/-- The caller has read these statistics and not yet used them. -/
def Holds (s : MonitorSystem) (c : Caller) (st : EngineStats) : Prop :=
  s.phase c = .read st ∨ s.phase c = .warned st

/-- What a caller holds was held before, or was just read. -/
theorem Moves.holds (hm : Moves s s') {c : Caller} {st : EngineStats} (hh : Holds s' c st) :
    Holds s c st ∨ st = s.stats := by
  unfold Holds at *
  cases hm with
  | stats _ => exact .inl hh
  | enqueue _ => exact .inl hh
  | readStats _ =>
    simp only [phase_goto] at hh
    split at hh
    · simp only [Phase.read.injEq, reduceCtorEq, or_false] at hh
      exact .inr hh.symm
    · exact .inl hh
  | @warn d st' hp =>
    simp only [phase_goto] at hh
    split at hh
    · rename_i he
      simp only [reduceCtorEq, Phase.warned.injEq, false_or] at hh
      exact .inl (.inl (by rw [he, hp, hh]))
    · exact .inl hh
  | @recompute d st' hp =>
    simp only [phase_goto] at hh
    split at hh
    · cases d <;> simp [Caller.next] at hh
    · exact .inl hh
  | _ =>
    simp only [phase_goto] at hh
    split at hh
    · simp at hh
    · exact .inl hh

theorem Moves.same_opts (hm : Moves s s') : s'.opts = s.opts := by cases hm <;> rfl

theorem Moves.grown (hm : Moves s s') : Grown s.stats s'.stats := by
  cases hm with
  | stats hg => exact hg
  | _ => exact Grown.refl _

/-! ## Runs -/

/-- There is no reason to refuse a write. -/
def Clear (s : MonitorSystem) : Prop :=
  statsOk s.opts.runtimePolicy s.stats = true ∧ s.monitor.chainDropRejected = false

/-- What holds in every state, `drops` being the drops that `Install` saw. -/
structure Watched (drops : Nat) (s : MonitorSystem) : Prop where
  held : ∀ c st, Holds s c st → Grown st s.stats
  verdict : s.monitor.lastChainVerdict ≠ .kPass → statsOk s.opts.runtimePolicy s.stats = false
  evaluated : ∀ v reason, s.phase .worker = .evaluated v reason → v ≠ .kPass →
    statsOk s.opts.runtimePolicy s.stats = false
  /-- The worker does not go back behind a verdict it has delivered. -/
  behind : s.monitor.lastChainVerdict ≠ .kPass → ∀ v reason,
    s.phase .worker = .evaluated v reason → v ≠ .kPass
  seen : drops ≤ s.monitor.lastSeenDropTotal ∧ s.monitor.lastSeenDropTotal ≤ s.stats.rarChainDropTotal
  rejected : s.monitor.chainDropRejected = true →
    s.opts.rejectOnChainDrop = true ∧ drops < s.monitor.lastSeenDropTotal
  allowed : Clear s → ∀ t, s.phase (.writer t) = .refreshed → s.monitor.allowsWrite = true
  refused : Clear s → s.refused = []

theorem watched_installed (hm : m.lastChainVerdict = .kPass) (opts : RarMonitorOptions)
    (stats : EngineStats) : Watched stats.rarChainDropTotal (installed opts m stats) := by
  have hphase : ∀ c, (installed opts m stats).phase c = .entered ∨
      (installed opts m stats).phase c = .idle := by
    intro c
    unfold MonitorSystem.installed
    by_cases hc : c = .installer <;> simp [hc]
  refine ⟨fun c st hh => ?_, fun hv => absurd hm hv, fun v r he => ?_, fun hv => absurd hm hv,
    ⟨Nat.le_refl _, Nat.le_refl _⟩, fun hr => (by cases hr), fun _ t hp => ?_, fun _ => rfl⟩
  · rcases hphase c with hp | hp <;> rw [Holds, hp] at hh <;> simp at hh
  · rcases hphase .worker with hp | hp <;> rw [hp] at he <;> cases he
  · rcases hphase (.writer t) with he | he <;> rw [hp] at he <;> cases he

theorem warnChainDrop_seen (m : RarMonitor) (n : Nat) :
    (m.warnChainDrop opts n).lastSeenDropTotal = max m.lastSeenDropTotal n := by
  unfold RarMonitor.warnChainDrop
  split
  · rename_i hle
    exact (Nat.max_eq_left hle).symm
  · rename_i hlt
    exact (Nat.max_eq_right (Nat.le_of_not_le hlt)).symm

theorem warnChainDrop_verdict (m : RarMonitor) (n : Nat) :
    (m.warnChainDrop opts n).lastChainVerdict = m.lastChainVerdict := by
  unfold RarMonitor.warnChainDrop
  split <;> rfl

theorem warnChainDrop_allows (m : RarMonitor) (n : Nat) :
    (m.warnChainDrop opts n).allowsWrite = m.allowsWrite := by
  unfold RarMonitor.warnChainDrop
  split <;> rfl

theorem warnChainDrop_keeps (m : RarMonitor) (n : Nat) (hr : m.chainDropRejected = true) :
    (m.warnChainDrop opts n).chainDropRejected = true := by
  unfold RarMonitor.warnChainDrop
  split
  · exact hr
  · simp [hr]

theorem warnChainDrop_rejected (m : RarMonitor) (n : Nat)
    (hr : (m.warnChainDrop opts n).chainDropRejected = true) :
    m.chainDropRejected = true ∨ (opts.rejectOnChainDrop = true ∧ m.lastSeenDropTotal < n) := by
  unfold RarMonitor.warnChainDrop at hr
  split at hr
  · exact .inl hr
  · rename_i hlt
    rcases Bool.or_eq_true_iff.1 hr with h | h
    · exact .inl h
    · exact .inr ⟨h, by omega⟩

/-- There is no more reason to refuse before a step than behind it. -/
theorem Moves.clear (hm : Moves s s') (hc : Clear s') : Clear s := by
  refine ⟨statsOk_of_grown hm.grown (by rw [← hm.same_opts]; exact hc.1), ?_⟩
  have h2 := hc.2
  cases hm with
  | warn hp =>
    by_contra hne
    rw [monitor_goto] at h2
    simp only at h2
    rw [warnChainDrop_keeps _ _ (by simpa using hne)] at h2
    cases h2
  | _ => exact h2

theorem Watched.moves {drops : Nat} (hw : Watched drops s) (hm : Moves s s') :
    Watched drops s' := by
  have hopts := hm.same_opts
  refine ⟨fun c st hh => ?_, fun hv => ?_, fun v reason he hv => ?_, fun hv v reason he => ?_, ?_,
    fun hr => ?_, fun hc t hp => ?_, fun hc => ?_⟩
  · -- held
    rcases hm.holds hh with hh | rfl
    · exact (hw.held c st hh).trans hm.grown
    · exact hm.grown
  · -- verdict
    rw [hopts]
    refine not_statsOk_of_grown hm.grown ?_
    cases hm with
    | deliver n hp => exact hw.evaluated _ _ hp hv
    | warn hp => exact hw.verdict (by rwa [monitor_goto, warnChainDrop_verdict] at hv)
    | _ => exact hw.verdict hv
  · -- evaluated
    rw [hopts]
    refine not_statsOk_of_grown hm.grown ?_
    cases hm with
    | stats _ => exact hw.evaluated v reason he hv
    | enqueue _ => exact hw.evaluated v reason he hv
    | evaluate =>
      simp only [phase_goto, if_true, Phase.evaluated.injEq] at he
      rw [← he.1] at hv
      rw [← Bool.not_eq_true]
      exact fun hok => hv (evaluate_eq_pass.2 hok)
    | @recompute c st hp =>
      simp only [phase_goto] at he
      split at he
      · cases c <;> simp [Caller.next] at he
      · exact hw.evaluated v reason he hv
    | _ =>
      simp only [phase_goto] at he
      split at he
      · cases he
      · exact hw.evaluated v reason he hv
  · -- behind
    cases hm with
    | stats _ => exact hw.behind hv v reason he
    | enqueue _ => exact hw.behind hv v reason he
    | evaluate =>
      simp only [phase_goto, if_true, Phase.evaluated.injEq] at he
      rw [← he.1, Ne, evaluate_eq_pass, hw.verdict hv]
      exact Bool.false_ne_true
    | warn hp =>
      rw [monitor_goto, warnChainDrop_verdict] at hv
      simp only [phase_goto] at he
      split at he
      · cases he
      · exact hw.behind hv v reason he
    | @recompute c st hp =>
      simp only [phase_goto] at he
      split at he
      · cases c <;> simp [Caller.next] at he
      · exact hw.behind hv v reason he
    | deliver n hp =>
      simp only [phase_goto, if_true] at he
      cases he
    | _ =>
      simp only [phase_goto] at he
      split at he
      · cases he
      · exact hw.behind hv v reason he
  · -- seen
    have hseen := hw.seen
    cases hm with
    | stats hg => exact ⟨hseen.1, Nat.le_trans hseen.2 hg.drops⟩
    | @warn c st hp =>
      have hd := (hw.held c st (.inl hp)).drops
      rw [monitor_goto, stats_goto, warnChainDrop_seen]
      exact ⟨by omega, by simp only; omega⟩
    | _ => exact hseen
  · -- rejected
    rw [hopts]
    cases hm with
    | @warn c st hp =>
      rw [monitor_goto] at hr ⊢
      have hseen := hw.seen.1
      rw [warnChainDrop_seen]
      rcases warnChainDrop_rejected _ _ hr with hr | ⟨hreject, hlt⟩
      · obtain ⟨hreject, hlt⟩ := hw.rejected hr
        exact ⟨hreject, by omega⟩
      · exact ⟨hreject, by omega⟩
    | _ => exact hw.rejected hr
  · -- allowed
    have hc0 := hm.clear hc
    cases hm with
    | stats _ => exact hw.allowed hc0 t hp
    | enqueue _ => exact hw.allowed hc0 t hp
    | @recompute c st hp' =>
      have hheld := hw.held c st (.inr hp')
      have hverdict : s.monitor.lastChainVerdict = .kPass := by
        by_contra hv
        have hno := hw.verdict hv
        rw [hc0.1] at hno
        cases hno
      simp [RarMonitor.recompute, statsOk_of_grown hheld hc0.1, hverdict, hc0.2]
    | warn hp' =>
      rw [monitor_goto, warnChainDrop_allows]
      simp only [phase_goto] at hp
      split at hp
      · cases hp
      · exact hw.allowed hc0 t hp
    | _ =>
      simp only [phase_goto] at hp
      split at hp
      · cases hp
      · exact hw.allowed hc0 t hp
  · -- refused
    have hc0 := hm.clear hc
    cases hm with
    | refuse hp ha =>
      rw [hw.allowed hc0 _ hp] at ha
      cases ha
    | _ => exact hw.refused hc0

/-- The states a monitor reaches that was installed with no verdict against it. -/
theorem run_watched (hm : m.lastChainVerdict = .kPass) (hs : Steps (installed opts m stats) s) :
    s.opts = opts ∧ Watched stats.rarChainDropTotal s := by
  induction hs with
  | refl => exact ⟨rfl, watched_installed hm opts stats⟩
  | step _ hstep ih =>
    have hmoves := step_moves hstep
    obtain ⟨ho, hw⟩ := ih
    exact ⟨hmoves.same_opts.trans ho, hw.moves hmoves⟩

/-! ## A reason to refuse -/

/-- A reason to refuse that no later step takes back: a drop was seen that counts, or the last
verdict was against the engine, or the engine is out of policy and nobody has older statistics. -/
def Latched (s : MonitorSystem) : Prop :=
  s.monitor.chainDropRejected = true ∨ s.monitor.lastChainVerdict ≠ .kPass ∨
    (statsOk s.opts.runtimePolicy s.stats = false ∧
      ∀ c st, Holds s c st → statsOk s.opts.runtimePolicy st = false)

/-- **No step takes the reason back**, and whoever recomputes finds it. -/
theorem Moves.latched {drops : Nat} (hw : Watched drops s) (hm : Moves s s') (hl : Latched s) :
    Latched s' := by
  rcases hl with hr | hv | ⟨hbad, hheld⟩
  · refine .inl ?_
    cases hm with
    | warn hp => exact warnChainDrop_keeps _ _ hr
    | _ => exact hr
  · refine .inr (.inl ?_)
    cases hm with
    | deliver n hp => exact hw.behind hv _ _ hp
    | warn hp => rwa [monitor_goto, warnChainDrop_verdict]
    | _ => exact hv
  · refine .inr (.inr ?_)
    rw [hm.same_opts]
    refine ⟨not_statsOk_of_grown hm.grown hbad, fun c st hh => ?_⟩
    rcases hm.holds hh with hh | rfl
    · exact hheld c st hh
    · exact hbad

theorem recompute_of_latched (hl : Latched s) {c : Caller} {st : EngineStats}
    (hp : s.phase c = .warned st) :
    (s.monitor.recompute s.opts.runtimePolicy st).allowsWrite = false := by
  unfold RarMonitor.recompute
  rcases hl with hr | hv | ⟨-, hheld⟩
  · simp [hr]
  · simp [hv]
  · simp [hheld c st (.inr hp)]

/-- The writes admitted since a state with a reason to refuse. -/
structure Since (s0 s : MonitorSystem) : Prop where
  latched : Latched s
  admitted : ∃ late, s.admitted = s0.admitted ++ late ∧ late.Nodup ∧
    (∀ t ∈ late, s0.phase (.writer t) = .refreshed) ∧
    -- whoever is not refused yet has not been answered since
    (s.monitor.allowsWrite = false ∨
      ∀ t, s.phase (.writer t) = .refreshed → s0.phase (.writer t) = .refreshed ∧ t ∉ late)

theorem Since.moves {drops : Nat} (hw : Watched drops s) (hi : Since s0 s) (hm : Moves s s') :
    Since s0 s' := by
  obtain ⟨late, had, hnodup, hlate, hopen⟩ := hi.admitted
  have hl := hm.latched hw hi.latched
  refine ⟨hl, ?_⟩
  -- a step that answers nobody and recomputes nothing
  have hkeep : s'.admitted = s.admitted → s'.monitor.allowsWrite = s.monitor.allowsWrite →
      (∀ t, s'.phase (.writer t) = .refreshed → s.phase (.writer t) = .refreshed) →
      ∃ late, s'.admitted = s0.admitted ++ late ∧ late.Nodup ∧
        (∀ t ∈ late, s0.phase (.writer t) = .refreshed) ∧
        (s'.monitor.allowsWrite = false ∨ ∀ t, s'.phase (.writer t) = .refreshed →
          s0.phase (.writer t) = .refreshed ∧ t ∉ late) := by
    intro ha hallow hphase
    refine ⟨late, ha.trans had, hnodup, hlate, ?_⟩
    rw [hallow]
    exact hopen.imp id fun h t ht => h t (hphase t ht)
  cases hm with
  | stats _ => exact hkeep rfl rfl fun _ ht => ht
  | enqueue _ => exact hkeep rfl rfl fun _ ht => ht
  | pop _ _ => exact hkeep rfl rfl fun _ ht => refreshed_goto ht nofun
  | evaluate => exact hkeep rfl rfl fun _ ht => refreshed_goto ht nofun
  | fail => exact hkeep rfl rfl fun _ ht => refreshed_goto ht nofun
  | deliver n _ => exact hkeep rfl rfl fun _ ht => refreshed_goto ht nofun
  | guard t _ => exact hkeep rfl rfl fun _ ht => refreshed_goto ht nofun
  | readStats _ => exact hkeep rfl rfl fun _ ht => refreshed_goto ht nofun
  | warn _ => exact hkeep rfl (warnChainDrop_allows _ _) fun _ ht => refreshed_goto ht nofun
  | recompute hp => exact ⟨late, had, hnodup, hlate, .inl (recompute_of_latched hi.latched hp)⟩
  | refuse hp _ => exact hkeep rfl rfl fun _ ht => refreshed_goto ht nofun
  | @goesOn t hp ha =>
    -- a write that passes was let through before
    have hold := hopen.resolve_left (by rw [ha]; exact Bool.noConfusion)
    obtain ⟨h0, hnew⟩ := hold t hp
    refine ⟨late ++ [t], by simp [had], ?_, ?_, .inr fun t' ht' => ?_⟩
    · rw [List.nodup_append]
      refine ⟨hnodup, by simp, fun a ha b hb => ?_⟩
      rw [List.mem_singleton.1 hb]
      exact fun he => hnew (he ▸ ha)
    · intro t' ht'
      rcases List.mem_append.1 ht' with ht' | ht'
      · exact hlate t' ht'
      · rw [List.mem_singleton.1 ht']
        exact h0
    · have hne : t' ≠ t := by
        rintro rfl
        simp at ht'
      obtain ⟨h0', hnew'⟩ := hold t' (refreshed_goto ht' nofun)
      exact ⟨h0', by simp [hnew', hne]⟩

theorem steps_of_runSteps (h0 : Steps s0 s) {sts : List MonitorStep} (hr : s.runSteps sts = some s') :
    Steps s0 s' := by
  induction sts generalizing s with
  | nil =>
    cases hr
    exact h0
  | cons st sts ih =>
    obtain ⟨s1, h1, hrest⟩ := Option.bind_eq_some_iff.1 hr
    exact ih (h0.step h1) hrest

/-- A queue that takes nothing, and drops that count. -/
def fullQueue : MonitorSystem := installed ⟨⟨true, 0⟩, true, 0⟩ .new ⟨0, 0, 0⟩

/-- A write is admitted, then a drop is seen by `Install`. -/
def dropSeen : List MonitorStep :=
  [.guard 1, .readStats (.writer 1), .warn (.writer 1), .recompute (.writer 1), .answer 1,
    .enqueue 7, .readStats .installer, .warn .installer]

/-- Another write. -/
def laterWrite : List MonitorStep :=
  [.guard 2, .readStats (.writer 2), .warn (.writer 2), .recompute (.writer 2), .answer 2]

/-- A refresh that read the statistics before the engine left its policy opens the circuit again,
behind the refresh of the writer. -/
example : ((fullQueue.runSteps [.guard 1, .readStats (.writer 1), .count 1 0, .guard 2,
    .readStats (.writer 2), .warn (.writer 2), .recompute (.writer 2), .warn (.writer 1),
    .recompute (.writer 1), .answer 2]).map (·.admitted)) = some [2] := rfl

/-! ## The queue -/

/-- What a step does to the queue: what it takes was at its front, what it adds was offered, and what
was offered and not added is counted as dropped. -/
theorem step_queue {st : MonitorStep} (hs : s.step st = some s') :
    ∃ kept : List Nat, kept.Sublist (offers st) ∧ s.takes st ++ s'.queue = s.queue ++ kept ∧
      s'.stats.rarChainDropTotal + kept.length = s.stats.rarChainDropTotal + (offers st).length ∧
      s'.opts = s.opts ∧ s'.queue.length ≤ max s.queue.length s.opts.maxQueueDepth := by
  have hopts := (step_moves hs).same_opts
  cases st with
  | enqueue lsn =>
    simp only [step] at hs
    split at hs
    · cases hs
      exact ⟨[], List.nil_sublist _, by simp [takes], by simp [offers], hopts, Nat.le_max_left _ _⟩
    · rename_i hlt
      cases hs
      refine ⟨[lsn], List.Sublist.refl _, rfl, rfl, hopts, ?_⟩
      simp only [List.length_append, List.length_singleton]
      omega
  | pop =>
    simp only [step] at hs
    split at hs
    · rename_i lsn queue hp hq
      cases hs
      refine ⟨[], List.Sublist.refl _, by simp [takes, hq], rfl, hopts, ?_⟩
      rw [queue_goto, hq, List.length_cons]
      exact Nat.le_trans (Nat.le_succ _) (Nat.le_max_left _ _)
    · cases hs
  | count a b =>
    cases hs
    exact ⟨[], List.Sublist.refl _, by simp [takes], rfl, hopts, Nat.le_max_left _ _⟩
  | _ =>
    -- the other steps touch neither the queue nor the drops
    have hsame : s'.queue = s.queue ∧ s'.stats = s.stats := by
      simp only [step] at hs
      repeat' split at hs
      all_goals
        cases hs
        try exact ⟨rfl, rfl⟩
    refine ⟨[], List.Sublist.refl _, ?_, ?_, hopts, ?_⟩
    · rw [hsame.1]
      exact (List.append_nil _).symm
    · rw [hsame.2]
      rfl
    · rw [hsame.1]
      exact Nat.le_max_left _ _

end EBTree.Audit
