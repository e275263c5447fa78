import EBTree.Engine.Proof.Fold
import EBTree.Engine.Proof.Steps
import EBTree.Wal.Proof.Log

/-!
# What a call leaves alone

* `ReadKeeps`: what the moves of a read keep, a read keeps (`ReadKeeps.get`, `ReadKeeps.scan`, …).
  `get_reads`, `getAtSnapshot_reads`, …: a read changes the tree in memory, the memtable, the cache
  and what is known about the replay, and nothing else (`Reads`).
* `step_pins`: the calls that are not pins leave the pins alone.
* `adds_write`, `adds_control`, …: what a call adds to the log (`Adds`), and `step_keeps`: a record of
  the log after a call was there before, or belongs to no transaction.
-/

set_option autoImplicit false

namespace EBTree.Engine

open Lib Wal BTree ShardEngine

namespace ShardEngine

/-! ## Reads -/

/-- Nothing changed but what a read may change. -/
def Reads (s s' : ShardEngine) : Prop :=
  s' = { s with
    btree := s'.btree
    memtable := s'.memtable
    sfsCache := s'.sfsCache
    recoveryState := s'.recoveryState
    walReplayPending := s'.walReplayPending }

variable {s s' s'' : ShardEngine} {key : Key}

theorem Reads.refl (s : ShardEngine) : Reads s s := rfl

theorem Reads.of_eq (h : s' = s) : Reads s s' := h ▸ Reads.refl s

theorem Reads.trans (h : Reads s s') (h' : Reads s' s'') : Reads s s'' := by
  rw [Reads] at *
  rw [h', h]

theorem Reads.wal (h : Reads s s') : s'.wal = s.wal := by rw [h]

theorem Reads.pins (h : Reads s s') : s'.snapshotPinCount = s.snapshotPinCount := by rw [h]

theorem reads_ensureWalReplayed (s : ShardEngine) : Reads s s.ensureWalReplayed := by
  obtain ⟨pending, state, he⟩ := ensureWalReplayed_eq s
  rw [he]
  rfl

/-- What the moves of a read keep: a record taken out of the log, the log replayed, and the summary
repaired where it is behind the snapshot. -/
structure ReadKeeps (snapshot : ShardEngine → Nat) (P : ShardEngine → Prop) : Prop where
  restore : ∀ {s s' key}, P s → s.restoreKeyFromWal key = some s' → P s'
  replay : ∀ {s}, P s → P s.ensureWalReplayed.refreshRecoveryState
  repair : ∀ {s}, P s → s.Stale (snapshot s) → P s.repairSummary

namespace ReadKeeps

variable {snapshot : ShardEngine → Nat} {n : Nat} {P : ShardEngine → Prop}

theorem beforeScan (hk : ReadKeeps snapshot P) (hs : P s) : P s.beforeScan := by
  unfold ShardEngine.beforeScan
  split
  · exact hk.replay hs
  · exact hs

theorem prepareSnapshotRead (hk : ReadKeeps (fun _ => n) P) (hs : P s) :
    P (s.prepareSnapshotRead n) := by
  show P (if 0 < n ∧ s.beforeScan.btree.summary.summaryLsn < n
    then s.beforeScan.repairSummary else s.beforeScan)
  split
  · rename_i hstale
    exact hk.repair (hk.beforeScan hs) hstale
  · exact hk.beforeScan hs

theorem readRestored {snapshotLsn : Nat} {r : Except Status Version}
    (hs : P s) (h : s.readRestored key snapshotLsn = some (s', r)) : P s' := by
  obtain ⟨_, -, h⟩ := Option.map_eq_some_iff.1 h
  cases h
  exact hs

/-- A key is restored, and read. -/
theorem restored (hk : ReadKeeps snapshot P) {snapshotLsn : Nat} {s1 : ShardEngine}
    {r : Option Version} (hs : P s) (hr : s.restoreKeyFromWal key = some s1)
    (h : (s1.readRestored key snapshotLsn).map (fun x => (x.1, x.2.toOption)) = some (s', r)) :
    P s' := by
  obtain ⟨⟨s2, r2⟩, h2, h⟩ := Option.map_eq_some_iff.1 h
  cases h
  exact readRestored (hk.restore hs hr) h2

theorem tryDisk (hk : ReadKeeps snapshot P) {snapshotLsn : Nat} {hit : Option Nat}
    {r : Option Version} (hs : P s) (h : s.tryDisk key snapshotLsn hit = some (s', r)) : P s' := by
  unfold ShardEngine.tryDisk at h
  simp only at h
  split at h
  · cases h
    exact hs
  split at h
  · split at h
    · rename_i hr
      exact hk.restored hs hr h
    · cases h
      exact hs
  · cases h
    exact hs

theorem tryLazyWalOrDisk (hk : ReadKeeps snapshot P) {snapshotLsn : Nat} {r : Option Version}
    (hs : P s) (h : s.tryLazyWalOrDisk key snapshotLsn = some (s', r)) : P s' := by
  unfold ShardEngine.tryLazyWalOrDisk at h
  split at h
  · cases h
  simp only at h
  split at h
  · split at h
    · split at h
      · rename_i hr
        exact hk.restored hs hr h
      · exact hk.tryDisk hs h
    · exact hk.tryDisk hs h
  · rw [if_neg Bool.false_ne_true] at h
    exact hk.tryDisk hs h

theorem getExclusive (hk : ReadKeeps (·.stableLsn) P) {r : Except Status Version} (hs : P s)
    (h : s.getExclusive key = some (s', r)) : P s' := by
  unfold ShardEngine.getExclusive at h
  simp only at h
  generalize hs1 : (if 0 < s.stableLsn ∧ s.btree.summary.summaryLsn < s.stableLsn
    then s.repairSummary else s) = s1 at h
  have h1 : P s1 := by
    rw [← hs1]
    split
    · rename_i hstale
      exact hk.repair hs hstale
    · exact hs
  generalize hs2 : (if s1.walReplayPending = true ∧ s1.recoveryMode ≠ .kLazy
    then s1.ensureWalReplayed.refreshRecoveryState else s1) = s2 at h
  have h2 : P s2 := by
    rw [← hs2]
    exact hk.beforeScan h1
  split at h
  · cases h
  · cases h
    exact h2
  · split at h
    · split at h
      · cases h
      · rename_i ht
        cases h
        exact hk.tryLazyWalOrDisk h2 ht
      · rename_i ht
        cases h
        exact hk.tryLazyWalOrDisk h2 ht
    · cases h
      exact h2

theorem getRest (hk : ReadKeeps (·.stableLsn) P) {rs : Except Status Version} {stale : Bool}
    {r : Except Status Version} (hs : P s) (h : s.getRest key rs stale = some (s', r)) : P s' := by
  unfold ShardEngine.getRest at h
  simp only at h
  split at h
  · rename_i s1 hr
    have hr : s.restoreKeyFromWal key = some s1 := by
      split at hr
      · exact hr
      · cases hr
    exact readRestored (hk.restore hs hr) h
  split at h
  · cases h
    exact hs
  · exact hk.getExclusive hs h

theorem get (hk : ReadKeeps (·.stableLsn) P) {r : Except Status Version} (hs : P s)
    (h : s.get key = some (s', r)) : P s' := by
  unfold ShardEngine.get at h
  split at h
  · cases h
    exact hs
  simp only at h
  split at h
  · cases h
  split at h
  · cases h
    exact hs
  split at h
  · split at h
    · cases h
    · rename_i ht
      cases h
      exact hk.tryLazyWalOrDisk hs ht
    · rename_i ht
      exact hk.getRest (hk.tryLazyWalOrDisk hs ht) h
  · exact hk.getRest hs h

theorem getAtSnapshot {ctx : SnapshotReadContext} (hk : ReadKeeps (fun _ => ctx.snapshotLsn) P)
    {r : Except Status Version} (hs : P s) (h : s.getAtSnapshot key ctx = some (s', r)) : P s' := by
  rcases getAtSnapshot_state h with rfl | rfl
  · exact hs
  · exact hk.prepareSnapshotRead hs

theorem scan {plan : TypedPlan} (hk : ReadKeeps (fun _ => plan.snapshotLsn) P)
    {r : Except Status (List Row)} (hs : P s) (h : s.scan plan = some (s', r)) : P s' := by
  rcases scan_state h with rfl | ⟨hstale, rfl⟩
  · exact hk.beforeScan hs
  · exact hk.repair (hk.beforeScan hs) hstale

theorem scanAtSnapshot {plan : TypedPlan} {ctx : SnapshotReadContext}
    (hk : ReadKeeps (fun _ => ctx.snapshotLsn) P) {r : Except Status (List Row)} (hs : P s)
    (h : s.scanAtSnapshot plan ctx = some (s', r)) : P s' := by
  rcases scanAtSnapshot_state h with rfl | ⟨hstale, rfl⟩
  · exact hk.prepareSnapshotRead hs
  · exact hk.repair (hk.prepareSnapshotRead hs) hstale

end ReadKeeps

/-- Reads are made of these moves. -/
theorem readKeeps_reads (s : ShardEngine) (snapshot : ShardEngine → Nat) :
    ReadKeeps snapshot (Reads s) where
  restore hs h := by
    obtain ⟨r, -, rfl⟩ := Option.map_eq_some_iff.1 h
    exact hs.trans rfl
  replay hs := (hs.trans (reads_ensureWalReplayed _)).trans rfl
  repair hs _ := hs.trans rfl

theorem get_reads {r : Except Status Version} (h : s.get key = some (s', r)) : Reads s s' :=
  (readKeeps_reads s _).get (Reads.refl s) h

theorem getAtSnapshot_reads {ctx : SnapshotReadContext} {r : Except Status Version}
    (h : s.getAtSnapshot key ctx = some (s', r)) : Reads s s' :=
  (readKeeps_reads s _).getAtSnapshot (Reads.refl s) h

theorem scan_reads {plan : TypedPlan} {r : Except Status (List Row)}
    (h : s.scan plan = some (s', r)) : Reads s s' :=
  (readKeeps_reads s _).scan (Reads.refl s) h

theorem scanAtSnapshot_reads {plan : TypedPlan} {ctx : SnapshotReadContext}
    {r : Except Status (List Row)} (h : s.scanAtSnapshot plan ctx = some (s', r)) : Reads s s' :=
  (readKeeps_reads s _).scanAtSnapshot (Reads.refl s) h

theorem resolveLsnAtSnapshot_reads {snapshotLsn : Nat} {r : Except Status Nat}
    (h : s.resolveLsnAtSnapshot key snapshotLsn = some (s', r)) : Reads s s' := by
  obtain ⟨cache, rfl⟩ := resolveLsnAtSnapshot_state h
  rfl

/-- The log takes in what is behind its end, and the rest is a read. -/
theorem reads_refreshExternalWalIfPending (s : ShardEngine) :
    Reads { s with wal := s.wal.syncExternalTailLocked } s.refreshExternalWalIfPending := by
  unfold ShardEngine.refreshExternalWalIfPending
  simp only
  split
  · exact Reads.refl _
  · have hpending (b : Bool) : Reads { s with wal := s.wal.syncExternalTailLocked }
        { s with wal := s.wal.syncExternalTailLocked, walReplayPending := b } := rfl
    exact (hpending _).trans (reads_ensureWalReplayed _)

/-! ## Pins -/

theorem acknowledge_frame (s : ShardEngine) (lsn : Nat) :
    s.acknowledge lsn = { s with
      wal := (s.acknowledge lsn).wal
      stableLsn := (s.acknowledge lsn).stableLsn
      groupCommit := (s.acknowledge lsn).groupCommit } := by
  unfold acknowledge groupCommitNow
  simp only
  split
  · rfl
  split
  · rfl
  split
  · split
    · split <;> rfl
    · rfl
  · rfl

theorem pins_groupCommitNow (s : ShardEngine) :
    s.groupCommitNow.snapshotPinCount = s.snapshotPinCount := by
  unfold groupCommitNow
  split <;> rfl

theorem pins_write (s : ShardEngine) (r : WriteRequest) :
    (s.write r).1.snapshotPinCount = s.snapshotPinCount := by
  have he := (reads_ensureWalReplayed s).pins
  rcases write_cases s r with ⟨-, hw⟩ | ⟨-, ⟨w, e, -, hw⟩ | ⟨w, lsn, -, hw⟩⟩
  · rw [hw]
  · rw [hw]
    exact he
  · rw [hw, acknowledge_frame]
    exact he

theorem flush_pins {ord : IterOrder} {st : Except Status Unit} (h : s.flush ord = some (s', st)) :
    s'.snapshotPinCount = s.snapshotPinCount := by
  rw [flushInternal_frame h]
  exact (reads_ensureWalReplayed s).pins

theorem beforeFlush_pins (s : ShardEngine) :
    s.beforeFlush.snapshotPinCount = s.snapshotPinCount := by
  unfold beforeFlush
  split
  · rw [pins_groupCommitNow]
    exact (reads_ensureWalReplayed s).pins
  · exact (reads_ensureWalReplayed s).pins

theorem commitSuperBlockInternal_pins {st : Except Status Unit}
    (h : s.commitSuperBlockInternal = some (s', st)) :
    s'.snapshotPinCount = s.snapshotPinCount := by
  rcases commitSuperBlockInternal_cases h with ⟨-, -, rfl⟩ |
    ⟨-, btree, pst, -, ⟨e, -, -, rfl⟩ | ⟨root, -, ⟨e, -, -, rfl⟩ | ⟨-, -, rfl⟩⟩⟩
  · rfl
  · rfl
  · rfl
  · rfl

theorem checkpoint_pins {ord : IterOrder} {hook : CheckpointPhase → Bool}
    {st : Except Status Unit} (h : s.checkpoint ord hook = some (s', st)) :
    s'.snapshotPinCount = s.snapshotPinCount := by
  obtain ⟨s1, st1, hf, hrest⟩ := checkpoint_cases h
  have h1 : s1.snapshotPinCount = s.snapshotPinCount := by
    rw [flushInternal_frame hf]
    exact beforeFlush_pins s
  have hfold : s1.foldWalToVcs.1.snapshotPinCount = s1.snapshotPinCount := by
    obtain ⟨vcs, he, -⟩ := foldWalToVcs_eq s1
    rw [he]
  rcases hrest with rfl | rfl | ⟨stc, hc⟩
  · exact h1
  · exact hfold.trans h1
  · obtain ⟨s2, st2, hs2, ⟨e, -, rfl⟩ | ⟨-, rfl | rfl⟩⟩ := checkpointCommit_cases hc
    · exact (commitSuperBlockInternal_pins hs2).trans (hfold.trans h1)
    · exact (commitSuperBlockInternal_pins hs2).trans (hfold.trans h1)
    · exact (commitSuperBlockInternal_pins hs2).trans (hfold.trans h1)

/-- **Only the pins change the pins**, and opening the shard. -/
theorem step_pins {op : Op} (hpin : ∀ lsn, op ≠ .pinSnapshot lsn) (hrel : op ≠ .releaseSnapshot)
    (hopen : ∀ opts, op ≠ .reopen opts) (hs : s.step op = some s') :
    s'.snapshotPinCount = s.snapshotPinCount := by
  cases op with
  | write r =>
    cases hs
    exact pins_write s r
  | appendTxnBegin txnId snapshotLsn =>
    cases hs
    rfl
  | appendTxnCommit txnId =>
    cases hs
    rfl
  | appendTxnAbort txnId =>
    cases hs
    rfl
  | promoteTxn txnId =>
    cases hs
    rfl
  | clearTxn txnId =>
    cases hs
    rfl
  | pinSnapshot lsn => exact absurd rfl (hpin lsn)
  | releaseSnapshot => exact absurd rfl hrel
  | flush ord =>
    obtain ⟨⟨s1, st⟩, hf, rfl⟩ := Option.map_eq_some_iff.1 hs
    exact flush_pins hf
  | tryFlushBackground ord =>
    obtain ⟨⟨s1, st⟩, hf, rfl⟩ := Option.map_eq_some_iff.1 hs
    unfold ShardEngine.tryFlushBackground at hf
    split at hf
    · cases hf
      rfl
    · exact flush_pins hf
  | checkpoint ord hook =>
    obtain ⟨⟨s1, st⟩, hf, rfl⟩ := Option.map_eq_some_iff.1 hs
    exact checkpoint_pins hf
  | groupCommit =>
    cases hs
    exact pins_groupCommitNow s
  | recoverFull =>
    cases hs
    exact (reads_ensureWalReplayed { s with walReplayPending := false }).pins
  | get key =>
    obtain ⟨⟨s1, st⟩, hf, rfl⟩ := Option.map_eq_some_iff.1 hs
    exact (get_reads hf).pins
  | getAtSnapshot key ctx =>
    obtain ⟨⟨s1, st⟩, hf, rfl⟩ := Option.map_eq_some_iff.1 hs
    exact (getAtSnapshot_reads hf).pins
  | scan plan =>
    obtain ⟨⟨s1, st⟩, hf, rfl⟩ := Option.map_eq_some_iff.1 hs
    exact (scan_reads hf).pins
  | scanAtSnapshot plan ctx =>
    obtain ⟨⟨s1, st⟩, hf, rfl⟩ := Option.map_eq_some_iff.1 hs
    exact (scanAtSnapshot_reads hf).pins
  | resolveLsnAtSnapshot key snapshotLsn =>
    obtain ⟨⟨s1, st⟩, hf, rfl⟩ := Option.map_eq_some_iff.1 hs
    exact (resolveLsnAtSnapshot_reads hf).pins
  | resolveCurrentCommittedLsn key =>
    obtain ⟨⟨s1, st⟩, hf, rfl⟩ := Option.map_eq_some_iff.1 hs
    rw [resolveCurrentCommittedLsn_state hf]
    exact (reads_refreshExternalWalIfPending s).pins
  | reopen opts => exact absurd rfl (hopen opts)

/-! ## The log -/

variable {w w' w'' : WalWriter} {who : WalRecord → Prop} {n m : Nat}

/-- The log of `w'` is that of `w` with at most `n` records more, of which `who` holds. -/
def Adds (who : WalRecord → Prop) (n : Nat) (w w' : WalWriter) : Prop :=
  ∀ rs, Logs w rs → w.maxLsn + n < kWalMagicV2 → ∃ rs', Logs w' rs' ∧
    (∀ r ∈ rs', r ∈ rs ∨ (w.maxLsn < r.lsn ∧ who r)) ∧
    w.maxLsn ≤ w'.maxLsn ∧ w'.maxLsn ≤ w.maxLsn + n

theorem Adds.refl (who : WalRecord → Prop) (w : WalWriter) : Adds who 0 w w := by
  intro rs hl _
  exact ⟨rs, hl, fun r hr => .inl hr, Nat.le_refl _, Nat.le_refl _⟩

theorem Adds.mono (h : Adds who n w w') (hle : n ≤ m) : Adds who m w w' := by
  intro rs hl hroom
  obtain ⟨rs', hl', hr, hge, hle'⟩ := h rs hl (by omega)
  exact ⟨rs', hl', hr, hge, by omega⟩

theorem Adds.trans (h : Adds who n w w') (h' : Adds who m w' w'') : Adds who (n + m) w w'' := by
  intro rs hl hroom
  obtain ⟨rs1, hl1, hr1, hge1, hle1⟩ := h rs hl (by omega)
  obtain ⟨rs2, hl2, hr2, hge2, hle2⟩ := h' rs1 hl1 (by omega)
  refine ⟨rs2, hl2, fun r hr => ?_, by omega, by omega⟩
  rcases hr2 r hr with hr | ⟨hlt, hw⟩
  · exact hr1 r hr
  · exact .inr ⟨by omega, hw⟩

theorem Adds.fsync (who : WalRecord → Prop) (w : WalWriter) : Adds who 0 w w.fsync := by
  intro rs hl _
  exact ⟨rs, hl.fsync, fun r hr => .inl hr, Nat.le_refl _, Nat.le_refl _⟩

theorem Adds.sync (who : WalRecord → Prop) (w : WalWriter) :
    Adds who 0 w w.syncExternalTailLocked := by
  intro rs hl hroom
  rw [hl.syncExternalTailLocked]
  exact Adds.refl who w rs hl hroom

theorem Adds.append {it : WalWriter.Item} (hw : ∀ lsn, who (it.record lsn)) (w : WalWriter) :
    Adds who 1 w (w.append it).1 := by
  intro rs hl hroom
  by_cases hb : it.InBounds
  · obtain ⟨w1, ha, hmax, hl1⟩ := hl.append hb hroom
    rw [ha]
    refine ⟨_, hl1, fun r hr => ?_, by simp only; omega, by simp only; omega⟩
    rcases List.mem_append.1 hr with hr | hr
    · exact .inl hr
    · rw [List.mem_singleton.1 hr]
      exact .inr ⟨Nat.lt_succ_self _, hw _⟩
  · obtain ⟨w1, err, ha, hmax, hl1⟩ := hl.append_tooLarge hb hroom
    rw [ha]
    exact ⟨rs, hl1, fun r hr => .inl hr, by simp only; omega, by simp only; omega⟩

theorem Adds.of_reads (who : WalRecord → Prop) (h : Reads s s') : Adds who 0 s.wal s'.wal := by
  rw [h.wal]
  exact Adds.refl who s.wal

theorem adds_groupCommitNow (who : WalRecord → Prop) (s : ShardEngine) :
    Adds who 0 s.wal s.groupCommitNow.wal := by
  unfold groupCommitNow
  split
  · exact Adds.refl who s.wal
  · exact Adds.fsync who s.wal

theorem adds_acknowledge (who : WalRecord → Prop) (s : ShardEngine) (lsn : Nat) :
    Adds who 0 s.wal (s.acknowledge lsn).wal := by
  have hgroup : ∀ g, Adds who 0 s.wal ({ s with groupCommit := g }).groupCommitNow.wal :=
    fun g => adds_groupCommitNow who { s with groupCommit := g }
  unfold acknowledge
  split
  · exact Adds.fsync who s.wal
  split
  · exact Adds.fsync who s.wal
  split
  · simp only
    split
    · exact hgroup _
    · exact Adds.refl who s.wal
  · exact Adds.refl who s.wal

theorem item_txnId (r : WriteRequest) (logsTxn : Bool) (lsn : Nat) :
    ((r.item logsTxn).record lsn).txnId = if logsTxn then r.txnId else 0 := rfl

theorem item_isData (r : WriteRequest) (logsTxn : Bool) (lsn : Nat) :
    ((r.item logsTxn).record lsn).isData = true := by
  unfold WalRecord.isData WalWriter.Item.record WriteRequest.item
  cases r.isDelete <;> rfl

/-- A write adds its record. -/
theorem adds_write (s : ShardEngine) (r : WriteRequest)
    (hw : ∀ lsn, who ((r.item s.opts.logsTxn).record lsn)) : Adds who 1 s.wal (s.write r).1.wal := by
  have happ := Adds.append hw s.wal
  rcases write_cases s r with ⟨-, he⟩ | ⟨-, ⟨w, e, ha, he⟩ | ⟨w, lsn, ha, he⟩⟩
  · rw [he]
    exact (Adds.refl who s.wal).mono (Nat.zero_le 1)
  · rw [he]
    rw [ha] at happ
    exact happ
  · rw [he]
    rw [ha] at happ
    exact happ.trans (adds_acknowledge who { s.ensureWalReplayed with
      wal := w, memtable := r.apply s.ensureWalReplayed.memtable lsn } lsn)

theorem adds_refreshExternalWalIfPending (who : WalRecord → Prop) (s : ShardEngine) :
    Adds who 0 s.wal s.refreshExternalWalIfPending.wal := by
  have hr := Adds.of_reads who (reads_refreshExternalWalIfPending s)
  exact (Adds.sync who s.wal).trans hr

theorem adds_flushInternal {ord : IterOrder} {st : Except Status Unit}
    (h : s.flushInternal ord = some (s', st)) : Adds who 0 s.wal s'.wal := by
  rw [flushInternal_frame h]
  exact Adds.fsync who s.wal

theorem adds_flush {ord : IterOrder} {st : Except Status Unit} (h : s.flush ord = some (s', st)) :
    Adds who 0 s.wal s'.wal :=
  (Adds.of_reads who (reads_ensureWalReplayed s)).trans
    (adds_flushInternal (s := s.ensureWalReplayed.rotateMemTableForFlush) h)

theorem adds_beforeFlush (who : WalRecord → Prop) (s : ShardEngine) :
    Adds who 0 s.wal s.beforeFlush.wal := by
  have hr := Adds.of_reads who (reads_ensureWalReplayed s)
  unfold beforeFlush
  split
  · exact hr.trans (adds_groupCommitNow who _)
  · exact hr

/-- A checkpoint keeps the log, or takes all of it. -/
theorem checkpoint_logs {ord : IterOrder} {hook : CheckpointPhase → Bool} {st : Except Status Unit}
    {rs : List WalRecord} (hl : Logs s.wal rs) (hroom : s.wal.maxLsn < kWalMagicV2)
    (ht : s.TruncatesAll) (h : s.checkpoint ord hook = some (s', st)) :
    ∃ rs', Logs s'.wal rs' ∧ ∀ r ∈ rs', r ∈ rs := by
  obtain ⟨hmem, hfile, hsb, hcor⟩ := beforeFlush_frame s
  obtain ⟨s1, st1, hflush, hrest⟩ := checkpoint_cases h
  have hadds : Adds (fun _ => False) 0 s.wal s1.wal :=
    (adds_beforeFlush _ s).trans (adds_flushInternal (s := s.beforeFlush.rotateMemTableForFlush)
      hflush)
  obtain ⟨rs1, hl1, hr1, -, -⟩ := hadds rs hl hroom
  have hr1 : ∀ r ∈ rs1, r ∈ rs := fun r hr => (hr1 r hr).resolve_right fun hf => hf.2
  obtain ⟨vcs, hfold, -⟩ := foldWalToVcs_eq s1
  have hwal : s1.foldWalToVcs.1.wal = s1.wal := by rw [hfold]
  rcases hrest with rfl | rfl | ⟨stc, hc⟩
  · exact ⟨rs1, hl1, hr1⟩
  · exact ⟨rs1, hwal.symm ▸ hl1, hr1⟩
  obtain ⟨s2, st2, hs2, hend⟩ := checkpointCommit_cases hc
  -- the superblock says the whole log is checkpointed, or what was checkpointed before
  have hcommitted : s2.wal = s1.wal ∧
      (st2 = .ok () → s2.sb.walLsn = s1.wal.maxLsn ∨
        (s.lazyRootCorrupt = true ∧ s2.sb.walLsn = s.superblock.walLsn)) := by
    have hframe := flushInternal_frame hflush
    have hcor1 : s1.foldWalToVcs.1.lazyRootCorrupt = s.lazyRootCorrupt := by
      rw [hfold, hframe]
      exact hcor
    have hsb1 : s1.foldWalToVcs.1.superblock = s.superblock := by
      rw [hfold, hframe]
      exact hsb
    rcases commitSuperBlockInternal_cases hs2 with ⟨hlazy, -, rfl⟩ |
      ⟨-, btree, pst, -, ⟨e, -, rfl, rfl⟩ | ⟨root, -, ⟨e, -, rfl, rfl⟩ | ⟨-, -, rfl⟩⟩⟩
    · exact ⟨hwal, fun _ => .inr ⟨hcor1 ▸ hlazy, congrArg (·.walLsn) hsb1⟩⟩
    · exact ⟨hwal, fun h => by cases h⟩
    · exact ⟨hwal, fun h => by cases h⟩
    · exact ⟨hwal, fun _ => .inl (congrArg (·.maxLsn) hwal)⟩
  obtain ⟨hwal2, hsb2⟩ := hcommitted
  have hl2 : Logs s2.wal rs1 := hwal2.symm ▸ hl1
  rcases hend with ⟨e, -, rfl⟩ | ⟨rfl, rfl | rfl⟩
  · exact ⟨rs1, hl2, hr1⟩
  · exact ⟨rs1, hl2, hr1⟩
  show ∃ rs', Logs (if 0 < s2.sb.walLsn then s2.wal.truncateTo s2.sb.walLsn else s2.wal) rs' ∧ _
  split
  · rename_i hpos
    have hall : ∀ r ∈ rs1, r.lsn ≤ s2.sb.walLsn := by
      rcases hsb2 rfl with hm | ⟨hlazy, hm⟩
      · rw [hm]
        exact hl1.le_max
      · rw [hm] at hpos ⊢
        have hscan := (ht hlazy).resolve_left (Nat.pos_iff_ne_zero.1 hpos)
        rw [hl.file_eq, scanWalV2Sparse_after hl.fits, List.filter_eq_nil_iff] at hscan
        intro r hr
        simpa using hscan r (hr1 r hr)
    exact ⟨[], (hl2.truncateTo hall).1, fun r hr => absurd hr List.not_mem_nil⟩
  · exact ⟨rs1, hl2, hr1⟩

/-- **A call that is made for no transaction** adds records of no transaction. -/
theorem step_keeps {op : Op} {rs : List WalRecord} (hl : Logs s.wal rs)
    (hroom : s.wal.maxLsn + 1 < kWalMagicV2)
    (hwrite : ∀ r, op = .write r → r.txnId = 0)
    (hbegin : ∀ txnId lsn, op ≠ .appendTxnBegin txnId lsn)
    (hcommit : ∀ txnId, op ≠ .appendTxnCommit txnId)
    (habort : ∀ txnId, op ≠ .appendTxnAbort txnId) (hopen : ∀ opts, op ≠ .reopen opts)
    (ht : ∀ ord hook, op = .checkpoint ord hook → s.TruncatesAll) (hs : s.step op = some s') :
    ∃ rs', Logs s'.wal rs' ∧
      ∀ r ∈ rs', r ∈ rs ∨ (s.wal.maxLsn < r.lsn ∧ r.txnId = 0 ∧ r.isData = true) := by
  have hadds : ∀ {s' : ShardEngine},
      Adds (fun r => r.txnId = 0 ∧ r.isData = true) 1 s.wal s'.wal → ∃ rs', Logs s'.wal rs' ∧
        ∀ r ∈ rs', r ∈ rs ∨ (s.wal.maxLsn < r.lsn ∧ r.txnId = 0 ∧ r.isData = true) := by
    intro s' ha
    obtain ⟨rs', hl', hr, -, -⟩ := ha rs hl hroom
    exact ⟨rs', hl', hr⟩
  have hread : ∀ {s'}, Reads s s' → ∃ rs', Logs s'.wal rs' ∧
      ∀ r ∈ rs', r ∈ rs ∨ (s.wal.maxLsn < r.lsn ∧ r.txnId = 0 ∧ r.isData = true) :=
    fun h => hadds ((Adds.of_reads _ h).mono (Nat.zero_le 1))
  cases op with
  | write r =>
    cases hs
    refine hadds (adds_write s r fun lsn => ⟨?_, item_isData r _ lsn⟩)
    rw [item_txnId, hwrite r rfl, ite_self]
  | appendTxnBegin txnId lsn => exact absurd rfl (hbegin txnId lsn)
  | appendTxnCommit txnId => exact absurd rfl (hcommit txnId)
  | appendTxnAbort txnId => exact absurd rfl (habort txnId)
  | promoteTxn txnId =>
    cases hs
    exact hadds ((Adds.refl _ s.wal).mono (Nat.zero_le 1))
  | clearTxn txnId =>
    cases hs
    exact hadds ((Adds.refl _ s.wal).mono (Nat.zero_le 1))
  | pinSnapshot lsn =>
    cases hs
    exact hadds ((Adds.refl _ s.wal).mono (Nat.zero_le 1))
  | releaseSnapshot =>
    cases hs
    exact hadds ((Adds.refl _ s.wal).mono (Nat.zero_le 1))
  | flush ord =>
    obtain ⟨⟨s1, st⟩, hf, rfl⟩ := Option.map_eq_some_iff.1 hs
    exact hadds ((adds_flush hf).mono (Nat.zero_le 1))
  | tryFlushBackground ord =>
    obtain ⟨⟨s1, st⟩, hf, rfl⟩ := Option.map_eq_some_iff.1 hs
    unfold ShardEngine.tryFlushBackground at hf
    split at hf
    · cases hf
      exact hread (Reads.refl s)
    · exact hadds ((adds_flush hf).mono (Nat.zero_le 1))
  | checkpoint ord hook =>
    obtain ⟨⟨s1, st⟩, hf, rfl⟩ := Option.map_eq_some_iff.1 hs
    obtain ⟨rs', hl', hr⟩ := checkpoint_logs hl (Nat.lt_of_succ_lt hroom) (ht ord hook rfl) hf
    exact ⟨rs', hl', fun r hr' => .inl (hr r hr')⟩
  | groupCommit =>
    cases hs
    exact hadds ((adds_groupCommitNow _ s).mono (Nat.zero_le 1))
  | recoverFull =>
    cases hs
    exact hadds ((Adds.of_reads _ (reads_ensureWalReplayed
      { s with walReplayPending := false })).mono (Nat.zero_le 1))
  | get key =>
    obtain ⟨⟨s1, st⟩, hf, rfl⟩ := Option.map_eq_some_iff.1 hs
    exact hread (get_reads hf)
  | getAtSnapshot key ctx =>
    obtain ⟨⟨s1, st⟩, hf, rfl⟩ := Option.map_eq_some_iff.1 hs
    exact hread (getAtSnapshot_reads hf)
  | scan plan =>
    obtain ⟨⟨s1, st⟩, hf, rfl⟩ := Option.map_eq_some_iff.1 hs
    exact hread (scan_reads hf)
  | scanAtSnapshot plan ctx =>
    obtain ⟨⟨s1, st⟩, hf, rfl⟩ := Option.map_eq_some_iff.1 hs
    exact hread (scanAtSnapshot_reads hf)
  | resolveLsnAtSnapshot key snapshotLsn =>
    obtain ⟨⟨s1, st⟩, hf, rfl⟩ := Option.map_eq_some_iff.1 hs
    exact hread (resolveLsnAtSnapshot_reads hf)
  | resolveCurrentCommittedLsn key =>
    obtain ⟨⟨s1, st⟩, hf, rfl⟩ := Option.map_eq_some_iff.1 hs
    rw [resolveCurrentCommittedLsn_state hf]
    exact hadds ((adds_refreshExternalWalIfPending _ s).mono (Nat.zero_le 1))
  | reopen opts => exact absurd rfl (hopen opts)

end ShardEngine
end EBTree.Engine
