import EBTree.BTree.Proof.Bounds
import EBTree.Engine.Run

/-!
# What a call does to the state

One inversion lemma for each call: the cases it can end in, and the state it leaves in each.

* `write_cases`, `flushEntry_cases`, `checkpoint_cases`: the calls that write.
* `flushEntries_induction`, `flushInternal_frame`: what every entry keeps, a flush keeps, and what a
  flush does not touch.
* `getAtSnapshot_state`, `get_state`, …: what a read leaves behind. `Get` may put a record of the
  log into the memtable, but not where it is `Quiet`.
-/

set_option autoImplicit false

namespace EBTree.Engine

open Lib Wal BTree ShardEngine

/-- The version an entry of a memtable is flushed as. -/
def memRecord (key : Key) (e : MemTableEntry) : DataRecord :=
  ⟨e.lsn, key, if e.deleted then [] else e.value, e.deleted⟩

namespace ShardEngine

variable {s s' : ShardEngine}

/-! ## Replaying -/

/-- Replaying changes the memtable and what is known about the replay. -/
theorem ensureWalReplayed_eq (s : ShardEngine) :
    ∃ pending state, s.ensureWalReplayed = { s with
      memtable := if s.walReplayPending then replayPending s.wal.file s.memtable s.sb.walLsn
        else s.memtable
      walReplayPending := pending
      recoveryState := state } := by
  unfold ensureWalReplayed
  split
  · exact ⟨_, _, rfl⟩
  · exact ⟨s.walReplayPending, s.recoveryState, rfl⟩

theorem ensureWalReplayed_of_not_pending (h : s.walReplayPending = false) :
    s.ensureWalReplayed = s := by
  simp [ensureWalReplayed, h]

/-! ## Writing -/

/-- A write fails, or takes the next place of the log and of the memtable. -/
theorem write_cases (s : ShardEngine) (r : WriteRequest) :
    (r.key = [] ∧ s.write r = (s, .error (Status.invalidArgument "InvalidPlan: empty key"))) ∨
    (r.key ≠ [] ∧
      ((∃ w e, s.wal.append (r.item s.opts.logsTxn) = (w, .error e) ∧
          s.write r = ({ s.ensureWalReplayed with wal := w }, .error e)) ∨
        ∃ w lsn, s.wal.append (r.item s.opts.logsTxn) = (w, .ok lsn) ∧
          s.write r = ({ s.ensureWalReplayed with
            wal := w
            memtable := r.apply s.ensureWalReplayed.memtable lsn }.acknowledge lsn, .ok ()))) := by
  obtain ⟨pending, state, he⟩ := ensureWalReplayed_eq s
  by_cases hkey : r.key = []
  · exact .inl ⟨hkey, by rw [ShardEngine.write, if_pos hkey]⟩
  · refine .inr ⟨hkey, ?_⟩
    rw [ShardEngine.write, if_neg hkey, he]
    simp only
    cases s.wal.append (r.item s.opts.logsTxn) with
    | mk w st =>
      cases st with
      | error e => exact .inl ⟨w, e, rfl, rfl⟩
      | ok lsn => exact .inr ⟨w, lsn, rfl, rfl⟩

/-! ## Flushing -/

/-- The state after an entry was offered to the chains. -/
def afterEntry (s : ShardEngine) (key : Key) (e : MemTableEntry) (vcs : VersionChainStore)
    (stableLsn : Nat) : ShardEngine :=
  { s with
    datafile := s.datafile.append (memRecord key e)
    committed :=
      if e.deleted then s.committed.erase key else s.committed.insert key (e.value, e.lsn)
    btree := if e.deleted then s.btree.deleteKey key e.lsn else s.btree.put key e.lsn
    vcs := vcs
    stableLsn := stableLsn }

/-- Flushing an entry writes it everywhere, whether or not the chains take it. -/
theorem flushEntry_cases {key : Key} {e : MemTableEntry} {st : Except Status Unit}
    (h : s.flushEntry key e = some (s', st)) :
    ∃ prevLsn vcs, s.vcs.append key e.lsn prevLsn = (vcs, st) ∧
      s' = s.afterEntry key e vcs (if st.isOk then max s.stableLsn e.lsn else s.stableLsn) := by
  unfold flushEntry at h
  cases hg : s.btree.get key with
  | none =>
    rw [hg] at h
    cases h
  | some found =>
    rw [hg] at h
    simp only at h
    split at h
    · rename_i err hst
      cases h
      exact ⟨_, _, Prod.ext rfl hst, rfl⟩
    · rename_i u hst
      cases h
      exact ⟨_, _, Prod.ext rfl hst, rfl⟩

/-- **What every entry keeps, a flush keeps.** -/
theorem flushEntries_induction {P : ShardEngine → Prop} {es : List (Key × MemTableEntry)}
    (hstep : ∀ s s' key e st, (key, e) ∈ es → P s → s.flushEntry key e = some (s', st) → P s')
    {st : Except Status Unit} (hp : P s) (h : s.flushEntries es = some (s', st)) : P s' := by
  induction es generalizing s with
  | nil =>
    cases h
    exact hp
  | cons x es ih =>
    obtain ⟨key, e⟩ := x
    rw [flushEntries] at h
    cases hf : s.flushEntry key e with
    | none =>
      rw [hf] at h
      cases h
    | some y =>
      obtain ⟨s1, st1⟩ := y
      rw [hf] at h
      have hp1 := hstep s s1 key e st1 List.mem_cons_self hp hf
      cases st1 with
      | error err =>
        cases h
        exact hp1
      | ok u =>
        exact ih (fun s s' key e st hm => hstep s s' key e st (List.mem_cons_of_mem _ hm)) hp1 h

theorem flushInternal_cases {ord : IterOrder} {st : Except Status Unit}
    (h : s.flushInternal ord = some (s', st)) :
    ∃ s1, { s with wal := s.wal.fsync }.flushEntries (ord.order s.flushing) = some (s1, st) ∧
      s' = (if st.isOk then { s1 with flushing := SortedMap.empty } else s1) := by
  unfold flushInternal at h
  cases hf : { s with wal := s.wal.fsync }.flushEntries (ord.order s.flushing) with
  | none =>
    simp only [hf] at h
    cases h
  | some y =>
    obtain ⟨s1, st1⟩ := y
    simp only [hf] at h
    cases st1 with
    | error e =>
      cases h
      exact ⟨s', rfl, rfl⟩
    | ok u =>
      cases h
      exact ⟨s1, rfl, rfl⟩

/-- What the flush of entries writes, and what it leaves as it was. -/
theorem flushEntries_frame {es : List (Key × MemTableEntry)} {st : Except Status Unit}
    (h : s.flushEntries es = some (s', st)) :
    s' = { s with
      datafile := s'.datafile
      committed := s'.committed
      btree := s'.btree
      vcs := s'.vcs
      stableLsn := s'.stableLsn } := by
  refine flushEntries_induction (P := fun s' => s' = { s with
    datafile := s'.datafile
    committed := s'.committed
    btree := s'.btree
    vcs := s'.vcs
    stableLsn := s'.stableLsn }) ?_ rfl h
  intro s1 s2 key e st' _ he hf
  obtain ⟨_, _, -, rfl⟩ := flushEntry_cases hf
  rw [he]
  rfl

theorem flushInternal_frame {ord : IterOrder} {st : Except Status Unit}
    (h : s.flushInternal ord = some (s', st)) :
    s' = { s with
      wal := s.wal.fsync
      flushing := s'.flushing
      datafile := s'.datafile
      committed := s'.committed
      btree := s'.btree
      vcs := s'.vcs
      stableLsn := s'.stableLsn } := by
  obtain ⟨s1, hes, rfl⟩ := flushInternal_cases h
  have hf := flushEntries_frame hes
  split
  · rw [hf]
  · rw [hf]

/-! ## Checkpoints -/

/-- A superblock is committed with a root, or without one in a shard whose root is corrupt. -/
theorem commitSuperBlockInternal_cases {st : Except Status Unit}
    (h : s.commitSuperBlockInternal = some (s', st)) :
    (s.lazyRootCorrupt = true ∧ st = .ok () ∧
      s' = s.commitSuperBlock { s.superblock with dataLsn := s.stableLsn, activeRoot := 0 }) ∨
    (s.lazyRootCorrupt = false ∧ ∃ btree pst,
      ((s.btree.rebuildSummaryFromCommitted s.committedLsns).ensureSummaryLsnAtLeast
        s.stableLsn).persistRootFromMap s.committedLsns = some (btree, pst) ∧
      ((∃ e, pst = .error e ∧ st = .error e ∧ s' = { s with btree := btree }) ∨
        ∃ root, pst = .ok root ∧
          ((∃ e, (btree.loadRoot root).2 = .error e ∧ st = .error e ∧
              s' = { s with btree := (btree.loadRoot root).1 }) ∨
            ((btree.loadRoot root).2 = .ok () ∧ st = .ok () ∧
              s' = { s with
                btree := (btree.loadRoot root).1.ensureSummaryLsnAtLeast
                  s.stableLsn }.commitSuperBlock
                { s.superblock with
                  dataLsn := s.stableLsn, walLsn := s.wal.maxLsn, activeRoot := root })))) := by
  unfold commitSuperBlockInternal at h
  simp only at h
  split at h
  · rename_i hc
    cases h
    exact .inl ⟨hc, rfl, rfl⟩
  rename_i hc
  refine .inr ⟨by simpa using hc, ?_⟩
  split at h
  · cases h
  · rename_i btree e hp
    cases h
    exact ⟨_, _, hp, .inl ⟨e, rfl, rfl, rfl⟩⟩
  · rename_i btree root hp
    refine ⟨btree, _, hp, .inr ⟨root, rfl, ?_⟩⟩
    split at h
    · rename_i bt e hl
      cases h
      exact .inl ⟨e, by rw [hl], rfl, by rw [hl]⟩
    · rename_i bt hl
      cases h
      exact .inr ⟨by rw [hl], rfl, by rw [hl]⟩

/-- The end of a checkpoint: the superblock is not committed, the log is kept, or it is
truncated. -/
theorem checkpointCommit_cases {hook : CheckpointPhase → Bool} {st : Except Status Unit}
    (h : s.checkpointCommit hook = some (s', st)) :
    ∃ s1 st1, s.commitSuperBlockInternal = some (s1, st1) ∧
      ((∃ e, st1 = .error e ∧ s' = s1) ∨
        (st1 = .ok () ∧ (s' = s1.saveSidecars ∨ s' = s1.saveSidecars.truncateWal))) := by
  unfold checkpointCommit at h
  cases hc : s.commitSuperBlockInternal with
  | none =>
    rw [hc] at h
    cases h
  | some y =>
    obtain ⟨s1, st1⟩ := y
    rw [hc] at h
    refine ⟨s1, st1, rfl, ?_⟩
    cases st1 with
    | error e =>
      cases h
      exact .inl ⟨e, rfl, rfl⟩
    | ok u =>
      refine .inr ⟨rfl, ?_⟩
      simp only at h
      split at h
      · cases h
        exact .inl rfl
      · cases h
        exact .inr rfl

/-- The part of a checkpoint in front of the flush. -/
def beforeFlush (s : ShardEngine) : ShardEngine :=
  if s.ensureWalReplayed.opts.durability = .kGroup then s.ensureWalReplayed.groupCommitNow
  else s.ensureWalReplayed

theorem beforeFlush_frame (s : ShardEngine) :
    s.beforeFlush.memtable = s.ensureWalReplayed.memtable ∧ s.beforeFlush.wal.file = s.wal.file ∧
      s.beforeFlush.superblock = s.superblock ∧
      s.beforeFlush.lazyRootCorrupt = s.lazyRootCorrupt := by
  obtain ⟨_, _, he⟩ := ensureWalReplayed_eq s
  unfold beforeFlush groupCommitNow
  rw [he]
  simp only
  split
  · split
    · exact ⟨rfl, rfl, rfl, rfl⟩
    · exact ⟨rfl, rfl, rfl, rfl⟩
  · exact ⟨rfl, rfl, rfl, rfl⟩

/-- A checkpoint in this state truncates the whole log, or nothing: a shard whose root is corrupt
leaves the LSN of the superblock where it is. -/
def TruncatesAll (s : ShardEngine) : Prop :=
  s.lazyRootCorrupt = true →
    s.superblock.walLsn = 0 ∨ scanWalV2Sparse s.wal.file s.superblock.walLsn = []

/-- A checkpoint gets to its superblock unless it is interrupted. -/
def commits (hook : CheckpointPhase → Bool) : Bool :=
  !(hook .afterFlush || hook .afterVcsFold || hook .afterTLog || hook .beforeSuperBlock)

theorem checkpoint_parts {ord : IterOrder} {hook : CheckpointPhase → Bool}
    {st : Except Status Unit} (h : s.checkpoint ord hook = some (s', st)) :
    ∃ s1 st1, s.beforeFlush.rotateMemTableForFlush.flushInternal ord = some (s1, st1) ∧
      (s' = s1 ∨ s' = s1.foldWalToVcs.1 ∨ (st1 = .ok () ∧ commits hook = true ∧
        ∃ stc, s1.foldWalToVcs.1.checkpointCommit hook = some (s', stc))) := by
  unfold checkpoint at h
  simp only at h
  split at h
  · cases h
  · rename_i e hf
    cases h
    exact ⟨s', _, hf, .inl rfl⟩
  · rename_i s1 hf
    refine ⟨s1, _, hf, ?_⟩
    split at h
    · cases h
      exact .inl rfl
    · rename_i hflush
      split at h
      · rename_i s2 e hfold
        cases h
        exact .inr (.inl (by rw [hfold]))
      · rename_i s2 hfold
        split at h
        · cases h
          exact .inr (.inl (by rw [hfold]))
        · rename_i hrest
          refine .inr (.inr ⟨rfl, ?_, _, by rw [hfold]; exact h⟩)
          simp only [commits, Bool.not_eq_true', Bool.or_eq_false_iff]
          simp only [not_or, Bool.not_eq_true] at hflush hrest
          tauto

/-- **A checkpoint** flushes, folds the log into the chains and commits a superblock, up to where it
fails or is interrupted. -/
theorem checkpoint_cases {ord : IterOrder} {hook : CheckpointPhase → Bool}
    {st : Except Status Unit} (h : s.checkpoint ord hook = some (s', st)) :
    ∃ s1 st1, s.beforeFlush.rotateMemTableForFlush.flushInternal ord = some (s1, st1) ∧
      (s' = s1 ∨ s' = s1.foldWalToVcs.1 ∨
        ∃ stc, s1.foldWalToVcs.1.checkpointCommit hook = some (s', stc)) := by
  obtain ⟨s1, st1, hf, hrest⟩ := checkpoint_parts h
  exact ⟨s1, st1, hf, hrest.imp id (Or.imp id fun hc => hc.2.2)⟩

/-! ## Reading -/

theorem getAtSnapshot_state {key : Key} {ctx : SnapshotReadContext} {r : Except Status Version}
    (h : s.getAtSnapshot key ctx = some (s', r)) :
    s' = s ∨ s' = s.prepareSnapshotRead ctx.snapshotLsn := by
  unfold getAtSnapshot at h
  split at h
  · cases h
    exact .inl rfl
  · obtain ⟨_, -, h⟩ := Option.map_eq_some_iff.1 h
    cases h
    exact .inr rfl

/-- The summary of the tree is behind the snapshot. -/
def Stale (s : ShardEngine) (snapshotLsn : Nat) : Prop :=
  0 < snapshotLsn ∧ s.btree.summary.summaryLsn < snapshotLsn

/-- A scan of the tree repairs its summary where that is stale. -/
theorem btreeScanWithHeal_state {plan : TypedPlan} {r : Except Status (List Hit)}
    (h : s.btreeScanWithHeal plan = some (s', r)) :
    s' = s ∨ (s.Stale plan.snapshotLsn ∧ s' = s.repairSummary) := by
  unfold btreeScanWithHeal at h
  split at h
  · cases h
  · cases h
    exact .inl rfl
  · rename_i e he
    split at h
    · rename_i hcode
      have hstale : s.Stale plan.snapshotLsn := scan_stale he hcode
      simp only at h
      split at h
      · cases h
      · cases h
        exact .inr ⟨hstale, rfl⟩
      · split at h <;> (cases h; exact .inr ⟨hstale, rfl⟩)
    · cases h
      exact .inl rfl

theorem scanPrepared_state {plan : TypedPlan} {ctx : SnapshotReadContext}
    {r : Except Status (List Row)} (h : s.scanPrepared plan ctx = some (s', r)) :
    s' = s ∨ (s.Stale plan.snapshotLsn ∧ s' = s.repairSummary) := by
  unfold scanPrepared at h
  split at h
  · cases h
  · rename_i hb
    cases h
    exact btreeScanWithHeal_state hb
  · rename_i hb
    obtain ⟨_, -, h⟩ := Option.map_eq_some_iff.1 h
    cases h
    exact btreeScanWithHeal_state hb

theorem scanAtSnapshot_state {plan : TypedPlan} {ctx : SnapshotReadContext}
    {r : Except Status (List Row)} (h : s.scanAtSnapshot plan ctx = some (s', r)) :
    s' = s.prepareSnapshotRead ctx.snapshotLsn ∨
      ((s.prepareSnapshotRead ctx.snapshotLsn).Stale ctx.snapshotLsn ∧
        s' = (s.prepareSnapshotRead ctx.snapshotLsn).repairSummary) := by
  unfold scanAtSnapshot at h
  simp only at h
  split at h
  · split at h
    · exact scanPrepared_state h
    · cases h
      exact .inl rfl
  · exact scanPrepared_state h

/-- The state a scan starts from. -/
def beforeScan (s : ShardEngine) : ShardEngine :=
  if s.walReplayPending ∧ s.recoveryMode ≠ .kLazy then s.ensureWalReplayed.refreshRecoveryState
  else s

theorem scanTree_state {plan : TypedPlan} {snapshotLsn : Nat} {r : Except Status (List Row)}
    (h : s.scanTree plan snapshotLsn = some (s', r)) :
    s' = s ∨ (s.Stale plan.snapshotLsn ∧ s' = s.repairSummary) := by
  unfold scanTree at h
  split at h
  · cases h
    exact .inl rfl
  split at h
  · cases h
  · rename_i hb
    cases h
    exact btreeScanWithHeal_state hb
  · rename_i hb
    obtain ⟨_, -, h⟩ := Option.map_eq_some_iff.1 h
    cases h
    exact btreeScanWithHeal_state hb

theorem scan_state {plan : TypedPlan} {r : Except Status (List Row)}
    (h : s.scan plan = some (s', r)) :
    s' = s.beforeScan ∨
      (s.beforeScan.Stale plan.snapshotLsn ∧ s' = s.beforeScan.repairSummary) := by
  unfold scan at h
  simp only at h
  split at h
  · split at h
    · exact scanTree_state h
    · cases h
      exact .inl rfl
  · exact scanTree_state h

theorem resolveLsnAtSnapshot_state {key : Key} {snapshotLsn : Nat} {r : Except Status Nat}
    (h : s.resolveLsnAtSnapshot key snapshotLsn = some (s', r)) :
    ∃ cache, s' = { s with sfsCache := cache } := by
  unfold resolveLsnAtSnapshot at h
  simp only at h
  split at h
  · cases h
    exact ⟨_, rfl⟩
  split at h
  · cases h
  split at h
  · cases h
    exact ⟨_, rfl⟩
  split at h
  · cases h
    exact ⟨_, rfl⟩
  split at h
  · split at h <;> (cases h; exact ⟨_, rfl⟩)
  · cases h
    exact ⟨s.sfsCache, rfl⟩

theorem resolveCurrentCommittedLsn_state {key : Key} {r : Except Status Nat}
    (h : s.resolveCurrentCommittedLsn key = some (s', r)) : s' = s.refreshExternalWalIfPending := by
  unfold resolveCurrentCommittedLsn at h
  obtain ⟨_, -, h⟩ := Option.map_eq_some_iff.1 h
  cases h
  rfl

/-- A `Get` of the key takes nothing out of the log: the log has no record of the key to take, or the
shard is open, its log replayed and its root loaded. -/
def Quiet (s : ShardEngine) (key : Key) : Prop :=
  s.walRecordOf key = none ∨
    (s.walReplayPending = false ∧ s.recoveryMode = .kHot ∧ s.lazyRootCorrupt = false)

theorem Quiet.repairSummary {key : Key} (h : Quiet s key) : Quiet s.repairSummary key := h

theorem Quiet.beforeScan {key : Key} (h : Quiet s key) : Quiet s.beforeScan key := by
  unfold ShardEngine.beforeScan
  split
  · rename_i hp
    obtain ⟨_, _, he⟩ := ensureWalReplayed_eq s
    rcases h with hw | hq
    · rw [he]
      exact .inl hw
    · rw [hq.1] at hp
      exact absurd hp.1 Bool.false_ne_true
  · exact h

theorem tryDisk_state {key : Key} (hs : Quiet s key) {snapshotLsn : Nat} {hit : Option Nat}
    {r : Option Version} (h : s.tryDisk key snapshotLsn hit = some (s', r)) : s' = s := by
  unfold tryDisk at h
  simp only at h
  split at h
  · cases h
    rfl
  split at h
  · rename_i hmode
    have hw : s.walRecordOf key = none := by
      refine hs.resolve_right fun hq => ?_
      rcases hmode with hm | hm
      · simp [hq.2.1] at hm
      · simp [hq.2.2] at hm
    simp only [restoreKeyFromWal, hw, Option.map_none] at h
    cases h
    rfl
  · cases h
    rfl

/-- Where nothing is taken out of the log, the state stays as it is. -/
theorem tryLazyWalOrDisk_state {key : Key} (hs : Quiet s key) {snapshotLsn : Nat}
    {r : Option Version} (h : s.tryLazyWalOrDisk key snapshotLsn = some (s', r)) : s' = s := by
  unfold tryLazyWalOrDisk at h
  split at h
  · cases h
  · rename_i hit _
    rcases hs with hw | hq
    · -- no record is newer than the tree
      simp only [hw] at h
      cases hit <;>
      · rw [if_neg Bool.false_ne_true] at h
        exact tryDisk_state (.inl hw) h
    · simp only [hq.1, Bool.false_and] at h
      split at h <;>
      · rw [if_neg Bool.false_ne_true] at h
        exact tryDisk_state (.inr hq) h

/-- The states `Get` leaves behind when it takes nothing out of the log. -/
def Refreshed (s s' : ShardEngine) : Prop :=
  s' = s ∨ s' = s.repairSummary ∨ s' = s.beforeScan ∨ s' = s.repairSummary.beforeScan

theorem getExclusive_state {key : Key} (hs : Quiet s key) {r : Except Status Version}
    (h : s.getExclusive key = some (s', r)) : Refreshed s s' := by
  unfold getExclusive at h
  simp only at h
  -- the summary is repaired first, if it is behind, and then the log replayed
  generalize hs1 : (if 0 < s.stableLsn ∧ s.btree.summary.summaryLsn < s.stableLsn
    then s.repairSummary else s) = s1 at h
  generalize hs2 : (if s1.walReplayPending = true ∧ s1.recoveryMode ≠ .kLazy
    then s1.ensureWalReplayed.refreshRecoveryState else s1) = s2 at h
  have hs2 : s2 = s1.beforeScan := hs2.symm
  subst hs2
  have hq1 : Quiet s1.beforeScan key := by
    rw [← hs1]
    split
    · exact hs.repairSummary.beforeScan
    · exact hs.beforeScan
  suffices hend : s' = s1.beforeScan by
    rw [hend, ← hs1]
    split
    · exact .inr (.inr (.inr rfl))
    · exact .inr (.inr (.inl rfl))
  split at h
  · cases h
  · cases h
    rfl
  · split at h
    · split at h
      · cases h
      · rename_i ht
        cases h
        exact tryLazyWalOrDisk_state hq1 ht
      · rename_i ht
        cases h
        exact tryLazyWalOrDisk_state hq1 ht
    · cases h
      rfl

theorem getRest_state {key : Key} (hs : Quiet s key) {rs : Except Status Version} {stale : Bool}
    {r : Except Status Version} (h : s.getRest key rs stale = some (s', r)) : Refreshed s s' := by
  have hrestored : (if s.recoveryMode = .kLazy ∧ isNotFound rs then s.restoreKeyFromWal key
      else none) = none := by
    split
    · rename_i hmode
      rcases hs with hw | hq
      · simp [restoreKeyFromWal, hw]
      · simp [hq.2.1] at hmode
    · rfl
  unfold getRest at h
  simp only [hrestored] at h
  split at h
  · cases h
    exact .inl rfl
  · exact getExclusive_state hs h

/-- **A read that takes nothing out of the log** replays it and repairs the summary at most. -/
theorem get_state {key : Key} (hs : Quiet s key) {r : Except Status Version}
    (h : s.get key = some (s', r)) : Refreshed s s' := by
  unfold ShardEngine.get at h
  split at h
  · cases h
    exact .inl rfl
  simp only at h
  split at h
  · cases h
  split at h
  · cases h
    exact .inl rfl
  split at h
  · split at h
    · cases h
    · rename_i ht
      cases h
      exact .inl (tryLazyWalOrDisk_state hs ht)
    · rename_i ht
      rw [tryLazyWalOrDisk_state hs ht] at h
      exact getRest_state hs h
  · exact getRest_state hs h

end ShardEngine
end EBTree.Engine
