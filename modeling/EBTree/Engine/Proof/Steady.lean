import EBTree.Engine.Proof.Committed
import EBTree.Engine.Proof.Frames

/-!
# Runs without a reopening

In a run of calls that do not read the log in again (`Op.stays`) the shard stays `Steady`, its log
replayed and its root loaded, so that no read takes anything out of the log.

* `Steady.step`, `Run.steady`: one call, and a run, with the invariant of `Inv.step`.
* `flushEntries_writes`: what a flush writes, up to where it fails.
* `Run.mirrors`: the map of committed values is what the data file loads as.
-/

set_option autoImplicit false

namespace EBTree.Engine

open Lib Wal BTree ShardEngine

/-- The log is replayed and the root is loaded. -/
structure Steady (s : ShardEngine) : Prop where
  replayed : s.walReplayPending = false
  hot : s.recoveryMode = .kHot
  root : s.lazyRootCorrupt = false

variable {h : History} {s s' : ShardEngine} {rs : List WalRecord} {ds : List DataRecord} {op : Op}

namespace Steady

theorem quiet (hs : Steady s) (key : Key) : s.Quiet key := .inr ⟨hs.replayed, hs.hot, hs.root⟩

theorem ensureWalReplayed (hs : Steady s) : s.ensureWalReplayed = s :=
  ensureWalReplayed_of_not_pending hs.replayed

theorem beforeScan (hs : Steady s) : s.beforeScan = s := by
  unfold ShardEngine.beforeScan
  rw [if_neg]
  intro hp
  rw [hs.replayed] at hp
  exact Bool.false_ne_true hp.1

theorem truncatesAll (hs : Steady s) : s.TruncatesAll := by
  intro hc
  rw [hs.root] at hc
  exact absurd hc Bool.false_ne_true

/-- A read repairs the summary at most. -/
theorem refreshed (hs : Steady s) (hr : Refreshed s s') : s' = s ∨ s' = s.repairSummary := by
  have hrepair : Steady s.repairSummary := ⟨hs.replayed, hs.hot, hs.root⟩
  rcases hr with rfl | rfl | rfl | rfl
  · exact .inl rfl
  · exact .inr rfl
  · exact .inl hs.beforeScan
  · exact .inr hrepair.beforeScan

theorem prepareSnapshotRead (hs : Steady s) (snapshotLsn : Nat) :
    s.prepareSnapshotRead snapshotLsn = s ∨ s.prepareSnapshotRead snapshotLsn = s.repairSummary := by
  have he : s.prepareSnapshotRead snapshotLsn =
      if 0 < snapshotLsn ∧ s.beforeScan.btree.summary.summaryLsn < snapshotLsn
        then s.beforeScan.repairSummary else s.beforeScan := rfl
  rw [he, hs.beforeScan]
  split
  · exact .inr rfl
  · exact .inl rfl

end Steady

theorem Steady.repairSummary (hs : Steady s) : Steady s.repairSummary :=
  ⟨hs.replayed, hs.hot, hs.root⟩

/-! ## What a call changes -/

/-- The memtables and what lies below them are the same. -/
structure SameTables (s s' : ShardEngine) : Prop where
  memtable : s'.memtable = s.memtable
  immutable : s'.immutable = s.immutable
  flushing : s'.flushing = s.flushing
  datafile : s'.datafile = s.datafile
  committed : s'.committed = s.committed

/-- And so are the version chains, and whether the shard is steady. -/
structure Idle (s s' : ShardEngine) : Prop extends SameTables s s' where
  vcs : s'.vcs = s.vcs
  steady : Steady s → Steady s'

/-- Repairs of the summary of a tree. -/
inductive Repaired (m : SortedMap Key Nat) (lsn : Nat) (t : PagedBTree) : PagedBTree → Prop
  | same : Repaired m lsn t t
  | again {u : PagedBTree} : Repaired m lsn t u → Repaired m lsn t
      ((if u.onDiskMode then u.rebuildSummaryFromCommitted m
        else u.loadFromMap m).ensureSummaryLsnAtLeast lsn)

/-- And the tree, up to repairs of its summary; the stable LSN does not fall. -/
structure Calm (s s' : ShardEngine) : Prop extends Idle s s' where
  btree : Repaired s.committedLsns s.stableLsn s.btree s'.btree
  stable : s.stableLsn ≤ s'.stableLsn

/-- A write that was acknowledged at an LSN. -/
structure Acknowledged (s : ShardEngine) (lsn : Nat) (s' : ShardEngine) : Prop extends Idle s s' where
  btree : s'.btree = s.btree
  stable : s.stableLsn ≤ s'.stableLsn ∨ s'.stableLsn = lsn

/-- What committing the superblock makes of the tree. -/
inductive Rooted (t : PagedBTree) (m : SortedMap Key Nat) (lsn : Nat) : PagedBTree → Prop
  | kept : Rooted t m lsn t
  | failed {u : PagedBTree} {e : Status} :
      ((t.rebuildSummaryFromCommitted m).ensureSummaryLsnAtLeast lsn).persistRootFromMap m =
        some (u, .error e) → Rooted t m lsn u
  | unloaded {u : PagedBTree} {root : Nat} :
      ((t.rebuildSummaryFromCommitted m).ensureSummaryLsnAtLeast lsn).persistRootFromMap m =
        some (u, .ok root) → Rooted t m lsn (u.loadRoot root).1
  | loaded {u : PagedBTree} {root : Nat} :
      ((t.rebuildSummaryFromCommitted m).ensureSummaryLsnAtLeast lsn).persistRootFromMap m =
        some (u, .ok root) → Rooted t m lsn ((u.loadRoot root).1.ensureSummaryLsnAtLeast lsn)

/-- What follows the flush of a checkpoint: the log may be folded into the chains, these compacted,
and a root persisted. -/
structure Tail (s s' : ShardEngine) : Prop extends SameTables s s' where
  steady : Steady s → Steady s'
  stable : s'.stableLsn = s.stableLsn
  vcs : ∃ v, (v = s.vcs ∨ v = (foldInto s.vcs (foldRecords s.wal s.sb.walLsn)).1) ∧
    (s'.vcs = v ∨ ∃ lsn, s'.vcs = v.compactBelow lsn)
  btree : Rooted s.btree s.committedLsns s.stableLsn s'.btree

theorem SameTables.trans {s'' : ShardEngine} (h : SameTables s s') (h' : SameTables s' s'') :
    SameTables s s'' where
  memtable := h'.memtable.trans h.memtable
  immutable := h'.immutable.trans h.immutable
  flushing := h'.flushing.trans h.flushing
  datafile := h'.datafile.trans h.datafile
  committed := h'.committed.trans h.committed

namespace Idle

theorem refl (s : ShardEngine) : Idle s s := ⟨⟨rfl, rfl, rfl, rfl, rfl⟩, rfl, id⟩

theorem trans {s'' : ShardEngine} (h : Idle s s') (h' : Idle s' s'') : Idle s s'' :=
  ⟨h.toSameTables.trans h'.toSameTables, h'.vcs.trans h.vcs, fun hs => h'.steady (h.steady hs)⟩

theorem withWal (s : ShardEngine) (w : WalWriter) : Idle s { s with wal := w } :=
  ⟨⟨rfl, rfl, rfl, rfl, rfl⟩, rfl, fun hs => ⟨hs.replayed, hs.hot, hs.root⟩⟩

theorem repairSummary (s : ShardEngine) : Idle s s.repairSummary :=
  ⟨⟨rfl, rfl, rfl, rfl, rfl⟩, rfl, Steady.repairSummary⟩

end Idle

namespace Calm

theorem refl (s : ShardEngine) : Calm s s := ⟨Idle.refl s, .same, Nat.le_refl _⟩

theorem withWal (s : ShardEngine) (w : WalWriter) : Calm s { s with wal := w } :=
  ⟨Idle.withWal s w, .same, Nat.le_refl _⟩

theorem repairSummary (s : ShardEngine) : Calm s s.repairSummary :=
  ⟨Idle.repairSummary s, .again .same, Nat.le_refl _⟩

/-- A summary that is repaired twice. -/
theorem repairTwice (h : s' = s ∨ s' = s.repairSummary) : Calm s s'.repairSummary := by
  rcases h with rfl | rfl
  · exact repairSummary _
  · exact ⟨(Idle.repairSummary s).trans (Idle.repairSummary _), .again (.again .same),
      Nat.le_refl _⟩

theorem groupCommitNow (s : ShardEngine) : Calm s s.groupCommitNow := by
  unfold ShardEngine.groupCommitNow
  split
  · exact refl s
  · exact ⟨⟨⟨rfl, rfl, rfl, rfl, rfl⟩, rfl, fun hs => ⟨hs.replayed, hs.hot, hs.root⟩⟩, .same,
      Nat.le_max_left _ _⟩

theorem prepareSnapshotRead (hs : Steady s) (snapshotLsn : Nat) :
    Calm s (s.prepareSnapshotRead snapshotLsn) := by
  rcases hs.prepareSnapshotRead snapshotLsn with he | he <;> rw [he]
  · exact refl s
  · exact repairSummary s

theorem beforeFlush (hs : Steady s) : Calm s s.beforeFlush := by
  unfold ShardEngine.beforeFlush
  rw [hs.ensureWalReplayed]
  split
  · exact groupCommitNow s
  · exact refl s

end Calm

theorem Acknowledged.acknowledge (s : ShardEngine) (lsn : Nat) :
    Acknowledged s lsn (s.acknowledge lsn) := by
  have hidle : Idle s (s.acknowledge lsn) := by
    rw [acknowledge_frame]
    exact ⟨⟨rfl, rfl, rfl, rfl, rfl⟩, rfl, fun hs => ⟨hs.replayed, hs.hot, hs.root⟩⟩
  refine ⟨hidle, by rw [acknowledge_frame], ?_⟩
  unfold ShardEngine.acknowledge ShardEngine.groupCommitNow
  simp only
  split
  · exact .inl (Nat.le_max_left _ _)
  split
  · exact .inr rfl
  split
  · split
    · split
      · exact .inl (Nat.le_refl _)
      · exact .inl (Nat.le_max_left _ _)
    · exact .inl (Nat.le_refl _)
  · exact .inl (Nat.le_refl _)

theorem Tail.refl (s : ShardEngine) : Tail s s :=
  ⟨⟨rfl, rfl, rfl, rfl, rfl⟩, id, rfl, ⟨_, .inl rfl, .inl rfl⟩, .kept⟩

/-- Committing the superblock persists a root, up to where it fails. -/
theorem commitSuperBlockInternal_tail {st : Except Status Unit}
    (h : s.commitSuperBlockInternal = some (s', st)) :
    SameTables s s' ∧ (Steady s → Steady s') ∧ s'.stableLsn = s.stableLsn ∧ s'.vcs = s.vcs ∧
      Rooted s.btree s.committedLsns s.stableLsn s'.btree := by
  have hsteady : ∀ {s'' : ShardEngine}, s''.walReplayPending = s.walReplayPending →
      s''.recoveryMode = s.recoveryMode → s''.lazyRootCorrupt = s.lazyRootCorrupt →
      Steady s → Steady s'' := fun h1 h2 h3 hs =>
    ⟨h1.trans hs.replayed, h2.trans hs.hot, h3.trans hs.root⟩
  rcases commitSuperBlockInternal_cases h with ⟨-, -, rfl⟩ |
    ⟨-, btree, pst, hp, ⟨e, rfl, -, rfl⟩ | ⟨root, rfl, ⟨e, -, -, rfl⟩ | ⟨-, -, rfl⟩⟩⟩
  · exact ⟨⟨rfl, rfl, rfl, rfl, rfl⟩, hsteady rfl rfl rfl, rfl, rfl, .kept⟩
  · exact ⟨⟨rfl, rfl, rfl, rfl, rfl⟩, hsteady rfl rfl rfl, rfl, rfl, .failed hp⟩
  · exact ⟨⟨rfl, rfl, rfl, rfl, rfl⟩, hsteady rfl rfl rfl, rfl, rfl, .unloaded hp⟩
  · exact ⟨⟨rfl, rfl, rfl, rfl, rfl⟩, hsteady rfl rfl rfl, rfl, rfl, .loaded hp⟩

theorem checkpointCommit_tail {hook : CheckpointPhase → Bool} {st : Except Status Unit}
    (h : s.checkpointCommit hook = some (s', st)) :
    SameTables s s' ∧ (Steady s → Steady s') ∧ s'.stableLsn = s.stableLsn ∧
      (s'.vcs = s.vcs ∨ ∃ lsn, s'.vcs = s.vcs.compactBelow lsn) ∧
      Rooted s.btree s.committedLsns s.stableLsn s'.btree := by
  obtain ⟨s2, st2, hs2, hend⟩ := checkpointCommit_cases h
  obtain ⟨ht, hsteady, hstable, hvcs, hbtree⟩ := commitSuperBlockInternal_tail hs2
  rcases hend with ⟨e, -, rfl⟩ | ⟨-, hs'⟩
  · exact ⟨ht, hsteady, hstable, .inl hvcs, hbtree⟩
  -- the sidecars and the truncation leave all this, up to the compaction
  have hsaved : SameTables s s2.saveSidecars ∧ (Steady s → Steady s2.saveSidecars) ∧
      s2.saveSidecars.stableLsn = s.stableLsn ∧ (s2.saveSidecars.vcs = s.vcs ∨
        ∃ lsn, s2.saveSidecars.vcs = s.vcs.compactBelow lsn) ∧
      Rooted s.btree s.committedLsns s.stableLsn s2.saveSidecars.btree := by
    refine ⟨ht.trans ⟨rfl, rfl, rfl, rfl, rfl⟩, fun hs => ?_, hstable, ?_, hbtree⟩
    · have hs2 := hsteady hs
      exact ⟨hs2.replayed, hs2.hot, hs2.root⟩
    · unfold saveSidecars
      simp only
      split
      · exact .inr ⟨_, by rw [hvcs]⟩
      · exact .inl hvcs
  rcases hs' with rfl | rfl
  · exact hsaved
  · obtain ⟨ht', hst', hrest⟩ := hsaved
    refine ⟨ht'.trans ⟨rfl, rfl, rfl, rfl, rfl⟩, fun hs => ?_, hrest⟩
    have hs2 := hst' hs
    exact ⟨hs2.replayed, hs2.hot, hs2.root⟩

/-- Committing the superblock leaves the tables as they are. -/
theorem checkpointCommit_tables {hook : CheckpointPhase → Bool} {st : Except Status Unit}
    (h : s.checkpointCommit hook = some (s', st)) : SameTables s s' ∧ (Steady s → Steady s') :=
  ⟨(checkpointCommit_tail h).1, (checkpointCommit_tail h).2.1⟩

/-- **A checkpoint** is a flush and what follows it. -/
theorem checkpoint_tail {ord : IterOrder} {hook : CheckpointPhase → Bool} {st : Except Status Unit}
    (h : s.checkpoint ord hook = some (s', st)) :
    ∃ s1 st1, s.beforeFlush.rotateMemTableForFlush.flushInternal ord = some (s1, st1) ∧
      Tail s1 s' := by
  obtain ⟨s1, st1, hf, hrest⟩ := checkpoint_cases h
  refine ⟨s1, st1, hf, ?_⟩
  obtain ⟨vcs, hfold, hvcs⟩ := foldWalToVcs_eq s1
  rw [hfold] at hrest
  rcases hrest with rfl | rfl | ⟨stc, hc⟩
  · exact Tail.refl s'
  · exact ⟨⟨rfl, rfl, rfl, rfl, rfl⟩, fun hs => ⟨hs.replayed, hs.hot, hs.root⟩, rfl,
      ⟨vcs, hvcs, .inl rfl⟩, .kept⟩
  · obtain ⟨ht, hst, hstable, hcompact, hbtree⟩ := checkpointCommit_tail hc
    have hfolded : SameTables s1 { s1 with vcs := vcs } := ⟨rfl, rfl, rfl, rfl, rfl⟩
    exact ⟨hfolded.trans ht, fun hs => hst ⟨hs.replayed, hs.hot, hs.root⟩, hstable,
      ⟨vcs, hvcs, hcompact⟩, hbtree⟩

/-- What a call does to the memtables and below. -/
inductive Effect (s : ShardEngine) : Op → ShardEngine → Prop
  | idle {op : Op} {s' : ShardEngine} : Calm s s' → (∀ r, op = .write r → s.wrote r = []) →
      Effect s op s'
  | write {r : WriteRequest} {lsn : Nat} {w : WalWriter} {s' : ShardEngine} : r.key ≠ [] →
      s.wal.append (r.item s.opts.logsTxn) = (w, .ok lsn) →
      Acknowledged { s with wal := w, memtable := s.memtable.insert r.key (written r lsn) } lsn s' →
      Effect s (.write r) s'
  | promote (txnId : UInt32) : Effect s (.promoteTxn txnId) (s.promoteTxn txnId)
  | clear (txnId : UInt32) : Effect s (.clearTxn txnId) (s.clearTxn txnId)
  | flush {op : Op} {ord : IterOrder} {s0 s1 s' : ShardEngine} {st : Except Status Unit} :
      op.flushes s = true → Calm s s0 → s0.rotateMemTableForFlush.flushInternal ord = some (s1, st) →
      Tail s1 s' → Effect s op s'

theorem effect_flush (hs : Steady s) {op : Op} (hop : op.flushes s = true) {ord : IterOrder}
    {st : Except Status Unit} (h : s.flush ord = some (s', st)) : Effect s op s' := by
  unfold ShardEngine.flush at h
  rw [hs.ensureWalReplayed] at h
  exact .flush hop (Calm.refl s) h (Tail.refl s')

/-- **The effect of a call** of a steady shard. -/
theorem Steady.effect (hs : Steady s) (hop : op.stays = true) (h : s.step op = some s') :
    Effect s op s' := by
  cases op with
  | write r =>
    cases h
    rcases write_cases s r with ⟨hkey, hw⟩ | ⟨hkey, ⟨w, e, ha, hw⟩ | ⟨w, lsn, ha, hw⟩⟩
    · rw [hw]
      refine .idle (Calm.refl s) fun r' hr' => ?_
      cases hr'
      simp [ShardEngine.wrote, hkey]
    · rw [hw, hs.ensureWalReplayed]
      refine .idle (Calm.withWal s w) fun r' hr' => ?_
      cases hr'
      simp [ShardEngine.wrote, hkey, ha]
    · rw [hw, hs.ensureWalReplayed, apply_eq]
      exact .write hkey ha (Acknowledged.acknowledge _ lsn)
  | appendTxnBegin txnId snapshotLsn =>
    cases h
    exact .idle (Calm.withWal s _) fun r hr => by cases hr
  | appendTxnCommit txnId =>
    cases h
    exact .idle (Calm.withWal s _) fun r hr => by cases hr
  | appendTxnAbort txnId =>
    cases h
    exact .idle (Calm.withWal s _) fun r hr => by cases hr
  | promoteTxn txnId =>
    cases h
    exact .promote txnId
  | clearTxn txnId =>
    cases h
    exact .clear txnId
  | pinSnapshot lsn =>
    cases h
    exact .idle ⟨⟨⟨rfl, rfl, rfl, rfl, rfl⟩, rfl, fun hs => ⟨hs.replayed, hs.hot, hs.root⟩⟩,
      .same, Nat.le_refl _⟩ fun r hr => by cases hr
  | releaseSnapshot =>
    cases h
    exact .idle ⟨⟨⟨rfl, rfl, rfl, rfl, rfl⟩, rfl, fun hs => ⟨hs.replayed, hs.hot, hs.root⟩⟩,
      .same, Nat.le_refl _⟩ fun r hr => by cases hr
  | flush ord =>
    obtain ⟨⟨s1, st⟩, hf, rfl⟩ := Option.map_eq_some_iff.1 h
    exact effect_flush hs rfl hf
  | tryFlushBackground ord =>
    obtain ⟨⟨s1, st⟩, hf, rfl⟩ := Option.map_eq_some_iff.1 h
    unfold ShardEngine.tryFlushBackground at hf
    split at hf
    · cases hf
      exact .idle (Calm.refl s) fun r hr => by cases hr
    · rename_i hpin
      exact effect_flush hs (decide_eq_true (UInt32.le_zero_iff.1 (UInt32.not_lt.1 hpin))) hf
  | checkpoint ord hook =>
    obtain ⟨⟨s1, st⟩, hf, rfl⟩ := Option.map_eq_some_iff.1 h
    obtain ⟨s2, st2, hflush, htail⟩ := checkpoint_tail hf
    exact .flush rfl (Calm.beforeFlush hs) hflush htail
  | groupCommit =>
    cases h
    exact .idle (Calm.groupCommitNow s) fun r hr => by cases hr
  | recoverFull => exact absurd hop Bool.false_ne_true
  | get key =>
    obtain ⟨⟨s1, st⟩, hf, rfl⟩ := Option.map_eq_some_iff.1 h
    refine .idle ?_ fun r hr => by cases hr
    rcases hs.refreshed (get_state (hs.quiet key) hf) with he | he <;> simp only [he]
    · exact Calm.refl s
    · exact Calm.repairSummary s
  | getAtSnapshot key ctx =>
    obtain ⟨⟨s1, st⟩, hf, rfl⟩ := Option.map_eq_some_iff.1 h
    refine .idle ?_ fun r hr => by cases hr
    rcases getAtSnapshot_state hf with rfl | rfl
    · exact Calm.refl _
    · exact Calm.prepareSnapshotRead hs _
  | scan plan =>
    obtain ⟨⟨s1, st⟩, hf, rfl⟩ := Option.map_eq_some_iff.1 h
    refine .idle ?_ fun r hr => by cases hr
    rcases scan_state hf with rfl | ⟨-, rfl⟩
    · rw [hs.beforeScan]
      exact Calm.refl s
    · rw [hs.beforeScan]
      exact Calm.repairSummary s
  | scanAtSnapshot plan ctx =>
    obtain ⟨⟨s1, st⟩, hf, rfl⟩ := Option.map_eq_some_iff.1 h
    refine .idle ?_ fun r hr => by cases hr
    rcases scanAtSnapshot_state hf with rfl | ⟨-, rfl⟩
    · exact Calm.prepareSnapshotRead hs _
    · exact Calm.repairTwice (hs.prepareSnapshotRead _)
  | resolveLsnAtSnapshot key snapshotLsn =>
    obtain ⟨⟨s1, st⟩, hf, rfl⟩ := Option.map_eq_some_iff.1 h
    obtain ⟨cache, rfl⟩ := resolveLsnAtSnapshot_state hf
    exact .idle ⟨⟨⟨rfl, rfl, rfl, rfl, rfl⟩, rfl, fun hs => ⟨hs.replayed, hs.hot, hs.root⟩⟩,
      .same, Nat.le_refl _⟩ fun r hr => by cases hr
  | resolveCurrentCommittedLsn key => exact absurd hop Bool.false_ne_true
  | reopen opts => exact absurd hop Bool.false_ne_true

/-! ## What a flush writes -/

/-- The versions entries are flushed as. -/
def memRecords (es : List (Key × MemTableEntry)) : List DataRecord := es.map fun x => memRecord x.1 x.2

/-- A flush writes its entries in order, all of them when it succeeds. -/
theorem flushEntries_writes {es : List (Key × MemTableEntry)} {st : Except Status Unit}
    (h : s.flushEntries es = some (s', st)) : ∃ done rest, es = done ++ rest ∧
      (st = .ok () → rest = []) ∧
      s'.datafile = (memRecords done).foldl DataFile.append s.datafile ∧
      s'.committed = (memRecords done).foldl DataFile.loadStep s.committed := by
  induction es generalizing s with
  | nil =>
    cases h
    exact ⟨[], [], rfl, fun _ => rfl, rfl, rfl⟩
  | cons x es ih =>
    obtain ⟨key, e⟩ := x
    rw [flushEntries] at h
    cases hf : s.flushEntry key e with
    | none =>
      rw [hf] at h
      cases h
    | some y =>
      obtain ⟨s1, st1⟩ := y
      obtain ⟨prevLsn, vcs, -, rfl⟩ := flushEntry_cases hf
      have hstep : ∀ n, (s.afterEntry key e vcs n).committed =
          DataFile.loadStep s.committed (memRecord key e) := by
        intro n
        simp only [afterEntry, DataFile.loadStep, memRecord]
        split <;> simp_all
      rw [hf] at h
      cases st1 with
      | error err =>
        cases h
        exact ⟨[(key, e)], es, rfl, (fun hst => by cases hst), rfl, hstep _⟩
      | ok u =>
        obtain ⟨done, rest, rfl, hrest, hdata, hcommitted⟩ := ih h
        refine ⟨(key, e) :: done, rest, rfl, hrest, hdata, ?_⟩
        rw [hcommitted, hstep]
        rfl

theorem foldl_append_load {d : DataFile} (hst : Stores d ds) {rs : List DataRecord}
    (hin : ∀ r ∈ rs, r.InRange) :
    Stores (rs.foldl DataFile.append d) (ds ++ rs) ∧
      (rs.foldl DataFile.append d).load = rs.foldl DataFile.loadStep d.load := by
  have hstores : ∀ rs' d' ds', Stores d' ds' → (∀ r ∈ rs', DataRecord.InRange r) →
      Stores (rs'.foldl DataFile.append d') (ds' ++ rs') := by
    intro rs'
    induction rs' with
    | nil => exact fun d' ds' h _ => by simpa using h
    | cons r rs' ih =>
      intro d' ds' h hin'
      have hnext := ih _ _ (h.append (hin' r List.mem_cons_self)) fun r' hr' =>
        hin' r' (List.mem_cons_of_mem _ hr')
      simpa using hnext
  have hall := hstores rs d ds hst hin
  refine ⟨hall, ?_⟩
  rw [DataFile.load, hall.loadRecords_eq, List.foldl_append, DataFile.load, hst.loadRecords_eq]

/-- **What a flush writes**, to the data file and to the map of committed values. -/
theorem flushInternal_writes {ord : IterOrder} {st : Except Status Unit}
    (h : s.flushInternal ord = some (s', st)) : ∃ done rest, ord.order s.flushing = done ++ rest ∧
      (st = .ok () → rest = []) ∧
      s'.flushing = (if st.isOk then SortedMap.empty else s.flushing) ∧
      s'.datafile = (memRecords done).foldl DataFile.append s.datafile ∧
      s'.committed = (memRecords done).foldl DataFile.loadStep s.committed := by
  obtain ⟨s1, hes, rfl⟩ := flushInternal_cases h
  obtain ⟨done, rest, he, hrest, hdata, hcommitted⟩ := flushEntries_writes hes
  have hflushing : s1.flushing = s.flushing := by rw [flushEntries_frame hes]
  refine ⟨done, rest, he, hrest, ?_, ?_, ?_⟩
  · split
    · rfl
    · exact hflushing
  · split <;> exact hdata
  · split <;> exact hcommitted

/-! ## Runs -/

theorem Steady.flush (hs : Steady s) {ord : IterOrder} {st : Except Status Unit}
    (h : s.rotateMemTableForFlush.flushInternal ord = some (s', st)) : Steady s' := by
  rw [flushInternal_frame h]
  exact ⟨hs.replayed, hs.hot, hs.root⟩

/-- **One call** leaves a steady shard steady. -/
theorem Steady.step (hs : Steady s) (hop : op.stays = true) (h : s.step op = some s') :
    Steady s' := by
  cases hs.effect hop h with
  | idle hi _ => exact hi.steady hs
  | write _ _ hi => exact hi.steady ⟨hs.replayed, hs.hot, hs.root⟩
  | promote txnId => exact ⟨hs.replayed, hs.hot, hs.root⟩
  | clear txnId => exact ⟨hs.replayed, hs.hot, hs.root⟩
  | flush _ h0 hf ht => exact ht.steady ((h0.steady hs).flush hf)

/-- No superblock, no root to load. -/
theorem recoverTiers_none {s : ShardEngine} (hsb : s.sb = SuperBlock.none) :
    (recoverTiers s).recoveryMode = .kHot ∧ (recoverTiers s).lazyRootCorrupt = false := by
  have hroot : ¬ kPageFileHeaderSize ≤ SuperBlock.none.activeRoot := by decide
  have hepoch : ¬ (0 < SuperBlock.none.epoch ∧ SuperBlock.none.activeRoot = 0) := by decide
  unfold recoverTiers
  split
  · simp [recoverLazy, hsb, hroot, hepoch]
  · simp [recoverEager, hsb, hroot, hepoch]

theorem steady_open (opts : EngineOptions) : Steady (ShardEngine.open opts ShardFiles.none) := by
  have hpending : hasUnreplayedWal (WalWriter.open []) 0 = false := by decide +kernel
  obtain ⟨mt, pending, state, hrec, -, hp⟩ :=
    recoverFromSuperBlock_eq (created opts ShardFiles.none) SuperBlock.none
  obtain ⟨hhot, hroot⟩ := recoverTiers_none (s := { created opts ShardFiles.none with
    sb := SuperBlock.none, stableLsn := SuperBlock.none.dataLsn }) rfl
  have hopen : ∀ s : ShardEngine, s.walReplayPending = pending → s.recoveryMode = .kHot →
      s.lazyRootCorrupt = false → Steady s := by
    refine fun s h1 h2 h3 => ⟨?_, h2, h3⟩
    rw [h1, ← Bool.not_eq_true]
    intro ht
    exact Bool.false_ne_true (hpending.symm.trans (hp ht))
  refine hopen _ ?_ ?_ ?_
  · show ((created opts ShardFiles.none).recoverFromSuperBlock SuperBlock.none).walReplayPending = _
    rw [hrec]
  · show ((created opts ShardFiles.none).recoverFromSuperBlock SuperBlock.none).recoveryMode = _
    rw [hrec]
    exact hhot
  · show ((created opts ShardFiles.none).recoverFromSuperBlock SuperBlock.none).lazyRootCorrupt = _
    rw [hrec]
    exact hroot

theorem Steady.allowed (hs : Steady s) (hi : Inv true h s rs ds) : Allowed true s h op where
  write _ _ := .inl rfl
  flush _ key e he := by
    rw [hs.ensureWalReplayed] at he
    exact (hi.memtable key e he).1.counts (.inl rfl)
  checkpoint _ _ _ := hs.truncatesAll
  get key _ := hs.quiet key

/-- **A run** of calls that do not read the log in again keeps the shard steady. -/
theorem Run.steady {ok : ShardEngine → History → Op → Prop}
    (hok : ∀ s h op, ok s h op → op.stays = true) (hr : Run ok s h) :
    (∃ rs ds, Inv true h s rs ds) ∧ Steady s := by
  induction hr with
  | opened opts => exact ⟨⟨[], [], FilesFrom.none.open opts⟩, steady_open opts⟩
  | step _ hc ho hs ih =>
    obtain ⟨⟨rs, ds, hi⟩, hst⟩ := ih
    exact ⟨hi.step hc (hst.allowed hi) hs, hst.step (hok _ _ _ ho) hs⟩

/-! ## The map of committed values -/

theorem Inv.memRecord_inRange (hi : Inv true h s rs ds) {key : Key} {e : MemTableEntry}
    (he : s.memtable.find? key = some e) : (memRecord key e).InRange := by
  obtain ⟨⟨w, hw, hr, -⟩, -⟩ := hi.memtable key e he
  exact hr ▸ hi.inRange w hw

/-- The records a flush writes have fields that fit. -/
theorem Inv.flushed_inRange (hi : Inv true h s rs ds) {ord : IterOrder}
    {done rest : List (Key × MemTableEntry)} (he : ord.order s.memtable = done ++ rest) :
    ∀ r ∈ memRecords done, r.InRange := by
  intro r hr
  obtain ⟨⟨key, e⟩, hm, rfl⟩ := List.mem_map.1 hr
  have hmem : (key, e) ∈ s.memtable.entries :=
    (ord.perm _).mem_iff.1 (he ▸ List.mem_append_left _ hm)
  exact hi.memRecord_inRange (SortedMap.mem_entries_iff.1 hmem)

/-- The committed values are what the data file loads as. -/
theorem Steady.mirrors (hs : Steady s) (hi : Inv true h s rs ds)
    (hm : s.committed = s.datafile.load) (hop : op.stays = true) (h : s.step op = some s') :
    s'.committed = s'.datafile.load := by
  cases hs.effect hop h with
  | idle hid _ => rw [hid.committed, hid.datafile, hm]
  | write _ _ hid => rw [hid.committed, hid.datafile, hm]
  | promote txnId => exact hm
  | clear txnId => exact hm
  | @flush _ ord s0 s1 _ st _ h0 hf htables =>
    obtain ⟨done, rest, he, -, -, hdata, hcommitted⟩ := flushInternal_writes hf
    rw [htables.committed, htables.datafile, hdata, hcommitted]
    change ord.order s0.memtable = done ++ rest at he
    rw [h0.memtable] at he
    change _ = DataFile.load (List.foldl DataFile.append s0.datafile _)
    rw [h0.datafile, (foldl_append_load hi.tiers.stores (hi.flushed_inRange he)).2, ← hm,
      ← h0.committed]
    rfl

theorem mirrors_open (opts : EngineOptions) :
    (ShardEngine.open opts ShardFiles.none).committed =
      (ShardEngine.open opts ShardFiles.none).datafile.load := by
  have hload : ∀ ix, (⟨[], ix⟩ : DataFile).load = SortedMap.empty := fun ix => rfl
  obtain ⟨mt, pending, state, hrec, -, -⟩ :=
    recoverFromSuperBlock_eq (created opts ShardFiles.none) SuperBlock.none
  show ((created opts ShardFiles.none).recoverFromSuperBlock SuperBlock.none).committed =
    ((created opts ShardFiles.none).recoverFromSuperBlock SuperBlock.none).datafile.load
  rw [hrec]
  have hroot : ¬ kPageFileHeaderSize ≤ SuperBlock.none.activeRoot := by decide
  have hepoch : ¬ (0 < SuperBlock.none.epoch ∧ SuperBlock.none.activeRoot = 0) := by decide
  simp only [recoverTiers]
  split
  · simp only [recoverLazy, if_neg hroot, if_neg hepoch]
    exact (hload _).symm
  · simp only [recoverEager, if_neg hroot]

/-- **In a run** without a reopening the committed values are what the data file loads as. -/
theorem Run.mirrors {ok : ShardEngine → History → Op → Prop}
    (hok : ∀ s h op, ok s h op → op.stays = true) (hr : Run ok s h) :
    s.committed = s.datafile.load := by
  induction hr with
  | opened opts => exact mirrors_open opts
  | step hr _ ho hs ih =>
    obtain ⟨⟨rs, ds, hi⟩, hst⟩ := hr.steady hok
    exact hst.mirrors hi ih (hok _ _ _ ho) hs

end EBTree.Engine
