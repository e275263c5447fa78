import EBTree.Engine.DiskTrace
import EBTree.Engine.Proof.Fold
import EBTree.Engine.Proof.Reopen

/-!
# The log before the data

Whatever a call writes beside the log, the log was synced with it before.

* `Journaled`: the journal has the files of the engine; what its memtables hold is known to be in
  the log, and what it calls stable was synced.
* `Journaled.call`: the effects of a call find what they must, and leave the engine so.
* `Journaled.crash`: an engine that is opened on what a crash left.
* `DiskRun.ordered`: both, in every run.
-/

set_option autoImplicit false

namespace EBTree.Engine

open Lib Wal BTree ShardEngine

/-! ## Effects one after another -/

theorem Disk.effects_append (d : Disk) (es es' : List DiskEvent) :
    d.effects (es ++ es') = d.effects es ++ (d.afterAll es).effects es' := by
  induction es generalizing d with
  | nil => rfl
  | cons e es ih => exact congrArg _ (ih (d.after e))

namespace Journal

theorem afterAll_eq (j : Journal) (es : List DiskEvent) :
    j.afterAll es = ⟨j.disk.afterAll es, j.ledger.afterAll (j.disk.effects es)⟩ := by
  induction es generalizing j with
  | nil => rfl
  | cons e es ih => exact ih (j.after e)

@[simp] theorem afterAll_nil (j : Journal) : j.afterAll [] = j := rfl

@[simp] theorem afterAll_cons (j : Journal) (e : DiskEvent) (es : List DiskEvent) :
    j.afterAll (e :: es) = (j.after e).afterAll es := rfl

theorem afterAll_append (j : Journal) (es es' : List DiskEvent) :
    j.afterAll (es ++ es') = (j.afterAll es).afterAll es' := List.foldl_append

@[simp] theorem ordered_nil (j : Journal) : j.Ordered [] := trivial

@[simp] theorem ordered_cons (j : Journal) (e : DiskEvent) (es : List DiskEvent) :
    j.Ordered (e :: es) ↔ j.ledger.Allows (j.disk.effect e) ∧ (j.after e).Ordered es := Iff.rfl

theorem ordered_append {j : Journal} {es es' : List DiskEvent} :
    j.Ordered (es ++ es') ↔ j.Ordered es ∧ (j.afterAll es).Ordered es' := by
  unfold Ordered
  rw [Disk.effects_append, Ledger.ordered_append, afterAll_eq]

end Journal

/-! ## Memtables -/

/-- The versions of a memtable are known to be in the log. -/
def Held (l : Ledger Nat) (mt : MemTable) : Prop :=
  ∀ key e, mt.find? key = some e → l.Known e.lsn

section
variable {l : Ledger Nat} {mt : MemTable}

theorem held_empty (l : Ledger Nat) : Held l SortedMap.empty := by
  intro key e h
  cases h

theorem Held.after (h : Held l mt) (e : LogEffect Nat) : Held (l.after e) mt :=
  fun key x hx => (h key x hx).after e

theorem Held.insert (h : Held l mt) {key : Key} {e : MemTableEntry} (he : l.Known e.lsn) :
    Held l (SortedMap.insert mt key e) := by
  intro k x hx
  rw [SortedMap.find?_insert] at hx
  split at hx
  · cases hx
    exact he
  · exact h k x hx

theorem Held.apply (h : Held l mt) (r : WriteRequest) {lsn : Nat} (hlsn : l.Known lsn) :
    Held l (r.apply mt lsn) := by
  unfold WriteRequest.apply
  split
  · exact h.insert hlsn
  · exact h.insert hlsn

theorem Held.promoteTxn (h : Held l mt) (txnId : UInt32) : Held l (MemTable.promoteTxn mt txnId) := by
  unfold MemTable.promoteTxn
  split
  · exact h
  · intro key e he
    rw [SortedMap.find?_mapValues, Option.map_eq_some_iff] at he
    obtain ⟨x, hx, rfl⟩ := he
    have := h key x hx
    split
    · exact this
    · exact this

theorem Held.clearTxn (h : Held l mt) (txnId : UInt32) : Held l (MemTable.clearTxn mt txnId) := by
  unfold MemTable.clearTxn
  split
  · exact h
  · intro key e he
    rw [SortedMap.find?_filterValues] at he
    exact h key e (Option.eq_some_of_filter_eq_some he)

end

/-- A replay brings in what it reads. -/
theorem Held.replayPending {l : Ledger Nat} {mt : MemTable} (h : Held l mt) {f : Bytes}
    {afterLsn : Nat} (hread : ∀ n ∈ loggedLsns f afterLsn, l.Known n) :
    Held l (replayPending f mt afterLsn) := by
  unfold Wal.replayPending
  by_cases hd : detectFormatV2OnDisk f = true
  · rw [if_pos hd]
    have hknown : ∀ r ∈ scanWalV2Sparse f afterLsn, l.Known r.lsn := by
      intro r hr
      apply hread
      rw [loggedLsns, replayScan, if_pos hd, List.map_map]
      exact List.mem_map.2 ⟨r, hr, rfl⟩
    refine List.foldlRecOn _ _ h fun mt hmt r hr => ?_
    have hlsn := hknown r (List.mem_filter.1 hr).1
    unfold replayV2
    split
    · exact hmt
    · simp only
      split
      · exact hmt.insert hlsn
      · exact hmt.insert hlsn
  · rw [if_neg hd]
    have hknown : ∀ r ∈ scanWalV1 f afterLsn, l.Known r.lsn := by
      intro r hr
      apply hread
      rw [loggedLsns, replayScan, if_neg hd, List.map_map]
      exact List.mem_map.2 ⟨r, hr, rfl⟩
    refine List.foldlRecOn _ _ h fun mt hmt r hr => ?_
    unfold replayV1
    split
    · exact hmt.insert (hknown r hr)
    · exact hmt.insert (hknown r hr)

/-! ## The invariant -/

/-- The journal of an engine (module doc). -/
structure Journaled (s : ShardEngine) (j : Journal) : Prop where
  disk : j.disk = s.disk
  memtable : Held j.ledger s.memtable
  immutable : Held j.ledger s.immutable
  flushing : Held j.ledger s.flushing
  stable : j.ledger.Covers s.stableLsn
  pending : s.groupCommit.pendingStableLsn = 0 ∨
    ∃ n, j.ledger.Known n ∧ s.groupCommit.pendingStableLsn ≤ n
  superblock : j.ledger.Covers s.superblock.dataLsn

namespace Journaled

variable {s s' : ShardEngine} {j : Journal}

/-- An effect that the engine's files have had too, and nothing else has changed. -/
theorem after (h : Journaled s j) (e : DiskEvent) {w : WalWriter} {d : DataFile} {sb : SuperBlock}
    (hdisk : j.disk.after e = ⟨w, d, sb⟩) (hsb : (j.after e).ledger.Covers sb.dataLsn) :
    Journaled { s with wal := w, datafile := d, superblock := sb } (j.after e) where
  disk := hdisk
  memtable := h.memtable.after _
  immutable := h.immutable.after _
  flushing := h.flushing.after _
  stable := h.stable.after _
  pending := h.pending.imp id fun ⟨n, hn, hle⟩ => ⟨n, hn.after _, hle⟩
  superblock := hsb

theorem fsync (h : Journaled s j) :
    Journaled { s with wal := s.wal.fsync } (j.after .walFsync) := by
  refine h.after .walFsync ?_ (h.superblock.after _)
  rw [h.disk]
  rfl

/-- Behind a sync everything that is known was synced. -/
theorem synced_fsync {n : Nat} (hn : j.ledger.Known n) : n ∈ (j.after .walFsync).ledger.synced :=
  hn.sync

theorem append (h : Journaled s j) (it : WalWriter.Item) :
    Journaled { s with wal := (s.wal.append it).1 } (j.after (.walAppend it)) := by
  refine h.after (.walAppend it) ?_ (h.superblock.after _)
  rw [h.disk]
  rfl

theorem known_append (h : Journaled s j) {it : WalWriter.Item} {lsn : Nat}
    (ha : (s.wal.append it).2 = .ok lsn) : (j.after (.walAppend it)).ledger.Known lsn := by
  left
  have hw : j.disk.wal = s.wal := by rw [h.disk]; rfl
  show lsn ∈ (j.disk.wal.append it).2.toOption.toList ++ j.ledger.logged
  rw [hw, ha]
  exact List.mem_cons_self

/-- Replaying the log. -/
theorem ensureWalReplayed (h : Journaled s j) :
    j.Ordered s.replayEvents ∧ Journaled s.ensureWalReplayed (j.afterAll s.replayEvents) := by
  unfold replayEvents ShardEngine.ensureWalReplayed
  by_cases hp : s.walReplayPending = true
  · rw [if_pos hp, if_pos hp]
    refine ⟨⟨trivial, trivial⟩, ?_⟩
    have hread : Journaled { s with wal := s.wal, datafile := s.datafile, superblock := s.superblock }
        (j.after (.walRead s.sb.walLsn)) :=
      h.after _ h.disk (h.superblock.after _)
    have hmem : Held (j.after (.walRead s.sb.walLsn)).ledger
        (replayPending s.wal.file s.memtable s.sb.walLsn) := by
      apply hread.memtable.replayPending
      intro n hn
      have hfile : j.disk.wal.file = s.wal.file := by rw [h.disk]; rfl
      exact .inl (List.mem_append_left _ (hfile.symm ▸ hn))
    exact ⟨hread.disk, hmem, hread.immutable, hread.flushing, hread.stable, hread.pending,
      hread.superblock⟩
  · rw [if_neg hp, if_neg hp]
    exact ⟨trivial, h⟩

theorem groupCommit (h : Journaled s j) :
    j.Ordered s.groupCommitEvents ∧ Journaled s.groupCommitNow (j.afterAll s.groupCommitEvents) := by
  unfold groupCommitEvents groupCommitNow
  split
  · exact ⟨trivial, h⟩
  · rename_i hne
    refine ⟨⟨trivial, trivial⟩, ?_⟩
    have hs := h.fsync
    obtain ⟨n, hn, hle⟩ := hs.pending.resolve_left hne
    have hcovers : (j.after .walFsync).ledger.Covers s.groupCommit.pendingStableLsn := by
      obtain ⟨m, hm, hle⟩ := h.pending.resolve_left hne
      exact .inr ⟨m, synced_fsync hm, hle⟩
    exact ⟨hs.disk, hs.memtable, hs.immutable, hs.flushing, hs.stable.max hcovers,
      .inr ⟨n, hn, hle⟩, hs.superblock⟩

/-- A write that is in the log and the memtable, and what its durability class does with it. -/
theorem acknowledge (h : Journaled s j) {lsn : Nat} (hlsn : j.ledger.Known lsn) :
    j.Ordered (s.acknowledgeEvents lsn) ∧
      Journaled (s.acknowledge lsn) (j.afterAll (s.acknowledgeEvents lsn)) := by
  have hs := h.fsync
  have hcovers : (j.after .walFsync).ledger.Covers lsn := Ledger.covers_of_mem (synced_fsync hlsn)
  unfold acknowledgeEvents ShardEngine.acknowledge
  by_cases hp : s.opts.pipelined = true
  · rw [if_pos (.inl hp), if_pos hp]
    exact ⟨⟨trivial, trivial⟩, hs.disk, hs.memtable, hs.immutable, hs.flushing,
      hs.stable.max hcovers, hs.pending, hs.superblock⟩
  · by_cases hsync : s.opts.syncPath = true
    · rw [if_pos (.inr hsync), if_neg hp, if_pos hsync]
      exact ⟨⟨trivial, trivial⟩, hs.disk, hs.memtable, hs.immutable, hs.flushing, hcovers,
        hs.pending, hs.superblock⟩
    · rw [if_neg (not_or.2 ⟨hp, hsync⟩), if_neg hp, if_neg hsync]
      -- the write waits for a group commit
      have hwaits : Journaled { s with groupCommit :=
          ⟨max s.groupCommit.pendingStableLsn lsn, s.groupCommit.putsSinceCommit + 1⟩ } j := by
        refine { h with pending := ?_ }
        rcases max_choice s.groupCommit.pendingStableLsn lsn with hm | hm
        · simp only [hm]
          exact h.pending
        · simp only [hm]
          exact .inr ⟨lsn, hlsn, Nat.le_refl _⟩
      by_cases hgroup : s.opts.durability = .kGroup
      · rw [if_pos hgroup]
        simp only
        by_cases hauto : 0 < s.opts.groupCommitBatchSize ∧
            s.opts.groupCommitBatchSize ≤ s.groupCommit.putsSinceCommit + 1
        · rw [if_pos ⟨hgroup, hauto⟩, if_pos hauto]
          exact hwaits.groupCommit
        · rw [if_neg (fun hc => hauto hc.2), if_neg hauto]
          exact ⟨trivial, hwaits⟩
      · rw [if_neg hgroup, if_neg (fun hc => hgroup hc.1)]
        exact ⟨trivial, h⟩

/-- The events that follow the append of a write depend on what replaying leaves alone. -/
theorem acknowledgeEvents_congr {s s' : ShardEngine} (ho : s'.opts = s.opts)
    (hg : s'.groupCommit = s.groupCommit) (lsn : Nat) :
    s'.acknowledgeEvents lsn = s.acknowledgeEvents lsn := by
  simp only [acknowledgeEvents, groupCommitEvents, ho, hg]

theorem write (h : Journaled s j) (r : WriteRequest) :
    j.Ordered (s.writeEvents r) ∧ Journaled (s.write r).1 (j.afterAll (s.writeEvents r)) := by
  unfold writeEvents
  obtain ⟨hordered, hreplayed⟩ := h.ensureWalReplayed
  have hwal : s.ensureWalReplayed.wal = s.wal := by
    obtain ⟨_, _, he⟩ := ensureWalReplayed_eq s
    rw [he]
  rcases write_cases s r with ⟨hkey, hw⟩ | ⟨hkey, hw⟩
  · rw [hw, if_pos hkey]
    exact ⟨trivial, h⟩
  rw [if_neg hkey, Journal.afterAll_append, Journal.ordered_append]
  have happ := hreplayed.append (r.item s.opts.logsTxn)
  rcases hw with ⟨w, e, ha, hw⟩ | ⟨w, lsn, ha, hw⟩
  · rw [hw, ha]
    rw [hwal, ha] at happ
    exact ⟨⟨hordered, trivial, trivial⟩, happ⟩
  · rw [hw, ha]
    have hresult : (s.ensureWalReplayed.wal.append (r.item s.opts.logsTxn)).2 = .ok lsn := by
      rw [hwal, ha]
    have hknown := hreplayed.known_append hresult
    rw [hwal, ha] at happ
    have hput : Journaled { s.ensureWalReplayed with
        wal := w, memtable := r.apply s.ensureWalReplayed.memtable lsn } _ :=
      { happ with memtable := happ.memtable.apply r hknown }
    obtain ⟨_, _, he⟩ := ensureWalReplayed_eq s
    obtain ⟨hack, hack'⟩ := hput.acknowledge hknown
    have hcongr : ShardEngine.acknowledgeEvents { s.ensureWalReplayed with
        wal := w, memtable := r.apply s.ensureWalReplayed.memtable lsn } lsn =
        s.acknowledgeEvents lsn :=
      acknowledgeEvents_congr (by rw [he]) (by rw [he]) lsn
    rw [hcongr] at hack hack'
    exact ⟨⟨hordered, trivial, hack⟩, hack'⟩

/-! ## Flushing -/

/-- The entries that are left to flush are of records that were synced. -/
def Synced (j : Journal) (es : List (Key × MemTableEntry)) : Prop :=
  ∀ key e, (key, e) ∈ es → e.lsn ∈ j.ledger.synced

theorem flushEntries {es : List (Key × MemTableEntry)} (h : Journaled s j) (hes : Synced j es) :
    j.Ordered (s.entryEvents es) ∧ ∀ s' st, s.flushEntries es = some (s', st) →
      Journaled s' (j.afterAll (s.entryEvents es)) := by
  induction es generalizing s j with
  | nil =>
    refine ⟨trivial, fun s' st hf => ?_⟩
    cases hf
    exact h
  | cons x es ih =>
    obtain ⟨key, e⟩ := x
    have hlsn := hes key e List.mem_cons_self
    unfold entryEvents ShardEngine.flushEntries
    cases hf : s.flushEntry key e with
    | none => exact ⟨trivial, fun s' st hc => by cases hc⟩
    | some y =>
      obtain ⟨s1, st1⟩ := y
      obtain ⟨_, vcs, -, rfl⟩ := flushEntry_cases hf
      have happ : ∀ n, j.ledger.Covers n →
          Journaled (s.afterEntry key e vcs n) (j.after (.dataAppend (memRecord key e))) := by
        intro n hn
        have hafter : Journaled { s with
            wal := s.wal, datafile := s.datafile.append (memRecord key e), superblock := s.superblock }
            (j.after (.dataAppend (memRecord key e))) := by
          refine h.after _ ?_ (h.superblock.after _)
          rw [h.disk]
          rfl
        exact ⟨hafter.disk, hafter.memtable, hafter.immutable, hafter.flushing, hn.after _,
          hafter.pending, hafter.superblock⟩
      have hcovers : j.ledger.Covers (max s.stableLsn e.lsn) :=
        h.stable.max (Ledger.covers_of_mem hlsn)
      cases st1 with
      | error err =>
        refine ⟨⟨hlsn, trivial⟩, fun s' st hc => ?_⟩
        cases hc
        exact happ _ h.stable
      | ok u =>
        have hnext := ih (happ _ hcovers) fun key' e' he' =>
          Ledger.synced_after (hes key' e' (List.mem_cons_of_mem _ he')) _
        exact ⟨⟨hlsn, hnext.1⟩, hnext.2⟩

theorem rotate (h : Journaled s j) : Journaled s.rotateMemTableForFlush j where
  disk := h.disk
  memtable := h.immutable
  immutable := h.flushing
  flushing := h.memtable
  stable := h.stable
  pending := h.pending
  superblock := h.superblock

theorem flushInternal (h : Journaled s j) (ord : IterOrder) :
    j.Ordered (s.flushInternalEvents ord) ∧ ∀ s' st, s.flushInternal ord = some (s', st) →
      Journaled s' (j.afterAll (s.flushInternalEvents ord)) := by
  unfold flushInternalEvents
  -- the sync in front takes what is to be flushed
  have hes : Synced (j.after .walFsync) (ord.order s.flushing) := fun key e he =>
    synced_fsync (h.flushing key e (SortedMap.mem_entries_iff.1 ((ord.perm _).mem_iff.1 he)))
  obtain ⟨hordered, hflushed⟩ := h.fsync.flushEntries hes
  refine ⟨⟨trivial, hordered⟩, fun s' st hf => ?_⟩
  obtain ⟨s1, hs1, rfl⟩ := flushInternal_cases hf
  have hj := hflushed s1 st hs1
  split
  · exact { hj with flushing := held_empty _ }
  · exact hj

theorem flush (h : Journaled s j) (ord : IterOrder) :
    j.Ordered (s.flushEvents ord) ∧ ∀ s' st, s.flush ord = some (s', st) →
      Journaled s' (j.afterAll (s.flushEvents ord)) := by
  unfold flushEvents
  obtain ⟨hordered, hreplayed⟩ := h.ensureWalReplayed
  obtain ⟨hordered', hflushed⟩ := hreplayed.rotate.flushInternal ord
  rw [Journal.ordered_append, Journal.afterAll_append]
  exact ⟨⟨hordered, hordered'⟩, hflushed⟩

/-! ## Checkpoints -/

/-- A state that has the same files, memtables and watermarks. -/
theorem same (h : Journaled s j) (hdisk : s'.disk = s.disk) (hmem : s'.memtable = s.memtable)
    (himm : s'.immutable = s.immutable) (hflu : s'.flushing = s.flushing)
    (hstable : s'.stableLsn = s.stableLsn) (hgroup : s'.groupCommit = s.groupCommit) :
    Journaled s' j where
  disk := h.disk.trans hdisk.symm
  memtable := hmem ▸ h.memtable
  immutable := himm ▸ h.immutable
  flushing := hflu ▸ h.flushing
  stable := hstable ▸ h.stable
  pending := hgroup ▸ h.pending
  superblock := by
    have hsb : s'.superblock = s.superblock := congrArg Disk.superblock hdisk
    exact hsb ▸ h.superblock

/-- Committing a superblock whose bound is the stable LSN. -/
theorem commitSuperBlock (h : Journaled s j) {sb : SuperBlock} (hsb : sb.dataLsn = s.stableLsn) :
    j.Ordered [.superBlock sb] ∧ Journaled (s.commitSuperBlock sb) (j.after (.superBlock sb)) := by
  have hcovers : j.ledger.Covers sb.dataLsn := hsb ▸ h.stable
  refine ⟨⟨hcovers, trivial⟩, ?_⟩
  have hafter : Journaled
      { s with
        wal := s.wal
        datafile := s.datafile
        superblock := { sb with epoch := max s.superblock.epoch sb.epoch + 1 } }
      (j.after (.superBlock sb)) := by
    refine h.after _ ?_ (hcovers.after _)
    rw [h.disk]
    rfl
  exact hafter.same rfl rfl rfl rfl rfl rfl

theorem saveSidecars (h : Journaled s j) : Journaled s.saveSidecars j :=
  h.same rfl rfl rfl rfl rfl rfl

theorem truncateWal (h : Journaled s j) : Journaled s.truncateWal
    (j.afterAll (if 0 < s.sb.walLsn then [.walTruncate s.sb.walLsn] else [])) := by
  unfold ShardEngine.truncateWal
  split
  · have hafter : Journaled
        { s with
          wal := s.wal.truncateTo s.sb.walLsn
          datafile := s.datafile
          superblock := s.superblock } (j.after (.walTruncate s.sb.walLsn)) := by
      refine h.after _ ?_ (h.superblock.after _)
      rw [h.disk]
      rfl
    exact hafter.same rfl rfl rfl rfl rfl rfl
  · exact h.same rfl rfl rfl rfl rfl rfl

theorem checkpointCommit (h : Journaled s j) (hook : CheckpointPhase → Bool) :
    j.Ordered (s.checkpointCommitEvents hook) ∧ ∀ s' st, s.checkpointCommit hook = some (s', st) →
      Journaled s' (j.afterAll (s.checkpointCommitEvents hook)) := by
  unfold checkpointCommitEvents ShardEngine.checkpointCommit
  cases hc : s.commitSuperBlockInternal with
  | none => exact ⟨trivial, fun s' st hf => by cases hf⟩
  | some y =>
    obtain ⟨s1, st1⟩ := y
    -- a block is committed, or only the tree has changed
    have hcommitted : (∃ e, st1 = .error e ∧ Journaled s1 j) ∨
        (st1 = .ok () ∧ j.Ordered [.superBlock s1.sb] ∧
          Journaled s1 (j.after (.superBlock s1.sb))) := by
      rcases commitSuperBlockInternal_cases hc with ⟨-, rfl, rfl⟩ |
        ⟨-, btree, pst, -, ⟨e, -, rfl, rfl⟩ | ⟨root, -, ⟨e, -, rfl, rfl⟩ | ⟨-, rfl, rfl⟩⟩⟩
      · exact .inr ⟨rfl, h.commitSuperBlock rfl⟩
      · exact .inl ⟨e, rfl, h.same rfl rfl rfl rfl rfl rfl⟩
      · exact .inl ⟨e, rfl, h.same rfl rfl rfl rfl rfl rfl⟩
      · have hloaded : Journaled { s with btree :=
            (btree.loadRoot root).1.ensureSummaryLsnAtLeast s.stableLsn } j :=
          h.same rfl rfl rfl rfl rfl rfl
        exact .inr ⟨rfl, hloaded.commitSuperBlock rfl⟩
    rcases hcommitted with ⟨e, rfl, hj⟩ | ⟨rfl, hordered, hj⟩
    · refine ⟨trivial, fun s' st hf => ?_⟩
      cases hf
      exact hj
    · have htruncates : ∀ es : List DiskEvent, (es = [] ∨ ∃ n, es = [.walTruncate n]) →
          j.Ordered (.superBlock s1.sb :: es) := by
        rintro es (rfl | ⟨n, rfl⟩)
        · exact hordered
        · exact ⟨hordered.1, trivial, trivial⟩
      simp only
      cases hhook : hook .beforeWalTruncate with
      | true =>
        simp only [Bool.true_eq_false, false_and, if_false, if_true]
        refine ⟨hordered, fun s' st hf => ?_⟩
        cases hf
        exact hj.saveSidecars
      | false =>
        simp only [Bool.false_eq_true, true_and, if_false]
        refine ⟨htruncates _ ?_, fun s' st hf => ?_⟩
        · by_cases hpos : 0 < s1.sb.walLsn
          · exact .inr ⟨_, if_pos hpos⟩
          · exact .inl (if_neg hpos)
        · cases hf
          exact hj.saveSidecars.truncateWal

theorem beforeFlush (h : Journaled s j) :
    j.Ordered s.beforeFlushEvents ∧ Journaled s.beforeFlush (j.afterAll s.beforeFlushEvents) := by
  unfold beforeFlushEvents ShardEngine.beforeFlush
  obtain ⟨hordered, hreplayed⟩ := h.ensureWalReplayed
  rw [Journal.ordered_append, Journal.afterAll_append]
  split
  · exact ⟨⟨hordered, hreplayed.groupCommit.1⟩, hreplayed.groupCommit.2⟩
  · exact ⟨⟨hordered, trivial⟩, hreplayed⟩

theorem foldWalToVcs (h : Journaled s j) : Journaled s.foldWalToVcs.1 j := by
  obtain ⟨vcs, he, -⟩ := foldWalToVcs_eq s
  rw [he]
  exact h.same rfl rfl rfl rfl rfl rfl

/-- The part of `checkpoint` behind its flush. -/
def afterFlush (s : ShardEngine) (hook : CheckpointPhase → Bool) :
    Option (ShardEngine × Except Status Unit) :=
  if hook .afterFlush then some (s, interrupted)
  else
    match s.foldWalToVcs with
    | (s, .error e) => some (s, .error e)
    | (s, .ok ()) =>
      if hook .afterVcsFold ∨ hook .afterTLog ∨ hook .beforeSuperBlock then some (s, interrupted)
      else s.checkpointCommit hook

/-- `checkpoint` behind what its flush came to, and the effects of that part. -/
def flushed (hook : CheckpointPhase → Bool) :
    Option (ShardEngine × Except Status Unit) → Option (ShardEngine × Except Status Unit)
  | none => none
  | some (s, .error e) => some (s, .error e)
  | some (s, .ok ()) => afterFlush s hook

@[inherit_doc flushed]
def flushedEvents (hook : CheckpointPhase → Bool) :
    Option (ShardEngine × Except Status Unit) → List DiskEvent
  | some (s, .ok ()) => s.afterFlushEvents hook
  | _ => []

theorem afterFlush_journaled (h : Journaled s j) (hook : CheckpointPhase → Bool) :
    j.Ordered (s.afterFlushEvents hook) ∧ ∀ s' st, afterFlush s hook = some (s', st) →
      Journaled s' (j.afterAll (s.afterFlushEvents hook)) := by
  unfold afterFlushEvents afterFlush
  have hfolded := h.foldWalToVcs
  split
  · refine ⟨trivial, fun s' st hf => ?_⟩
    cases hf
    exact h
  generalize s.foldWalToVcs = x at hfolded ⊢
  obtain ⟨s1, st1⟩ := x
  cases st1 with
  | error e =>
    refine ⟨trivial, fun s' st hf => ?_⟩
    cases hf
    exact hfolded
  | ok u =>
    simp only
    split
    · refine ⟨trivial, fun s' st hf => ?_⟩
      cases hf
      exact hfolded
    · exact hfolded.checkpointCommit hook

theorem checkpoint (h : Journaled s j) (ord : IterOrder) (hook : CheckpointPhase → Bool) :
    j.Ordered (s.checkpointEvents ord hook) ∧ ∀ s' st, s.checkpoint ord hook = some (s', st) →
      Journaled s' (j.afterAll (s.checkpointEvents ord hook)) := by
  obtain ⟨hordered, hbefore⟩ := h.beforeFlush
  obtain ⟨hordered', hflushed⟩ := hbefore.rotate.flushInternal ord
  have hevents : s.checkpointEvents ord hook = s.beforeFlushEvents ++
      (s.beforeFlush.rotateMemTableForFlush.flushInternalEvents ord ++
        flushedEvents hook (s.beforeFlush.rotateMemTableForFlush.flushInternal ord)) := rfl
  have hcheckpoint : s.checkpoint ord hook =
      flushed hook (s.beforeFlush.rotateMemTableForFlush.flushInternal ord) := rfl
  rw [hevents, hcheckpoint, Journal.ordered_append, Journal.ordered_append, Journal.afterAll_append,
    Journal.afterAll_append]
  generalize s.beforeFlush.rotateMemTableForFlush.flushInternal ord = x at hflushed ⊢
  rcases x with _ | ⟨s1, st1⟩
  · exact ⟨⟨hordered, hordered', trivial⟩, fun s' st hf => by cases hf⟩
  have hj := hflushed s1 st1 rfl
  cases st1 with
  | error e =>
    refine ⟨⟨hordered, hordered', trivial⟩, fun s' st hf => ?_⟩
    cases hf
    exact hj
  | ok u =>
    obtain ⟨hrest, hrest'⟩ := hj.afterFlush_journaled hook
    exact ⟨⟨hordered, hordered', hrest⟩, hrest'⟩

/-! ## Calls -/

/-- **One call**: its effects find what they must, up to where it does not return, and where it
returns it leaves an engine and its journal. -/
theorem call (h : Journaled s j) {op : Op} (hop : op.writes = true) :
    j.Ordered (s.events op) ∧ ∀ s', s.step op = some s' → Journaled s' (j.afterAll (s.events op)) := by
  -- a call that returns with a status
  have hstatus : ∀ {x : Option (ShardEngine × Except Status Unit)} {es : List DiskEvent},
      (j.Ordered es ∧ ∀ s' st, x = some (s', st) → Journaled s' (j.afterAll es)) →
      j.Ordered es ∧ ∀ s', x.map (·.1) = some s' → Journaled s' (j.afterAll es) := by
    intro x es hx
    refine ⟨hx.1, fun s' hs' => ?_⟩
    obtain ⟨⟨s1, st⟩, hs1, rfl⟩ := Option.map_eq_some_iff.1 hs'
    exact hx.2 s1 st hs1
  -- a call that always returns
  have hreturns : ∀ {s1 : ShardEngine} {es : List DiskEvent},
      (j.Ordered es ∧ Journaled s1 (j.afterAll es)) →
      j.Ordered es ∧ ∀ s', some s1 = some s' → Journaled s' (j.afterAll es) := by
    intro s1 es hx
    refine ⟨hx.1, fun s' hs' => ?_⟩
    cases hs'
    exact hx.2
  cases op with
  | write r => exact hreturns (h.write r)
  | appendTxnBegin txnId snapshotLsn => exact hreturns ⟨⟨trivial, trivial⟩, h.append _⟩
  | appendTxnCommit txnId =>
    exact hreturns ⟨⟨trivial, trivial, trivial⟩, (h.append (WalWriter.txnControl .kTxnCommit txnId 0)).fsync⟩
  | appendTxnAbort txnId => exact hreturns ⟨⟨trivial, trivial⟩, h.append _⟩
  | promoteTxn txnId =>
    exact hreturns ⟨trivial, { h with
      memtable := h.memtable.promoteTxn txnId
      immutable := h.immutable.promoteTxn txnId
      flushing := h.flushing.promoteTxn txnId }⟩
  | clearTxn txnId =>
    exact hreturns ⟨trivial, { h with
      memtable := h.memtable.clearTxn txnId
      immutable := h.immutable.clearTxn txnId
      flushing := h.flushing.clearTxn txnId }⟩
  | pinSnapshot lsn => exact hreturns ⟨trivial, h.same rfl rfl rfl rfl rfl rfl⟩
  | releaseSnapshot => exact hreturns ⟨trivial, h.same rfl rfl rfl rfl rfl rfl⟩
  | flush ord => exact hstatus (h.flush ord)
  | tryFlushBackground ord =>
    refine hstatus ?_
    by_cases hpin : 0 < s.snapshotPinCount
    · simp only [ShardEngine.events, ShardEngine.tryFlushBackground, if_pos hpin]
      refine ⟨trivial, fun s' st hf => ?_⟩
      cases hf
      exact h
    · simp only [ShardEngine.events, ShardEngine.tryFlushBackground, if_neg hpin]
      exact h.flush ord
  | checkpoint ord hook => exact hstatus (h.checkpoint ord hook)
  | groupCommit => exact hreturns h.groupCommit
  | recoverFull => cases hop
  | get key => cases hop
  | getAtSnapshot key ctx => cases hop
  | scan plan => cases hop
  | scanAtSnapshot plan ctx => cases hop
  | resolveLsnAtSnapshot key snapshotLsn => cases hop
  | resolveCurrentCommittedLsn key => cases hop
  | reopen opts => cases hop

end Journaled

/-! ## Crashes -/

namespace Journal

/-- Along effects that find what they must, the superblock stays covered. -/
theorem covers_afterAll {j : Journal} {es : List DiskEvent}
    (hj : j.ledger.Covers j.disk.superblock.dataLsn) (ho : j.Ordered es) :
    (j.afterAll es).ledger.Covers (j.afterAll es).disk.superblock.dataLsn := by
  induction es generalizing j with
  | nil => exact hj
  | cons e es ih =>
    refine ih ?_ ho.2
    cases e with
    | walRead afterLsn => exact hj.after _
    | walAppend it => exact hj.after _
    | walFsync => exact hj.after _
    | walTruncate walLsn => exact hj.after _
    | dataAppend r => exact hj.after _
    | superBlock sb => exact Ledger.Covers.after ho.1 _

end Journal

/-- **An engine that is opened** on a superblock that is covered, whatever has become of the other
files. -/
theorem Journaled.opened {j : Journal} {f : ShardFiles}
    (hf : j.ledger.Covers f.superblock.dataLsn) (opts : EngineOptions) :
    Journaled (ShardEngine.open opts f) (j.opened (ShardEngine.open opts f)) := by
  obtain ⟨state, hopen⟩ := open_eq opts f
  have hframe := recoverTiers_frame (loading opts f)
  generalize recoverTiers (loading opts f) = s1 at hopen hframe
  have hopts : s1.opts = opts := by rw [hframe]; rfl
  have hsb : s1.sb = f.superblock := by rw [hframe]; rfl
  have hsuper : s1.superblock = f.superblock := by rw [hframe]; rfl
  have himm : s1.immutable = SortedMap.empty := by rw [hframe]; rfl
  have hflu : s1.flushing = SortedMap.empty := by rw [hframe]; rfl
  have hstable : s1.stableLsn = f.superblock.dataLsn := by rw [hframe]; rfl
  have hgroup : s1.groupCommit = ⟨0, 0⟩ := by rw [hframe]; rfl
  have hcovers : (j.opened (ShardEngine.open opts f)).ledger.Covers f.superblock.dataLsn :=
    hf.reopened.after _
  rw [hopen] at hcovers ⊢
  refine
    { disk := rfl
      memtable := ?_
      immutable := by simpa only [himm] using held_empty _
      flushing := by simpa only [hflu] using held_empty _
      stable := ?_
      pending := .inl (by simp only [hgroup])
      superblock := ?_ }
  · simp only
    split
    · rename_i hfull
      refine (held_empty _).replayPending fun n hn => .inl ?_
      simp only [Journal.opened, hopts, hsb, if_pos hfull]
      exact List.mem_append_left _ hn
    · exact held_empty _
  · simp only [hstable]
    exact hcovers
  · simp only [hsuper]
    exact hcovers

/-- **In every run** the journal is the engine's. -/
theorem DiskRun.journaled {s : ShardEngine} {j : Journal} (hr : DiskRun s j) : Journaled s j := by
  induction hr with
  | opened opts => exact Journaled.opened (Ledger.covers_bot _) opts
  | call _ hop hstep ih => exact (ih.call hop).2 _ hstep
  | @crash s j op done lost f opts _ hop hevents hf ih =>
    have hordered := (ih.call hop).1
    rw [hevents, Journal.ordered_append] at hordered
    have hsb : j.ledger.Covers j.disk.superblock.dataLsn := by
      rw [ih.disk]
      exact ih.superblock
    apply Journaled.opened
    rw [hf]
    exact Journal.covers_afterAll hsb hordered.1

/-- **The log comes first**, in every run of calls and crashes: the superblock's bound is at most the
LSN of a record that was synced, and so is each bound that a call commits; a record is appended to
the data file when the log was synced with it. The journal has the files as the engine has them. -/
theorem DiskRun.ordered {s : ShardEngine} {j : Journal} (hr : DiskRun s j) :
    j.disk = s.disk ∧ j.ledger.Covers s.superblock.dataLsn ∧
      ∀ op, op.writes = true → j.Ordered (s.events op) :=
  ⟨hr.journaled.disk, hr.journaled.superblock, fun _ hop => (hr.journaled.call hop).1⟩

/-- A put, a checkpoint and a crash behind it. -/
theorem DiskRun.ordered_checkpoint : ∃ (s : ShardEngine) (j : Journal), 0 < s.superblock.dataLsn ∧
    j.disk = s.disk ∧ j.ledger.Covers s.superblock.dataLsn ∧
      ∀ op : Op, op.writes = true → j.Ordered (s.events op) := by
  obtain ⟨s, hs, hpos⟩ := (Option.any_eq_true _ _).1 (show ((((ShardEngine.open .sync
    ShardFiles.none).write ⟨[1], [2], false, 0⟩).1.step (.checkpoint IterOrder.byKey
      fun _ => false)).any fun s => 0 < (ShardEngine.open .sync s.files).superblock.dataLsn) = true
    by decide +kernel)
  have hput := @DiskRun.call _ ((ShardEngine.open .sync ShardFiles.none).write
    ⟨[1], [2], false, 0⟩).1 _ (.write ⟨[1], [2], false, 0⟩) (DiskRun.opened .sync) rfl rfl
  have hcheckpoint : DiskRun s _ := hput.call rfl hs
  have hfiles : s.files.superblock = _ :=
    (congrArg Disk.superblock hcheckpoint.journaled.disk).symm
  have hcrash : DiskRun (ShardEngine.open .sync s.files) _ :=
    @DiskRun.crash s _ .groupCommit [] (s.events .groupCommit) s.files .sync hcheckpoint rfl rfl hfiles
  exact ⟨_, _, of_decide_eq_true hpos, hcrash.ordered⟩

end EBTree.Engine
