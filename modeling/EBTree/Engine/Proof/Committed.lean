import EBTree.Engine.Proof.Reopen

/-!
# What is flushed is committed

`Inv.step` is the step of a run, for calls that are `Allowed`; a run of such calls keeps the
invariant (`Inv.run`). From it:

* `run_only_committed`: in a run whose calls `Settle`, the data file, the map of committed values,
  the tree and the version chains hold versions of autocommit writes and of transactions with a
  commit record, and no others.
* `flush_takes_open_txn`: the flusher itself takes the entries of an open transaction along.
-/

set_option autoImplicit false

namespace EBTree.Engine

open Lib Wal BTree ShardEngine

/-! ## The step of a run -/

/-- Whether a call flushes the memtable. -/
def Op.flushes (s : ShardEngine) : Op → Bool
  | .flush _ => true
  | .tryFlushBackground _ => s.snapshotPinCount = 0
  | .checkpoint _ _ => true
  | _ => false

/-- What a call needs to keep the invariant. -/
structure Allowed (any : Bool) (s : ShardEngine) (h : History) (op : Op) : Prop where
  write : ∀ r, op = .write r → any = true ∨ r.txnId = 0 ∨ s.opts.logsTxn = true
  flush : op.flushes s = true → MemCounts any h s.ensureWalReplayed.memtable
  checkpoint : ∀ ord hook, op = .checkpoint ord hook → s.TruncatesAll
  get : ∀ key, op = .get key → s.Quiet key

variable {any : Bool} {h : History} {s s' : ShardEngine} {rs : List WalRecord}
  {ds : List DataRecord} {op : Op}

/-- **One call** keeps the invariant. -/
theorem Inv.step (hi : Inv any h s rs ds) (hc : Client s h op) (ha : Allowed any s h op)
    (hs : s.step op = some s') : ∃ rs' ds', Inv any (h.after s op) s' rs' ds' := by
  have hsame : ∀ {s'}, Inv any h s' rs ds → ∃ rs' ds', Inv any h s' rs' ds' := fun hi' => ⟨_, _, hi'⟩
  cases op with
  | write r =>
    cases hs
    obtain ⟨rs', hi'⟩ := hi.write hc.counter r (ha.write r rfl)
    exact ⟨rs', ds, hi'⟩
  | appendTxnBegin txnId snapshotLsn =>
    cases hs
    obtain ⟨rs', hi'⟩ := hi.appendTxnControl hc.counter (History.Le.refl h) rfl .kTxnBegin
      txnId (UInt64.ofNat snapshotLsn) (by decide) (fun hop => by cases hop)
    exact ⟨rs', ds, hi'⟩
  | appendTxnCommit txnId =>
    cases hs
    obtain ⟨rs', hi'⟩ := hi.appendTxnCommit hc.counter txnId
    exact ⟨rs', ds, hi'⟩
  | appendTxnAbort txnId =>
    cases hs
    obtain ⟨rs', hi'⟩ := hi.appendTxnControl hc.counter (History.Le.refl h) rfl .kTxnAbort
      txnId 0 (by decide) (fun hop => by cases hop)
    exact ⟨rs', ds, hi'⟩
  | promoteTxn txnId =>
    cases hs
    exact hsame (hi.promoteTxn (hc.promote txnId rfl))
  | clearTxn txnId =>
    cases hs
    exact hsame (hi.clearTxn txnId)
  | pinSnapshot lsn =>
    cases hs
    exact hsame { hi with }
  | releaseSnapshot =>
    cases hs
    exact hsame { hi with }
  | flush ord =>
    obtain ⟨⟨s1, st⟩, hf, rfl⟩ := Option.map_eq_some_iff.1 hs
    obtain ⟨ds', hi'⟩ := hi.flush (ha.flush rfl) hf
    exact ⟨rs, ds', hi'⟩
  | tryFlushBackground ord =>
    obtain ⟨⟨s1, st⟩, hf, rfl⟩ := Option.map_eq_some_iff.1 hs
    unfold ShardEngine.tryFlushBackground at hf
    split at hf
    · cases hf
      exact hsame hi
    · rename_i hpin
      have hunpinned : s.snapshotPinCount = 0 := UInt32.le_zero_iff.1 (UInt32.not_lt.1 hpin)
      obtain ⟨ds', hi'⟩ := hi.flush (ha.flush (decide_eq_true hunpinned)) hf
      exact ⟨rs, ds', hi'⟩
  | checkpoint ord hook =>
    obtain ⟨⟨s1, st⟩, hf, rfl⟩ := Option.map_eq_some_iff.1 hs
    exact hi.checkpoint (ha.flush rfl) (ha.checkpoint ord hook rfl) hf
  | groupCommit =>
    cases hs
    exact hsame hi.groupCommitNow
  | recoverFull =>
    cases hs
    exact hsame hi.recoverFull
  | get key =>
    obtain ⟨⟨s1, st⟩, hf, rfl⟩ := Option.map_eq_some_iff.1 hs
    exact hsame (hi.refreshed (get_state (ha.get key rfl) hf))
  | getAtSnapshot key ctx =>
    obtain ⟨⟨s1, st⟩, hf, rfl⟩ := Option.map_eq_some_iff.1 hs
    rcases getAtSnapshot_state hf with rfl | rfl
    · exact hsame hi
    · exact hsame (hi.prepareSnapshotRead _)
  | scan plan =>
    obtain ⟨⟨s1, st⟩, hf, rfl⟩ := Option.map_eq_some_iff.1 hs
    rcases scan_state hf with rfl | ⟨-, rfl⟩
    · exact hsame hi.beforeScan
    · exact hsame hi.beforeScan.repairSummary
  | scanAtSnapshot plan ctx =>
    obtain ⟨⟨s1, st⟩, hf, rfl⟩ := Option.map_eq_some_iff.1 hs
    rcases scanAtSnapshot_state hf with rfl | ⟨-, rfl⟩
    · exact hsame (hi.prepareSnapshotRead _)
    · exact hsame (hi.prepareSnapshotRead _).repairSummary
  | resolveLsnAtSnapshot key snapshotLsn =>
    obtain ⟨⟨s1, st⟩, hf, rfl⟩ := Option.map_eq_some_iff.1 hs
    obtain ⟨cache, rfl⟩ := resolveLsnAtSnapshot_state hf
    exact hsame { hi with }
  | resolveCurrentCommittedLsn key =>
    obtain ⟨⟨s1, st⟩, hf, rfl⟩ := Option.map_eq_some_iff.1 hs
    rw [resolveCurrentCommittedLsn_state hf]
    exact hsame hi.refreshExternalWalIfPending
  | reopen opts =>
    cases hs
    exact hsame (hi.reopen opts)

/-- **A run** of allowed calls keeps it. -/
theorem Inv.run (any : Bool) {ok : ShardEngine → History → Op → Prop}
    (hok : ∀ s h op rs ds, Inv any h s rs ds → ok s h op → Allowed any s h op) (hr : Run ok s h) :
    ∃ rs ds, Inv any h s rs ds := by
  induction hr with
  | opened opts => exact ⟨[], [], FilesFrom.none.open opts⟩
  | step _ hc ho hs ih =>
    obtain ⟨rs, ds, hi⟩ := ih
    exact hi.step hc (hok _ _ _ rs ds hi ho) hs

/-! ## Committed versions -/

/-- A call does not turn uncommitted versions into committed ones: a write that belongs to a
transaction is logged with it, the memtable holds nothing that is still open when it is flushed,
and nothing but complete records of the log is ever read. -/
structure Settles (s : ShardEngine) (h : History) (op : Op) : Prop where
  logged : ∀ r, op = .write r → r.txnId = 0 ∨ s.opts.logsTxn = true
  drained : op.flushes s = true → ∀ key e, s.ensureWalReplayed.memtable.find? key = some e →
    e.durable = true ∨ e.txnId ∈ h.commits
  truncatesAll : ∀ ord hook, op = .checkpoint ord hook → s.TruncatesAll
  quiet : ∀ key, op = .get key → s.Quiet key

theorem Settles.allowed (hs : Settles s h op) (hi : Inv false h s rs ds) : Allowed false s h op where
  write r hr := .inr (hs.logged r hr)
  flush hf key e he := by
    obtain ⟨hw, hd⟩ := hi.ensureWalReplayed.memtable key e he
    rcases hs.drained hf key e he with hdur | hcom
    · exact hd hdur
    · exact hw.counts (.inr (.inr hcom))
  checkpoint := hs.truncatesAll
  get := hs.quiet

/-- The data file, the map of committed values, the tree and the version chains hold committed
versions. -/
structure OnlyCommitted (s : ShardEngine) (h : History) : Prop where
  datafile : ∀ r ∈ s.datafile.loadRecords, h.Committed r
  committed : ∀ key value lsn, s.committed.find? key = some (value, lsn) →
    h.Committed ⟨lsn, key, value, false⟩
  btree : ∀ key lsn, s.btree.get key = some (.ok lsn) →
    ∃ r, h.Committed r ∧ r.key = key ∧ r.lsn = lsn
  chains : ∀ key n, n ∈ s.vcs.mergedChain key → ∃ r, h.Committed r ∧ r.key = key ∧ r.lsn = n.lsn

theorem Counts.committed {r : DataRecord} (hc : h.Counts false r) : h.Committed r := by
  obtain ⟨w, hw, hr, ht⟩ := hc
  exact ⟨w, hw, hr, ht.resolve_left Bool.false_ne_true⟩

theorem HasVersion.committed {e : Entry} (hv : h.HasVersion false e) :
    ∃ r, h.Committed r ∧ r.key = e.1 ∧ r.lsn = e.2 := by
  obtain ⟨r, hr, he⟩ := hv
  exact ⟨r, Counts.committed hr, he⟩

/-- **Uncommitted data does not become committed**, in a run whose calls settle. -/
theorem run_only_committed (hr : Run Settles s h) : OnlyCommitted s h := by
  obtain ⟨rs, ds, hi⟩ := Inv.run false (fun _ _ _ _ _ hi hs => hs.allowed hi) hr
  exact
    { datafile := fun r hr =>
        Counts.committed (hi.tiers.data r (hi.tiers.stores.loadRecords_eq ▸ hr))
      committed := fun key value lsn hx => Counts.committed (hi.tiers.committed key _ hx)
      btree := fun key lsn hg => HasVersion.committed (hi.tiers.btree.get hg)
      chains := fun key n hn => HasVersion.committed (hi.tiers.chains key n hn) }

/-- A put of `[1]` in an empty shard. -/
def firstPut (txnId : UInt32) : WriteRequest := ⟨[1], [2], false, txnId⟩

theorem run_only_committed_put : ∃ s h, s.datafile.loadRecords ≠ [] ∧ OnlyCommitted s h := by
  obtain ⟨s, hs, hne⟩ := (Option.any_eq_true _ _).1 (show ((((ShardEngine.open .sync
    ShardFiles.none).write (firstPut 0)).1.step (.flush IterOrder.byKey)).any
      fun s => s.datafile.loadRecords ≠ []) = true by decide +kernel)
  have hput : Settles (ShardEngine.open .sync ShardFiles.none) History.empty
      (.write (firstPut 0)) := by
    refine ⟨fun r hr => .inl ?_, fun hf => ?_, fun _ _ hc => ?_, fun _ hg => ?_⟩
    · cases hr
      rfl
    · cases hf
    · cases hc
    · cases hg
  have hflush : ∀ h, Settles ((ShardEngine.open .sync ShardFiles.none).write (firstPut 0)).1 h
      (.flush IterOrder.byKey) := by
    refine fun h => ⟨fun r hr => ?_, fun _ key e he => .inl ?_, fun _ _ hc => ?_, fun _ hg => ?_⟩
    · cases hr
    · have hall : ∀ x ∈ (((ShardEngine.open .sync ShardFiles.none).write
          (firstPut 0)).1.ensureWalReplayed.memtable).entries, x.2.durable = true := by
        decide +kernel
      exact hall (key, e) (SortedMap.mem_entries_iff.2 he)
    · cases hc
    · cases hg
  exact ⟨s, _, of_decide_eq_true hne, run_only_committed
    (((Run.opened .sync).step (by decide +kernel) hput rfl).step (by decide +kernel)
      (hflush _) hs)⟩

/-- **The flusher takes an open transaction along**: its put is in the data file. -/
theorem flush_takes_open_txn :
    ¬ ∀ s h, Run (fun _ _ _ => True) s h → OnlyCommitted s h := by
  intro hall
  have hrun := (Option.any_eq_true _ _).1 (show ((runOps (ShardEngine.open .sync ShardFiles.none)
      History.empty [.write (firstPut 9), .flush IterOrder.byKey]).any fun x =>
    x.1.datafile.loadRecords = [⟨1, [1], [2], false⟩] ∧ x.2.commits = [] ∧
      ∀ w ∈ x.2.writes, w.txnId ≠ 0) = true by decide +kernel)
  obtain ⟨⟨s, h⟩, hops, hx⟩ := hrun
  obtain ⟨hload, hcommits, htxn⟩ := of_decide_eq_true hx
  obtain ⟨w, hw, -, h0 | hc⟩ := (hall s h ((Run.opened .sync).ops (fun _ _ _ => trivial)
    hops)).datafile _ (hload ▸ List.mem_singleton_self _)
  · exact htxn w hw h0
  · rw [hcommits] at hc
    exact absurd hc List.not_mem_nil

end EBTree.Engine
