import EBTree.Engine.Proof.Standing

/-!
# The transaction of a write in the log

A write of a transaction is `Tagged` when its record in the log carries the transaction, so that no
replay makes it durable while the transaction has no commit record. The synced writes and those of
the batch pipeline are; the write rule of the other durability classes appends without.

* `step_logs`: what a call adds to the log lies behind what was there.
* `write_tagged_iff`: **which writes are tagged**.
-/

set_option autoImplicit false

namespace EBTree.Engine

open Lib Wal BTree ShardEngine

variable {h h' : History} {s s' : ShardEngine} {rs : List WalRecord} {ds : List DataRecord}

/-- The records of a log, whatever the LSN. -/
def ShardEngine.logged (s : ShardEngine) : List WalRecord := scanWalV2Sparse s.wal.file 0

/-- The write is in the log under its transaction; and when the process goes away, later on, before
the transaction has a commit record, it is not durable in a shard that has replayed the log. -/
structure Tagged (s : ShardEngine) (h : History) (r : WriteRequest) : Prop where
  record : ∃ x ∈ (s.write r).1.logged, x.lsn = s.wal.maxLsn + 1
  carried : ∀ x ∈ (s.write r).1.logged, x.lsn = s.wal.maxLsn + 1 → x.txnId = r.txnId
  replayed : ∀ ops s' h', (∀ op ∈ ops, op.endures = true) →
    runOps (s.write r).1 (h.after s (.write r)) ops = some (s', h') → r.txnId ∉ h'.commits →
    ∀ opts key e, (ShardEngine.open opts s'.files).ensureWalReplayed.memtable.find? key = some e →
      e.lsn = s.wal.maxLsn + 1 → e.durable = false

/-! ## What a call adds to the log -/

/-- **One call**: the records it adds lie behind the counter. -/
theorem step_logs (hi : Inv true h s rs ds) (hs : Standing h s) {op : Op} (hc : Client s h op)
    (hop : op.endures = true) (hstep : s.step op = some s') :
    ∃ rs', Logs s'.wal rs' ∧ ∀ x ∈ rs', x ∈ rs ∨ s.wal.maxLsn < x.lsn := by
  have hl := hi.log.logs
  have hadds : ∀ {w : WalWriter}, Adds (fun _ => True) 1 s.wal w →
      ∃ rs', Logs w rs' ∧ ∀ x ∈ rs', x ∈ rs ∨ s.wal.maxLsn < x.lsn := by
    intro w ha
    obtain ⟨rs', hl', hr, -, -⟩ := ha rs hl hc.counter
    exact ⟨rs', hl', fun x hx => (hr x hx).imp id And.left⟩
  have hsame := hadds ((Adds.refl (fun _ => True) s.wal).mono (Nat.zero_le 1))
  cases op with
  | write r =>
    cases hstep
    exact hadds (adds_write s r fun _ => trivial)
  | appendTxnBegin txnId lsn =>
    cases hstep
    exact hadds (Adds.append (fun _ => trivial) s.wal)
  | appendTxnCommit txnId =>
    cases hstep
    exact hadds ((Adds.append (fun _ => trivial) s.wal).trans (Adds.fsync _ _))
  | appendTxnAbort txnId =>
    cases hstep
    exact hadds (Adds.append (fun _ => trivial) s.wal)
  | flush ord =>
    obtain ⟨⟨s1, st⟩, hf, rfl⟩ := Option.map_eq_some_iff.1 hstep
    exact hadds ((adds_flush hf).mono (Nat.zero_le 1))
  | tryFlushBackground ord =>
    obtain ⟨⟨s1, st⟩, hf, rfl⟩ := Option.map_eq_some_iff.1 hstep
    unfold ShardEngine.tryFlushBackground at hf
    split at hf
    · cases hf
      exact hsame
    · exact hadds ((adds_flush hf).mono (Nat.zero_le 1))
  | checkpoint ord hook =>
    obtain ⟨⟨s1, st⟩, hf, rfl⟩ := Option.map_eq_some_iff.1 hstep
    obtain ⟨rs', hl', hr⟩ := checkpoint_logs hl (Nat.lt_of_succ_lt hc.counter) hs.truncatesAll hf
    exact ⟨rs', hl', fun x hx => .inl (hr x hx)⟩
  | groupCommit =>
    cases hstep
    exact hadds ((adds_groupCommitNow _ s).mono (Nat.zero_le 1))
  | reopen opts =>
    cases hstep
    rw [(open_frame opts s.files).1]
    exact ⟨rs, ((hl.reopen).1.ensureMinLsn _).1, fun x hx => .inl hx⟩
  | promoteTxn txnId =>
    cases hstep
    exact hsame
  | clearTxn txnId =>
    cases hstep
    exact hsame
  | pinSnapshot lsn =>
    cases hstep
    exact hsame
  | releaseSnapshot =>
    cases hstep
    exact hsame
  | _ => cases hop

/-- The records at an LSN that the log has not forgotten carry a transaction. -/
def Carries (lsn : Nat) (txnId : UInt32) (rs : List WalRecord) : Prop :=
  ∀ x ∈ rs, x.lsn = lsn → x.txnId = txnId

/-- **Later calls** leave the record of a write as it is. -/
theorem runOps_carries {lsn : Nat} {txnId : UInt32} {ops : List Op}
    (hops : ∀ op ∈ ops, op.endures = true) (hrun : runOps s h ops = some (s', h'))
    (hi : Inv true h s rs ds) (hs : Standing h s) (hw : ∃ w ∈ h.writes, w.record.lsn = lsn)
    (hc : Carries lsn txnId rs) :
    ∃ rs' ds', Inv true h' s' rs' ds' ∧ Carries lsn txnId rs' := by
  induction ops generalizing s h rs ds with
  | nil =>
    cases hrun
    exact ⟨rs, ds, hi, hc⟩
  | cons op ops ih =>
    have hop := hops op List.mem_cons_self
    rw [runOps] at hrun
    split at hrun
    · rename_i hclient
      split at hrun
      · cases hrun
      · rename_i s1 hstep
        obtain ⟨rs1, ds1, hi1⟩ := hi.step hclient (hs.allowed hi hop) hstep
        obtain ⟨rs1', hl1, hnew⟩ := step_logs hi hs hclient hop hstep
        obtain rfl := hl1.unique hi1.log.logs
        have hs1 := hs.step hi hclient hop hstep
        have hw1 : ∃ w ∈ (h.after s op).writes, w.record.lsn = lsn := by
          obtain ⟨w, hm, hl⟩ := hw
          refine ⟨w, ?_, hl⟩
          cases op with
          | write r => exact List.mem_append_left _ hm
          | _ => exact hm
        refine ih (fun op' ho => hops op' (List.mem_cons_of_mem _ ho)) hrun hi1 hs1 hw1 ?_
        intro x hx hlsn
        rcases hnew x hx with hx | hlt
        · exact hc x hx hlsn
        · obtain ⟨w, hm, hl⟩ := hw
          have := hi.log.bound hm
          omega
    · cases hrun

/-! ## Replaying -/

/-- What a shard that is opened has in its memtable, it has from its log. -/
theorem open_replayed {f : ShardFiles} {opts : EngineOptions} {key : Key} {e : MemTableEntry}
    (he : (ShardEngine.open opts f).ensureWalReplayed.memtable.find? key = some e) :
    (replayPending (WalWriter.open f.wal).file SortedMap.empty f.superblock.walLsn).find? key =
      some e := by
  obtain ⟨state, hopen⟩ := open_eq opts f
  have hsb : (EBTree.Engine.recoverTiers (loading opts f)).sb = f.superblock := by
    rw [recoverTiers_frame]
    rfl
  obtain ⟨pending, state', hrep⟩ := ensureWalReplayed_eq (ShardEngine.open opts f)
  rw [hrep, hopen] at he
  simp only [hsb] at he
  have hfile : ((WalWriter.open f.wal).ensureMinLsn f.superblock.walLsn).file =
      (WalWriter.open f.wal).file := rfl
  rw [hfile] at he
  by_cases hfull : opts.recoveryStrategy = .kFullReplay
  · simpa [hfull] using he
  · simp only [hfull, if_false, decide_false, Bool.not_false, Bool.true_and] at he
    split at he
    · exact he
    · rw [SortedMap.find?_empty] at he
      cases he

/-- **A replay makes no record durable** whose transaction has no commit record. -/
theorem Inv.open_not_durable (hi : Inv true h s rs ds) {lsn : Nat} {txnId : UInt32}
    (hc : Carries lsn txnId rs) (htxn : txnId ≠ 0) (hopen : txnId ∉ h.commits)
    (opts : EngineOptions) {key : Key} {e : MemTableEntry}
    (he : (ShardEngine.open opts s.files).ensureWalReplayed.memtable.find? key = some e)
    (hlsn : e.lsn = lsn) : e.durable = false := by
  have hmem := open_replayed he
  have hl := hi.log.logs.reopen.1
  rw [show s.files.wal = s.wal.file from rfl, hl.file_eq] at hmem
  rcases mem_replayPending hl.fits hmem with hnone | ⟨r, hr, -, -, -, durable, rfl, hdur⟩
  · rw [SortedMap.find?_empty] at hnone
    cases hnone
  · have hr' : r.txnId = txnId := hc r hr hlsn
    cases hd : durable with
    | false => rfl
    | true =>
      rcases hdur hd with h0 | ⟨c, hcm, hop, ht⟩
      · exact absurd (hr'.symm.trans h0) htxn
      · have hcommit := hi.log.commits c hcm hop
        rw [ht, hr'] at hcommit
        exact absurd hcommit hopen

/-! ## The write itself -/

/-- Acknowledging a write syncs the log at most. -/
theorem acknowledge_wal (s : ShardEngine) (lsn : Nat) :
    (s.acknowledge lsn).wal = s.wal ∨ (s.acknowledge lsn).wal = s.wal.fsync := by
  unfold ShardEngine.acknowledge ShardEngine.groupCommitNow
  simp only
  split
  · exact .inr rfl
  split
  · exact .inr rfl
  split
  · split
    · split
      · exact .inl rfl
      · exact .inr rfl
    · exact .inl rfl
  · exact .inl rfl

/-- **A write that is acknowledged** puts its record behind the others. -/
theorem write_logs (hi : Inv true h s rs ds) {r : WriteRequest} (hc : Client s h (.write r))
    (hok : (s.write r).2 = .ok ()) :
    Logs (s.write r).1.wal (rs ++ [(r.item s.opts.logsTxn).record (s.wal.maxLsn + 1)]) ∧
      ∃ w ∈ (h.after s (.write r)).writes, w.record.lsn = s.wal.maxLsn + 1 := by
  have hb : (r.item s.opts.logsTxn).InBounds := by
    by_contra hb
    obtain ⟨w', e', ha', -⟩ := hi.log.logs.append_tooLarge hb hc.counter
    rcases write_cases s r with ⟨-, he⟩ | ⟨-, ⟨w, e, -, he⟩ | ⟨w, lsn, ha, -⟩⟩
    · rw [he] at hok
      cases hok
    · rw [he] at hok
      cases hok
    · cases ha.symm.trans ha'
  obtain ⟨w', ha', -, hlogs⟩ := hi.log.logs.append hb hc.counter
  rcases write_cases s r with ⟨-, he⟩ | ⟨hkey, ⟨w, e, ha, -⟩ | ⟨w, lsn, ha, he⟩⟩
  · rw [he] at hok
    cases hok
  · cases ha.symm.trans ha'
  · cases ha.symm.trans ha'
    refine ⟨?_, ⟨r.txnId, r.record (s.wal.maxLsn + 1)⟩, ?_, rfl⟩
    · rw [he]
      generalize hs1 : ({ s.ensureWalReplayed with
        wal := w', memtable := r.apply s.ensureWalReplayed.memtable (s.wal.maxLsn + 1) } :
          ShardEngine) = s1
      have hw1 : s1.wal = w' := by rw [← hs1]
      rcases acknowledge_wal s1 (s.wal.maxLsn + 1) with hw | hw
      · exact hw.trans hw1 ▸ hlogs
      · exact (hw.trans (congrArg WalWriter.fsync hw1)) ▸ hlogs.fsync
    · simp [History.after, ShardEngine.wrote, hkey, ha]

/-- **A write of a transaction is tagged** in the durability classes whose writes are synced one by
one or through the batch pipeline, and in no other. -/
theorem write_tagged_iff (hr : Run (fun _ _ op => op.endures = true) s h) {r : WriteRequest}
    (hc : Client s h (.write r)) (htxn : r.txnId ≠ 0) (hok : (s.write r).2 = .ok ()) :
    Tagged s h r ↔
      s.opts.durability = .kBalanced ∨ s.opts.durability = .kSync ∨ s.opts.syncOnCommit = true := by
  obtain ⟨⟨rs, ds, hi⟩, hs⟩ := hr.standing fun _ _ _ hop => hop
  obtain ⟨hlogs, hwrote⟩ := write_logs hi hc hok
  have hlogged : (s.write r).1.logged = rs ++ [(r.item s.opts.logsTxn).record (s.wal.maxLsn + 1)] :=
    hlogs.scan_all
  have hclass : s.opts.logsTxn = true ↔
      s.opts.durability = .kBalanced ∨ s.opts.durability = .kSync ∨ s.opts.syncOnCommit = true := by
    simp [EngineOptions.logsTxn, EngineOptions.pipelined, EngineOptions.syncPath]
  rw [← hclass]
  constructor
  · intro ht
    by_contra hno
    have hmem : (r.item s.opts.logsTxn).record (s.wal.maxLsn + 1) ∈ (s.write r).1.logged := by
      rw [hlogged]
      exact List.mem_append_right _ (List.mem_singleton_self _)
    have h0 := ht.carried _ hmem rfl
    rw [item_txnId, if_neg hno] at h0
    exact htxn h0.symm
  · intro hlogs_txn
    have hcarries : Carries (s.wal.maxLsn + 1) r.txnId
        (rs ++ [(r.item s.opts.logsTxn).record (s.wal.maxLsn + 1)]) := by
      intro x hx hlsn
      rcases List.mem_append.1 hx with hx | hx
      · have := hi.log.logs.le_max x hx
        omega
      · rw [List.mem_singleton.1 hx, item_txnId, if_pos hlogs_txn]
    refine ⟨⟨(r.item s.opts.logsTxn).record (s.wal.maxLsn + 1), ?_, rfl⟩, ?_, ?_⟩
    · rw [hlogged]
      exact List.mem_append_right _ (List.mem_singleton_self _)
    · rw [hlogged]
      exact hcarries
    · intro ops s' h' hops hrun hopen opts key e he hlsn
      obtain ⟨rs1, hi1⟩ := hi.write hc.counter r (.inl rfl)
      obtain rfl := hi1.log.logs.unique hlogs
      have hs1 := hs.step hi hc rfl rfl
      obtain ⟨rs', ds', hi', hc'⟩ := runOps_carries hops hrun hi1 hs1 hwrote hcarries
      exact hi'.open_not_durable hc' htxn hopen opts he hlsn

theorem write_tagged_sync :
    Tagged (ShardEngine.open .sync ShardFiles.none) History.empty (firstPut 9) :=
  (write_tagged_iff (Run.opened .sync) (by decide +kernel) (by decide) (by decide +kernel)).2
    (.inr (.inl rfl))

/-- Writes that are synced in groups. -/
def EngineOptions.group : EngineOptions :=
  { EngineOptions.sync with durability := .kGroup, syncOnCommit := false, groupCommitBatchSize := 1 }

/-- **The write rule drops the transaction**: the record of a put in a group commit is one of
autocommit. -/
theorem group_write_untagged : ¬ ∀ s h, Run (fun _ _ op => op.endures = true) s h →
    ∀ r, Client s h (.write r) → r.txnId ≠ 0 → (s.write r).2 = .ok () → Tagged s h r := by
  intro hall
  have ht := hall _ _ (Run.opened .group) (firstPut 9) (by decide +kernel) (by decide)
    (by decide +kernel)
  have hlog : ((ShardEngine.open .group ShardFiles.none).write (firstPut 9)).1.logged =
      [⟨1, .kPut, [1], [2], 0⟩] := by decide +kernel
  have h0 := ht.carried ⟨1, .kPut, [1], [2], 0⟩ (hlog ▸ List.mem_singleton_self _)
    (by decide +kernel)
  exact absurd h0 (by decide)

end EBTree.Engine
