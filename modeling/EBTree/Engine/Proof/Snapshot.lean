import EBTree.BTree.Proof.Scan
import EBTree.Engine.Proof.Committed

/-!
# What a snapshot read returns

Every value a read of a shard returns was written, under the LSN it is returned with
(`Inv.resolveAtSnapshot`, `Inv.getAtSnapshotCore`, `Inv.scanRow`); below the memtables every tier
keeps to the snapshot, and the memtables do not.

* `snapshot_reads_bounded_iff`: a snapshot read returns no value of a later record if and only if
  the memtables show it none.
* `snapshot_read_sees_later`: a key put twice and read at the first of the two LSNs.
-/

set_option autoImplicit false

namespace EBTree.Engine

open Lib Wal BTree ShardEngine

/-- The value was written to the key, by a record with this LSN. -/
def History.Wrote (h : History) (key : Key) (v : Version) : Prop :=
  ∃ w ∈ h.writes, w.record = ⟨v.lsn, key, v.value, false⟩

/-- A call keeps to complete records of the log. -/
structure Legible (s : ShardEngine) (op : Op) : Prop where
  truncatesAll : ∀ ord hook, op = .checkpoint ord hook → s.TruncatesAll
  quiet : ∀ key, op = .get key → s.Quiet key

variable {h : History} {s s' : ShardEngine} {rs : List WalRecord} {ds : List DataRecord}
  {key : Key} {ctx : SnapshotReadContext} {v : Version}

theorem Legible.allowed {op : Op} (hl : Legible s op) (hi : Inv true h s rs ds) :
    Allowed true s h op where
  write _ _ := .inl rfl
  flush _ key e he := (hi.ensureWalReplayed.memtable key e he).1.counts (.inl rfl)
  checkpoint := hl.truncatesAll
  get := hl.quiet

/-! ## Runs without reopening -/

/-- The log is replayed, and the root was loaded. -/
def Hot (s : ShardEngine) : Prop :=
  s.walReplayPending = false ∧ s.recoveryMode = .kHot ∧ s.lazyRootCorrupt = false

theorem Hot.legible (hs : Hot s) (op : Op) : Legible s op :=
  ⟨fun _ _ _ hcor => absurd (hs.2.2.symm.trans hcor) Bool.false_ne_true, fun _ _ => .inr hs⟩

theorem Hot.groupCommitNow (hs : Hot s) : Hot s.groupCommitNow := by
  unfold ShardEngine.groupCommitNow
  split <;> exact hs

theorem Hot.acknowledge (hs : Hot s) (lsn : Nat) : Hot (s.acknowledge lsn) := by
  unfold ShardEngine.acknowledge
  split
  · exact hs
  split
  · exact hs
  split
  · simp only
    split
    · exact Hot.groupCommitNow hs
    · exact hs
  · exact hs

theorem Hot.ensureWalReplayed (hs : Hot s) : s.ensureWalReplayed = s :=
  ensureWalReplayed_of_not_pending hs.1

theorem Hot.flushInternal (hs : Hot s) {ord : IterOrder} {st : Except Status Unit}
    (hf : s.flushInternal ord = some (s', st)) : Hot s' := by
  rw [flushInternal_frame hf]
  exact hs

theorem Hot.checkpoint (hs : Hot s) {ord : IterOrder} {hook : CheckpointPhase → Bool}
    {st : Except Status Unit} (hc : s.checkpoint ord hook = some (s', st)) : Hot s' := by
  have h0 : Hot s.beforeFlush := by
    unfold beforeFlush
    rw [hs.ensureWalReplayed]
    split
    · exact hs.groupCommitNow
    · exact hs
  obtain ⟨s1, st1, hflush, hrest⟩ := checkpoint_cases hc
  have h1 : Hot s1 := Hot.flushInternal (s := s.beforeFlush.rotateMemTableForFlush) h0 hflush
  obtain ⟨vcs, hfold, -⟩ := foldWalToVcs_eq s1
  have h2 : Hot s1.foldWalToVcs.1 := by
    rw [hfold]
    exact h1
  rcases hrest with rfl | rfl | ⟨stc, hcommit⟩
  · exact h1
  · exact h2
  · obtain ⟨s3, st3, hcs, hend⟩ := checkpointCommit_cases hcommit
    have h3 : Hot s3 := by
      rcases commitSuperBlockInternal_cases hcs with ⟨-, -, rfl⟩ |
        ⟨-, btree, pst, -, ⟨e, -, -, rfl⟩ | ⟨root, -, ⟨e, -, -, rfl⟩ | ⟨-, -, rfl⟩⟩⟩ <;> exact h2
    rcases hend with ⟨e, -, rfl⟩ | ⟨-, rfl | rfl⟩ <;> exact h3

/-- A call that does not reopen leaves the shard hot. -/
theorem Hot.step (hs : Hot s) {op : Op} (hop : ∀ opts, op ≠ .reopen opts)
    (hstep : s.step op = some s') : Hot s' := by
  have hbefore : s.beforeScan = s := if_neg fun hp => by rw [hs.1] at hp; cases hp.1
  have hprepared : ∀ lsn, Hot (s.prepareSnapshotRead lsn) := by
    intro lsn
    show Hot (if 0 < lsn ∧ s.beforeScan.btree.summary.summaryLsn < lsn
      then s.beforeScan.repairSummary else s.beforeScan)
    rw [hbefore]
    split <;> exact hs
  cases op with
  | write r =>
    cases hstep
    rcases write_cases s r with ⟨-, hw⟩ | ⟨-, ⟨w, e, -, hw⟩ | ⟨w, lsn, -, hw⟩⟩
    · rw [hw]
      exact hs
    · rw [hw, hs.ensureWalReplayed]
      exact hs
    · rw [hw, hs.ensureWalReplayed]
      exact Hot.acknowledge (s := { s with wal := w, memtable := r.apply s.memtable lsn }) hs lsn
  | flush ord =>
    obtain ⟨⟨s1, st⟩, hf, rfl⟩ := Option.map_eq_some_iff.1 hstep
    unfold ShardEngine.flush at hf
    rw [hs.ensureWalReplayed] at hf
    exact Hot.flushInternal (s := s.rotateMemTableForFlush) hs hf
  | tryFlushBackground ord =>
    obtain ⟨⟨s1, st⟩, hf, rfl⟩ := Option.map_eq_some_iff.1 hstep
    unfold ShardEngine.tryFlushBackground ShardEngine.flush at hf
    rw [hs.ensureWalReplayed] at hf
    split at hf
    · cases hf
      exact hs
    · exact Hot.flushInternal (s := s.rotateMemTableForFlush) hs hf
  | checkpoint ord hook =>
    obtain ⟨⟨s1, st⟩, hf, rfl⟩ := Option.map_eq_some_iff.1 hstep
    exact hs.checkpoint hf
  | groupCommit =>
    cases hstep
    exact hs.groupCommitNow
  | recoverFull =>
    cases hstep
    unfold ShardEngine.recoverFull
    rw [ensureWalReplayed_of_not_pending rfl]
    exact ⟨rfl, hs.2⟩
  | get key =>
    obtain ⟨⟨s1, st⟩, hf, rfl⟩ := Option.map_eq_some_iff.1 hstep
    have hrepaired : s.repairSummary.beforeScan = s.repairSummary :=
      if_neg fun hp => by rw [show s.repairSummary.walReplayPending = false from hs.1] at hp; cases hp.1
    rcases get_state (.inr hs) hf with rfl | rfl | rfl | rfl
    · exact hs
    · exact hs
    · rw [hbefore]
      exact hs
    · rw [hrepaired]
      exact hs
  | getAtSnapshot key ctx =>
    obtain ⟨⟨s1, st⟩, hf, rfl⟩ := Option.map_eq_some_iff.1 hstep
    rcases getAtSnapshot_state hf with rfl | rfl
    · exact hs
    · exact hprepared _
  | scan plan =>
    obtain ⟨⟨s1, st⟩, hf, rfl⟩ := Option.map_eq_some_iff.1 hstep
    rcases scan_state hf with rfl | ⟨-, rfl⟩ <;>
    · rw [hbefore]
      exact hs
  | scanAtSnapshot plan ctx =>
    obtain ⟨⟨s1, st⟩, hf, rfl⟩ := Option.map_eq_some_iff.1 hstep
    rcases scanAtSnapshot_state hf with rfl | ⟨-, rfl⟩ <;> exact hprepared ctx.snapshotLsn
  | resolveLsnAtSnapshot key snapshotLsn =>
    obtain ⟨⟨s1, st⟩, hf, rfl⟩ := Option.map_eq_some_iff.1 hstep
    obtain ⟨cache, rfl⟩ := resolveLsnAtSnapshot_state hf
    exact hs
  | resolveCurrentCommittedLsn key =>
    obtain ⟨⟨s1, st⟩, hf, rfl⟩ := Option.map_eq_some_iff.1 hstep
    simp only [resolveCurrentCommittedLsn_state hf, ShardEngine.refreshExternalWalIfPending]
    split
    · exact hs
    · unfold ShardEngine.ensureWalReplayed
      split
      · exact ⟨rfl, hs.2⟩
      · rename_i hp
        exact ⟨by simpa using hp, hs.2⟩
  | reopen opts => exact absurd rfl (hop opts)
  | _ =>
    cases hstep
    exact hs

theorem hot_open (opts : EngineOptions) : Hot (ShardEngine.open opts ShardFiles.none) := by
  have hunreplayed : hasUnreplayedWal (WalWriter.open []) 0 = false := by decide +kernel
  have htiers : ∀ s : ShardEngine, s.sb = SuperBlock.none →
      (recoverTiers s).recoveryMode = .kHot ∧ (recoverTiers s).lazyRootCorrupt = false := by
    intro s hsb
    have hroot : kPageFileHeaderSize ≠ 0 := by decide
    unfold recoverTiers
    split
    · simp [recoverLazy, hsb, hroot, SuperBlock.none]
    · simp [recoverEager, hsb, hroot, SuperBlock.none]
  obtain ⟨mt, pending, state, hrec, -, hpend⟩ :=
    recoverFromSuperBlock_eq (created opts ShardFiles.none) SuperBlock.none
  have hpending : pending = false := by
    cases pending with
    | false => rfl
    | true => exact absurd (hunreplayed.symm.trans (hpend rfl)) Bool.false_ne_true
  have hmode := htiers { created opts ShardFiles.none with
    sb := SuperBlock.none, stableLsn := SuperBlock.none.dataLsn } rfl
  show Hot { (created opts ShardFiles.none).recoverFromSuperBlock SuperBlock.none with
    wal := _, vcs := _ }
  rw [hrec]
  exact ⟨hpending, hmode⟩

/-- **Without reopening** every call keeps to complete records of the log. -/
theorem Run.legible {ok : ShardEngine → History → Op → Prop}
    (hok : ∀ s h op, ok s h op → ∀ opts, op ≠ .reopen opts) (hr : Run ok s h) :
    Run (fun s _ op => Legible s op) s h := by
  suffices hboth : Run (fun s _ op => Legible s op) s h ∧ Hot s from hboth.1
  induction hr with
  | opened opts => exact ⟨.opened opts, hot_open opts⟩
  | step _ hc ho hs ih => exact ⟨ih.1.step hc (ih.2.legible _) hs, ih.2.step (hok _ _ _ ho) hs⟩

/-! ## Where a value comes from -/

/-- An LSN belongs to one write. -/
theorem Inv.unique {any : Bool} (hi : Inv any h s rs ds) {w w' : Write} (hw : w ∈ h.writes)
    (hw' : w' ∈ h.writes) (hl : w.record.lsn = w'.record.lsn) : w = w' := by
  have hnd : (h.writes.map (·.record.lsn)).Nodup :=
    (List.pairwise_map.2 hi.ordered).imp fun hlt => Nat.ne_of_lt hlt
  exact List.inj_on_of_nodup_map hnd hw hw' hl

/-- **A read by the LSN of a version of the key** returns this version. -/
theorem Inv.readByLsn (hi : Inv true h s rs ds) {lsn : Nat} (hv : h.HasVersion true (key, lsn))
    (hr : s.datafile.readByLsn lsn = .ok v) : h.Wrote key v ∧ v.lsn = lsn := by
  obtain ⟨r, hrd, hl, hd, rfl⟩ := hi.tiers.stores.readByLsn_ok hr
  obtain ⟨w, hw, he, -⟩ := hi.tiers.data r hrd
  obtain ⟨r', ⟨w', hw', he', -⟩, hk, hl'⟩ := hv
  have heq : w = w' := hi.unique hw hw' (by rw [he, he', hl, hl'])
  have hrr : r = r' := by rw [← he, ← he', heq]
  refine ⟨⟨w, hw, ?_⟩, rfl⟩
  rw [he]
  obtain ⟨lsn', key', value, deleted⟩ := r
  cases hl
  cases hd
  cases hrr
  cases hk
  rfl

theorem decisive_ok {r : Except Status Version} (h : decisive r = some (.ok v)) : r = .ok v := by
  unfold decisive at h
  split at h
  · cases h
    rfl
  · split at h <;> cases h

theorem Inv.lookupMemTable (hi : Inv true h s rs ds) {e : MemTableEntry}
    (hl : s.lookupMemTable key = some e) : h.WroteBy true e.txnId (memRecord key e) := by
  unfold ShardEngine.lookupMemTable at hl
  rcases Option.or_eq_some_iff.1 hl with hf | ⟨-, hl⟩
  · exact (hi.memtable key e hf).1
  rcases Option.or_eq_some_iff.1 hl with hf | ⟨-, hf⟩
  · exact (hi.immutable key e hf).1
  · exact (hi.flushing key e hf).1

/-- What the memtables answer with is the entry found first, where it is visible. -/
theorem memTier_ok_iff : s.memTier key ctx = some (.ok v) ↔
    ∃ e, s.lookupMemTable key = some e ∧ memEntryVisible e ctx = true ∧ e.deleted = false ∧
      v = ⟨e.lsn, e.value⟩ := by
  unfold memTier memAnswer
  cases s.lookupMemTable key with
  | none => simp
  | some e =>
    simp only [Option.some.injEq, exists_eq_left']
    split
    · rename_i hv
      split
      · rename_i hd
        simp [hd]
      · rename_i hd
        simp [hd, hv, eq_comm]
    · rename_i hv
      simp [hv]

theorem Inv.memTier (hi : Inv true h s rs ds) (hm : s.memTier key ctx = some (.ok v)) :
    h.Wrote key v := by
  obtain ⟨e, hl, -, hd, rfl⟩ := memTier_ok_iff.1 hm
  obtain ⟨w, hw, he, -⟩ := hi.lookupMemTable hl
  exact ⟨w, hw, by rw [he]; simp [memRecord, hd]⟩

variable {snapshotLsn : Nat}

theorem Inv.committedTier (hi : Inv true h s rs ds) (hpos : 0 < snapshotLsn)
    (hc : s.committedTier key snapshotLsn = some (.ok v)) :
    h.Wrote key v ∧ v.lsn ≤ snapshotLsn := by
  unfold ShardEngine.committedTier at hc
  cases hf : s.committed.find? key with
  | none =>
    rw [hf] at hc
    cases hc
  | some x =>
    obtain ⟨value, lsn⟩ := x
    rw [hf] at hc
    simp only at hc
    split at hc
    · rename_i hle
      cases hc
      obtain ⟨w, hw, he, -⟩ := hi.tiers.committed key _ hf
      exact ⟨⟨w, hw, he⟩, hle.resolve_left (Nat.pos_iff_ne_zero.1 hpos)⟩
    · cases hc

theorem Inv.btreeGet {any : Bool} (hi : Inv any h s rs ds) {lsn : Nat}
    (hg : s.btreeGet key = some (some lsn)) : h.HasVersion any (key, lsn) := by
  obtain ⟨r, hr, he⟩ := Option.map_eq_some_iff.1 hg
  cases r with
  | error e => cases he
  | ok n =>
    cases he
    exact hi.tiers.btree.get hr

theorem Inv.floor {any : Bool} (hi : Inv any h s rs ds) (hpos : 0 < s.vcs.floor key snapshotLsn) :
    h.HasVersion any (key, s.vcs.floor key snapshotLsn) := by
  obtain ⟨n, hn, hl⟩ := VersionChainStore.floor_mem hpos
  exact hl ▸ hi.tiers.chains key n hn

theorem Inv.btreeTier (hi : Inv true h s rs ds) (hpos : 0 < snapshotLsn) {hit : Option Nat}
    (hg : s.btreeGet key = some hit) (hb : s.btreeTier hit snapshotLsn = some (.ok v)) :
    h.Wrote key v ∧ v.lsn ≤ snapshotLsn := by
  unfold ShardEngine.btreeTier at hb
  cases hit with
  | none => cases hb
  | some lsn =>
    simp only at hb
    split at hb
    · rename_i hle
      obtain ⟨hw, hl⟩ := hi.readByLsn (hi.btreeGet hg) (decisive_ok hb)
      exact ⟨hw, hl ▸ hle.resolve_left (Nat.pos_iff_ne_zero.1 hpos)⟩
    · cases hb

theorem Inv.chainTier (hi : Inv true h s rs ds)
    (hc : s.chainTier key snapshotLsn = some (.ok v)) : h.Wrote key v ∧ v.lsn ≤ snapshotLsn := by
  unfold ShardEngine.chainTier at hc
  split at hc
  · rename_i hpos
    obtain ⟨hw, hl⟩ := hi.readByLsn (hi.floor hpos) (decisive_ok hc)
    exact ⟨hw, hl ▸ VersionChainStore.floor_le _ _ _⟩
  · cases hc

/-! ## The log -/

/-- **The latest committed LSN of a key in the log** is the LSN of a record of the key, or zero. -/
theorem latestCommittedLsnForKey_spec (hfits : ∀ r ∈ rs, r.Fits) (key : Key) (afterLsn : Nat) :
    (latestCommittedLsnForKey (logFile rs) key afterLsn = 0 ∨
      ∃ r ∈ rs, r.isData = true ∧ r.key = key ∧ afterLsn < r.lsn ∧
        r.lsn = latestCommittedLsnForKey (logFile rs) key afterLsn ∧ Durable rs r) ∧
    ∀ r ∈ rs, r.isData = true → r.key = key → afterLsn < r.lsn →
      r.txnId ∉ (scanWalV2Records (logFile rs) afterLsn).abortedTxns →
      (r.txnId = 0 ∨ r.txnId ∈ (scanWalV2Records (logFile rs) afterLsn).committedTxns) →
      r.lsn ≤ latestCommittedLsnForKey (logFile rs) key afterLsn := by
  have hd : detectFormatV2OnDisk (logFile rs) = true := detectFormatV2OnDisk_magic _
  have hbest : latestCommittedLsnForKey (logFile rs) key afterLsn =
      best (fun r : WalRecord => r.key = key ∧
        r.txnId ∉ (scanWalV2Records (logFile rs) afterLsn).abortedTxns ∧
        (r.txnId = 0 ∨ r.txnId ∈ (scanWalV2Records (logFile rs) afterLsn).committedTxns)) (·.lsn)
        (scanWalV2Records (logFile rs) afterLsn).dataRecords := by
    rw [latestCommittedLsnForKey, if_pos hd, best]
    simp only [and_assoc]
  obtain ⟨hmem, hmax⟩ := best_spec (fun r : WalRecord => r.key = key ∧
    r.txnId ∉ (scanWalV2Records (logFile rs) afterLsn).abortedTxns ∧
    (r.txnId = 0 ∨ r.txnId ∈ (scanWalV2Records (logFile rs) afterLsn).committedTxns)) (·.lsn)
    (scanWalV2Records (logFile rs) afterLsn).dataRecords
  rw [← hbest] at hmem hmax
  have hdata : ∀ {r}, r ∈ (scanWalV2Records (logFile rs) afterLsn).dataRecords ↔
      (r ∈ rs ∧ afterLsn < r.lsn) ∧ r.isData = true := by
    intro r
    simp only [scanWalV2Records, scanWalV2Sparse_after hfits, List.mem_filter, decide_eq_true_eq]
  refine ⟨hmem.imp id ?_, fun r hr hdr hk hl ha hc => hmax r (hdata.2 ⟨⟨hr, hl⟩, hdr⟩) ⟨hk, ha, hc⟩⟩
  rintro ⟨r, hr, ⟨hk, -, htxn⟩, hl⟩
  obtain ⟨⟨hrs, hlt⟩, hdr⟩ := hdata.1 hr
  refine ⟨r, hrs, hdr, hk, hlt, hl, htxn.imp id fun hc => ?_⟩
  simp only [scanWalV2Records, scanWalV2Sparse_after hfits] at hc
  obtain ⟨c, hcm, ht⟩ := List.mem_map.1 hc
  simp only [List.mem_filter, decide_eq_true_eq] at hcm
  exact ⟨c, hcm.1.1, hcm.2, ht⟩

/-- The records `TryWalSnapshotFloor` looks through. -/
theorem rawRecords_logFile (hfits : ∀ r ∈ rs, r.Fits) :
    ((rawReaderV2 (logFile rs)).scan (logFile rs).length (walDataOffsetOnDisk (logFile rs)
      (detectFormatV2OnDisk (logFile rs)))).map (·.2) = rs.map WalRecord.raw := by
  have hd : detectFormatV2OnDisk (logFile rs) = true := detectFormatV2OnDisk_magic _
  rw [hd, walDataOffsetOnDisk_logFile hfits,
    raw_scan_logFile fun r hr => (hfits r hr).toInRange, rawLayout, Reader.layout_map_snd]

/-- A put that was found in the log was written. -/
theorem Inv.wrote_raw (hi : Inv true h s rs ds) {r : WalRecord} (hr : r ∈ rs) (hop : r.op = .kPut) :
    h.Wrote r.key ⟨r.lsn, r.value⟩ := by
  obtain ⟨w, hw, he, -⟩ := hi.log.logged r hr (by simp [WalRecord.isData, hop])
  exact ⟨w, hw, by rw [he]; simp [logRecord, hop]⟩

theorem Inv.tryWalSnapshotFloor (hi : Inv true h s rs ds) {w : WalFloor}
    (hw : s.tryWalSnapshotFloor key snapshotLsn = some w) :
    w.lsn ≤ snapshotLsn ∧ h.HasVersion true (key, w.lsn) ∧
      (w.value ≠ [] → h.Wrote key ⟨w.lsn, w.value⟩) := by
  unfold ShardEngine.tryWalSnapshotFloor at hw
  split at hw
  · cases hw
  simp only [hi.log.logs.file_eq, rawRecords_logFile hi.log.logs.fits] at hw
  have hspec := (latestCommittedLsnForKey_spec hi.log.logs.fits key s.sb.walLsn).1
  generalize latestCommittedLsnForKey (logFile rs) key s.sb.walLsn = bestLsn at hw hspec
  split at hw
  · cases hw
  rename_i hbest
  obtain ⟨hne, hle⟩ := not_or.1 hbest
  obtain ⟨r, hr, hdr, hk, -, hl, -⟩ := hspec.resolve_left hne
  have hver : h.HasVersion true (key, bestLsn) := by
    obtain ⟨x, hx, he, -⟩ := hi.log.logged r hr hdr
    exact ⟨logRecord r, ⟨x, hx, he, .inl rfl⟩, hk, hl⟩
  split at hw
  · rename_i raw hfind
    cases hw
    refine ⟨Nat.le_of_not_lt hle, hver, fun hval => ?_⟩
    obtain ⟨r', hr', rfl⟩ := List.mem_map.1 (List.mem_of_find?_eq_some hfind)
    obtain ⟨hlsn, hkey⟩ := of_decide_eq_true
      (List.find?_some (p := fun x : RawRecord => decide (x.lsn = bestLsn ∧ x.key = key)) hfind)
    -- only a put has a value
    have hcode : r'.raw.op = WalOp.kPut.code := by
      by_contra hcode
      exact hval (if_neg hcode)
    have hwrote := hi.wrote_raw hr' ((code_eq_iff _ _).1 hcode)
    have hlsn : r'.lsn = bestLsn := hlsn
    have hkey : r'.key = key := hkey
    rw [hlsn, hkey] at hwrote
    simp only [hcode, if_true]
    exact hwrote
  · cases hw
    exact ⟨Nat.le_of_not_lt hle, hver, fun hval => absurd rfl hval⟩

theorem Inv.walTier (hi : Inv true h s rs ds) (hw : s.walTier key snapshotLsn = some (.ok v)) :
    h.Wrote key v ∧ v.lsn ≤ snapshotLsn := by
  unfold ShardEngine.walTier at hw
  cases hf : s.tryWalSnapshotFloor key snapshotLsn with
  | none =>
    rw [hf] at hw
    cases hw
  | some w =>
    obtain ⟨hle, hver, hval⟩ := hi.tryWalSnapshotFloor hf
    rw [hf] at hw
    simp only at hw
    split at hw
    · cases hw
    split at hw
    · rename_i hne
      cases hw
      exact ⟨hval hne, hle⟩
    · obtain ⟨hwrote, hl⟩ := hi.readByLsn hver (decisive_ok hw)
      exact ⟨hwrote, hl ▸ hle⟩

/-! ## Point reads -/

/-- **A value that is resolved** was written, up to the snapshot if it is not from a memtable. -/
theorem Inv.resolveAtSnapshot (hi : Inv true h s rs ds) (hpos : 0 < ctx.snapshotLsn)
    (hr : s.resolveAtSnapshot key ctx = some (.ok v)) :
    h.Wrote key v ∧ (s.memTier key ctx = some (.ok v) ∨ v.lsn ≤ ctx.snapshotLsn) := by
  unfold ShardEngine.resolveAtSnapshot at hr
  split at hr
  · rename_i r hor
    cases hr
    rcases Option.or_eq_some_iff.1 hor with hm | ⟨-, hc⟩
    · exact ⟨hi.memTier hm, .inl hm⟩
    · obtain ⟨hw, hle⟩ := hi.committedTier hpos hc
      exact ⟨hw, .inr hle⟩
  · obtain ⟨hit, hg, hres⟩ := Option.map_eq_some_iff.1 hr
    suffices hbelow : h.Wrote key v ∧ v.lsn ≤ ctx.snapshotLsn from ⟨hbelow.1, .inr hbelow.2⟩
    cases hor : (s.btreeTier hit ctx.snapshotLsn).or ((s.chainTier key ctx.snapshotLsn).or
        (s.walTier key ctx.snapshotLsn)) with
    | none =>
      -- no tier answers with a value
      rw [hor] at hres
      unfold missing at hres
      cases hit with
      | none => cases hres
      | some lsn =>
        simp only [Option.getD_none] at hres
        split at hres <;> cases hres
    | some r =>
      rw [hor] at hres
      cases hres
      rcases Option.or_eq_some_iff.1 hor with hb | ⟨-, hor⟩
      · exact hi.btreeTier hpos hg hb
      rcases Option.or_eq_some_iff.1 hor with hc | ⟨-, hw⟩
      · exact hi.chainTier hc
      · exact hi.walTier hw

/-- The version a snapshot read looks for on the disk lies below the snapshot. -/
theorem Inv.diskLsn (hi : Inv true h s rs ds) (hpos : 0 < snapshotLsn) {hit : Option Nat}
    (hg : s.btreeGet key = some hit) (hne : s.diskLsn key snapshotLsn hit ≠ 0) :
    h.HasVersion true (key, s.diskLsn key snapshotLsn hit) ∧
      s.diskLsn key snapshotLsn hit ≤ snapshotLsn := by
  have hfloor : s.vcs.floor key snapshotLsn ≠ 0 → h.HasVersion true (key, s.vcs.floor key snapshotLsn)
      ∧ s.vcs.floor key snapshotLsn ≤ snapshotLsn := fun h0 =>
    ⟨hi.floor (Nat.pos_iff_ne_zero.2 h0), VersionChainStore.floor_le _ _ _⟩
  cases hit with
  | none => exact hfloor hne
  | some forward =>
    unfold ShardEngine.diskLsn at hne ⊢
    simp only at hne ⊢
    split
    · rename_i hle
      exact ⟨hi.btreeGet hg, hle.resolve_left (Nat.pos_iff_ne_zero.1 hpos)⟩
    · rename_i hlt
      rw [if_neg hlt] at hne
      exact hfloor hne

theorem Inv.getAtSnapshotCore (hi : Inv true h s rs ds) (hpos : 0 < ctx.snapshotLsn)
    (hr : s.getAtSnapshotCore key ctx = some (.ok v)) :
    h.Wrote key v ∧ (s.memTier key ctx = some (.ok v) ∨ v.lsn ≤ ctx.snapshotLsn) := by
  unfold ShardEngine.getAtSnapshotCore at hr
  split at hr
  · rename_i r hor
    cases hr
    rcases Option.or_eq_some_iff.1 hor with hm | ⟨-, hc⟩
    · exact ⟨hi.memTier hm, .inl hm⟩
    · obtain ⟨hw, hle⟩ := hi.committedTier hpos hc
      exact ⟨hw, .inr hle⟩
  · split at hr
    · cases hr
    · rename_i hit hg
      split at hr
      · exact hi.resolveAtSnapshot hpos hr
      · rename_i hne
        split at hr
        · rename_i r hd
          cases hr
          obtain ⟨hver, hle⟩ := hi.diskLsn hpos hg hne
          obtain ⟨hw, hl⟩ := hi.readByLsn hver (decisive_ok hd)
          exact ⟨hw, .inr (hl ▸ hle)⟩
        · exact hi.resolveAtSnapshot hpos hr

/-! ## The hits of a scan -/

/-- One memtable laid over the hits: an entry that matches and is visible decides its key. -/
theorem find?_overlayLayer (plan : TypedPlan) (visible : MemTableEntry → Bool)
    (m : SortedMap Key Nat) (mt : MemTable) (key : Key) :
    (overlayLayer plan visible m mt).find? key =
      match mt.find? key with
      | some e =>
        if planMatches plan key ∧ visible e then if e.deleted then none else some e.lsn
        else m.find? key
      | none => m.find? key := by
  rw [overlayLayer, SortedMap.find?_foldl_entries]
  · cases mt.find? key with
    | none => rfl
    | some e =>
      simp only
      split
      · split <;> simp
      · rfl
  · intro m e k hk
    split
    · split
      · simp [hk]
      · simp [hk]
    · rfl
  · intro m m' e he
    split
    · split <;> simp
    · exact he

/-- The keys of the map match the plan. -/
def AllMatch (plan : TypedPlan) (m : SortedMap Key Nat) : Prop :=
  ∀ key lsn, m.find? key = some lsn → planMatches plan key = true

theorem AllMatch.insertAll {plan : TypedPlan} {hits : List Hit}
    (h : ∀ e ∈ hits, planMatches plan e.1 = true) :
    AllMatch plan (SortedMap.empty.insertAll hits) := by
  intro key lsn hf
  rcases SortedMap.mem_of_find?_insertAll hf with hf | hf
  · cases hf
  · exact h _ hf

theorem AllMatch.overlayLayer {plan : TypedPlan} {m : SortedMap Key Nat} (h : AllMatch plan m)
    (visible : MemTableEntry → Bool) (mt : MemTable) :
    AllMatch plan (overlayLayer plan visible m mt) := by
  intro key lsn hf
  rw [find?_overlayLayer] at hf
  split at hf
  · split at hf
    · rename_i hm
      exact hm.1
    · exact h key lsn hf
  · exact h key lsn hf

theorem overlayCommittedHits_matches {plan : TypedPlan} {hits : List Hit}
    (h : ∀ e ∈ hits, planMatches plan e.1 = true) :
    ∀ e ∈ s.overlayCommittedHits plan hits, planMatches plan e.1 = true := by
  intro e he
  have hf := SortedMap.mem_entries_iff.1 he
  rw [SortedMap.find?_foldl_entries] at hf
  · split at hf
    · simp only at hf
      split at hf
      · assumption
      · exact AllMatch.insertAll h _ _ hf
    · exact AllMatch.insertAll h _ _ hf
  · intro m e k hk
    split
    · simp [hk]
    · rfl
  · intro m m' e he
    split
    · simp
    · exact he

/-- **The hits of a snapshot scan** match its plan, and have every key whose first entry in the
memtables is a visible value. -/
theorem overlaySnapshotMemTableHits_spec {plan : TypedPlan} {hits : List Hit}
    (h : ∀ e ∈ hits, planMatches plan e.1 = true) :
    (∀ e ∈ s.overlaySnapshotMemTableHits plan ctx hits, planMatches plan e.1 = true) ∧
      ∀ key e, planMatches plan key = true → s.lookupMemTable key = some e →
        memEntryVisible e ctx = true → e.deleted = false →
        (key, e.lsn) ∈ s.overlaySnapshotMemTableHits plan ctx hits := by
  constructor
  · intro e he
    exact (((AllMatch.insertAll h).overlayLayer _ _).overlayLayer _ _).overlayLayer _ _ _ _
      (SortedMap.mem_entries_iff.1 he)
  · intro key e hm hl hv hd
    refine SortedMap.mem_entries_iff.2 ?_
    have hmv : ∀ {a b : Option Nat}, (if planMatches plan key = true ∧ memEntryVisible e ctx = true
        then (if e.deleted = true then a else some e.lsn) else b) = some e.lsn := by
      intro a b
      rw [if_pos ⟨hm, hv⟩, if_neg (by simp [hd])]
    -- the layer that holds the entry, and nothing over it
    unfold ShardEngine.lookupMemTable at hl
    rcases Option.or_eq_some_iff.1 hl with hf | ⟨hn, hl⟩
    · simp only [find?_overlayLayer, hf]
      exact hmv
    rcases Option.or_eq_some_iff.1 hl with hf | ⟨hn', hf⟩
    · simp only [find?_overlayLayer, hn, hf]
      exact hmv
    · simp only [find?_overlayLayer, hn, hn', hf]
      exact hmv

/-! ## The rows of a scan -/

/-- The first entry of the key in the memtables is a value, and the reader sees it. -/
structure ShardEngine.Shows (s : ShardEngine) (ctx : SnapshotReadContext) (key : Key) (e : MemTableEntry) :
    Prop where
  lookup : s.lookupMemTable key = some e
  visible : memEntryVisible e ctx = true
  live : e.deleted = false

theorem memTier_eq_shows : s.memTier key ctx = some (.ok v) ↔
    ∃ e, s.Shows ctx key e ∧ v = ⟨e.lsn, e.value⟩ :=
  memTier_ok_iff.trans ⟨fun ⟨e, hl, hv, hd, he⟩ => ⟨e, ⟨hl, hv, hd⟩, he⟩,
    fun ⟨e, hs, he⟩ => ⟨e, hs.lookup, hs.visible, hs.live, he⟩⟩

/-- Scans take their values from the map of committed values, and drop no empty ones. -/
def ShardEngine.ScansCommitted (s : ShardEngine) : Prop := s.readsDisk = false ∧ s.committed.isEmpty = false

theorem diskRow_eq {hit : Hit} {p : PartialRow} (hpos : 0 < snapshotLsn)
    (h : s.diskRow hit snapshotLsn = some p) :
    ∃ lsn off, p = .disk lsn off ∧ s.datafile.lsnIndex.find? lsn = some off ∧
      lsn ≤ snapshotLsn := by
  unfold diskRow at h
  simp only at h
  split at h
  · cases h
  · obtain ⟨off, hoff, rfl⟩ := Option.map_eq_some_iff.1 h
    refine ⟨_, off, rfl, hoff, ?_⟩
    unfold effectiveHitLsn
    split
    · rename_i hle
      exact hle.resolve_left (Nat.pos_iff_ne_zero.1 hpos)
    · exact VersionChainStore.floor_le _ _ _

/-- A value read off the data file for a row was written, under the LSN of the row. -/
theorem Inv.fillRow (hi : Inv true h s rs ds) {lsn off : Nat}
    (hoff : s.datafile.lsnIndex.find? lsn = some off) (ok : Bool)
    (hne : (s.fillRow ok (.disk lsn off)).value ≠ []) :
    (∃ key, h.Wrote key (s.fillRow ok (.disk lsn off))) ∧
      (s.fillRow ok (.disk lsn off)).lsn = lsn := by
  have hwrote : ∀ r ∈ ds, r.lsn = lsn → r.deleted = false → ∃ key, h.Wrote key ⟨lsn, r.value⟩ := by
    intro r hr hl hd
    obtain ⟨w, hw, he, -⟩ := hi.tiers.data r hr
    refine ⟨r.key, w, hw, ?_⟩
    rw [he, ← hl, ← hd]
  unfold ShardEngine.fillRow at hne ⊢
  simp only at hne ⊢
  cases hr : (if ok then s.datafile.readBatchAt off else s.datafile.readByLsn lsn) with
  | error e =>
    rw [hr] at hne
    exact absurd rfl hne
  | ok v =>
    rw [hr] at hne
    simp only [Except.toOption, Option.getD_some] at hne ⊢
    split at hr
    · obtain ⟨r, hmem, hl, rfl⟩ := hi.tiers.stores.readBatchAt_ok hoff hr
      cases hd : r.deleted with
      | true =>
        rw [hd] at hne
        exact absurd rfl hne
      | false => exact ⟨hwrote r hmem hl hd, rfl⟩
    · obtain ⟨r, hmem, hl, hd, rfl⟩ := hi.tiers.stores.readByLsn_ok hr
      exact ⟨hwrote r hmem hl hd, rfl⟩

/-- The rows before the values are filled in. -/
theorem mem_partialRows {hits : List Hit} {rows : List (Key × PartialRow)}
    (hr : s.partialRows ctx hits = some rows) :
    (∀ row ∈ rows, ∃ hit ∈ hits, hit.1 = row.1 ∧
      ((∃ v, s.resolveAtSnapshot hit.1 ctx = some (.ok v) ∧ row.2 = .value v) ∨
        (∃ e, s.resolveAtSnapshot hit.1 ctx = some (.error e)) ∧
          s.diskRow hit ctx.snapshotLsn = some row.2)) ∧
    ∀ hit ∈ hits, ∀ v, s.resolveAtSnapshot hit.1 ctx = some (.ok v) →
      (hit.1, .value v) ∈ rows := by
  induction hits generalizing rows with
  | nil =>
    cases hr
    simp
  | cons hit hits ih =>
    rw [partialRows] at hr
    split at hr
    · cases hr
    · rename_i v hres
      obtain ⟨rest, hrest, rfl⟩ := Option.map_eq_some_iff.1 hr
      obtain ⟨hfrom, hto⟩ := ih hrest
      constructor
      · intro row hrow
        rcases List.mem_cons.1 hrow with rfl | hrow
        · exact ⟨hit, List.mem_cons_self, rfl, .inl ⟨v, hres, rfl⟩⟩
        · obtain ⟨hit', hm, h'⟩ := hfrom row hrow
          exact ⟨hit', List.mem_cons_of_mem _ hm, h'⟩
      · intro hit' hm v' hv'
        rcases List.mem_cons.1 hm with rfl | hm
        · cases hres.symm.trans hv'
          exact List.mem_cons_self
        · exact List.mem_cons_of_mem _ (hto hit' hm v' hv')
    · rename_i err hres
      obtain ⟨rest, hrest, rfl⟩ := Option.map_eq_some_iff.1 hr
      obtain ⟨hfrom, hto⟩ := ih hrest
      constructor
      · intro row hrow
        rcases List.mem_append.1 hrow with hrow | hrow
        · obtain ⟨p, hp, rfl⟩ := Option.map_eq_some_iff.1 (Option.mem_toList.1 hrow)
          split at hp
          · exact ⟨hit, List.mem_cons_self, rfl, .inr ⟨⟨err, hres⟩, hp⟩⟩
          · cases hp
        · obtain ⟨hit', hm, h'⟩ := hfrom row hrow
          exact ⟨hit', List.mem_cons_of_mem _ hm, h'⟩
      · intro hit' hm v' hv'
        rcases List.mem_cons.1 hm with rfl | hm
        · cases hres.symm.trans hv'
        · exact List.mem_append_right _ (hto hit' hm v' hv')

theorem mem_fillRows {rows : List (Key × PartialRow)} {row : Row} :
    row ∈ s.fillRows rows ↔ row.2.value ≠ [] ∧ ∃ p, (row.1, p) ∈ rows ∧
      row.2 = s.fillRow (s.datafile.readBatchOk (rows.filterMap fun r => diskOffset r.2)) p := by
  unfold fillRows
  simp only [List.mem_filter, List.mem_map, decide_eq_true_eq]
  constructor
  · rintro ⟨⟨⟨k, p⟩, hp, rfl⟩, hne⟩
    exact ⟨hne, p, hp, rfl⟩
  · rintro ⟨hne, p, hp, he⟩
    exact ⟨⟨(row.1, p), hp, Prod.ext rfl he.symm⟩, hne⟩

/-- A row where the values are in memory. -/
theorem Inv.committedRow (hi : Inv true h s rs ds) (hpos : 0 < ctx.snapshotLsn) {hit : Hit}
    {row : Row} (hr : s.committedRow ctx hit = some row) :
    row.1 = hit.1 ∧ h.Wrote hit.1 row.2 ∧
      ((∃ e, s.Shows ctx hit.1 e ∧ row.2 = ⟨e.lsn, e.value⟩) ∨ row.2.lsn ≤ ctx.snapshotLsn) := by
  unfold ShardEngine.committedRow at hr
  cases hl : s.lookupMemTable hit.1 with
  | some e =>
    rw [hl] at hr
    simp only at hr
    split at hr
    · cases hr
    · rename_i hshow
      cases hr
      have hs : s.Shows ctx hit.1 e := by
        refine ⟨hl, ?_, ?_⟩ <;> simp_all
      exact ⟨rfl, hi.memTier (memTier_eq_shows.2 ⟨e, hs, rfl⟩), .inl ⟨e, hs, rfl⟩⟩
  | none =>
    rw [hl] at hr
    simp only at hr
    cases hf : s.committed.find? hit.1 with
    | none =>
      rw [hf] at hr
      cases hr
    | some x =>
      obtain ⟨value, lsn⟩ := x
      rw [hf] at hr
      simp only at hr
      split at hr
      · split at hr
        · cases hr
        · rename_i hne
          obtain ⟨v, hv, rfl⟩ := Option.map_eq_some_iff.1 hr
          have hver := hi.floor (Nat.pos_iff_ne_zero.2 hne)
          have hread : s.datafile.readByLsn (s.vcs.floor hit.1 ctx.snapshotLsn) = .ok v := by
            cases hd : s.datafile.readByLsn (s.vcs.floor hit.1 ctx.snapshotLsn) with
            | error e =>
              rw [hd] at hv
              cases hv
            | ok v' =>
              rw [hd] at hv
              cases hv
              rfl
          obtain ⟨hw, hlsn⟩ := hi.readByLsn hver hread
          exact ⟨rfl, hw, .inr (hlsn ▸ VersionChainStore.floor_le _ _ _)⟩
      · rename_i hle
        cases hr
        obtain ⟨w, hw, he, -⟩ := hi.tiers.committed hit.1 _ hf
        refine ⟨rfl, ⟨w, hw, he⟩, .inr ?_⟩
        show lsn ≤ ctx.snapshotLsn
        omega

/-- **A row of a scan** was written, and its LSN is up to the snapshot if the row is not what a
memtable shows. -/
theorem Inv.scanRow (hi : Inv true h s rs ds) (hpos : 0 < ctx.snapshotLsn) {hits : List Hit}
    {rows : List Row} (hr : s.resolveScanValues hits ctx = some rows) {row : Row}
    (hrow : row ∈ rows) :
    (∃ key, h.Wrote key row.2) ∧ (row.2.lsn ≤ ctx.snapshotLsn ∨
      ∃ hit ∈ hits, hit.1 = row.1 ∧ ∃ e, s.Shows ctx row.1 e ∧ row.2 = ⟨e.lsn, e.value⟩ ∧
        (e.value ≠ [] ∨ s.ScansCommitted)) := by
  unfold ShardEngine.resolveScanValues at hr
  split at hr
  · cases hr
    obtain ⟨hne, p, hp, he⟩ := mem_fillRows.1 hrow
    obtain ⟨hit, -, hd⟩ := List.mem_filterMap.1 hp
    obtain ⟨p', hp', hpe⟩ := Option.map_eq_some_iff.1 hd
    obtain ⟨-, rfl⟩ := Prod.mk.inj hpe
    obtain ⟨lsn, off, rfl, hoff, hle⟩ := diskRow_eq hpos hp'
    obtain ⟨hw, hl⟩ := hi.fillRow hoff _ (he ▸ hne)
    rw [he]
    exact ⟨hw, .inl (by rw [hl]; exact hle)⟩
  split at hr
  · rename_i hc
    cases hr
    obtain ⟨hit, hm, hrow⟩ := List.mem_filterMap.1 hrow
    obtain ⟨hk, hw, hor⟩ := hi.committedRow hpos hrow
    refine ⟨⟨_, hw⟩, hor.symm.imp id fun ⟨e, hs, he⟩ => ⟨hit, hm, hk.symm, e, hk ▸ hs, he, .inr ?_⟩⟩
    exact ⟨by simpa using hc.1, by simpa using hc.2⟩
  · obtain ⟨prows, hp, rfl⟩ := Option.map_eq_some_iff.1 hr
    obtain ⟨hne, p, hmp, he⟩ := mem_fillRows.1 hrow
    obtain ⟨hit, hm, hk, ⟨v, hres, hpv⟩ | ⟨-, hdisk⟩⟩ := (mem_partialRows hp).1 _ hmp
    · have hpv : p = .value v := hpv
      subst hpv
      have hv : row.2 = v := he
      obtain ⟨hw, hor⟩ := hi.resolveAtSnapshot hpos hres
      rw [hv] at hne ⊢
      refine ⟨⟨_, hw⟩, hor.symm.imp id fun hmem => ⟨hit, hm, hk, ?_⟩⟩
      obtain ⟨e, hs, hve⟩ := memTier_eq_shows.1 hmem
      refine ⟨e, ?_, hve, .inl ?_⟩
      · exact (show hit.1 = row.1 from hk) ▸ hs
      · rw [hve] at hne
        exact hne
    · obtain ⟨lsn, off, hpd, hoff, hle⟩ := diskRow_eq hpos hdisk
      have hpd : p = .disk lsn off := hpd
      subst hpd
      obtain ⟨hw, hl⟩ := hi.fillRow hoff _ (he ▸ hne)
      rw [he]
      exact ⟨hw, .inl (by rw [hl]; exact hle)⟩

/-- What a memtable shows is a row, if it is a hit. -/
theorem resolveScanValues_shows {hits : List Hit} {rows : List Row}
    (hr : s.resolveScanValues hits ctx = some rows) {e : MemTableEntry} (hs : s.Shows ctx key e)
    (hv : e.value ≠ [] ∨ s.ScansCommitted) (hm : (key, e.lsn) ∈ hits) :
    (key, ⟨e.lsn, e.value⟩) ∈ rows := by
  unfold ShardEngine.resolveScanValues at hr
  split at hr
  · rename_i hc
    have hempty := hc.2.1
    have hl := hs.lookup
    simp only [memTablesEmpty, Bool.and_eq_true, SortedMap.isEmpty_iff] at hempty
    have hnone : ∀ {mt : MemTable}, mt.entries = [] → mt.find? key = none := fun he =>
      SortedMap.find?_eq_none_iff.2 (by simp [he])
    rw [lookupMemTable, hnone hempty.1.1, hnone hempty.1.2, hnone hempty.2] at hl
    cases hl
  split at hr
  · cases hr
    refine List.mem_filterMap.2 ⟨_, hm, ?_⟩
    simp [ShardEngine.committedRow, hs.lookup, hs.live, hs.visible]
  · rename_i hc
    have hne : e.value ≠ [] := hv.resolve_right fun hsc => hc (by simp [hsc.1, hsc.2])
    obtain ⟨prows, hp, rfl⟩ := Option.map_eq_some_iff.1 hr
    have hres : s.resolveAtSnapshot key ctx = some (.ok ⟨e.lsn, e.value⟩) := by
      rw [ShardEngine.resolveAtSnapshot, memTier_eq_shows.2 ⟨e, hs, rfl⟩]
      rfl
    exact mem_fillRows.2 ⟨hne, _, (mem_partialRows hp).2 _ hm _ hres, rfl⟩

/-! ## The bound -/

theorem btreeScanWithHeal_matches {plan : TypedPlan} {hits : List Hit}
    (hb : s.btreeScanWithHeal plan = some (s', .ok hits)) :
    ∀ e ∈ hits, planMatches plan e.1 = true := by
  unfold btreeScanWithHeal at hb
  split at hb
  · cases hb
  · rename_i hs
    cases hb
    exact fun e he => scan_matches hs he
  · split at hb
    · simp only at hb
      split at hb
      · cases hb
      · rename_i hs
        cases hb
        exact fun e he => scan_matches hs he
      · split at hb
        · cases hb
          simp
        · cases hb
    · cases hb

/-- A snapshot scan that returns rows: the hits it takes them from. -/
theorem scanAtSnapshot_ok {plan : TypedPlan} {rows : List Row}
    (hs : s.scanAtSnapshot plan ctx = some (s', .ok rows)) :
    ∃ hits, s'.resolveScanValues hits ctx = some rows ∧
      (∀ e ∈ hits, planMatches plan e.1 = true) ∧
      ∀ key e, planMatches plan key = true → s'.Shows ctx key e → (key, e.lsn) ∈ hits := by
  have hprepared : ∀ {s1 : ShardEngine},
      s1.scanPrepared { plan with snapshotLsn := ctx.snapshotLsn } ctx = some (s', .ok rows) →
      ∃ hits, s'.resolveScanValues hits ctx = some rows ∧
        (∀ e ∈ hits, planMatches plan e.1 = true) ∧
        ∀ key e, planMatches plan key = true → s'.Shows ctx key e → (key, e.lsn) ∈ hits := by
    intro s1 hp
    unfold scanPrepared at hp
    split at hp
    · cases hp
    · cases hp
    · rename_i hb
      obtain ⟨_, hres, he⟩ := Option.map_eq_some_iff.1 hp
      cases he
      obtain ⟨hall, hshow⟩ := @overlaySnapshotMemTableHits_spec s' ctx _ _
        (overlayCommittedHits_matches (s := s') (btreeScanWithHeal_matches hb))
      exact ⟨_, hres, hall, fun key e hm hs => hshow key e hm hs.lookup hs.visible hs.live⟩
  unfold ShardEngine.scanAtSnapshot at hs
  simp only at hs
  split at hs
  · split at hs
    · exact hprepared hs
    · cases hs
  · exact hprepared hs

theorem shows_repairSummary {e : MemTableEntry} :
    s.repairSummary.Shows ctx key e ↔ s.Shows ctx key e := Iff.intro
  (fun hs => ⟨hs.lookup, hs.visible, hs.live⟩) fun hs => ⟨hs.lookup, hs.visible, hs.live⟩

theorem readsDisk_repairSummary (s : ShardEngine) : s.repairSummary.readsDisk = s.readsDisk := by
  have hmode : s.repairSummary.btree.onDiskMode = s.btree.onDiskMode := by
    simp only [ShardEngine.repairSummary, PagedBTree.ensureSummaryLsnAtLeast]
    split
    · unfold PagedBTree.rebuildSummaryFromCommitted
      split <;> rfl
    · rename_i hd
      simpa [PagedBTree.loadFromMap] using hd
  unfold readsDisk
  rw [hmode]
  rfl

theorem scansCommitted_repairSummary : s.repairSummary.ScansCommitted ↔ s.ScansCommitted := by
  unfold ScansCommitted
  rw [readsDisk_repairSummary]
  exact Iff.rfl

/-- A snapshot read of the key returns no value of a record behind the snapshot. -/
def GetBounded (h : History) (s : ShardEngine) (key : Key) (ctx : SnapshotReadContext) : Prop :=
  ∀ s' v, s.getAtSnapshot key ctx = some (s', .ok v) →
    ∃ w ∈ h.writes, w.record = ⟨v.lsn, key, v.value, false⟩ ∧ w.record.lsn ≤ ctx.snapshotLsn

/-- No row is a value of a record behind the snapshot. -/
def RowsBounded (h : History) (rows : List Row) (ctx : SnapshotReadContext) : Prop :=
  ∀ row ∈ rows, ∃ w ∈ h.writes, (w.record.lsn = row.2.lsn ∧ w.record.value = row.2.value ∧
    w.record.deleted = false) ∧ w.record.lsn ≤ ctx.snapshotLsn

/-- The memtables show the reader a version of the key from behind the snapshot. -/
def ShardEngine.ShowsLater (s : ShardEngine) (key : Key) (ctx : SnapshotReadContext) : Prop :=
  ∃ e, s.Shows ctx key e ∧ ctx.snapshotLsn < e.lsn

/-- They show one of a key the plan matches, and the scan does not drop it. -/
def ShardEngine.ScanShowsLater (s : ShardEngine) (plan : TypedPlan) (ctx : SnapshotReadContext) :
    Prop :=
  ∃ key e, planMatches plan key = true ∧ s.Shows ctx key e ∧ ctx.snapshotLsn < e.lsn ∧
    (e.value ≠ [] ∨ s.ScansCommitted)

theorem Inv.getBounded_iff (hi : Inv true h s rs ds) (hpos : 0 < ctx.snapshotLsn) (key : Key) :
    GetBounded h s key ctx ↔
      key = [] ∨ ¬ (s.prepareSnapshotRead ctx.snapshotLsn).ShowsLater key ctx := by
  unfold GetBounded ShardEngine.getAtSnapshot
  by_cases hkey : key = []
  · refine ⟨fun _ => .inl hkey, fun _ s' v hg => ?_⟩
    rw [if_pos hkey] at hg
    cases hg
  simp only [if_neg hkey]
  have hi1 := hi.prepareSnapshotRead ctx.snapshotLsn
  generalize s.prepareSnapshotRead ctx.snapshotLsn = s1 at hi1
  constructor
  · rintro hb
    refine .inr fun ⟨e, hs, hlt⟩ => ?_
    have hg : s1.getAtSnapshotCore key ctx = some (.ok ⟨e.lsn, e.value⟩) := by
      rw [ShardEngine.getAtSnapshotCore, memTier_eq_shows.2 ⟨e, hs, rfl⟩]
      rfl
    obtain ⟨w, -, hw, hle⟩ := hb s1 ⟨e.lsn, e.value⟩ (by rw [hg]; rfl)
    rw [hw] at hle
    exact absurd hle (Nat.not_le.2 hlt)
  · rintro hor s' v hg
    obtain ⟨r, hr, he⟩ := Option.map_eq_some_iff.1 hg
    cases he
    obtain ⟨⟨w, hw, hwr⟩, hle⟩ := hi1.getAtSnapshotCore hpos hr
    refine ⟨w, hw, hwr, ?_⟩
    rw [hwr]
    rcases hle with hm | hle
    · obtain ⟨e, hs, rfl⟩ := memTier_eq_shows.1 hm
      exact Nat.le_of_not_lt fun hlt => hor.resolve_left hkey ⟨e, hs, hlt⟩
    · exact hle

theorem Inv.rowsBounded_iff (hi : Inv true h s rs ds) (hpos : 0 < ctx.snapshotLsn)
    {plan : TypedPlan} {rows : List Row} (hs : s.scanAtSnapshot plan ctx = some (s', .ok rows)) :
    RowsBounded h rows ctx ↔
      ¬ (s.prepareSnapshotRead ctx.snapshotLsn).ScanShowsLater plan ctx := by
  obtain ⟨hits, hres, hmatch, hshow⟩ := scanAtSnapshot_ok hs
  have hstate := scanAtSnapshot_state hs
  have hi1 := hi.prepareSnapshotRead ctx.snapshotLsn
  generalize s.prepareSnapshotRead ctx.snapshotLsn = s1 at hi1 hstate
  -- the state the rows are taken from shows what the prepared state shows
  have hi' : Inv true h s' rs ds := by
    rcases hstate with rfl | ⟨-, rfl⟩
    · exact hi1
    · exact hi1.repairSummary
  have hsame : (∀ key e, s'.Shows ctx key e ↔ s1.Shows ctx key e) ∧
      (s'.ScansCommitted ↔ s1.ScansCommitted) := by
    rcases hstate with rfl | ⟨-, rfl⟩
    · exact ⟨fun _ _ => Iff.rfl, Iff.rfl⟩
    · exact ⟨fun _ _ => shows_repairSummary, scansCommitted_repairSummary⟩
  constructor
  · rintro hb ⟨key, e, hm, hs1, hlt, hv⟩
    have hs' := (hsame.1 key e).2 hs1
    have hrow := resolveScanValues_shows hres hs' (hv.imp id hsame.2.2) (hshow key e hm hs')
    obtain ⟨w, -, ⟨hl, -⟩, hle⟩ := hb _ hrow
    rw [hl] at hle
    exact absurd hle (Nat.not_le.2 hlt)
  · intro hnot row hrow
    obtain ⟨⟨key, w, hw, hwr⟩, hle⟩ := hi'.scanRow hpos hres hrow
    refine ⟨w, hw, by rw [hwr]; exact ⟨rfl, rfl, rfl⟩, ?_⟩
    rw [hwr]
    rcases hle with hle | ⟨hit, hmem, hk, e, hs', he, hv⟩
    · exact hle
    · refine Nat.le_of_not_lt fun hlt => hnot ⟨row.1, e, hk ▸ hmatch hit hmem,
        (hsame.1 _ _).1 hs', ?_, hv.imp id hsame.2.1⟩
      rw [he] at hlt
      exact hlt

/-- **A snapshot read sees the future only in the memtables**: in every state a run reaches, what
`GetAtSnapshot` and `ScanAtSnapshot` return at a snapshot was written up to it, if and only if the
memtables show the reader no later version. -/
theorem snapshot_reads_bounded_iff (hr : Run (fun s _ op => Legible s op) s h)
    (hpos : 0 < ctx.snapshotLsn) :
    (∀ key, GetBounded h s key ctx ↔
      key = [] ∨ ¬ (s.prepareSnapshotRead ctx.snapshotLsn).ShowsLater key ctx) ∧
    ∀ plan s' rows, s.scanAtSnapshot plan ctx = some (s', .ok rows) →
      (RowsBounded h rows ctx ↔
        ¬ (s.prepareSnapshotRead ctx.snapshotLsn).ScanShowsLater plan ctx) := by
  obtain ⟨rs, ds, hi⟩ := Inv.run true (fun _ _ _ _ _ hi hl => Legible.allowed hl hi) hr
  exact ⟨hi.getBounded_iff hpos, fun plan s' rows hs => hi.rowsBounded_iff hpos hs⟩

theorem snapshot_read_bounded_put :
    GetBounded (History.empty.after (ShardEngine.open .sync ShardFiles.none) (.write (firstPut 0)))
      ((ShardEngine.open .sync ShardFiles.none).write (firstPut 0)).1 [1] ⟨0, 1⟩ := by
  have hrun : Run (fun s _ op => Legible s op)
      ((ShardEngine.open .sync ShardFiles.none).write (firstPut 0)).1
      (History.empty.after (ShardEngine.open .sync ShardFiles.none) (.write (firstPut 0))) :=
    (Run.opened .sync).step (by decide +kernel) ((hot_open _).legible _) rfl
  refine ((@snapshot_reads_bounded_iff _ _ ⟨0, 1⟩ hrun (by decide)).1 [1]).2 (.inr ?_)
  rintro ⟨e, hs, hlt⟩
  have hentry : (((ShardEngine.open .sync ShardFiles.none).write
      (firstPut 0)).1.prepareSnapshotRead 1).lookupMemTable [1] = some ⟨[2], 1, false, 0, true⟩ := by
    decide +kernel
  cases hentry.symm.trans hs.lookup
  exact absurd hlt (by decide)

/-- **A snapshot read that sees the future**: a key put twice, read at the LSN of the first put. -/
theorem snapshot_read_sees_later :
    ¬ ∀ s h, Run (fun _ _ _ => True) s h → ∀ key ctx, 0 < ctx.snapshotLsn →
      GetBounded h s key ctx := by
  intro hall
  obtain ⟨⟨s, h⟩, hops, hx⟩ := (Option.any_eq_true _ _).1 (show ((runOps (ShardEngine.open .sync
      ShardFiles.none) History.empty [.write (firstPut 0), .write ⟨[1], [3], false, 0⟩]).any fun x =>
    (x.1.getAtSnapshot [1] ⟨0, 1⟩).any fun r => r.2.toOption = some ⟨2, [3]⟩) = true
      by decide +kernel)
  obtain ⟨⟨s', r⟩, hget, hr⟩ := (Option.any_eq_true _ _).1 hx
  have hrun := (Run.opened .sync).ops (fun _ _ _ => trivial) hops
  cases r with
  | error e => cases of_decide_eq_true hr
  | ok v =>
    cases of_decide_eq_true hr
    obtain ⟨w, -, hw, hle⟩ := hall s h hrun [1] ⟨0, 1⟩ (by decide) s' _ hget
    rw [hw] at hle
    exact absurd hle (by decide)

end EBTree.Engine
