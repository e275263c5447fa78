import EBTree.BTree.Proof.Sound
import EBTree.Engine.Proof.Fold
import EBTree.Engine.Proof.Steps

/-!
# Where versions come from

`Inv any h s rs ds`: everything the state `s` holds was written, by the history `h`. The log holds
the records `rs` and the data file the records `ds`; the data file, the map of committed values, the
tree and the version chains, with their sidecars, hold only records that count (`History.Counts`):
with `any` all of them, without it those of autocommit and of transactions with a commit record.
An entry of a memtable counts when it is durable.

* `Inv.write`, `Inv.flush`, `Inv.checkpoint`, `Inv.refreshed`, …: one lemma for each call. A flush
  wants its entries to count, and a checkpoint its log to be truncated as a whole.
-/

set_option autoImplicit false

namespace EBTree.Engine

open Lib Wal BTree ShardEngine

/-! ## Records that count -/

/-- The version a record of the log makes. -/
def logRecord (r : WalRecord) : DataRecord :=
  ⟨r.lsn, r.key, if r.op = .kDelete then [] else r.value, decide (r.op = .kDelete)⟩

theorem memRecord_entryOf (durable : Bool) (r : WalRecord) :
    memRecord r.key (entryOf durable r) = logRecord r := by
  by_cases h : r.op = .kDelete <;> simp [memRecord, entryOf, logRecord, h]

namespace History

variable (h : History) (any : Bool)

/-- The record was written, by this transaction unless `any`. -/
def WroteBy (txnId : UInt32) (r : DataRecord) : Prop :=
  ∃ w ∈ h.writes, w.record = r ∧ (any = true ∨ w.txnId = txnId)

/-- The record was written, and with `any` false it is committed. -/
def Counts (r : DataRecord) : Prop :=
  ∃ w ∈ h.writes, w.record = r ∧ (any = true ∨ w.txnId = 0 ∨ w.txnId ∈ h.commits)

/-- The key has a version with this LSN that counts. -/
def HasVersion (e : Entry) : Prop := ∃ r, h.Counts any r ∧ r.key = e.1 ∧ r.lsn = e.2

variable {h any} {h' : History}

theorem WroteBy.counts {txnId : UInt32} {r : DataRecord} (hw : h.WroteBy any txnId r)
    (hc : any = true ∨ txnId = 0 ∨ txnId ∈ h.commits) : h.Counts any r := by
  obtain ⟨w, hm, hr, ht⟩ := hw
  refine ⟨w, hm, hr, ?_⟩
  rcases ht with ha | rfl
  · exact .inl ha
  · exact hc

/-- One history goes on where another one ends. -/
structure Le (h h' : History) : Prop where
  writes : ∀ w ∈ h.writes, w ∈ h'.writes
  commits : ∀ t ∈ h.commits, t ∈ h'.commits

theorem Le.refl (h : History) : Le h h := ⟨fun _ hw => hw, fun _ ht => ht⟩

theorem WroteBy.mono {txnId : UInt32} {r : DataRecord} (hw : h.WroteBy any txnId r) (hle : Le h h') :
    h'.WroteBy any txnId r := by
  obtain ⟨w, hm, hr⟩ := hw
  exact ⟨w, hle.writes w hm, hr⟩

theorem Counts.mono {r : DataRecord} (hc : h.Counts any r) (hle : Le h h') : h'.Counts any r := by
  obtain ⟨w, hm, hr, ht⟩ := hc
  exact ⟨w, hle.writes w hm, hr, ht.imp id (Or.imp id (hle.commits _))⟩

theorem HasVersion.mono {e : Entry} (hv : h.HasVersion any e) (hle : Le h h') :
    h'.HasVersion any e := by
  obtain ⟨r, hr, he⟩ := hv
  exact ⟨r, hr.mono hle, he⟩

end History

/-! ## The invariant -/

section

variable (any : Bool) (h : History)

/-- The log holds written records. Those it does not hold any more lie below the LSN the superblock
says was checkpointed. -/
structure LogFrom (w : WalWriter) (walLsn : Nat) (rs : List WalRecord) : Prop where
  logs : Logs w rs
  logged : ∀ r ∈ rs, r.isData = true → h.WroteBy any r.txnId (logRecord r)
  commits : ∀ r ∈ rs, r.op = .kTxnCommit → r.txnId ∈ h.commits
  covered : ∀ w' ∈ h.writes, w'.record.lsn ≤ walLsn ∨ ∃ r ∈ rs, w'.record.lsn ≤ r.lsn
  walLsn_le : walLsn ≤ w.maxLsn

/-- The entries of a memtable were written, and the durable ones count. -/
def MemFrom (mt : MemTable) : Prop :=
  ∀ key e, mt.find? key = some e → h.WroteBy any e.txnId (memRecord key e) ∧
    (e.durable = true → h.Counts any (memRecord key e))

/-- The entries of a memtable count. -/
def MemCounts (mt : MemTable) : Prop :=
  ∀ key e, mt.find? key = some e → h.Counts any (memRecord key e)

/-- The versions in the chains count. -/
def ChainsFrom (v : VersionChainStore) : Prop :=
  ∀ key n, n ∈ v.mergedChain key → h.HasVersion any (key, n.lsn)

/-- What lies below the memtables counts. -/
structure TiersFrom (d : DataFile) (committed : SortedMap Key (Value × Nat)) (t : PagedBTree)
    (v : VersionChainStore) (ds : List DataRecord) : Prop where
  stores : Stores d ds
  data : ∀ r ∈ ds, h.Counts any r
  committed : ∀ key x, committed.find? key = some x → h.Counts any ⟨x.2, key, x.1, false⟩
  btree : SoundTree (h.HasVersion any) t
  chains : ChainsFrom any h v

structure Inv (s : ShardEngine) (rs : List WalRecord) (ds : List DataRecord) : Prop where
  log : LogFrom any h s.wal s.superblock.walLsn rs
  inRange : ∀ w ∈ h.writes, w.record.InRange
  ordered : h.writes.Pairwise (·.record.lsn < ·.record.lsn)
  memtable : MemFrom any h s.memtable
  immutable : MemFrom any h s.immutable
  flushing : MemFrom any h s.flushing
  tiers : TiersFrom any h s.datafile s.committed s.btree s.vcs ds
  didx : ∀ ix, s.didx = some ix → Leads ix ds
  vidx : ∀ v, s.vidx = some v → ChainsFrom any h v
  root : kPageFileHeaderSize ≤ s.superblock.activeRoot → kPageSize ∣ s.superblock.activeRoot
  sb : s.sb.walLsn = s.superblock.walLsn

end

variable {any : Bool} {h h' : History} {s s' : ShardEngine} {rs : List WalRecord}
  {ds : List DataRecord}

theorem memFrom_empty : MemFrom any h SortedMap.empty := by
  intro key e he
  rw [SortedMap.find?_empty] at he
  cases he

theorem MemFrom.mono {mt : MemTable} (hm : MemFrom any h mt) (hle : History.Le h h') :
    MemFrom any h' mt := fun key e he =>
  ⟨(hm key e he).1.mono hle, fun hd => ((hm key e he).2 hd).mono hle⟩

theorem MemFrom.insert {mt : MemTable} (hm : MemFrom any h mt) {key : Key} {e : MemTableEntry}
    (hw : h.WroteBy any e.txnId (memRecord key e))
    (hd : e.durable = true → h.Counts any (memRecord key e)) : MemFrom any h (mt.insert key e) := by
  intro key' e' he
  rw [SortedMap.find?_insert] at he
  split at he
  · rename_i hkey
    cases he
    exact hkey ▸ ⟨hw, hd⟩
  · exact hm key' e' he

theorem MemFrom.promoteTxn {mt : MemTable} (hm : MemFrom any h mt) {txnId : UInt32}
    (ht : txnId ∈ h.commits) : MemFrom any h (MemTable.promoteTxn mt txnId) := by
  unfold MemTable.promoteTxn
  split
  · exact hm
  intro key e he
  rw [SortedMap.find?_mapValues] at he
  obtain ⟨e', he', rfl⟩ := Option.map_eq_some_iff.1 he
  obtain ⟨hw, hd⟩ := hm key e' he'
  split
  · rename_i heq
    exact ⟨hw, fun _ => hw.counts (.inr (.inr (heq ▸ ht)))⟩
  · exact ⟨hw, hd⟩

theorem MemFrom.clearTxn {mt : MemTable} (hm : MemFrom any h mt) (txnId : UInt32) :
    MemFrom any h (MemTable.clearTxn mt txnId) := by
  unfold MemTable.clearTxn
  split
  · exact hm
  intro key e he
  rw [SortedMap.find?_filterValues] at he
  exact hm key e (Option.filter_eq_some_iff.1 he).1

theorem ChainsFrom.mono {v : VersionChainStore} (hv : ChainsFrom any h v)
    (hle : History.Le h h') : ChainsFrom any h' v := fun key n hn => (hv key n hn).mono hle

theorem ChainsFrom.append {v v' : VersionChainStore} (hv : ChainsFrom any h v) {key : Key}
    {lsn prevLsn : Nat} {st : Except Status Unit} (ha : v.append key lsn prevLsn = (v', st))
    (hl : h.HasVersion any (key, lsn)) : ChainsFrom any h v' := by
  intro key' n hn
  rcases VersionChainStore.mem_append ha hn with hn | ⟨rfl, hlsn⟩
  · exact hv key' n hn
  · rw [hlsn]
    exact hl

/-! ## The log -/

namespace LogFrom

variable {w : WalWriter} {walLsn : Nat}

theorem fsync (hl : LogFrom any h w walLsn rs) : LogFrom any h w.fsync walLsn rs :=
  ⟨hl.logs.fsync, hl.logged, hl.commits, hl.covered, hl.walLsn_le⟩

theorem mono (hl : LogFrom any h w walLsn rs) (hle : History.Le h h')
    (hcov : ∀ w' ∈ h'.writes, w'.record.lsn ≤ walLsn ∨ ∃ r ∈ rs, w'.record.lsn ≤ r.lsn) :
    LogFrom any h' w walLsn rs where
  logs := hl.logs
  logged r hr hd := (hl.logged r hr hd).mono hle
  commits r hr hc := hle.commits _ (hl.commits r hr hc)
  covered := hcov
  walLsn_le := hl.walLsn_le

/-- **An append**: the history has the record, and nothing else that is not covered. -/
theorem append (hl : LogFrom any h w walLsn rs) (hle : History.Le h h') {w' : WalWriter}
    {r : WalRecord} (hlogs : Logs w' (rs ++ [r])) (hmax : w.maxLsn ≤ w'.maxLsn)
    (hdata : r.isData = true → h'.WroteBy any r.txnId (logRecord r))
    (hcommit : r.op = .kTxnCommit → r.txnId ∈ h'.commits)
    (hnew : ∀ x ∈ h'.writes, x ∈ h.writes ∨ x.record.lsn ≤ r.lsn) :
    LogFrom any h' w' walLsn (rs ++ [r]) where
  logs := hlogs
  logged r' hr' hd := by
    rcases List.mem_append.1 hr' with hr' | hr'
    · exact (hl.logged r' hr' hd).mono hle
    · rw [List.mem_singleton.1 hr'] at hd ⊢
      exact hdata hd
  commits r' hr' hc := by
    rcases List.mem_append.1 hr' with hr' | hr'
    · exact hle.commits _ (hl.commits r' hr' hc)
    · rw [List.mem_singleton.1 hr'] at hc ⊢
      exact hcommit hc
  covered x hx := by
    rcases hnew x hx with hx | hlsn
    · exact (hl.covered x hx).imp id fun ⟨r', hr', hle'⟩ => ⟨r', List.mem_append_left _ hr', hle'⟩
    · exact .inr ⟨r, List.mem_append_right _ (List.mem_singleton_self r), hlsn⟩
  walLsn_le := Nat.le_trans hl.walLsn_le hmax

/-- A record too large for its header. -/
theorem tooLarge (hl : LogFrom any h w walLsn rs) {w' : WalWriter} (hlogs : Logs w' rs)
    (hmax : w.maxLsn ≤ w'.maxLsn) : LogFrom any h w' walLsn rs :=
  ⟨hlogs, hl.logged, hl.commits, hl.covered, Nat.le_trans hl.walLsn_le hmax⟩

/-- A replay of the log brings in nothing that was not written. -/
theorem replayPending (hl : LogFrom any h w walLsn rs) {mt : MemTable} (hm : MemFrom any h mt)
    (afterLsn : Nat) : MemFrom any h (Wal.replayPending w.file mt afterLsn) := by
  intro key e he
  rw [hl.logs.file_eq] at he
  rcases mem_replayPending hl.logs.fits he with he | ⟨r, hr, hd, rfl, -, durable, rfl, hdur⟩
  · exact hm key e he
  · rw [memRecord_entryOf]
    have hw := hl.logged r hr hd
    refine ⟨hw, fun hdt => hw.counts ?_⟩
    rcases hdur hdt with h0 | ⟨c, hc, hop, ht⟩
    · exact .inr (.inl h0)
    · exact .inr (.inr (ht ▸ hl.commits c hc hop))

/-- Every written record lies below the counter. -/
theorem bound (hl : LogFrom any h w walLsn rs) {w' : Write} (hw : w' ∈ h.writes) :
    w'.record.lsn ≤ w.maxLsn := by
  rcases hl.covered w' hw with hle | ⟨r, hr, hle⟩
  · exact Nat.le_trans hle hl.walLsn_le
  · exact Nat.le_trans hle (hl.logs.le_max r hr)

end LogFrom

/-! ## Writes and transaction control -/

/-- The entry a write makes. -/
def written (r : WriteRequest) (lsn : Nat) : MemTableEntry :=
  ⟨if r.isDelete then [] else r.value, lsn, r.isDelete, r.txnId, decide (r.txnId = 0)⟩

theorem apply_eq (r : WriteRequest) (mt : MemTable) (lsn : Nat) :
    r.apply mt lsn = mt.insert r.key (written r lsn) := by
  unfold WriteRequest.apply written MemTable.put MemTable.deleteKey
  cases r.isDelete <;> rfl

theorem memRecord_written (r : WriteRequest) (lsn : Nat) :
    memRecord r.key (written r lsn) = r.record lsn := by
  unfold memRecord written WriteRequest.record
  cases r.isDelete <;> rfl

namespace Inv

theorem refreshRecoveryState (hi : Inv any h s rs ds) : Inv any h s.refreshRecoveryState rs ds :=
  { hi with }

theorem withMemtable (hi : Inv any h s rs ds) {mt : MemTable} (hm : MemFrom any h mt) :
    Inv any h { s with memtable := mt } rs ds := { hi with memtable := hm }

theorem ensureWalReplayed (hi : Inv any h s rs ds) : Inv any h s.ensureWalReplayed rs ds := by
  unfold ShardEngine.ensureWalReplayed
  split
  · refine refreshRecoveryState ?_
    exact { hi with memtable := hi.log.replayPending hi.memtable _ }
  · exact hi

/-- The log goes on, and the history with it. -/
theorem withWal (hi : Inv any h s rs ds) (hle : History.Le h h') {w : WalWriter}
    {rs' : List WalRecord} (hl : LogFrom any h' w s.superblock.walLsn rs')
    (hin : ∀ x ∈ h'.writes, x ∈ h.writes ∨ x.record.InRange)
    (hord : h'.writes.Pairwise (·.record.lsn < ·.record.lsn)) :
    Inv any h' { s with wal := w } rs' ds where
  log := hl
  inRange x hx := (hin x hx).elim (hi.inRange x) id
  ordered := hord
  memtable := hi.memtable.mono hle
  immutable := hi.immutable.mono hle
  flushing := hi.flushing.mono hle
  tiers :=
    { stores := hi.tiers.stores
      data := fun r hr => (hi.tiers.data r hr).mono hle
      committed := fun key x hx => (hi.tiers.committed key x hx).mono hle
      btree := hi.tiers.btree.mono fun _ hv => hv.mono hle
      chains := hi.tiers.chains.mono hle }
  didx := hi.didx
  vidx v hv := (hi.vidx v hv).mono hle
  root := hi.root
  sb := hi.sb

theorem groupCommitNow (hi : Inv any h s rs ds) : Inv any h s.groupCommitNow rs ds := by
  unfold ShardEngine.groupCommitNow
  split
  · exact hi
  · exact { hi with log := hi.log.fsync }

theorem acknowledge (hi : Inv any h s rs ds) (lsn : Nat) : Inv any h (s.acknowledge lsn) rs ds := by
  have hgroup : ∀ g, Inv any h { s with groupCommit := g } rs ds := fun g => { hi with }
  have hsync : ∀ n, Inv any h { s with wal := s.wal.fsync, stableLsn := n } rs ds := fun n =>
    { hi with log := hi.log.fsync }
  unfold ShardEngine.acknowledge
  split
  · exact hsync _
  split
  · exact hsync _
  split
  · simp only
    split
    · exact (hgroup _).groupCommitNow
    · exact hgroup _
  · exact hi

/-- **A write** is one more record of the history. The log must know its transaction. -/
theorem write (hi : Inv any h s rs ds) (hn : s.wal.maxLsn + 1 < kWalMagicV2) (r : WriteRequest)
    (htxn : any = true ∨ r.txnId = 0 ∨ s.opts.logsTxn = true) :
    ∃ rs', Inv any (h.after s (.write r)) (s.write r).1 rs' ds := by
  have hi1 := hi.ensureWalReplayed
  have hwal : s.ensureWalReplayed.wal = s.wal := by
    obtain ⟨_, _, he⟩ := ensureWalReplayed_eq s
    rw [he]
  rcases write_cases s r with ⟨hkey, hw⟩ | ⟨hkey, ⟨w, e, ha, hw⟩ | ⟨w, lsn, ha, hw⟩⟩
  · have hafter : h.after s (.write r) = h := by simp [History.after, ShardEngine.wrote, hkey]
    rw [hw, hafter]
    exact ⟨rs, hi⟩
  · -- refused, or too large
    have hafter : h.after s (.write r) = h := by simp [History.after, ShardEngine.wrote, hkey, ha]
    rw [hw, hafter]
    by_cases hb : (r.item s.opts.logsTxn).InBounds
    · obtain ⟨w', ha', -⟩ := hi.log.logs.append hb hn
      cases ha.symm.trans ha'
    · obtain ⟨w', e', ha', hm, hlogs⟩ := hi.log.logs.append_tooLarge hb hn
      cases ha.symm.trans ha'
      refine ⟨rs, hi1.withWal (History.Le.refl h) (hi1.log.tooLarge hlogs ?_)
        (fun x hx => .inl hx) hi.ordered⟩
      rw [hwal, hm]
      exact Nat.le_succ _
  · by_cases hb : (r.item s.opts.logsTxn).InBounds
    · obtain ⟨w', ha', hm, hlogs⟩ := hi.log.logs.append hb hn
      cases ha.symm.trans ha'
      have hafter : h.after s (.write r)
          = { h with writes := h.writes ++ [⟨r.txnId, r.record (s.wal.maxLsn + 1)⟩] } := by
        simp [History.after, ShardEngine.wrote, hkey, ha]
      rw [hw, hafter]
      generalize hh' : ({ h with writes := h.writes ++
        [⟨r.txnId, r.record (s.wal.maxLsn + 1)⟩] } : History) = h'
      have hle : History.Le h h' := by
        rw [← hh']
        exact ⟨fun w hw => List.mem_append_left _ hw, fun t ht => ht⟩
      have hnew : ⟨r.txnId, r.record (s.wal.maxLsn + 1)⟩ ∈ h'.writes := by
        rw [← hh']
        exact List.mem_append_right _ (List.mem_singleton_self _)
      have hrec : logRecord ((r.item s.opts.logsTxn).record (s.wal.maxLsn + 1))
          = r.record (s.wal.maxLsn + 1) := by
        cases hd : r.isDelete <;>
          simp [logRecord, WriteRequest.item, WalWriter.Item.record, WriteRequest.record, hd]
      have hlog : LogFrom any h' w s.ensureWalReplayed.superblock.walLsn
          (rs ++ [(r.item s.opts.logsTxn).record (s.wal.maxLsn + 1)]) := by
        refine hi1.log.append hle hlogs (by rw [hwal, hm]; exact Nat.le_succ _) (fun _ => ?_)
          (fun hc => ?_) fun x hx => ?_
        · refine ⟨_, hnew, hrec.symm, htxn.imp id fun ht => ?_⟩
          simp only [WriteRequest.item, WalWriter.Item.record]
          rcases ht with ht | ht
          · simp [ht]
          · simp [ht]
        · cases hd : r.isDelete <;>
            simp [WriteRequest.item, WalWriter.Item.record, hd] at hc
        · rw [← hh'] at hx
          rcases List.mem_append.1 hx with hx | hx
          · exact .inl hx
          · rw [List.mem_singleton.1 hx]
            exact .inr (Nat.le_refl _)
      have hin : ∀ x ∈ h'.writes, x ∈ h.writes ∨ x.record.InRange := by
        intro x hx
        rw [← hh'] at hx
        rcases List.mem_append.1 hx with hx | hx
        · exact .inl hx
        · rw [List.mem_singleton.1 hx]
          have hlsn : s.wal.maxLsn + 1 < 2 ^ 64 := Nat.lt_trans hn (by decide)
          exact .inr ⟨hlsn, hb.1, hb.2⟩
      have hord : h'.writes.Pairwise (·.record.lsn < ·.record.lsn) := by
        rw [← hh']
        refine List.pairwise_append.2 ⟨hi.ordered, List.pairwise_singleton _ _, fun a ha b hb => ?_⟩
        rw [List.mem_singleton.1 hb]
        exact Nat.lt_succ_of_le (hi.log.bound ha)
      have hi2 := hi1.withWal hle hlog hin hord
      refine ⟨_, (hi2.withMemtable ?_).acknowledge _⟩
      rw [apply_eq]
      refine hi2.memtable.insert ⟨_, hnew, ?_, .inr rfl⟩ fun hd => ⟨_, hnew, ?_, .inr (.inl ?_)⟩
      · rw [memRecord_written]
      · rw [memRecord_written]
      · simpa [written] using hd
    · obtain ⟨w', e', ha', -⟩ := hi.log.logs.append_tooLarge hb hn
      cases ha.symm.trans ha'

/-- A record that carries no data, for a transaction the history knows to be committed if the
record says so. -/
theorem appendTxnControl (hi : Inv any h s rs ds) (hn : s.wal.maxLsn + 1 < kWalMagicV2)
    (hle : History.Le h h') (hw : h'.writes = h.writes) (op : WalOp) (txnId : UInt32)
    (metaLsn : UInt64) (hdata : op ≠ .kPut ∧ op ≠ .kDelete)
    (hc : op = .kTxnCommit → txnId ∈ h'.commits) :
    ∃ rs', Inv any h'
      { s with wal := (s.wal.append (WalWriter.txnControl op txnId metaLsn)).1 } rs' ds := by
  have hb : (WalWriter.txnControl op txnId metaLsn).InBounds := by
    simp [WalWriter.Item.InBounds, WalWriter.txnControl]
  obtain ⟨w, ha, hm, hlogs⟩ := hi.log.logs.append hb hn
  rw [ha]
  refine ⟨_, hi.withWal hle (hi.log.append hle hlogs (by rw [hm]; exact Nat.le_succ _)
    (fun hd => ?_) hc fun x hx => .inl (hw ▸ hx)) (fun x hx => .inl (hw ▸ hx)) (hw ▸ hi.ordered)⟩
  obtain ⟨h1, h2⟩ := hdata
  cases op <;> simp_all [WalRecord.isData, WalWriter.Item.record, WalWriter.txnControl]

theorem appendTxnCommit (hi : Inv any h s rs ds) (hn : s.wal.maxLsn + 1 < kWalMagicV2)
    (txnId : UInt32) :
    ∃ rs', Inv any (h.after s (.appendTxnCommit txnId)) (s.appendTxnCommit txnId) rs' ds := by
  have hle : History.Le h (h.after s (.appendTxnCommit txnId)) :=
    ⟨fun w hw => hw, fun t ht => List.mem_append_left _ ht⟩
  obtain ⟨rs', hi'⟩ := hi.appendTxnControl hn hle rfl .kTxnCommit txnId 0
    (by decide) fun _ => List.mem_append_right _ (List.mem_singleton_self _)
  exact ⟨rs', { hi' with log := hi'.log.fsync }⟩

theorem promoteTxn (hi : Inv any h s rs ds) {txnId : UInt32} (ht : txnId ∈ h.commits) :
    Inv any h (s.promoteTxn txnId) rs ds :=
  { hi with
    memtable := hi.memtable.promoteTxn ht
    immutable := hi.immutable.promoteTxn ht
    flushing := hi.flushing.promoteTxn ht }

theorem clearTxn (hi : Inv any h s rs ds) (txnId : UInt32) : Inv any h (s.clearTxn txnId) rs ds :=
  { hi with
    memtable := hi.memtable.clearTxn txnId
    immutable := hi.immutable.clearTxn txnId
    flushing := hi.flushing.clearTxn txnId }

/-! ## Flushing -/

/-- **Flushing an entry** that counts. -/
theorem flushEntry (hi : Inv any h s rs ds) {key : Key} {e : MemTableEntry}
    (hc : h.Counts any (memRecord key e)) {st : Except Status Unit}
    (hf : s.flushEntry key e = some (s', st)) :
    Inv any h s' rs (ds ++ [memRecord key e]) := by
  obtain ⟨prevLsn, vcs, ha, rfl⟩ := flushEntry_cases hf
  have hv : h.HasVersion any (key, e.lsn) := ⟨_, hc, rfl, rfl⟩
  have hin : (memRecord key e).InRange := by
    obtain ⟨w, hw, hr, -⟩ := hc
    exact hr ▸ hi.inRange w hw
  have hdata : ∀ r ∈ ds ++ [memRecord key e], h.Counts any r := by
    intro r hr
    rcases List.mem_append.1 hr with hr | hr
    · exact hi.tiers.data r hr
    · exact List.mem_singleton.1 hr ▸ hc
  have hcommitted : ∀ key' x, (s.afterEntry key e vcs 0).committed.find? key' = some x →
      h.Counts any ⟨x.2, key', x.1, false⟩ := by
    intro key' x hx
    simp only [afterEntry] at hx
    split at hx
    · rw [SortedMap.find?_erase] at hx
      split at hx
      · cases hx
      · exact hi.tiers.committed key' x hx
    · rename_i hd
      rw [SortedMap.find?_insert] at hx
      split at hx
      · rename_i hkey
        cases hx
        simpa [memRecord, hd, hkey] using hc
      · exact hi.tiers.committed key' x hx
  have hbtree : SoundTree (h.HasVersion any) (s.afterEntry key e vcs 0).btree := by
    simp only [afterEntry]
    split
    · exact hi.tiers.btree.deleteKey key e.lsn
    · exact hi.tiers.btree.put hv
  exact
    { hi with
      tiers := ⟨hi.tiers.stores.append hin, hdata, hcommitted, hbtree, hi.tiers.chains.append ha hv⟩
      didx := fun ix hix => (hi.didx ix hix).append _ }

theorem flushInternal (hi : Inv any h s rs ds) (hc : MemCounts any h s.flushing) {ord : IterOrder}
    {st : Except Status Unit} (hf : s.flushInternal ord = some (s', st)) :
    ∃ ds', Inv any h s' rs ds' := by
  obtain ⟨s1, hes, rfl⟩ := flushInternal_cases hf
  have hsync : Inv any h { s with wal := s.wal.fsync } rs ds := { hi with log := hi.log.fsync }
  obtain ⟨ds', hi1⟩ : ∃ ds', Inv any h s1 rs ds' := by
    refine flushEntries_induction (P := fun s => ∃ ds', Inv any h s rs ds') ?_ ⟨ds, hsync⟩ hes
    intro s2 s3 key e st' hm ⟨ds', hi2⟩ hfe
    have hmem := ((ord.perm _).mem_iff).1 hm
    exact ⟨_, hi2.flushEntry (hc key e (SortedMap.mem_entries_iff.1 hmem)) hfe⟩
  refine ⟨ds', ?_⟩
  split
  · exact { hi1 with flushing := memFrom_empty }
  · exact hi1

theorem rotateMemTableForFlush (hi : Inv any h s rs ds) :
    Inv any h s.rotateMemTableForFlush rs ds :=
  { hi with memtable := hi.immutable, immutable := hi.flushing, flushing := hi.memtable }

/-- **A flush** writes out what the memtable holds once the log is replayed. -/
theorem flush (hi : Inv any h s rs ds) (hc : MemCounts any h s.ensureWalReplayed.memtable)
    {ord : IterOrder} {st : Except Status Unit} (hf : s.flush ord = some (s', st)) :
    ∃ ds', Inv any h s' rs ds' :=
  hi.ensureWalReplayed.rotateMemTableForFlush.flushInternal hc hf

/-! ## Checkpoints -/

theorem foldWalToVcs (hi : Inv any h s rs ds) : Inv any h s.foldWalToVcs.1 rs ds := by
  obtain ⟨vcs, he, hv⟩ := foldWalToVcs_eq s
  have hchains : ChainsFrom any h vcs := by
    rcases hv with rfl | rfl
    · exact hi.tiers.chains
    refine foldInto_induction (P := ChainsFrom any h) ?_ hi.tiers.chains
    intro v v' f prevLsn st hm hfrom ha
    rw [foldRecords_eq hi.log.logs] at hm
    obtain ⟨r, hr, rfl⟩ := List.mem_map.1 hm
    obtain ⟨hrs, hdata, htxn⟩ := mem_foldable.1 hr
    have hw := hi.log.logged r (List.mem_filter.1 hrs).1 hdata
    refine hfrom.append ha ⟨_, hw.counts (.inr (htxn.imp id ?_)), rfl, rfl⟩
    rintro ⟨c, hc, hop, ht⟩
    exact ht ▸ hi.log.commits c (List.mem_filter.1 hc).1 hop
  rw [he]
  exact { hi with tiers := { hi.tiers with chains := hchains } }

/-- The superblock says that everything up to the counter is checkpointed. -/
theorem commitSuperBlock (hi : Inv any h s rs ds) {sb : SuperBlock}
    (hw : sb.walLsn = s.superblock.walLsn ∨ sb.walLsn = s.wal.maxLsn)
    (hr : kPageFileHeaderSize ≤ sb.activeRoot → kPageSize ∣ sb.activeRoot) :
    Inv any h (s.commitSuperBlock sb) rs ds := by
  have hlog : LogFrom any h s.wal sb.walLsn rs := by
    rcases hw with he | he
    · exact he ▸ hi.log
    · exact
        { hi.log with
          covered := fun w hw => .inl (he ▸ hi.log.bound hw)
          walLsn_le := Nat.le_of_eq he }
  exact { hi with log := hlog, root := hr, sb := rfl }

theorem writable_committedLsns (hi : Inv any h s rs ds) : Writable s.committedLsns := by
  intro e he
  obtain ⟨x, hx, hlsn⟩ := Option.map_eq_some_iff.1
    ((SortedMap.find?_mapValues s.committed _ e.1).symm.trans (SortedMap.mem_entries_iff.1 he))
  obtain ⟨w, hw, hr, -⟩ := hi.tiers.committed e.1 x hx
  have hin := hr ▸ hi.inRange w hw
  have := hin.key_le
  refine ⟨by simp only at this; omega, ?_⟩
  rw [← hlsn]
  exact hin.lsn_lt

theorem hasVersion_committedLsns (hi : Inv any h s rs ds) :
    ∀ key lsn, s.committedLsns.find? key = some lsn → h.HasVersion any (key, lsn) := by
  intro key lsn he
  obtain ⟨x, hx, rfl⟩ := Option.map_eq_some_iff.1
    ((SortedMap.find?_mapValues s.committed _ key).symm.trans he)
  exact ⟨_, hi.tiers.committed key x hx, rfl, rfl⟩

theorem withBTree (hi : Inv any h s rs ds) {t : PagedBTree} (ht : SoundTree (h.HasVersion any) t) :
    Inv any h { s with btree := t } rs ds := { hi with tiers := { hi.tiers with btree := ht } }

theorem commitSuperBlockInternal (hi : Inv any h s rs ds) {st : Except Status Unit}
    (hc : s.commitSuperBlockInternal = some (s', st)) :
    Inv any h s' rs ds ∧ s'.wal = s.wal ∧
      (st = .ok () → if s.lazyRootCorrupt then s'.sb.walLsn = s.superblock.walLsn
        else s'.sb.walLsn = s.wal.maxLsn) := by
  rcases commitSuperBlockInternal_cases hc with ⟨hcor, -, rfl⟩ | ⟨hcor, btree, pst, hp, hrest⟩
  · rw [hcor, if_pos rfl]
    exact ⟨hi.commitSuperBlock (.inl rfl) fun hle =>
      absurd (show kPageFileHeaderSize ≤ 0 from hle) (by decide), rfl, fun _ => rfl⟩
  · rw [hcor, if_neg Bool.false_ne_true]
    have htree := (hi.tiers.btree.rebuildSummaryFromCommitted s.committedLsns).ensureSummaryLsnAtLeast
      s.stableLsn
    obtain ⟨hbt, hroot⟩ := htree.persistRootFromMap hi.writable_committedLsns
      (fun e he => hi.hasVersion_committedLsns e.1 e.2 (SortedMap.mem_entries_iff.1 he)) hp
    rcases hrest with ⟨e, -, rfl, rfl⟩ | ⟨root, rfl, ⟨e, hl, rfl, rfl⟩ | ⟨hl, rfl, rfl⟩⟩
    · exact ⟨hi.withBTree hbt, rfl, fun h => by cases h⟩
    · exact ⟨hi.withBTree (hbt.loadRoot (hroot root rfl)), rfl, fun h => by cases h⟩
    · have hload := (hbt.loadRoot (hroot root rfl)).ensureSummaryLsnAtLeast s.stableLsn
      exact ⟨(hi.withBTree hload).commitSuperBlock (.inr rfl) (hroot root rfl), rfl, fun _ => rfl⟩

theorem saveSidecars (hi : Inv any h s rs ds) : Inv any h s.saveSidecars rs ds := by
  have hchains : ChainsFrom any h s.saveSidecars.vcs := by
    simp only [ShardEngine.saveSidecars]
    split
    · intro key n hn
      obtain ⟨m, hm, hlsn⟩ := VersionChainStore.mem_compactBelow hn
      exact hlsn ▸ hi.tiers.chains key m hm
    · exact hi.tiers.chains
  refine { hi with tiers := { hi.tiers with chains := hchains }, didx := ?_, vidx := ?_ }
  · intro ix hix
    cases hix
    exact hi.tiers.stores.leads
  · intro v hv
    cases hv
    exact hi.tiers.chains

/-- **The log is truncated** to what the superblock says, if that is all of it. -/
theorem truncateWal (hi : Inv any h s rs ds)
    (hall : s.sb.walLsn = 0 ∨ ∀ r ∈ rs, r.lsn ≤ s.sb.walLsn) :
    ∃ rs', Inv any h s.truncateWal rs' ds := by
  unfold ShardEngine.truncateWal
  split
  · rename_i hpos
    have hall := hall.resolve_left (Nat.pos_iff_ne_zero.1 hpos)
    obtain ⟨hlogs, hmax⟩ := hi.log.logs.truncateTo hall
    have hlog : LogFrom any h (s.wal.truncateTo s.sb.walLsn) s.superblock.walLsn [] := by
      refine ⟨hlogs, by simp, by simp, fun w hw => .inl ?_, ?_⟩
      · rcases hi.log.covered w hw with hle | ⟨r, hr, hle⟩
        · exact hle
        · rw [← hi.sb]
          exact Nat.le_trans hle (hall r hr)
      · rw [hmax, hi.sb]
    exact ⟨[], refreshRecoveryState { hi with log := hlog }⟩
  · exact ⟨rs, refreshRecoveryState { hi with }⟩

theorem checkpointCommit (hi : Inv any h s rs ds)
    (hall : s.lazyRootCorrupt = true →
      s.superblock.walLsn = 0 ∨ ∀ r ∈ rs, r.lsn ≤ s.superblock.walLsn)
    {hook : CheckpointPhase → Bool} {st : Except Status Unit}
    (hc : s.checkpointCommit hook = some (s', st)) : ∃ rs', Inv any h s' rs' ds := by
  obtain ⟨s1, st1, hcs, hrest⟩ := checkpointCommit_cases hc
  obtain ⟨hi1, hwal, hsb⟩ := hi.commitSuperBlockInternal hcs
  rcases hrest with ⟨e, -, rfl⟩ | ⟨rfl, rfl | rfl⟩
  · exact ⟨rs, hi1⟩
  · exact ⟨rs, hi1.saveSidecars⟩
  · refine hi1.saveSidecars.truncateWal ?_
    have hsb := hsb rfl
    show s1.sb.walLsn = 0 ∨ ∀ r ∈ rs, r.lsn ≤ s1.sb.walLsn
    split at hsb
    · rename_i hcor
      rw [hsb]
      exact hall hcor
    · rw [hsb]
      exact .inr hi.log.logs.le_max

/-- **A checkpoint** keeps to what was written, if its flush does and it truncates the whole log. -/
theorem checkpoint (hi : Inv any h s rs ds)
    (hc : MemCounts any h s.ensureWalReplayed.memtable) (ht : s.TruncatesAll) {ord : IterOrder}
    {hook : CheckpointPhase → Bool} {st : Except Status Unit}
    (hcp : s.checkpoint ord hook = some (s', st)) : ∃ rs' ds', Inv any h s' rs' ds' := by
  have hi0 : Inv any h s.beforeFlush rs ds := by
    unfold beforeFlush
    split
    · exact hi.ensureWalReplayed.groupCommitNow
    · exact hi.ensureWalReplayed
  obtain ⟨hmem, hfile, hsb, hcor⟩ := beforeFlush_frame s
  obtain ⟨s1, st1, hflush, hrest⟩ := checkpoint_cases hcp
  obtain ⟨ds', hi1⟩ := hi0.rotateMemTableForFlush.flushInternal (show MemCounts any h
    s.beforeFlush.memtable from hmem ▸ hc) hflush
  have hi2 := hi1.foldWalToVcs
  rcases hrest with rfl | rfl | ⟨stc, hcommit⟩
  · exact ⟨rs, ds', hi1⟩
  · exact ⟨rs, ds', hi2⟩
  · obtain ⟨vcs, hfold, -⟩ := foldWalToVcs_eq s1
    have hframe := flushInternal_frame hflush
    have hall : s1.foldWalToVcs.1.lazyRootCorrupt = true →
        s1.foldWalToVcs.1.superblock.walLsn = 0 ∨
          ∀ r ∈ rs, r.lsn ≤ s1.foldWalToVcs.1.superblock.walLsn := by
      rw [hfold, hframe]
      show s.beforeFlush.lazyRootCorrupt = true → s.beforeFlush.superblock.walLsn = 0 ∨
        ∀ r ∈ rs, r.lsn ≤ s.beforeFlush.superblock.walLsn
      rw [hsb, hcor]
      refine fun hc => (ht hc).imp id fun hscan r hr => ?_
      rw [hi.log.logs.file_eq, scanWalV2Sparse_after hi.log.logs.fits,
        List.filter_eq_nil_iff] at hscan
      simpa using hscan r hr
    obtain ⟨rs', hi3⟩ := hi2.checkpointCommit hall hcommit
    exact ⟨rs', ds', hi3⟩

/-! ## Reading -/

theorem repairSummary (hi : Inv any h s rs ds) : Inv any h s.repairSummary rs ds := by
  refine hi.withBTree (SoundTree.ensureSummaryLsnAtLeast ?_ _)
  split
  · exact hi.tiers.btree.rebuildSummaryFromCommitted _
  · exact hi.tiers.btree.loadFromMap hi.hasVersion_committedLsns

theorem beforeScan (hi : Inv any h s rs ds) : Inv any h s.beforeScan rs ds := by
  unfold ShardEngine.beforeScan
  split
  · exact hi.ensureWalReplayed.refreshRecoveryState
  · exact hi

theorem prepareSnapshotRead (hi : Inv any h s rs ds) (snapshotLsn : Nat) :
    Inv any h (s.prepareSnapshotRead snapshotLsn) rs ds := by
  show Inv any h (if 0 < snapshotLsn ∧ s.beforeScan.btree.summary.summaryLsn < snapshotLsn
    then s.beforeScan.repairSummary else s.beforeScan) rs ds
  split
  · exact hi.beforeScan.repairSummary
  · exact hi.beforeScan

theorem refreshed (hi : Inv any h s rs ds) (hr : Refreshed s s') : Inv any h s' rs ds := by
  rcases hr with rfl | rfl | rfl | rfl
  · exact hi
  · exact hi.repairSummary
  · exact hi.beforeScan
  · exact hi.repairSummary.beforeScan

theorem refreshExternalWalIfPending (hi : Inv any h s rs ds) :
    Inv any h s.refreshExternalWalIfPending rs ds := by
  have hsync : s.wal.syncExternalTailLocked = s.wal := hi.log.logs.syncExternalTailLocked
  unfold ShardEngine.refreshExternalWalIfPending
  simp only [hsync]
  split
  · exact hi
  · exact ensureWalReplayed { hi with }

theorem recoverFull (hi : Inv any h s rs ds) : Inv any h s.recoverFull rs ds :=
  ensureWalReplayed { hi with }

end Inv

end EBTree.Engine
