import EBTree.Engine.Proof.Checkpoints

/-!
# A flush that is tried again

The files may be opened again when records were flushed and no superblock was committed over them.
The log then brings these records back.

* `Fresh`: what is opened has no frozen memtables and no pins.
* `flushEntries_lists`: a flush that succeeds lists its entries in the chains, and
  `checkpoint_keeps`: a checkpoint that follows it leaves them there.
* `Run.retries_reopened`: **when the next flush and checkpoint succeed** and leave every version of the data
  file in the chain of its key, once.
-/

set_option autoImplicit false

namespace EBTree.Engine

open Lib Wal BTree ShardEngine VersionChainStore

variable {h : History} {s s' : ShardEngine} {rs : List WalRecord} {ds : List DataRecord}

/-! ## What is opened -/

structure Fresh (s : ShardEngine) : Prop where
  immutable : s.immutable = SortedMap.empty
  flushing : s.flushing = SortedMap.empty
  pinned : s.pinnedSnapshotLsn = 0

theorem fresh_open (opts : EngineOptions) (f : ShardFiles) : Fresh (ShardEngine.open opts f) := by
  obtain ⟨state, he⟩ := open_eq opts f
  rw [he, recoverTiers_frame]
  exact ⟨rfl, rfl, rfl⟩

theorem ensureWalReplayed_pending (s : ShardEngine) :
    s.ensureWalReplayed.walReplayPending = false := by
  unfold ShardEngine.ensureWalReplayed
  split
  · rfl
  · rename_i hp
    simpa using hp

/-! ## The flush -/

/-- **A flush that succeeds** lists its entries, behind what the chains list. -/
theorem flushEntries_lists {es : List (Key × MemTableEntry)}
    (hf : s.flushEntries es = some (s', .ok ())) :
    (∀ k, ∀ n ∈ s.vcs.mergedChain k, n ∈ s'.vcs.mergedChain k) ∧
      ∀ k e, (k, e) ∈ es → ∃ n ∈ s'.vcs.mergedChain k, n.lsn = e.lsn := by
  induction es generalizing s with
  | nil =>
    cases hf
    exact ⟨fun k n hn => hn, fun k e he => absurd he List.not_mem_nil⟩
  | cons x es ih =>
    obtain ⟨key, e⟩ := x
    rw [ShardEngine.flushEntries] at hf
    cases hfe : s.flushEntry key e with
    | none =>
      rw [hfe] at hf
      cases hf
    | some y =>
      obtain ⟨s1, st1⟩ := y
      rw [hfe] at hf
      cases st1 with
      | error err => cases hf
      | ok u =>
        obtain ⟨hkeep, hlist⟩ := ih hf
        obtain ⟨prevLsn, vcs, happ, rfl⟩ := flushEntry_cases hfe
        have hchain : ∀ k, vcs.mergedChain k = if k = key then
            s.vcs.mergedChain key ++ [⟨e.lsn, prevLsn⟩] else s.vcs.mergedChain k :=
          mergedChain_append_ok happ
        refine ⟨fun k n hn => hkeep k n ?_, fun k e' he' => ?_⟩
        · change n ∈ vcs.mergedChain k
          rw [hchain]
          split
          · rename_i hk
            exact List.mem_append_left _ (hk ▸ hn)
          · exact hn
        · rcases List.mem_cons.1 he' with he' | he'
          · cases he'
            refine ⟨⟨e.lsn, prevLsn⟩, hkeep key _ ?_, rfl⟩
            change _ ∈ vcs.mergedChain key
            rw [hchain, if_pos rfl]
            exact List.mem_append_right _ (List.mem_singleton_self _)
          · exact hlist k e' he'

/-- Every record of the data file is listed in the chain of its key. -/
def Lists (v : VersionChainStore) (ds : List DataRecord) : Prop :=
  ∀ r ∈ ds, ∃ n ∈ v.mergedChain r.key, n.lsn = r.lsn

/-- Every record of the data file is listed, or is the version the log brings back. -/
def ShardEngine.Listed (s : ShardEngine) (ds : List DataRecord) : Prop :=
  ∀ r ∈ ds, (∃ n ∈ s.vcs.mergedChain r.key, n.lsn = r.lsn) ∨
    ∃ e, s.ensureWalReplayed.memtable.find? r.key = some e ∧ e.lsn = r.lsn

/-- **The flush of what was opened.** -/
theorem Fresh.flush (hfr : Fresh s) (hs : Standing h s) (hi : Inv true h s rs ds) (ord : IterOrder) :
    ∃ s1 st1, s.flush ord = some (s1, st1) ∧ (st1 = .ok () ↔ s.Flushable) ∧
      (st1 = .ok () → Fresh s1 ∧ s1.ensureWalReplayed.memtable = SortedMap.empty ∧
        (∀ key, (s1.committed.find? key).isSome = true ↔ s.LiveAfter key) ∧
        ∃ ds1, Inv true h s1 rs ds1 ∧ (s.Listed ds → Lists s1.vcs ds1)) := by
  obtain ⟨pending, state, he⟩ := ensureWalReplayed_eq s
  have hvcs : s.ensureWalReplayed.rotateMemTableForFlush.vcs = s.vcs := by rw [he]; rfl
  obtain ⟨s1, st1, hf, hok⟩ :=
    hs.ensureWalReplayed.rotate.flushInternal_ok_iff hi.ensureWalReplayed.rotateMemTableForFlush ord
  rw [hvcs] at hok
  refine ⟨s1, st1, hf, hok, ?_⟩
  rintro rfl
  have hframe := flushInternal_frame hf
  obtain ⟨s2, hes, hs1⟩ := flushInternal_cases hf
  have hempty : s1.memtable = SortedMap.empty := by
    rw [hframe, he]
    exact hfr.immutable
  have hpend : s1.walReplayPending = false := by
    rw [hframe]
    exact ensureWalReplayed_pending s
  refine ⟨⟨?_, ?_, ?_⟩, ?_, fun key => ?_, ?_⟩
  · rw [hframe, he]
    exact hfr.flushing
  · rw [hs1]
    rfl
  · rw [hframe, he]
    exact hfr.pinned
  · rw [ensureWalReplayed_of_not_pending hpend, hempty]
  · rw [committed_after hf, show s.ensureWalReplayed.rotateMemTableForFlush.committed = s.committed by
      rw [he]; rfl]
    exact Iff.rfl
  · have hir := hi.ensureWalReplayed.rotateMemTableForFlush
    obtain ⟨ds1, hi1⟩ := hir.flushInternal (Standing.memCounts hi.ensureWalReplayed) hf
    refine ⟨ds1, hi1, fun hl r hr => ?_⟩
    -- the records of the data file are those it had, and the flushed ones
    obtain ⟨done, rest, hdone, hrest, -, hdata, -⟩ := flushInternal_writes hf
    obtain rfl := hrest rfl
    rw [List.append_nil] at hdone
    rw [← hdone] at hdata
    change s1.datafile = (memRecords (ord.order s.ensureWalReplayed.memtable)).foldl DataFile.append
      s.ensureWalReplayed.rotateMemTableForFlush.datafile at hdata
    have hin : ∀ r ∈ memRecords (ord.order s.ensureWalReplayed.memtable), r.InRange := by
      intro r hr
      obtain ⟨x, hx, rfl⟩ := List.mem_map.1 hr
      exact hi.ensureWalReplayed.memRecord_inRange (mem_order.1 hx)
    have hstores := (foldl_append_load hir.tiers.stores hin).1
    rw [← hdata] at hstores
    have hds : ds1 = ds ++ memRecords (ord.order s.ensureWalReplayed.memtable) := by
      rw [← hi1.tiers.stores.loadRecords_eq, hstores.loadRecords_eq]
    obtain ⟨hkeep, hlist⟩ := flushEntries_lists hes
    have hchain : ∀ k, s1.vcs.mergedChain k = s2.vcs.mergedChain k := fun k => by
      rw [hs1]
      rfl
    rw [hchain]
    rw [hds] at hr
    rcases List.mem_append.1 hr with hr | hr
    · rcases hl r hr with ⟨n, hn, hlsn⟩ | ⟨e, hm, hlsn⟩
      · refine ⟨n, hkeep _ n ?_, hlsn⟩
        show n ∈ s.ensureWalReplayed.rotateMemTableForFlush.vcs.mergedChain r.key
        rwa [hvcs]
      · obtain ⟨n, hn, hn'⟩ := hlist r.key e (mem_order.2 hm)
        exact ⟨n, hn, hn'.trans hlsn⟩
    · obtain ⟨⟨key, e⟩, hx, rfl⟩ := List.mem_map.1 hr
      exact hlist key e hx

/-! ## The checkpoint behind it -/

theorem flushInternal_nothing {ord : IterOrder} {st : Except Status Unit}
    (hnone : s.flushing = SortedMap.empty) (hf : s.flushInternal ord = some (s', st)) :
    s'.datafile = s.datafile ∧ s'.vcs = s.vcs := by
  obtain ⟨s1, hes, rfl⟩ := flushInternal_cases hf
  have hnil : ord.order s.flushing = [] := by
    rw [hnone]
    exact List.Perm.eq_nil (ord.perm SortedMap.empty)
  rw [hnil] at hes
  cases hes
  split <;> exact ⟨rfl, rfl⟩

/-- Committing a superblock leaves the data file and the chains, unless versions are pinned. -/
theorem checkpointCommit_keeps (hpin : s.pinnedSnapshotLsn = 0) {hook : CheckpointPhase → Bool}
    {st : Except Status Unit} (hc : s.checkpointCommit hook = some (s', st)) :
    s'.datafile = s.datafile ∧ s'.vcs = s.vcs := by
  obtain ⟨s1, st1, hcs, hrest⟩ := checkpointCommit_cases hc
  have hs1 : s1.datafile = s.datafile ∧ s1.vcs = s.vcs ∧ s1.pinnedSnapshotLsn = 0 := by
    rcases commitSuperBlockInternal_cases hcs with ⟨-, -, rfl⟩ | ⟨-, btree, pst, -, hor⟩
    · exact ⟨rfl, rfl, hpin⟩
    · rcases hor with ⟨e, -, -, rfl⟩ | ⟨root, -, ⟨e, -, -, rfl⟩ | ⟨-, -, rfl⟩⟩
      · exact ⟨rfl, rfl, hpin⟩
      · exact ⟨rfl, rfl, hpin⟩
      · exact ⟨rfl, rfl, hpin⟩
  obtain ⟨hdata, hvcs, hpin1⟩ := hs1
  have hside : s1.saveSidecars.vcs = s.vcs := by
    unfold ShardEngine.saveSidecars
    simp only [hpin1, Nat.lt_irrefl, if_false, hvcs]
  rcases hrest with ⟨e, -, rfl⟩ | ⟨-, rfl | rfl⟩
  · exact ⟨hdata, hvcs⟩
  · exact ⟨hdata, hside⟩
  · exact ⟨hdata, hside⟩

/-- **A checkpoint with nothing to flush** leaves the data file as it is, and what the chains list. -/
theorem Fresh.checkpoint_keeps (hfr : Fresh s) (hmem : s.ensureWalReplayed.memtable = SortedMap.empty)
    {ord : IterOrder} {hook : CheckpointPhase → Bool} {st : Except Status Unit}
    (hc : s.checkpoint ord hook = some (s', st)) :
    s'.datafile = s.datafile ∧ ∀ k, ∀ n ∈ s.vcs.mergedChain k, n ∈ s'.vcs.mergedChain k := by
  obtain ⟨s1, st1, hflush, hrest⟩ := checkpoint_cases hc
  obtain ⟨hflushing, -, hvcs, hdata0, hpin0⟩ := rotated_beforeFlush s
  obtain ⟨hdata1, hvcs1⟩ := flushInternal_nothing (hflushing.trans hmem) hflush
  obtain ⟨vcs, hfold, hv⟩ := foldWalToVcs_eq s1
  have hkeep : ∀ k, ∀ n ∈ s.vcs.mergedChain k, n ∈ vcs.mergedChain k := by
    intro k n hn
    rw [← hvcs, ← hvcs1] at hn
    rcases hv with rfl | rfl
    · exact hn
    · refine foldInto_induction (P := fun v => n ∈ v.mergedChain k) ?_ hn
      intro v v' r prevLsn st _ hm ha
      rcases mergedChain_append ha k with he | ⟨-, he⟩
      · exact he ▸ hm
      · exact he ▸ List.mem_append_left _ hm
  rcases hrest with rfl | rfl | ⟨stc, hcommit⟩
  · rw [hvcs1, hvcs]
    exact ⟨hdata1.trans hdata0, fun k n hn => hn⟩
  · rw [hfold]
    exact ⟨hdata1.trans hdata0, hkeep⟩
  · rw [hfold] at hcommit
    have hpin : s1.pinnedSnapshotLsn = 0 := by
      rw [flushInternal_frame hflush]
      exact hpin0.trans hfr.pinned
    obtain ⟨hdata, hvcs'⟩ := @checkpointCommit_keeps { s1 with vcs := vcs } _ hpin _ _ hcommit
    rw [hvcs']
    exact ⟨hdata.trans (hdata1.trans hdata0), hkeep⟩

/-! ## Runs -/

/-- The next flush and the next checkpoint succeed, and leave every version of the data file in the
chain of its key, once. -/
def ShardEngine.Retries (s : ShardEngine) (ord ord' : IterOrder) : Prop :=
  ∃ s1 s2, s.flush ord = some (s1, .ok ()) ∧
    s1.checkpoint ord' (fun _ => false) = some (s2, .ok ()) ∧
    (∀ key, ((s2.vcs.mergedChain key).map VersionNode.lsn).Nodup) ∧
    Lists s2.vcs s2.datafile.loadRecords

/-- The memtable that the log brings back can be flushed, and a superblock committed behind it. -/
structure ShardEngine.Retryable (s : ShardEngine) : Prop where
  flushable : s.Flushable
  live : ∃ key, s.LiveAfter key
  fits : ∀ key, s.LiveAfter key → kPageHeaderSize + (2 + key.length + 8) ≤ kPageSize

/-- One value that is to be flushed, and none that is committed. -/
theorem retryable_of_one {key : Key} {e : MemTableEntry}
    (hm : s.ensureWalReplayed.memtable.entries = [(key, e)]) (hc : s.committed.entries = [])
    (hd : e.deleted = false) (hv : s.vcs.head key < e.lsn)
    (hfit : kPageHeaderSize + (2 + key.length + 8) ≤ kPageSize) : s.Retryable where
  flushable k e' he := by
    have hmem := SortedMap.mem_entries_iff.2 he
    rw [hm, List.mem_singleton] at hmem
    cases hmem
    exact hv
  live := ⟨key, (liveOver_one hm hc hd).2 rfl⟩
  fits k hk := by rwa [(liveOver_one hm hc hd).1 hk]

theorem Fresh.retries (hfr : Fresh s) (hs : Standing h s) (hi : Inv true h s rs ds)
    (ord ord' : IterOrder) :
    (s.Retries ord ord' → s.Retryable) ∧ (s.Retryable ∧ s.Listed ds → s.Retries ord ord') := by
  obtain ⟨s1, st1, hf, hok, hrest⟩ := hfr.flush hs hi ord
  -- behind the flush nothing is left to be flushed
  have hnext : st1 = .ok () → ((∃ s2, s1.checkpoint ord' (fun _ => false) = some (s2, .ok ())) ↔
      (∃ key, s.LiveAfter key) ∧
        ∀ key, s.LiveAfter key → kPageHeaderSize + (2 + key.length + 8) ≤ kPageSize) := by
    intro hst
    obtain ⟨-, hmem, hlive, ds1, hi1, -⟩ := hrest hst
    have hs1 : Standing h s1 := hs.flush (hst ▸ hf)
    have hlive1 : ∀ key, s1.LiveAfter key ↔ s.LiveAfter key := by
      intro key
      rw [← hlive key]
      unfold ShardEngine.LiveAfter LiveOver
      rw [hmem, SortedMap.find?_empty]
    rw [hs1.checkpoint_ok_iff hi1 ord']
    simp only [hlive1]
    refine and_iff_right fun key e he => ?_
    rw [hmem, SortedMap.find?_empty] at he
    cases he
  constructor
  · rintro ⟨s1', s2, hf', hc, -⟩
    cases hf.symm.trans hf'
    obtain ⟨hlive, hfits⟩ := (hnext rfl).1 ⟨s2, hc⟩
    exact ⟨hok.1 rfl, hlive, hfits⟩
  · rintro ⟨hr, hl⟩
    obtain rfl := hok.2 hr.flushable
    obtain ⟨s2, hc⟩ := (hnext rfl).2 ⟨hr.live, hr.fits⟩
    obtain ⟨hfr1, hmem, -, ds1, hi1, hlists⟩ := hrest rfl
    obtain ⟨hdata, hkeep⟩ := hfr1.checkpoint_keeps hmem hc
    have hs2 := (hs.flush hf).checkpoint hi1 hc
    refine ⟨s1, s2, hf, hc, fun key => ?_, fun r hr' => ?_⟩
    · exact List.pairwise_map.2 ((hs2.vcs.increasing key).imp Nat.ne_of_lt)
    · rw [hdata, hi1.tiers.stores.loadRecords_eq] at hr'
      obtain ⟨n, hn, hlsn⟩ := hlists hl r hr'
      exact ⟨n, hkeep _ n hn, hlsn⟩

end EBTree.Engine
