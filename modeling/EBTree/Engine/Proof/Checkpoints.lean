import EBTree.Engine.Proof.Standing

/-!
# When a checkpoint succeeds

* `flushEntries_returns`, `flushEntries_ok_iff`: a flush comes back, and succeeds if its entries are
  newer than the chains of their keys (`Flushable`).
* `Standing.foldWalToVcs_ok`: folding the log succeeds.
* `Standing.commitSuperBlockInternal_ok_iff`: the superblock is committed if there is a committed
  value, and every key of one fits a page.
* `Run.checkpoint_succeeds_iff`: **a checkpoint succeeds, and its root loads, if and only if** the
  memtable is `Flushable` and leaves live keys, which fit pages.
-/

set_option autoImplicit false

namespace EBTree.Engine

open Lib Wal BTree ShardEngine VersionChainStore

variable {h : History} {s s' : ShardEngine} {rs : List WalRecord} {ds : List DataRecord}

/-! ## The flush -/

/-- Every entry of the memtable is newer than the chain of its key. -/
def ShardEngine.Flushable (s : ShardEngine) : Prop :=
  ∀ key e, s.ensureWalReplayed.memtable.find? key = some e → s.vcs.head key < e.lsn

theorem head_lt_iff {v : VersionChainStore} (ho : Ordered v) {key : Key} {lsn : Nat} (h0 : 0 < lsn) :
    v.head key < lsn ↔ ∀ n ∈ v.mergedChain key, n.lsn < lsn := by
  constructor
  · intro hlt n hn
    exact Nat.lt_of_le_of_lt (le_lastLsn (ho.increasing key) hn) hlt
  · intro hall
    rcases Nat.eq_zero_or_pos (v.head key) with hz | hpos
    · omega
    · obtain ⟨n, hn, he⟩ := lastLsn_mem hpos
      exact lt_of_eq_of_lt he.symm (hall n hn)

/-- Entries of written records. -/
def Counted (h : History) (es : List (Key × MemTableEntry)) : Prop :=
  ∀ key e, (key, e) ∈ es → h.Counts true (memRecord key e)

theorem Counted.named (hs : Standing h s) {es : List (Key × MemTableEntry)} (hes : Counted h es)
    {key : Key} {e : MemTableEntry} (he : (key, e) ∈ es) : key ≠ [] ∧ 0 < e.lsn := by
  obtain ⟨w, hw, hr, -⟩ := hes key e he
  have := hs.named w hw
  rwa [hr] at this

/-- **A flush comes back.** -/
theorem flushEntries_returns (hs : Standing h s) (hi : Inv true h s rs ds)
    {es : List (Key × MemTableEntry)} (hes : Counted h es) :
    ∃ s' st, s.flushEntries es = some (s', st) := by
  induction es generalizing s ds with
  | nil => exact ⟨s, _, rfl⟩
  | cons x es ih =>
    obtain ⟨key, e⟩ := x
    obtain ⟨found, hg⟩ := hs.rests.get hi.tiers.btree key
    obtain ⟨s1, st1, hf⟩ : ∃ s1 st1, s.flushEntry key e = some (s1, st1) := by
      unfold ShardEngine.flushEntry
      rw [hg]
      simp only
      split
      · exact ⟨_, _, rfl⟩
      · exact ⟨_, _, rfl⟩
    have hi1 := hi.flushEntry (hes key e List.mem_cons_self) hf
    rw [ShardEngine.flushEntries, hf]
    cases st1 with
    | error err => exact ⟨_, _, rfl⟩
    | ok u => exact ih (hs.flushEntry hf) hi1 fun k e' he' => hes k e' (List.mem_cons_of_mem _ he')

/-- **A flush succeeds** if every entry is newer than the chain of its key. -/
theorem flushEntries_ok_iff (ho : Ordered s.vcs) {es : List (Key × MemTableEntry)} (hone : OneEach es)
    (hes : ∀ key e, (key, e) ∈ es → key ≠ [] ∧ 0 < e.lsn) {st : Except Status Unit}
    (hf : s.flushEntries es = some (s', st)) :
    st = .ok () ↔ ∀ key e, (key, e) ∈ es → s.vcs.head key < e.lsn := by
  constructor
  · rintro rfl
    induction es generalizing s with
    | nil => exact fun key e he => absurd he List.not_mem_nil
    | cons x es ih =>
      obtain ⟨key, e⟩ := x
      rw [OneEach, List.map_cons, List.nodup_cons] at hone
      rw [ShardEngine.flushEntries] at hf
      cases hfe : s.flushEntry key e with
      | none =>
        rw [hfe] at hf
        cases hf
      | some y =>
        obtain ⟨s1, st1⟩ := y
        rw [hfe] at hf
        obtain ⟨prevLsn, vcs, happ, rfl⟩ := flushEntry_cases hfe
        cases st1 with
        | error err => cases hf
        | ok u =>
          have hhead : s.vcs.head key < e.lsn := by
            have hok : (s.vcs.append key e.lsn prevLsn).2 = .ok () := by rw [happ]
            obtain ⟨-, h0, hall⟩ := (append_ok_iff (ho.increasing key)).1 hok
            exact (head_lt_iff ho h0).2 hall
          have hrest := ih (s := s.afterEntry key e vcs _) (ho.append happ) hone.2
            (fun k e' he' => hes k e' (List.mem_cons_of_mem _ he')) hf
          intro k e' he'
          rcases List.mem_cons.1 he' with he' | he'
          · cases he'
            exact hhead
          · have hk : k ≠ key := fun hk => hone.1 (List.mem_map.2 ⟨(k, e'), he', hk⟩)
            have hlt := hrest k e' he'
            rcases mergedChain_append happ k with hc | ⟨hkey, -⟩
            · change lastLsn (vcs.mergedChain k) < e'.lsn at hlt
              rwa [hc] at hlt
            · exact absurd hkey hk
  · intro hall
    refine flushEntries_ok hone (fun key e he => ?_) hf
    obtain ⟨hk, h0⟩ := hes key e he
    exact ⟨hk, h0, (head_lt_iff ho h0).1 (hall key e he)⟩

/-! ## The fold -/

theorem foldInto_ok {v : VersionChainStore} (ho : Ordered v) {rs : List FoldRecord}
    (hrs : ∀ r ∈ rs, r.key ≠ [] ∧ 0 < r.lsn) : (foldInto v rs).2 = .ok () := by
  induction rs generalizing v with
  | nil => rfl
  | cons r rs ih =>
    have hrest : ∀ r ∈ rs, r.key ≠ [] ∧ 0 < r.lsn := fun r' hr' =>
      hrs r' (List.mem_cons_of_mem _ hr')
    obtain ⟨hk, h0⟩ := hrs r List.mem_cons_self
    rw [foldInto]
    split
    · exact ih ho hrest
    split
    · exact ih ho hrest
    rename_i hnewer
    have hlt : v.head r.key < r.lsn := by omega
    have hok : (v.append r.key r.lsn (v.head r.key)).2 = .ok () :=
      (append_ok_iff (ho.increasing r.key)).2 ⟨hk, h0, (head_lt_iff ho h0).1 hlt⟩
    cases ha : v.append r.key r.lsn (v.head r.key) with
    | mk v' st =>
      rw [ha] at hok
      simp only at hok
      subst hok
      exact ih (ho.append ha) hrest

namespace Standing

/-- **Folding the log** into the chains succeeds. -/
theorem foldWalToVcs_ok (hs : Standing h s) (hi : Inv true h s rs ds) :
    s.foldWalToVcs.2 = .ok () := by
  have hmagic : detectFormatV2OnDisk s.wal.file = true := by
    rw [hi.log.logs.file_eq]
    exact detectFormatV2OnDisk_magic _
  unfold ShardEngine.foldWalToVcs
  rw [hmagic]
  simp only [Bool.not_true, Bool.and_false, Bool.false_eq_true, if_false]
  refine foldInto_ok hs.vcs fun r hr => ?_
  rw [foldRecords_eq hi.log.logs] at hr
  obtain ⟨x, hx, rfl⟩ := List.mem_map.1 hr
  obtain ⟨hmem, hdata, -⟩ := mem_foldable.1 hx
  obtain ⟨w, hw, he, -⟩ := hi.log.logged x (List.mem_filter.1 hmem).1 hdata
  have := hs.named w hw
  rw [he] at this
  exact this

/-! ## The superblock -/

/-- **The superblock is committed** if there are committed values, and the keys of all of them fit a
page. Its root is then a page of the file. -/
theorem commitSuperBlockInternal_ok_iff (hs : Standing h s) (hi : Inv true h s rs ds) :
    (∃ s', s.commitSuperBlockInternal = some (s', .ok ())) ↔
      s.committedLsns.isEmpty = false ∧ KeysFit s.committedLsns.entries := by
  have htree := (hi.tiers.btree.rebuildSummaryFromCommitted s.committedLsns).ensureSummaryLsnAtLeast
    s.stableLsn
  have hrests := hs.rests_summary
  have hq : ∀ e ∈ s.committedLsns.entries, h.HasVersion true e := fun e he =>
    hi.hasVersion_committedLsns e.1 e.2 (SortedMap.mem_entries_iff.1 he)
  obtain ⟨pf, hpf, -, -⟩ := hrests.pages
  constructor
  · rintro ⟨s', hc⟩
    rcases commitSuperBlockInternal_cases hc with ⟨hcor, -⟩ | ⟨-, btree, pst, hp, hrest⟩
    · exact absurd (hs.root.symm.trans hcor) Bool.false_ne_true
    refine ⟨?_, keysFit_of_persistRootImpl hpf hi.writable_committedLsns hp⟩
    rcases hrest with ⟨e, -, hst, -⟩ | ⟨root, rfl, ⟨e, -, hst, -⟩ | ⟨hl, -, -⟩⟩
    · cases hst
    · cases hst
    · -- the root of an empty map lies in front of the pages, and does not load
      cases hempty : s.committedLsns.isEmpty with
      | false => rfl
      | true =>
        rcases persistRootImpl_cases hpf hp with ⟨-, hroot, -⟩ | ⟨leaves, hleaves, hne, -⟩
        · cases hroot
          obtain ⟨pf', hpf', -⟩ := (hrests.persistRootFromMap htree hi.writable_committedLsns hq
            hp).1.pages
          have hlow : kLegacyMapRoot < kPageFileHeaderSize := by decide
          simp only [PagedBTree.loadRoot, hpf', if_pos hlow] at hl
          cases hl
        · rw [SortedMap.isEmpty_iff.1 hempty] at hleaves
          cases hleaves
          exact absurd rfl hne
  · rintro ⟨hne, hfit⟩
    obtain ⟨btree, root, hp⟩ := persistRootImpl_total hpf hi.writable_committedLsns hfit
    have hp : ((s.btree.rebuildSummaryFromCommitted s.committedLsns).ensureSummaryLsnAtLeast
        s.stableLsn).persistRootFromMap s.committedLsns = some (btree, .ok root) := hp
    obtain ⟨pf', hpf', hplaced, -⟩ := (hrests.persistRootFromMap htree hi.writable_committedLsns hq
      hp).1.pages
    obtain ⟨hoff, hend⟩ := persistRootImpl_root hpf (htree.pages pf hpf) hi.writable_committedLsns hq
      hp hpf' (.inl hne)
    have hload : (btree.loadRoot root).2 = .ok () := hplaced.loadRoot hpf' hoff hend
    unfold ShardEngine.commitSuperBlockInternal
    simp only [hs.root, Bool.false_eq_true, if_false, hp]
    generalize btree.loadRoot root = x at hload
    obtain ⟨t, st⟩ := x
    cases hload
    exact ⟨_, rfl⟩

end Standing

/-! ## The checkpoint -/

/-- The key has a value once the memtable is flushed over the committed values. -/
def LiveOver (mt : MemTable) (committed : SortedMap Key (Value × Nat)) (key : Key) : Prop :=
  match mt.find? key with
  | some e => e.deleted = false
  | none => (committed.find? key).isSome = true

theorem liveOver_one {mt : MemTable} {committed : SortedMap Key (Value × Nat)} {key k : Key}
    {e : MemTableEntry} (hm : mt.entries = [(key, e)]) (hc : committed.entries = [])
    (hd : e.deleted = false) : LiveOver mt committed k ↔ k = key := by
  have hnone : committed.find? k = none := SortedMap.find?_eq_none_iff.2 (by simp [hc])
  unfold LiveOver
  constructor
  · intro hl
    split at hl
    · rename_i e' he
      have hmem := SortedMap.mem_entries_iff.2 he
      rw [hm, List.mem_singleton] at hmem
      cases hmem
      rfl
    · rw [hnone] at hl
      cases hl
  · rintro rfl
    have hf : mt.find? k = some e :=
      SortedMap.mem_entries_iff.1 (by rw [hm]; exact List.mem_singleton_self _)
    rw [hf]
    exact hd

def ShardEngine.LiveAfter (s : ShardEngine) (key : Key) : Prop :=
  LiveOver s.ensureWalReplayed.memtable s.committed key

/-- What the flush of a checkpoint starts from. -/
theorem rotated_beforeFlush (s : ShardEngine) :
    s.beforeFlush.rotateMemTableForFlush.flushing = s.ensureWalReplayed.memtable ∧
      s.beforeFlush.rotateMemTableForFlush.committed = s.committed ∧
      s.beforeFlush.rotateMemTableForFlush.vcs = s.vcs ∧
      s.beforeFlush.rotateMemTableForFlush.datafile = s.datafile ∧
      s.beforeFlush.rotateMemTableForFlush.pinnedSnapshotLsn = s.pinnedSnapshotLsn := by
  refine ⟨(beforeFlush_frame s).1, ?_⟩
  obtain ⟨_, _, he⟩ := ensureWalReplayed_eq s
  show s.beforeFlush.committed = _ ∧ s.beforeFlush.vcs = _ ∧ s.beforeFlush.datafile = _ ∧
    s.beforeFlush.pinnedSnapshotLsn = _
  unfold beforeFlush groupCommitNow
  rw [he]
  simp only
  split
  · split
    · exact ⟨rfl, rfl, rfl, rfl⟩
    · exact ⟨rfl, rfl, rfl, rfl⟩
  · exact ⟨rfl, rfl, rfl, rfl⟩

/-- What a flush leaves committed. -/
theorem committed_after {ord : IterOrder} (hf : s.flushInternal ord = some (s', .ok ())) (key : Key) :
    (s'.committed.find? key).isSome = true ↔ LiveOver s.flushing s.committed key := by
  obtain ⟨done, rest, he, hrest, -, -, hcommitted⟩ := flushInternal_writes hf
  obtain rfl := hrest rfl
  rw [List.append_nil] at he
  rw [← he] at hcommitted
  obtain ⟨hin, hout⟩ := foldl_memRecords (oneEach_order ord s.flushing) s.committed key
  unfold LiveOver
  rw [hcommitted]
  cases hfind : s.flushing.find? key with
  | some e =>
    rw [hin e (mem_order.2 hfind), live_memRecord]
    cases hd : e.deleted <;> simp [hd]
  | none =>
    rw [hout fun e hm => by rw [mem_order.1 hm] at hfind; cases hfind]

theorem foldWalToVcs_committed (s : ShardEngine) : s.foldWalToVcs.1.committed = s.committed := by
  obtain ⟨vcs, he, -⟩ := foldWalToVcs_eq s
  rw [he]

/-- The keys of the committed values, and that they fit a page. -/
theorem committedLsns_live (s : ShardEngine) :
    (s.committedLsns.isEmpty = false ↔ ∃ key, (s.committed.find? key).isSome = true) ∧
      (KeysFit s.committedLsns.entries ↔ ∀ key, (s.committed.find? key).isSome = true →
        kPageHeaderSize + (2 + key.length + 8) ≤ kPageSize) := by
  have hmem : ∀ key, (s.committed.find? key).isSome = true ↔
      ∃ lsn, (key, lsn) ∈ s.committedLsns.entries := by
    intro key
    simp only [SortedMap.mem_entries_iff, committedLsns, SortedMap.find?_mapValues]
    cases s.committed.find? key <;> simp
  refine ⟨⟨fun hne => ?_, ?_⟩, fun hfit key hk => ?_, fun hall e he => ?_⟩
  · cases hm : s.committedLsns.entries with
    | nil => rw [SortedMap.isEmpty_iff.2 hm] at hne; cases hne
    | cons e es => exact ⟨e.1, (hmem e.1).2 ⟨e.2, by rw [hm]; exact List.mem_cons_self⟩⟩
  · rintro ⟨key, hk⟩
    obtain ⟨lsn, hl⟩ := (hmem key).1 hk
    cases hempty : s.committedLsns.isEmpty with
    | false => rfl
    | true =>
      rw [SortedMap.isEmpty_iff.1 hempty] at hl
      exact absurd hl List.not_mem_nil
  · obtain ⟨lsn, hl⟩ := (hmem key).1 hk
    exact hfit _ hl
  · exact hall e.1 ((hmem e.1).2 ⟨e.2, he⟩)

namespace Standing

theorem beforeFlush_inv (hi : Inv true h s rs ds) :
    Inv true h s.beforeFlush.rotateMemTableForFlush rs ds := by
  unfold ShardEngine.beforeFlush
  split
  · exact hi.ensureWalReplayed.groupCommitNow.rotateMemTableForFlush
  · exact hi.ensureWalReplayed.rotateMemTableForFlush

/-- **A flush** comes back, and succeeds if every entry is newer than the chain of its key. -/
theorem flushInternal_ok_iff (hs : Standing h s) (hi : Inv true h s rs ds) (ord : IterOrder) :
    ∃ s1 st1, s.flushInternal ord = some (s1, st1) ∧
      (st1 = .ok () ↔ ∀ key e, s.flushing.find? key = some e → s.vcs.head key < e.lsn) := by
  have hsync : Inv true h { s with wal := s.wal.fsync } rs ds := { hi with log := hi.log.fsync }
  have hstand : Standing h { s with wal := s.wal.fsync } := { hs with }
  have hcount : Counted h (ord.order s.flushing) := fun key e he =>
    (hi.flushing key e (mem_order.1 he)).1.counts (.inl rfl)
  obtain ⟨s1, st1, hes⟩ := flushEntries_returns hstand hsync hcount
  have hok := flushEntries_ok_iff hstand.vcs (oneEach_order ord _)
    (fun key e he => hcount.named hs he) hes
  simp only [mem_order] at hok
  unfold ShardEngine.flushInternal
  rw [hes]
  cases st1 with
  | error e => exact ⟨_, _, rfl, hok⟩
  | ok u => exact ⟨_, _, rfl, hok⟩

/-- **The flush of a checkpoint.** -/
theorem flush_ok_iff (hs : Standing h s) (hi : Inv true h s rs ds) (ord : IterOrder) :
    ∃ s1 st1, s.beforeFlush.rotateMemTableForFlush.flushInternal ord = some (s1, st1) ∧
      (st1 = .ok () ↔ s.Flushable) := by
  obtain ⟨hmem, -, hvcs, -⟩ := rotated_beforeFlush s
  have hok := hs.beforeFlush.rotate.flushInternal_ok_iff (beforeFlush_inv hi) ord
  rwa [hmem, hvcs] at hok

/-- What the flush leaves stands. -/
theorem flushed (hs : Standing h s) (hi : Inv true h s rs ds) {ord : IterOrder} {s1 : ShardEngine}
    {st : Except Status Unit}
    (hf : s.beforeFlush.rotateMemTableForFlush.flushInternal ord = some (s1, st)) :
    Standing h s1 ∧ ∃ ds1, Inv true h s1 rs ds1 := by
  refine ⟨hs.beforeFlush.rotate.flushInternal hf, (beforeFlush_inv hi).flushInternal ?_ hf⟩
  rw [(rotated_beforeFlush s).1]
  exact memCounts hi.ensureWalReplayed

theorem checkpoint_unflushed {ord : IterOrder} {hook : CheckpointPhase → Bool} {e : Status}
    (hf : s.beforeFlush.rotateMemTableForFlush.flushInternal ord = some (s', .error e)) :
    s.checkpoint ord hook = some (s', .error e) := by
  unfold ShardEngine.beforeFlush at hf
  unfold ShardEngine.checkpoint
  simp only [hf]

/-- A checkpoint that is not interrupted, from the superblock on. -/
theorem checkpoint_flushed {ord : IterOrder} {s1 s2 : ShardEngine}
    (hf : s.beforeFlush.rotateMemTableForFlush.flushInternal ord = some (s1, .ok ()))
    (hfold : s1.foldWalToVcs = (s2, .ok ())) :
    s.checkpoint ord (fun _ => false) = s2.checkpointCommit fun _ => false := by
  unfold ShardEngine.beforeFlush at hf
  unfold ShardEngine.checkpoint
  simp only [hf, hfold, Bool.false_eq_true, or_self, if_false]

/-- **A checkpoint succeeds** if the memtable is flushable and leaves values, under keys that fit a
page. -/
theorem checkpoint_ok_iff (hs : Standing h s) (hi : Inv true h s rs ds) (ord : IterOrder) :
    (∃ s', s.checkpoint ord (fun _ => false) = some (s', .ok ())) ↔
      s.Flushable ∧ (∃ key, s.LiveAfter key) ∧ ∀ key, s.LiveAfter key →
        kPageHeaderSize + (2 + key.length + 8) ≤ kPageSize := by
  obtain ⟨s1, st1, hflush, hok⟩ := hs.flush_ok_iff hi ord
  rw [← hok]
  cases st1 with
  | error e =>
    refine ⟨?_, fun hrhs => absurd hrhs.1 (by simp)⟩
    rintro ⟨s', hx⟩
    rw [checkpoint_unflushed hflush] at hx
    cases hx
  | ok u =>
    obtain ⟨hs1, ds1, hi1⟩ := hs.flushed hi hflush
    have hfold := hs1.foldWalToVcs_ok hi1
    have hs2 := hs1.foldWalToVcs
    have hi2 := hi1.foldWalToVcs
    have hlive := committed_after hflush
    obtain ⟨hmem, hcommitted, -⟩ := rotated_beforeFlush s
    rw [← foldWalToVcs_committed, hmem, hcommitted] at hlive
    have hcp := checkpoint_flushed hflush (Prod.ext rfl hfold)
    rw [hcp, and_iff_right rfl]
    have hcommit := hs2.commitSuperBlockInternal_ok_iff hi2
    rw [(committedLsns_live _).1, (committedLsns_live _).2] at hcommit
    simp only [hlive] at hcommit
    unfold ShardEngine.LiveAfter
    rw [← hcommit]
    constructor
    · rintro ⟨s', hc⟩
      unfold ShardEngine.checkpointCommit at hc
      split at hc
      · cases hc
      · cases hc
      · rename_i s3 hc3
        exact ⟨s3, hc3⟩
    · rintro ⟨s3, hc3⟩
      unfold ShardEngine.checkpointCommit
      rw [hc3]
      exact ⟨_, rfl⟩

/-- A checkpoint that succeeds has committed a superblock. -/
theorem checkpoint_epoch (hs : Standing h s) (hi : Inv true h s rs ds) {ord : IterOrder}
    (hc : s.checkpoint ord (fun _ => false) = some (s', .ok ())) : 0 < s'.superblock.epoch := by
  obtain ⟨s1, st1, hflush, -⟩ := hs.flush_ok_iff hi ord
  cases st1 with
  | error e =>
    rw [checkpoint_unflushed hflush] at hc
    cases hc
  | ok u =>
    obtain ⟨hs1, ds1, hi1⟩ := hs.flushed hi hflush
    rw [checkpoint_flushed hflush (Prod.ext rfl (hs1.foldWalToVcs_ok hi1))] at hc
    unfold ShardEngine.checkpointCommit at hc
    split at hc
    · cases hc
    · cases hc
    · rename_i s3 hc3
      cases hc
      rcases commitSuperBlockInternal_cases hc3 with ⟨-, -, rfl⟩ | ⟨-, btree, pst, -, hrest⟩
      · exact Nat.succ_pos _
      · rcases hrest with ⟨e, -, hst, -⟩ | ⟨root, -, ⟨e, -, hst, -⟩ | ⟨-, -, rfl⟩⟩
        · cases hst
        · cases hst
        · exact Nat.succ_pos _

end Standing

/-! ## Runs -/

/-- The files are opened on the root their superblock names. -/
structure Accepts (opts : EngineOptions) (f : ShardFiles) : Prop where
  paged : kPageFileHeaderSize ≤ f.superblock.activeRoot
  loads : ((created opts f).btree.loadRoot f.superblock.activeRoot).2 = .ok ()
  hot : (ShardEngine.open opts f).recoveryMode = .kHot
  sound : (ShardEngine.open opts f).lazyRootCorrupt = false

theorem FilesStand.accepts {f : ShardFiles} (hf : FilesStand h f) (hpos : 0 < f.superblock.epoch)
    (opts : EngineOptions) : Accepts opts f := by
  obtain ⟨hoff, -⟩ := hf.root.resolve_left fun h0 => absurd h0.1 (Nat.ne_of_gt hpos)
  have hs := hf.standing opts
  exact ⟨hoff.2, (hf.followed opts).load hoff.2, hs.hot, hs.root⟩

/-- **When a checkpoint succeeds.** In every state that writes, flushes, checkpoints and reopenings
reach, a checkpoint returns without an error, and what it commits is accepted when the files are
opened again, if and only if every entry of the memtable is newer than the chain of its key, some
key is live once they are flushed, and the keys that are live fit a page. -/
theorem Run.checkpoint_succeeds_iff {ok : ShardEngine → History → Op → Prop}
    (hok : ∀ s h op, ok s h op → op.endures = true) (hr : Run ok s h) (ord : IterOrder) :
    (∃ s', s.checkpoint ord (fun _ => false) = some (s', .ok ()) ∧
      ∀ opts, Accepts opts s'.files) ↔
    s.Flushable ∧ (∃ key, s.LiveAfter key) ∧
      ∀ key, s.LiveAfter key → kPageHeaderSize + (2 + key.length + 8) ≤ kPageSize := by
  obtain ⟨⟨rs, ds, hi⟩, hs⟩ := hr.standing hok
  rw [← hs.checkpoint_ok_iff hi ord]
  refine ⟨fun ⟨s', hc, _⟩ => ⟨s', hc⟩, fun ⟨s', hc⟩ => ⟨s', hc, ?_⟩⟩
  obtain ⟨rs', ds', hi'⟩ := hi.checkpoint (Standing.memCounts hi.ensureWalReplayed) hs.truncatesAll hc
  exact ((hs.checkpoint hi hc).files hi').accepts (hs.checkpoint_epoch hi hc)

/-- A put, and a checkpoint. -/
theorem checkpoint_succeeds_put :
    ∃ s', ((ShardEngine.open .sync ShardFiles.none).write (firstPut 0)).1.checkpoint .byKey
      (fun _ => false) = some (s', .ok ()) ∧ ∀ opts, Accepts opts s'.files := by
  have hrun : Run (fun _ _ op => op.endures = true)
      ((ShardEngine.open .sync ShardFiles.none).write (firstPut 0)).1
      (History.empty.after (ShardEngine.open .sync ShardFiles.none) (.write (firstPut 0))) :=
    (Run.opened .sync).step (by decide +kernel) rfl rfl
  have hmem : ((ShardEngine.open .sync ShardFiles.none).write
      (firstPut 0)).1.ensureWalReplayed.memtable.entries = [([1], ⟨[2], 1, false, 0, true⟩)] := by
    decide +kernel
  have hlive : ∀ {key : Key}, ((ShardEngine.open .sync ShardFiles.none).write
      (firstPut 0)).1.LiveAfter key ↔ key = [1] := liveOver_one hmem (by decide +kernel) rfl
  refine (Run.checkpoint_succeeds_iff (fun _ _ _ ho => ho) hrun .byKey).2 ⟨fun key e he => ?_,
    ⟨[1], hlive.2 rfl⟩, fun key hk => ?_⟩
  · have hentry := SortedMap.mem_entries_iff.2 he
    rw [hmem, List.mem_singleton] at hentry
    cases hentry
    decide +kernel
  · rw [hlive.1 hk]
    decide

/-- **A checkpoint of nothing** fails: no value is committed, so that no page can be the root. -/
theorem empty_checkpoint_fails :
    ((ShardEngine.open .sync ShardFiles.none).checkpoint .byKey fun _ => false).all
      (fun x => !x.2.isOk) = true ∧
    ((ShardEngine.open .sync ShardFiles.none).checkpoint .byKey fun _ => false).isSome = true := by
  decide +kernel

end EBTree.Engine
