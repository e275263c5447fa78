import EBTree.Engine.Proof.Provenance
import EBTree.Engine.Recover

/-!
# Opening the files again

What the process leaves behind is enough for the invariant of the engine that is opened on it.

* `recoverFromSuperBlock_eq`, `open_eq`: what recovering and opening touch.
* `recoverLazy_followed`, `recoverEager_followed`: what is recovered where the root loads.
* `Below.recoverTiers`: what it makes of the tiers below the memtables.
* `Inv.files`, `FilesFrom.open`: the files of an engine, and an engine opened on files.
-/

set_option autoImplicit false

namespace EBTree.Engine

open Lib Wal BTree ShardEngine

variable {any : Bool} {h : History} {s : ShardEngine} {rs : List WalRecord} {ds : List DataRecord}

/-! ## Recovering -/

theorem recoverLazy_frame (s : ShardEngine) :
    s.recoverLazy = { s with
      committed := s.recoverLazy.committed
      datafile := s.recoverLazy.datafile
      btree := s.recoverLazy.btree
      lazyRootCorrupt := s.recoverLazy.lazyRootCorrupt
      recoveryMode := s.recoverLazy.recoveryMode } := by
  unfold recoverLazy
  simp only
  split
  · split <;> rfl
  · split <;> rfl

theorem recoverEager_frame (s : ShardEngine) :
    s.recoverEager = { s with
      committed := s.recoverEager.committed
      btree := s.recoverEager.btree
      lazyRootCorrupt := s.recoverEager.lazyRootCorrupt
      recoveryMode := s.recoverEager.recoveryMode } := by
  unfold recoverEager
  simp only
  split
  · split <;> rfl
  · rfl

/-- The committed values and the tree, with `lazy_committed_load` and without it. -/
def recoverTiers (s : ShardEngine) : ShardEngine :=
  if s.opts.lazyCommittedLoad then s.recoverLazy else s.recoverEager

theorem recoverTiers_frame (s : ShardEngine) :
    recoverTiers s = { s with
      committed := (recoverTiers s).committed
      datafile := (recoverTiers s).datafile
      btree := (recoverTiers s).btree
      lazyRootCorrupt := (recoverTiers s).lazyRootCorrupt
      recoveryMode := (recoverTiers s).recoveryMode } := by
  unfold recoverTiers
  split
  · exact recoverLazy_frame s
  · rw [recoverEager_frame s]

/-- The superblock of a shard can be followed: its root loads, or it never had one. -/
structure Followed (s : ShardEngine) : Prop where
  load : kPageFileHeaderSize ≤ s.sb.activeRoot → (s.btree.loadRoot s.sb.activeRoot).2 = .ok ()
  rooted : ¬ (0 < s.sb.epoch ∧ s.sb.activeRoot = 0)

/-- The tree, where there is a root to load. -/
def loadedTree (s : ShardEngine) (otherwise : PagedBTree) : PagedBTree :=
  if kPageFileHeaderSize ≤ s.sb.activeRoot then
    (s.btree.loadRoot s.sb.activeRoot).1.ensureSummaryLsnAtLeast s.stableLsn
  else otherwise

/-- The committed values stay where they are, and the tree is the one on disk, if there is one. -/
theorem recoverLazy_followed {s : ShardEngine} (hf : Followed s) :
    s.recoverLazy = { s with
      committed := SortedMap.empty
      datafile := s.datafile.buildLsnIndex s.didx
      lazyRootCorrupt := false
      recoveryMode := .kHot
      btree := loadedTree s s.btree } := by
  unfold recoverLazy loadedTree
  simp only
  by_cases hlo : kPageFileHeaderSize ≤ s.sb.activeRoot
  · have hload := hf.load hlo
    rw [if_pos hlo, if_pos hlo]
    generalize s.btree.loadRoot s.sb.activeRoot = x at hload ⊢
    obtain ⟨t, st⟩ := x
    cases hload
    rfl
  · rw [if_neg hlo, if_neg hlo, if_neg hf.rooted]

/-- The committed values are loaded, and the tree is the one on disk or is built from them. -/
theorem recoverEager_followed {s : ShardEngine} (hf : Followed s) :
    s.recoverEager = { s with
      committed := s.datafile.load
      lazyRootCorrupt := false
      recoveryMode := .kHot
      btree := loadedTree s (s.btree.loadFromMap (s.datafile.load.mapValues (·.2))) } := by
  unfold recoverEager loadedTree
  simp only
  by_cases hlo : kPageFileHeaderSize ≤ s.sb.activeRoot
  · have hload := hf.load hlo
    rw [if_pos hlo, if_pos hlo]
    generalize s.btree.loadRoot s.sb.activeRoot = x at hload ⊢
    obtain ⟨t, st⟩ := x
    cases hload
    simp [hf.rooted]
  · rw [if_neg hlo, if_neg hlo]
    simp [hf.rooted, committedLsns]

/-- Behind the tiers the log is replayed, or found to have something to replay. -/
theorem recoverFromSuperBlock_eq (s : ShardEngine) (sb : SuperBlock) :
    ∃ mt pending state, s.recoverFromSuperBlock sb =
      { recoverTiers { s with sb := sb, stableLsn := sb.dataLsn } with
        memtable := mt, walReplayPending := pending, recoveryState := state } ∧
      (mt = s.memtable ∨ mt = replayPending s.wal.file s.memtable sb.walLsn) ∧
      (pending = true → hasUnreplayedWal s.wal sb.walLsn = true) := by
  have hframe := recoverTiers_frame { s with sb := sb, stableLsn := sb.dataLsn }
  have hrec : s.recoverFromSuperBlock sb =
      let s1 := recoverTiers { s with sb := sb, stableLsn := sb.dataLsn }
      (if s1.opts.recoveryStrategy = RecoveryStrategy.kFullReplay then
        { s1 with
          walReplayPending := false
          memtable := replayPending s1.wal.file s1.memtable sb.walLsn }
      else { s1 with
        walReplayPending := hasUnreplayedWal s1.wal sb.walLsn }).refreshRecoveryState := rfl
  rw [hrec]
  generalize recoverTiers { s with sb := sb, stableLsn := sb.dataLsn } = s1 at hframe
  have hwal : s1.wal = s.wal := by rw [hframe]
  have hmem : s1.memtable = s.memtable := by rw [hframe]
  simp only
  split
  · exact ⟨_, _, _, rfl, .inr (by rw [hwal, hmem]), fun hp => absurd hp Bool.false_ne_true⟩
  · exact ⟨s1.memtable, _, _, rfl, .inl hmem, fun hp => hwal ▸ hp⟩

/-- What the tiers are recovered from. -/
def loading (opts : EngineOptions) (f : ShardFiles) : ShardEngine :=
  { created opts f with sb := f.superblock, stableLsn := f.superblock.dataLsn }

/-- **Opening a shard** recovers its tiers, replays its log or finds that there is something to
replay, and takes the chains from their file or from the data. -/
theorem open_eq (opts : EngineOptions) (f : ShardFiles) :
    ∃ state, ShardEngine.open opts f =
      { recoverTiers (loading opts f) with
        memtable := if opts.recoveryStrategy = .kFullReplay then
          replayPending (WalWriter.open f.wal).file SortedMap.empty f.superblock.walLsn
          else SortedMap.empty
        walReplayPending := !decide (opts.recoveryStrategy = .kFullReplay) &&
          hasUnreplayedWal (WalWriter.open f.wal) f.superblock.walLsn
        recoveryState := state
        wal := (WalWriter.open f.wal).ensureMinLsn f.superblock.walLsn
        vcs := f.vidx.getD
          (VersionChainStore.rebuildFromDataFile (recoverTiers (loading opts f)).datafile) } := by
  have hframe := recoverTiers_frame (loading opts f)
  have hopen : ShardEngine.open opts f =
      let s1 := recoverTiers (loading opts f)
      let s2 := (if s1.opts.recoveryStrategy = RecoveryStrategy.kFullReplay then
        { s1 with
          walReplayPending := false
          memtable := replayPending s1.wal.file s1.memtable f.superblock.walLsn }
      else { s1 with
        walReplayPending := hasUnreplayedWal s1.wal f.superblock.walLsn }).refreshRecoveryState
      { s2 with
        wal := s2.wal.ensureMinLsn s2.sb.walLsn
        vcs := f.vidx.getD (VersionChainStore.rebuildFromDataFile s2.datafile) } := rfl
  rw [hopen]
  generalize recoverTiers (loading opts f) = s1 at hframe ⊢
  have hopts : s1.opts = opts := by rw [hframe]; rfl
  have hwal : s1.wal = WalWriter.open f.wal := by rw [hframe]; rfl
  have hsb : s1.sb = f.superblock := by rw [hframe]; rfl
  have hmem : s1.memtable = SortedMap.empty := by rw [hframe]; rfl
  simp only [hopts, refreshRecoveryState]
  split
  · rename_i hfull
    exact ⟨_, by simp [hfull, hwal, hsb, hmem]; rfl⟩
  · rename_i hfast
    exact ⟨_, by simp [hfast, hwal, hsb, hmem]; rfl⟩

/-- Opening a shard opens its log, from the LSN of the superblock on, and pins nothing. -/
theorem open_frame (opts : EngineOptions) (f : ShardFiles) :
    (ShardEngine.open opts f).wal = (WalWriter.open f.wal).ensureMinLsn f.superblock.walLsn ∧
      (ShardEngine.open opts f).snapshotPinCount = 0 := by
  obtain ⟨state, he⟩ := open_eq opts f
  rw [he]
  refine ⟨rfl, ?_⟩
  show (recoverTiers (loading opts f)).snapshotPinCount = 0
  rw [recoverTiers_frame]
  rfl

/-! ## The tiers -/

theorem soundTree_load {t : PagedBTree} (ht : SoundTree (h.HasVersion any) t)
    {d : DataFile} (hst : Stores d ds) (hdata : ∀ r ∈ ds, h.Counts any r) :
    SoundTree (h.HasVersion any) (t.loadFromMap (d.load.mapValues (·.2))) := by
  refine ht.loadFromMap fun key lsn hf => ?_
  obtain ⟨x, hx, rfl⟩ := Option.map_eq_some_iff.1
    ((SortedMap.find?_mapValues d.load _ key).symm.trans hf)
  exact ⟨_, hdata _ (hst.load_find? hx), rfl, rfl⟩

/-- What recovering starts from: the file is the records, with no index over them yet, and the pages
are good. -/
structure Below (any : Bool) (h : History) (s : ShardEngine) (ds : List DataRecord) : Prop where
  stores : Stores s.datafile ds
  data : ∀ r ∈ ds, h.Counts any r
  btree : SoundTree (h.HasVersion any) s.btree
  root : kPageFileHeaderSize ≤ s.sb.activeRoot → kPageSize ∣ s.sb.activeRoot
  didx : ∀ ix, s.didx = some ix → Leads ix ds

theorem Below.recoverLazy (hb : Below any h s ds) :
    TiersFrom any h s.recoverLazy.datafile s.recoverLazy.committed s.recoverLazy.btree
      VersionChainStore.empty ds := by
  have hst : Stores (s.datafile.buildLsnIndex s.didx) ds :=
    Stores.buildLsnIndex hb.stores.file_eq hb.stores.inRange hb.didx
  have hroot := hb.btree.loadRoot hb.root
  have hwith : ∀ {t : PagedBTree}, SoundTree (h.HasVersion any) t →
      TiersFrom any h (s.datafile.buildLsnIndex s.didx) SortedMap.empty t
        VersionChainStore.empty ds := by
    intro t ht
    refine ⟨hst, hb.data, fun key x hx => ?_, ht, fun key n hn => ?_⟩
    · rw [SortedMap.find?_empty] at hx
      cases hx
    · simp at hn
  unfold ShardEngine.recoverLazy
  simp only
  split
  · split
    · rename_i hl
      rw [hl] at hroot
      exact hwith (soundTree_load hroot hst hb.data)
    · rename_i hl
      rw [hl] at hroot
      exact hwith (hroot.ensureSummaryLsnAtLeast _)
  · split
    · exact hwith (soundTree_load hb.btree hst hb.data)
    · exact hwith hb.btree

theorem Below.recoverEager (hb : Below any h s ds) :
    TiersFrom any h s.recoverEager.datafile s.recoverEager.committed s.recoverEager.btree
      VersionChainStore.empty ds := by
  have hroot := hb.btree.loadRoot hb.root
  have hwith : ∀ {t : PagedBTree}, SoundTree (h.HasVersion any) t →
      TiersFrom any h s.datafile s.datafile.load t VersionChainStore.empty ds := fun ht =>
    ⟨hb.stores, hb.data, fun key x hx => hb.data _ (hb.stores.load_find? hx), ht, by
      intro key n hn
      simp at hn⟩
  unfold ShardEngine.recoverEager
  simp only
  split
  · split
    · rename_i hl
      rw [hl] at hroot
      exact hwith (soundTree_load hroot hb.stores hb.data)
    · rename_i hl
      rw [hl] at hroot
      exact hwith (hroot.ensureSummaryLsnAtLeast _)
  · exact hwith (soundTree_load hb.btree hb.stores hb.data)

theorem Below.recoverTiers (hb : Below any h s ds) :
    TiersFrom any h (recoverTiers s).datafile (recoverTiers s).committed (recoverTiers s).btree
      VersionChainStore.empty ds := by
  unfold EBTree.Engine.recoverTiers
  split
  · exact hb.recoverLazy
  · exact hb.recoverEager

/-! ## Reopening -/

/-- What the files of a shard hold was written. -/
structure FilesFrom (any : Bool) (h : History) (f : ShardFiles) (rs : List WalRecord)
    (ds : List DataRecord) : Prop where
  log : LogFrom any h ((WalWriter.open f.wal).ensureMinLsn f.superblock.walLsn)
    f.superblock.walLsn rs
  inRange : ∀ w ∈ h.writes, w.record.InRange
  ordered : h.writes.Pairwise (·.record.lsn < ·.record.lsn)
  data_eq : f.data = dataBytes ds
  stored : ∀ r ∈ ds, r.InRange
  data : ∀ r ∈ ds, h.Counts any r
  pages : Good (h.HasVersion any) PageOffset (PageFile.open f.pages)
  root : kPageFileHeaderSize ≤ f.superblock.activeRoot → kPageSize ∣ f.superblock.activeRoot
  didx : ∀ ix, f.didx = some ix → Leads ix ds
  vidx : ∀ v, f.vidx = some v → ChainsFrom any h v

/-- No files hold nothing. -/
theorem FilesFrom.none : FilesFrom any History.empty ShardFiles.none [] [] := by
  obtain ⟨hmin, hmax⟩ := Logs.fresh.ensureMinLsn 0
  exact
    { log := ⟨hmin, by simp, by simp, by simp [History.empty], Nat.zero_le _⟩
      inRange := by simp [History.empty]
      ordered := List.Pairwise.nil
      data_eq := rfl
      stored := by simp
      data := by simp
      pages := (good_new : Good _ _ PageFile.new).open
      root := fun hle => absurd (show kPageFileHeaderSize ≤ 0 from hle) (by decide)
      didx := fun ix hix => by cases hix
      vidx := fun v hv => by cases hv }

/-- The files of an engine that keeps the invariant. -/
theorem Inv.files (hi : Inv any h s rs ds) : FilesFrom any h s.files rs ds := by
  obtain ⟨hlogs, -⟩ := hi.log.logs.reopen
  obtain ⟨hmin, hmax⟩ := hlogs.ensureMinLsn s.superblock.walLsn
  refine
    { log := ⟨hmin, hi.log.logged, hi.log.commits, hi.log.covered, ?_⟩
      inRange := hi.inRange
      ordered := hi.ordered
      data_eq := hi.tiers.stores.file_eq
      stored := hi.tiers.stores.inRange
      data := hi.tiers.data
      pages := ?_
      root := hi.root
      didx := hi.didx
      vidx := hi.vidx }
  · show s.superblock.walLsn ≤ ((WalWriter.open s.wal.file).ensureMinLsn s.superblock.walLsn).maxLsn
    rw [hmax]
    exact Nat.le_max_right _ _
  · show Good _ _ (PageFile.open ((s.btree.pageFile.map (·.file)).getD []))
    cases hpf : s.btree.pageFile with
    | none => exact (good_new : Good _ _ PageFile.new).open
    | some pf => exact (hi.tiers.btree.pages pf hpf).open

variable {f : ShardFiles}

theorem FilesFrom.below (hf : FilesFrom any h f rs ds) (opts : EngineOptions) :
    Below any h { created opts f with
      sb := f.superblock, stableLsn := f.superblock.dataLsn } ds where
  stores := ⟨hf.data_eq, hf.stored, leads_empty ds⟩
  data := hf.data
  btree := SoundTree.new hf.pages _
  root := hf.root
  didx := hf.didx

/-- **An engine opened on such files** keeps the invariant. -/
theorem FilesFrom.open (hf : FilesFrom any h f rs ds) (opts : EngineOptions) :
    Inv any h (ShardEngine.open opts f) rs ds := by
  have htiers := (hf.below opts).recoverTiers
  obtain ⟨state, hopen⟩ := open_eq opts f
  have hframe := recoverTiers_frame (loading opts f)
  generalize hs1 : recoverTiers (loading opts f) = s1 at hopen hframe
  have htiers : TiersFrom any h s1.datafile s1.committed s1.btree VersionChainStore.empty ds :=
    hs1 ▸ htiers
  have hmemtable : MemFrom any h (if opts.recoveryStrategy = .kFullReplay then
      replayPending (WalWriter.open f.wal).file SortedMap.empty f.superblock.walLsn
      else SortedMap.empty) := by
    split
    · have hfile : (WalWriter.open f.wal).file
          = ((WalWriter.open f.wal).ensureMinLsn f.superblock.walLsn).file := rfl
      rw [hfile]
      exact hf.log.replayPending memFrom_empty _
    · exact memFrom_empty
  have hchains : ChainsFrom any h
      (f.vidx.getD (VersionChainStore.rebuildFromDataFile s1.datafile)) := by
    cases hv : f.vidx with
    | some v => exact hf.vidx v hv
    | none =>
      intro key n hn
      obtain ⟨r, hr, hk, hl⟩ := VersionChainStore.mem_rebuildFromDataFile hn
      exact ⟨r, htiers.data r (htiers.stores.mem_rebuildRecords.1 hr), hk, hl⟩
  have hsb : s1.sb = f.superblock := by rw [hframe]; rfl
  have hsuper : s1.superblock = f.superblock := by rw [hframe]; rfl
  have himm : s1.immutable = SortedMap.empty := by rw [hframe]; rfl
  have hflu : s1.flushing = SortedMap.empty := by rw [hframe]; rfl
  have hdidx : s1.didx = f.didx := by rw [hframe]; rfl
  have hvidx : s1.vidx = f.vidx := by rw [hframe]; rfl
  rw [hopen]
  exact
    { log := by simpa only [hsuper] using hf.log
      inRange := hf.inRange
      ordered := hf.ordered
      memtable := hmemtable
      immutable := by simpa only [himm] using memFrom_empty
      flushing := by simpa only [hflu] using memFrom_empty
      tiers := { htiers with chains := hchains }
      didx := by simpa only [hdidx] using hf.didx
      vidx := by simpa only [hvidx] using hf.vidx
      root := by simpa only [hsuper] using hf.root
      sb := by simp only [hsb, hsuper] }

/-- **The invariant is there again** in an engine opened on the files of another one. -/
theorem Inv.reopen (hi : Inv any h s rs ds) (opts : EngineOptions) :
    Inv any h (ShardEngine.open opts s.files) rs ds := hi.files.open opts

end EBTree.Engine
