import EBTree.Engine.Shard

/-!
# Opening a shard

`OpenInternal` and `RecoverFromSuperBlock` (`shard_engine.cc`): the state of an engine made from the
files of its shard. The files are what they were when the engine that wrote them went away.
-/

set_option autoImplicit false

namespace EBTree.Engine

open Lib Wal BTree

/-- The files of a shard. -/
structure ShardFiles where
  wal : Bytes
  data : Bytes
  pages : Bytes
  superblock : SuperBlock
  didx : Option (SortedMap Nat Nat)
  vidx : Option VersionChainStore

/-- No files. -/
def ShardFiles.none : ShardFiles := ⟨[], [], [], SuperBlock.none, Option.none, Option.none⟩

/-- `HasPendingOnDisk`. -/
def hasPendingOnDisk (f : Bytes) (afterLsn : Nat) : Bool :=
  if detectFormatV2OnDisk f then
    !(scanWalV2Sparse f afterLsn).isEmpty ||
      -- `ScanMaxLsnV1AfterMagic`
      ((rawReaderV1 f).scan f.length 8).any fun x => afterLsn < x.2.lsn
  else !(scanWalV1 f afterLsn).isEmpty

/-- `HasUnreplayedWal`. -/
def hasUnreplayedWal (wal : WalWriter) (afterLsn : Nat) : Bool :=
  decide (afterLsn < wal.maxLsn) || hasPendingOnDisk wal.file afterLsn

namespace ShardEngine

/-- The files an engine has written. -/
def files (s : ShardEngine) : ShardFiles where
  wal := s.wal.file
  data := s.datafile.file
  pages := (s.btree.pageFile.map (·.file)).getD []
  superblock := s.superblock
  didx := s.didx
  vidx := s.vidx

/-- The engine before `Recover`. -/
def created (opts : EngineOptions) (f : ShardFiles) : ShardEngine where
  opts := opts
  wal := WalWriter.open f.wal
  datafile := ⟨f.data, SortedMap.empty⟩
  superblock := f.superblock
  btree := { PagedBTree.new (some (PageFile.open f.pages)) with
    preferHistogramSummary := opts.preferHistogramSummary }
  vcs := VersionChainStore.empty
  memtable := SortedMap.empty
  immutable := SortedMap.empty
  flushing := SortedMap.empty
  committed := SortedMap.empty
  stableLsn := 0
  groupCommit := ⟨0, 0⟩
  sb := SuperBlock.none
  recoveryMode := .kHot
  recoveryState := .kCommittedHot
  lazyRootCorrupt := false
  walReplayPending := false
  snapshotPinCount := 0
  pinnedSnapshotLsn := 0
  sfsCache := ⟨[]⟩
  didx := f.didx
  vidx := f.vidx

/-- The tree and the mode where there is no root to load, or none that loads. -/
def healed (s : ShardEngine) (lsns : SortedMap Key Nat) : ShardEngine :=
  { s with
    btree := s.btree.loadFromMap lsns
    lazyRootCorrupt := true
    recoveryMode := .kLazy }

/-- The committed values and the tree with `lazy_committed_load`. -/
def recoverLazy (s : ShardEngine) : ShardEngine :=
  let s :=
    { s with
      committed := SortedMap.empty
      datafile := s.datafile.buildLsnIndex s.didx
      lazyRootCorrupt := false
      recoveryMode := .kHot }
  if kPageFileHeaderSize ≤ s.sb.activeRoot then
    match s.btree.loadRoot s.sb.activeRoot with
    | (btree, .error _) => { s with btree := btree }.healed (s.datafile.load.mapValues (·.2))
    | (btree, .ok ()) => { s with btree := btree.ensureSummaryLsnAtLeast s.stableLsn }
  else if 0 < s.sb.epoch ∧ s.sb.activeRoot = 0 then s.healed (s.datafile.load.mapValues (·.2))
  else s

/-- The committed values and the tree without it. -/
def recoverEager (s : ShardEngine) : ShardEngine :=
  let s := { s with committed := s.datafile.load }
  let s :=
    if kPageFileHeaderSize ≤ s.sb.activeRoot then
      match s.btree.loadRoot s.sb.activeRoot with
      | (btree, .error _) => { s with btree := btree.loadFromMap s.committedLsns }
      | (btree, .ok ()) => { s with btree := btree.ensureSummaryLsnAtLeast s.stableLsn }
    else { s with btree := s.btree.loadFromMap s.committedLsns }
  let rootMissing : Bool := decide (0 < s.sb.epoch ∧ s.sb.activeRoot = 0)
  { s with
    lazyRootCorrupt := rootMissing
    recoveryMode := if rootMissing then .kLazy else .kHot }

/-- `RecoverFromSuperBlock`. -/
def recoverFromSuperBlock (s : ShardEngine) (sb : SuperBlock) : ShardEngine :=
  let s := { s with sb := sb, stableLsn := sb.dataLsn }
  let s := if s.opts.lazyCommittedLoad then s.recoverLazy else s.recoverEager
  let s :=
    if s.opts.recoveryStrategy = .kFullReplay then
      { s with
        walReplayPending := false
        memtable := replayPending s.wal.file s.memtable sb.walLsn }
    else { s with walReplayPending := hasUnreplayedWal s.wal sb.walLsn }
  s.refreshRecoveryState

/-- `OpenInternal`. -/
def «open» (opts : EngineOptions) (f : ShardFiles) : ShardEngine :=
  let s := (created opts f).recoverFromSuperBlock f.superblock
  { s with
    wal := s.wal.ensureMinLsn s.sb.walLsn
    vcs := f.vidx.getD (VersionChainStore.rebuildFromDataFile s.datafile) }

/-- `RecoverFull`. -/
def recoverFull (s : ShardEngine) : ShardEngine :=
  { s with walReplayPending := false }.ensureWalReplayed

end ShardEngine
end EBTree.Engine
