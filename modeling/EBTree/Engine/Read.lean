import EBTree.Engine.Shard

/-!
# Reading

`SnapshotResolver`, `ReadResolver`, `ScanResolver` and the reads of `ShardEngine`
(`snapshot_resolver.cc`, `read_resolver.cc`, `scan_resolver.cc`, `shard_scan_values.cc`,
`shard_engine.cc`). A read hands out a `Version`, the value with the LSN of the record it was taken
from.
-/

set_option autoImplicit false

namespace EBTree.Engine

open Lib Wal BTree

namespace ShardEngine

def lookupMemTable (s : ShardEngine) (key : Key) : Option MemTableEntry :=
  (s.memtable.find? key).or ((s.immutable.find? key).or (s.flushing.find? key))

/-- What `btree_.Get` finds; `none` when it does not return. -/
def btreeGet (s : ShardEngine) (key : Key) : Option (Option Nat) :=
  (s.btree.get key).map fun r =>
    match r with
    | .ok lsn => some lsn
    | .error _ => none

/-- `LatestCommittedLsnForKey`. -/
def latestCommittedLsnForKey (f : Bytes) (key : Key) (afterLsn : Nat) : Nat :=
  if detectFormatV2OnDisk f then
    let v2 := scanWalV2Records f afterLsn
    v2.dataRecords.foldl (fun best r =>
      if r.key = key ∧ r.txnId ∉ v2.abortedTxns ∧ (r.txnId = 0 ∨ r.txnId ∈ v2.committedTxns) ∧
        best ≤ r.lsn then r.lsn else best) 0
  else
    (scanWalV1 f afterLsn).foldl
      (fun best r => if r.key = key ∧ best ≤ r.lsn then r.lsn else best) 0

/-- The part of a log record `TryWalSnapshotFloor` looks for. -/
structure WalFloor where
  lsn : Nat
  value : Value
  deleted : Bool

/-- `TryWalSnapshotFloor`. -/
def tryWalSnapshotFloor (s : ShardEngine) (key : Key) (snapshotLsn : Nat) : Option WalFloor :=
  if snapshotLsn = 0 ∨ s.recoveryMode = .kHot ∨ !s.walReplayPending then none
  else
    let f := s.wal.file
    let bestLsn := latestCommittedLsnForKey f key s.sb.walLsn
    if bestLsn = 0 ∨ snapshotLsn < bestLsn then none
    else
      let rs := ((rawReaderV2 f).scan f.length
        (walDataOffsetOnDisk f (detectFormatV2OnDisk f))).map (·.2)
      match rs.find? fun r => r.lsn = bestLsn ∧ r.key = key with
      | some r =>
        some ⟨bestLsn, if r.op = WalOp.kPut.code then r.value else [], r.op = WalOp.kDelete.code⟩
      | none => some ⟨bestLsn, [], false⟩

/-! ## Point reads -/

/-- A read of the data file that decides the outcome: a value, or the failure to find one. -/
def decisive (r : Except Status Version) : Option (Except Status Version) :=
  match r with
  | .ok v => some (.ok v)
  | .error e => if e.code = .kNotFound then some (.error e) else none

/-- What a memtable entry answers to a reader. -/
def memAnswer (e : MemTableEntry) : Except Status Version :=
  if e.deleted then .error (Status.notFound "deleted in memtable") else .ok ⟨e.lsn, e.value⟩

/-- The memtables, where they hold an entry that is visible. -/
def memTier (s : ShardEngine) (key : Key) (ctx : SnapshotReadContext) :
    Option (Except Status Version) :=
  match s.lookupMemTable key with
  | some e => if memEntryVisible e ctx then some (memAnswer e) else none
  | none => none

/-- The map of committed values, up to the snapshot. -/
def committedTier (s : ShardEngine) (key : Key) (snapshotLsn : Nat) :
    Option (Except Status Version) :=
  match s.committed.find? key with
  | some (value, lsn) =>
    if snapshotLsn = 0 ∨ lsn ≤ snapshotLsn then some (.ok ⟨lsn, value⟩) else none
  | none => none

/-- The version the tree holds, read off the data file. -/
def btreeTier (s : ShardEngine) (hit : Option Nat) (snapshotLsn : Nat) :
    Option (Except Status Version) :=
  match hit with
  | some lsn =>
    if snapshotLsn = 0 ∨ lsn ≤ snapshotLsn then decisive (s.datafile.readByLsn lsn) else none
  | none => none

/-- The newest version of the chain at the snapshot, read off the data file. -/
def chainTier (s : ShardEngine) (key : Key) (snapshotLsn : Nat) : Option (Except Status Version) :=
  if 0 < s.vcs.floor key snapshotLsn then
    decisive (s.datafile.readByLsn (s.vcs.floor key snapshotLsn))
  else none

/-- The log, while its tail is not replayed. -/
def walTier (s : ShardEngine) (key : Key) (snapshotLsn : Nat) : Option (Except Status Version) :=
  match s.tryWalSnapshotFloor key snapshotLsn with
  | some w =>
    if w.deleted then some (.error (Status.notFound "deleted at snapshot"))
    else if w.value ≠ [] then some (.ok ⟨w.lsn, w.value⟩)
    else decisive (s.datafile.readByLsn w.lsn)
  | none => none

/-- The status when no tier answered. -/
def missing (hit : Option Nat) (snapshotLsn : Nat) : Except Status Version :=
  match hit with
  | some lsn =>
    if 0 < snapshotLsn ∧ snapshotLsn < lsn then
      .error (Status.notFound "not visible at snapshot")
    else .error (Status.notFound "key not found")
  | none => .error (Status.notFound "key not found")

/-- `SnapshotResolver::ResolveAtSnapshot`, which is `ReadVisible`: the first tier that answers. -/
def resolveAtSnapshot (s : ShardEngine) (key : Key) (ctx : SnapshotReadContext) :
    Option (Except Status Version) :=
  match (s.memTier key ctx).or (s.committedTier key ctx.snapshotLsn) with
  | some r => some r
  | none =>
    (s.btreeGet key).map fun hit =>
      ((s.btreeTier hit ctx.snapshotLsn).or ((s.chainTier key ctx.snapshotLsn).or
        (s.walTier key ctx.snapshotLsn))).getD (missing hit ctx.snapshotLsn)

/-- The LSN `GetAtSnapshotCore` reads the data file at, `0` for none. -/
def diskLsn (s : ShardEngine) (key : Key) (snapshotLsn : Nat) (hit : Option Nat) : Nat :=
  match hit with
  | some forward =>
    if snapshotLsn = 0 ∨ forward ≤ snapshotLsn then forward else s.vcs.floor key snapshotLsn
  | none => s.vcs.floor key snapshotLsn

/-- `GetAtSnapshotCore`. -/
def getAtSnapshotCore (s : ShardEngine) (key : Key) (ctx : SnapshotReadContext) :
    Option (Except Status Version) :=
  match (s.memTier key ctx).or (s.committedTier key ctx.snapshotLsn) with
  | some r => some r
  | none =>
    match s.btreeGet key with
    | none => none
    | some hit =>
      if s.diskLsn key ctx.snapshotLsn hit = 0 then s.resolveAtSnapshot key ctx
      else
        match decisive (s.datafile.readByLsn (s.diskLsn key ctx.snapshotLsn hit)) with
        | some r => some r
        | none => s.resolveAtSnapshot key ctx

/-- `RepairSummary`. -/
def repairSummary (s : ShardEngine) : ShardEngine :=
  { s with
    btree := (if s.btree.onDiskMode then s.btree.rebuildSummaryFromCommitted s.committedLsns
      else s.btree.loadFromMap s.committedLsns).ensureSummaryLsnAtLeast s.stableLsn }

/-- `PrepareSnapshotReadLocked`, which does nothing when `SnapshotReadNeedsUpgrade` is false. -/
def prepareSnapshotRead (s : ShardEngine) (snapshotLsn : Nat) : ShardEngine :=
  let s :=
    if s.walReplayPending ∧ s.recoveryMode ≠ .kLazy then s.ensureWalReplayed.refreshRecoveryState
    else s
  if 0 < snapshotLsn ∧ s.btree.summary.summaryLsn < snapshotLsn then s.repairSummary else s

def getAtSnapshot (s : ShardEngine) (key : Key) (ctx : SnapshotReadContext) :
    Option (ShardEngine × Except Status Version) :=
  if key = [] then some (s, .error (Status.invalidArgument "InvalidPlan: empty key"))
  else
    let s := s.prepareSnapshotRead ctx.snapshotLsn
    (s.getAtSnapshotCore key ctx).map fun r => (s, r)

/-! ## Current reads -/

/-- `WalWriter::ReplayRecordAt`, which reads a header of the V1 layout. -/
def replayRecordAt (f : Bytes) (offset : Nat) : Option RawRecord :=
  (readAt? f offset kHeaderSizeV1).map fun bs =>
    let hdr := WalRecordHeader.decode bs
    ⟨hdr.lsn, hdr.op, padTo hdr.keyLen (fieldAt f (offset + kHeaderSizeV1) hdr.keyLen),
      padTo hdr.valueLen (fieldAt f (offset + kHeaderSizeV1 + hdr.keyLen) hdr.valueLen)⟩

/-- The record the key index of the log leads to. -/
def walRecordOf (s : ShardEngine) (key : Key) : Option RawRecord :=
  (s.wal.keyIndex.lookup key s.sb.walLsn).bind (replayRecordAt s.wal.file)

/-- `RestoreKeyFromWal`, when it succeeds. -/
def restoreKeyFromWal (s : ShardEngine) (key : Key) : Option ShardEngine :=
  (s.walRecordOf key).map fun r =>
    { s with
      memtable :=
        if r.op = WalOp.kDelete.code then MemTable.deleteKey s.memtable key r.lsn 0 true
        else MemTable.put s.memtable key r.value r.lsn 0 true }

/-- Reading a key after it was restored from the log. -/
def readRestored (s : ShardEngine) (key : Key) (snapshotLsn : Nat) :
    Option (ShardEngine × Except Status Version) :=
  (s.resolveAtSnapshot key ⟨0, snapshotLsn⟩).map fun r => (s, r)

/-- The second half of `TryLazyWalOrDisk`: the data file at the LSN of the tree, then the log. -/
def tryDisk (s : ShardEngine) (key : Key) (snapshotLsn : Nat) (hit : Option Nat) :
    Option (ShardEngine × Option Version) :=
  let fromDisk : Option Version :=
    match hit with
    | some lsn =>
      if snapshotLsn = 0 ∨ lsn ≤ snapshotLsn then (s.datafile.readByLsn lsn).toOption else none
    | none => none
  match fromDisk with
  | some v => some (s, some v)
  | none =>
    if s.recoveryMode = .kLazy ∨ s.lazyRootCorrupt then
      match s.restoreKeyFromWal key with
      | some s => (s.readRestored key snapshotLsn).map fun x => (x.1, x.2.toOption)
      | none => some (s, none)
    else some (s, none)

/-- `TryLazyWalOrDisk`. -/
def tryLazyWalOrDisk (s : ShardEngine) (key : Key) (snapshotLsn : Nat) :
    Option (ShardEngine × Option Version) :=
  match s.btreeGet key with
  | none => none
  | some hit =>
    -- a record of the log that is newer than the version of the tree
    let newer : Bool :=
      match hit, s.walRecordOf key with
      | some lsn, some r => s.walReplayPending && decide (lsn < r.lsn)
      | _, _ => false
    if newer then
      match s.restoreKeyFromWal key with
      | some s => (s.readRestored key snapshotLsn).map fun x => (x.1, x.2.toOption)
      | none => s.tryDisk key snapshotLsn hit
    else s.tryDisk key snapshotLsn hit

/-- Whether `Get` turns to the disk after it found nothing. -/
def readsDisk (s : ShardEngine) : Bool := s.opts.lazyCommittedLoad || s.btree.onDiskMode

def isNotFound (r : Except Status Version) : Bool :=
  match r with
  | .error e => e.code = .kNotFound
  | .ok _ => false

/-- `Get` under the exclusive lock. -/
def getExclusive (s : ShardEngine) (key : Key) : Option (ShardEngine × Except Status Version) :=
  let snapshotLsn := s.stableLsn
  let s :=
    if 0 < snapshotLsn ∧ s.btree.summary.summaryLsn < snapshotLsn then s.repairSummary else s
  let s :=
    if s.walReplayPending ∧ s.recoveryMode ≠ .kLazy then s.ensureWalReplayed.refreshRecoveryState
    else s
  match s.resolveAtSnapshot key ⟨0, snapshotLsn⟩ with
  | none => none
  | some (.ok v) => some (s, .ok v)
  | some (.error e) =>
    if s.readsDisk then
      match s.tryLazyWalOrDisk key snapshotLsn with
      | none => none
      | some (s, some v) => some (s, .ok v)
      | some (s, none) => some (s, .error e)
    else some (s, .error e)

/-- `Get` from where nothing was found on the disk: the log, and the exclusive part where the
summary is behind or the log is not replayed. -/
def getRest (s : ShardEngine) (key : Key) (rs : Except Status Version) (stale : Bool) :
    Option (ShardEngine × Except Status Version) :=
  let restored :=
    if s.recoveryMode = .kLazy ∧ isNotFound rs then s.restoreKeyFromWal key else none
  match restored with
  | some s' => s'.readRestored key s.stableLsn
  | none => if !stale && !s.walReplayPending then some (s, rs) else s.getExclusive key

/-- `ReadResolver::Get`. -/
def get (s : ShardEngine) (key : Key) : Option (ShardEngine × Except Status Version) :=
  if key = [] then some (s, .error (Status.invalidArgument "InvalidPlan: empty key"))
  else
    let snapshotLsn := s.stableLsn
    match s.resolveAtSnapshot key ⟨0, snapshotLsn⟩ with
    | none => none
    | some rs =>
      let stale : Bool := decide (0 < snapshotLsn ∧ s.btree.summary.summaryLsn < snapshotLsn)
      if rs.isOk && !stale then some (s, rs)
      else if isNotFound rs && s.readsDisk then
        match s.tryLazyWalOrDisk key snapshotLsn with
        | none => none
        | some (s, some v) => some (s, .ok v)
        | some (s, none) => s.getRest key rs stale
      else s.getRest key rs stale

/-! ## Scans -/

abbrev Hit := Key × Nat
abbrev Row := Key × Version

/-- `Prepare`. -/
def prepare (s : ShardEngine) (plan : TypedPlan) : Except Status Unit :=
  if plan.op = .kEq ∧ plan.key = [] then
    .error (Status.invalidArgument "InvalidPlan: empty key")
  else if plan.op = .kRange ∧ plan.rangeEnd < plan.key then
    .error (Status.invalidArgument "InvalidPlan: range_end before key")
  else if plan.op ≠ .kEq ∧ 0 < plan.snapshotLsn ∧
      s.btree.summary.summaryLsn < plan.snapshotLsn then
    .error (Status.staleSummary "summary behind snapshot")
  else .ok ()

/-- `OverlayCommittedHits`; it does not look at the snapshot. -/
def overlayCommittedHits (s : ShardEngine) (plan : TypedPlan) (hits : List Hit) : List Hit :=
  (s.committedLsns.entries.foldl (fun m e => if planMatches plan e.1 then m.insert e.1 e.2 else m)
    (SortedMap.empty.insertAll hits)).entries

/-- One memtable laid over the hits, `visible` saying which of its entries count. -/
def overlayLayer (plan : TypedPlan) (visible : MemTableEntry → Bool) (m : SortedMap Key Nat)
    (mt : MemTable) : SortedMap Key Nat :=
  mt.entries.foldl (fun m e =>
    if planMatches plan e.1 ∧ visible e.2 then
      if e.2.deleted then m.erase e.1 else m.insert e.1 e.2.lsn
    else m) m

/-- `OverlayMemTableHits`, to which every entry counts. -/
def overlayMemTableHits (s : ShardEngine) (plan : TypedPlan) (hits : List Hit) : List Hit :=
  if s.memTablesEmpty then hits
  else
    let layer := overlayLayer plan fun _ => true
    (layer (layer (layer (SortedMap.empty.insertAll hits) s.flushing) s.immutable) s.memtable).entries

/-- `OverlaySnapshotMemTableHits`. -/
def overlaySnapshotMemTableHits (s : ShardEngine) (plan : TypedPlan) (ctx : SnapshotReadContext)
    (hits : List Hit) : List Hit :=
  let layer := overlayLayer plan (memEntryVisible · ctx)
  (layer (layer (layer (SortedMap.empty.insertAll hits) s.flushing) s.immutable) s.memtable).entries

/-- `EffectiveHitLsn`. -/
def effectiveHitLsn (s : ShardEngine) (hit : Hit) (snapshotLsn : Nat) : Nat :=
  if snapshotLsn = 0 ∨ hit.2 ≤ snapshotLsn then hit.2 else s.vcs.floor hit.1 snapshotLsn

/-- A row before the batch read: its value, or where the data file has it. -/
inductive PartialRow
  | value (v : Version)
  | disk (lsn offset : Nat)

def diskRow (s : ShardEngine) (hit : Hit) (snapshotLsn : Nat) : Option PartialRow :=
  let lsn := s.effectiveHitLsn hit snapshotLsn
  if lsn = 0 then none else (s.datafile.lsnIndex.find? lsn).map (.disk lsn)

/-- The loop over the hits of the general path. -/
def partialRows (s : ShardEngine) (ctx : SnapshotReadContext) :
    List Hit → Option (List (Key × PartialRow))
  | [] => some []
  | hit :: hits =>
    match s.resolveAtSnapshot hit.1 ctx with
    | none => none
    | some (.ok v) => (s.partialRows ctx hits).map ((hit.1, .value v) :: ·)
    | some (.error _) =>
      let row := if s.readsDisk then s.diskRow hit ctx.snapshotLsn else none
      (s.partialRows ctx hits).map (((row.map (hit.1, ·)).toList) ++ ·)

/-- The batch read: one read by LSN for each row when the batch fails. -/
def fillRow (s : ShardEngine) (batchOk : Bool) : PartialRow → Version
  | .value v => v
  | .disk lsn offset =>
    ((if batchOk then s.datafile.readBatchAt offset else s.datafile.readByLsn lsn).toOption).getD
      ⟨lsn, []⟩

def diskOffset : PartialRow → Option Nat
  | .value _ => none
  | .disk _ offset => some offset

/-- The rows with their values; a row whose value is empty is left out. -/
def fillRows (s : ShardEngine) (rows : List (Key × PartialRow)) : List Row :=
  let batchOk := s.datafile.readBatchOk (rows.filterMap fun r => diskOffset r.2)
  (rows.map fun r => (r.1, s.fillRow batchOk r.2)).filter fun r => r.2.value ≠ []

/-- The row of a hit where the values are in memory. -/
def committedRow (s : ShardEngine) (ctx : SnapshotReadContext) (hit : Hit) : Option Row :=
  match s.lookupMemTable hit.1 with
  | some e =>
    if e.deleted ∨ !memEntryVisible e ctx then none else some (hit.1, ⟨e.lsn, e.value⟩)
  | none =>
    match s.committed.find? hit.1 with
    | none => none
    | some (value, lsn) =>
      if 0 < ctx.snapshotLsn ∧ ctx.snapshotLsn < lsn then
        if s.vcs.floor hit.1 ctx.snapshotLsn = 0 then none
        else (s.datafile.readByLsn (s.vcs.floor hit.1 ctx.snapshotLsn)).toOption.map (hit.1, ·)
      else some (hit.1, ⟨lsn, value⟩)

/-- `ResolveScanValues`. -/
def resolveScanValues (s : ShardEngine) (hits : List Hit) (ctx : SnapshotReadContext) :
    Option (List Row) :=
  if s.readsDisk ∧ s.memTablesEmpty ∧ s.committed.isEmpty then
    some (s.fillRows (hits.filterMap fun hit =>
      (s.diskRow hit ctx.snapshotLsn).map (hit.1, ·)))
  else if !s.readsDisk ∧ !s.committed.isEmpty then some (hits.filterMap (s.committedRow ctx))
  else (s.partialRows ctx hits).map s.fillRows

/-- `BTreeScanWithHeal`. -/
def btreeScanWithHeal (s : ShardEngine) (plan : TypedPlan) :
    Option (ShardEngine × Except Status (List Hit)) :=
  match s.btree.scan plan with
  | none => none
  | some (.ok hits) => some (s, .ok hits)
  | some (.error e) =>
    if e.code = .kStaleSummary then
      let s := s.repairSummary
      match s.btree.scan plan with
      | none => none
      | some (.ok hits) => some (s, .ok hits)
      | some (.error e) => if e.code = .kStaleSummary then some (s, .ok []) else some (s, .error e)
    else some (s, .error e)

/-- The scan of the tree with what the memtables and the committed values say over it. -/
def scanPrepared (s : ShardEngine) (plan : TypedPlan) (ctx : SnapshotReadContext) :
    Option (ShardEngine × Except Status (List Row)) :=
  match s.btreeScanWithHeal plan with
  | none => none
  | some (s, .error e) => some (s, .error e)
  | some (s, .ok hits) =>
    let hits := s.overlaySnapshotMemTableHits plan ctx (s.overlayCommittedHits plan hits)
    (s.resolveScanValues hits ctx).map fun rows => (s, .ok rows)

def scanAtSnapshot (s : ShardEngine) (plan : TypedPlan) (ctx : SnapshotReadContext) :
    Option (ShardEngine × Except Status (List Row)) :=
  let plan := { plan with snapshotLsn := ctx.snapshotLsn }
  let s := s.prepareSnapshotRead ctx.snapshotLsn
  match s.prepare plan with
  | .error e => if e.code = .kStaleSummary then s.scanPrepared plan ctx else some (s, .error e)
  | .ok () => s.scanPrepared plan ctx

def canScanCommittedDirect (s : ShardEngine) (plan : TypedPlan) : Bool :=
  if 0 < plan.snapshotLsn ∧ s.btree.summary.summaryLsn < plan.snapshotLsn then false
  else if s.committed.isEmpty ∨ !s.memTablesEmpty then false
  else
    s.recoveryState = .kCommittedCold ||
      (s.recoveryState = .kCommittedHot && !s.opts.lazyCommittedLoad)

def scanCommittedDirect (s : ShardEngine) (plan : TypedPlan) (snapshotLsn : Nat) : List Row :=
  (s.committed.entries.filter fun e =>
    planMatches plan e.1 && (snapshotLsn = 0 || decide (e.2.2 ≤ snapshotLsn))).map
    fun e => (e.1, ⟨e.2.2, e.2.1⟩)

/-- The end of `ScanResolver::Scan`: the overlays and the values. -/
def scanHits (s : ShardEngine) (plan : TypedPlan) (snapshotLsn : Nat) (hits : List Hit) :
    Option (ShardEngine × Except Status (List Row)) :=
  let hits := s.overlayMemTableHits plan hits
  let hits :=
    if s.lazyRootCorrupt ∨ s.sb.activeRoot < kPageFileHeaderSize ∨ !s.btree.onDiskMode then
      s.overlayCommittedHits plan hits
    else hits
  (s.resolveScanValues hits ⟨0, snapshotLsn⟩).map fun rows => (s, .ok rows)

/-- The direct scan of the committed values, or the scan of the tree. -/
def scanTree (s : ShardEngine) (plan : TypedPlan) (snapshotLsn : Nat) :
    Option (ShardEngine × Except Status (List Row)) :=
  if s.canScanCommittedDirect plan then some (s, .ok (s.scanCommittedDirect plan snapshotLsn))
  else
    match s.btreeScanWithHeal plan with
    | none => none
    | some (s, .error e) => some (s, .error e)
    | some (s, .ok hits) => s.scanHits plan snapshotLsn hits

/-- `ScanResolver::Scan`. -/
def scan (s : ShardEngine) (plan : TypedPlan) : Option (ShardEngine × Except Status (List Row)) :=
  let s :=
    if s.walReplayPending ∧ s.recoveryMode ≠ .kLazy then s.ensureWalReplayed.refreshRecoveryState
    else s
  let snapshotLsn := if 0 < plan.snapshotLsn then plan.snapshotLsn else s.stableLsn
  match s.prepare plan with
  | .error e => if e.code = .kStaleSummary then s.scanTree plan snapshotLsn else some (s, .error e)
  | .ok () => s.scanTree plan snapshotLsn

/-! ## Versions of a key -/

/-- `SnapshotResolver::ResolveLsnAtSnapshot`. -/
def resolveLsnAtSnapshot (s : ShardEngine) (key : Key) (snapshotLsn : Nat) :
    Option (ShardEngine × Except Status Nat) :=
  let sEpoch := sfsEpoch snapshotLsn s.sb.walLsn
  let keyHash := s.opts.stdHash key
  let answer (lsn : Nat) : ShardEngine × Except Status Nat :=
    ({ s with sfsCache := s.sfsCache.insert keyHash sEpoch lsn }, .ok lsn)
  match s.sfsCache.lookup keyHash sEpoch with
  | some lsn =>
    some (s, if lsn = 0 then .error (Status.notFound "no version at snapshot") else .ok lsn)
  | none =>
    match s.btreeGet key with
    | none => none
    | some hit =>
      match hit.filter fun forward => snapshotLsn = 0 ∨ forward ≤ snapshotLsn with
      | some forward => some (answer forward)
      | none =>
        if 0 < s.vcs.floor key snapshotLsn then some (answer (s.vcs.floor key snapshotLsn))
        else
          match s.tryWalSnapshotFloor key snapshotLsn with
          | some w =>
            if w.deleted then
              some ({ s with sfsCache := s.sfsCache.insert keyHash sEpoch 0 },
                .error (Status.notFound "deleted at snapshot"))
            else some (answer w.lsn)
          | none => some (s, .error (Status.notFound "no version at snapshot"))

/-- `ConsiderDurableMemLsn`; the second component of the fold is `found`. -/
def considerDurableMemLsn (best : Option Nat) (entry : Option MemTableEntry) : Option Nat :=
  match entry with
  | some e => if e.durable ∧ best.getD 0 ≤ e.lsn then some e.lsn else best
  | none => best

/-- `SnapshotResolver::ResolveCurrentCommittedLsn`: the best LSN, if one was found. -/
def bestCommittedLsn (s : ShardEngine) (key : Key) : Option (Option Nat) :=
  let best := considerDurableMemLsn none (s.flushing.find? key)
  let best := considerDurableMemLsn best (s.immutable.find? key)
  let best := considerDurableMemLsn best (s.memtable.find? key)
  let best :=
    match s.committed.find? key with
    | some (_, lsn) => if best.getD 0 ≤ lsn then some lsn else best
    | none => best
  (s.btreeGet key).map fun hit =>
    let best :=
      match hit with
      | some forward => if best.getD 0 < forward then some forward else best
      | none => best
    if best.getD 0 < s.vcs.head key then some (s.vcs.head key) else best

/-- `RefreshExternalWalIfPending`. -/
def refreshExternalWalIfPending (s : ShardEngine) : ShardEngine :=
  let s := { s with wal := s.wal.syncExternalTailLocked }
  if s.wal.maxLsn ≤ s.sb.walLsn ∧ !s.walReplayPending then s
  else
    { s with
      walReplayPending := s.walReplayPending || decide (s.sb.walLsn < s.wal.maxLsn)
      }.ensureWalReplayed

/-- `ShardEngine::ResolveCurrentCommittedLsn`. -/
def resolveCurrentCommittedLsn (s : ShardEngine) (key : Key) :
    Option (ShardEngine × Except Status Nat) :=
  let s := s.refreshExternalWalIfPending
  (s.bestCommittedLsn key).map fun best =>
    let walLsn := latestCommittedLsnForKey s.wal.file key 0
    let best := if best.getD 0 < walLsn then some walLsn else best
    (s, match best with
      | some lsn => .ok lsn
      | none => .error (Status.notFound "no committed version"))

end ShardEngine
end EBTree.Engine
