import EBTree.Engine.StoredRecord
import EBTree.Engine.VersionChain

/-!
# Whether a swap is put off

`MaybeGcSwap`, `PinSnapshot` and `ReleaseSnapshot` (`shard_engine.cc`) with `ReferencedLsnsAbove`
(`version_chain_store.cc`): what is asked before the generations are swapped.
-/

set_option autoImplicit false

namespace EBTree.Engine

open Lib

/-- `ReferencedLsnsAbove`. -/
def VersionChainStore.referencedLsnsAbove (v : VersionChainStore) (minLsn : Nat) : List Nat :=
  ((v.chains.entries.flatMap fun c =>
    ((v.mergedChain c.1).map (·.lsn)).filter fun lsn => minLsn < lsn).mergeSort (· ≤ ·)).dedup

/-- `snapshot_pin_count_` and `pinned_snapshot_lsn_`. -/
structure SnapshotPins where
  count : UInt32
  pinnedLsn : Nat
  deriving DecidableEq, Repr

namespace SnapshotPins

def none : SnapshotPins := ⟨0, 0⟩

/-- `PinSnapshot`. -/
def pinSnapshot (p : SnapshotPins) (lsn : Nat) : SnapshotPins where
  count := p.count + 1
  pinnedLsn := if p.pinnedLsn = 0 ∨ lsn < p.pinnedLsn then lsn else p.pinnedLsn

/-- `ReleaseSnapshot`. -/
def releaseSnapshot (p : SnapshotPins) : SnapshotPins where
  count := p.count - 1
  pinnedLsn := if p.count = 1 then 0 else p.pinnedLsn

end SnapshotPins

/-- The pins of calls in which a snapshot is released that is pinned, and fewer than `2 ^ 32` are. -/
inductive PinRun : SnapshotPins → Prop
  | none : PinRun SnapshotPins.none
  | pin {p : SnapshotPins} (lsn : Nat) : PinRun p → p.count.toNat + 1 < 2 ^ 32 →
      PinRun (p.pinSnapshot lsn)
  | release {p : SnapshotPins} : PinRun p → 0 < p.count → PinRun p.releaseSnapshot

/-- What `MaybeGcSwap` looks at. -/
structure GcView where
  datafile : DataFile
  /-- The address of the header that `ReadHeaderAtLsn` reads to. -/
  hdrAddr : UInt64
  vcs : VersionChainStore
  pins : SnapshotPins
  reclaimGeneration : UInt8
  gcReclaimThresholdBytes : Nat

namespace GcView

/-- Whether the loop over the referenced LSNs puts the swap off. -/
def defers (g : GcView) : Bool :=
  0 < g.pins.pinnedLsn && g.datafile.gcDefers g.hdrAddr g.reclaimGeneration
    (g.vcs.referencedLsnsAbove g.pins.pinnedLsn)

/-- Whether `MaybeGcSwap` swaps the regions. -/
def swaps (g : GcView) : Bool :=
  if g.gcReclaimThresholdBytes = 0 then false
  else if g.defers then false
  else if 0 < g.pins.count then false
  else if g.datafile.file.length < g.gcReclaimThresholdBytes then false
  else true

/-- The header the index leads to. -/
def headerAt (g : GcView) (lsn : Nat) : Option Bytes :=
  (g.datafile.lsnIndex.find? lsn).bind fun offset => readAt? g.datafile.file offset kDataHeaderSize

/-- The checksum `ReadHeaderAtLsn` expects. -/
def addressCrc (g : GcView) : Nat := (crc32 ((le 8 g.hdrAddr.toNat).take 4)).toNat

/-- A version above the pinned snapshot is in an intact record of the generation that is reclaimed. -/
def NeedsRegion (g : GcView) : Prop :=
  ∃ lsn ∈ g.vcs.referencedLsnsAbove g.pins.pinnedLsn, ∃ bs, g.headerAt lsn = some bs ∧
    DataRecordHeader.verifyCrc bs = true ∧ recordGeneration bs = g.reclaimGeneration

/-- The swap is put off while the region is needed, and the header of every intact record that is
indexed can be read. -/
structure Protected (g : GcView) : Prop where
  deferred : g.NeedsRegion → g.swaps = false
  headers : ∀ lsn bs, g.headerAt lsn = some bs → DataRecordHeader.verifyCrc bs = true →
    g.datafile.readHeaderAtLsn g.hdrAddr lsn = .ok bs

end GcView

end EBTree.Engine
