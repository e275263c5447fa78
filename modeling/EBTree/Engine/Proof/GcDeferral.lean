import EBTree.Engine.GcDeferral
import EBTree.Engine.Proof.StoredRecord

/-!
# What puts a swap off

* `PinRun.counted`: a pinned snapshot is counted.
* `protected_iff`: the swap is put off and the headers are read exactly if the checksum of the
  records is that of an address, apart from the swaps that a pin or the size puts off.
* `swap_deferred_pinned`: in fact no swap happens while a snapshot is pinned, because of the count.
* `header_unreadable`: a header that cannot be read.
-/

set_option autoImplicit false

namespace EBTree.Engine

open Lib Codec

/-! ## Pins -/

/-- **A pinned snapshot is counted.** -/
theorem PinRun.counted {p : SnapshotPins} (hr : PinRun p) : 0 < p.pinnedLsn → 0 < p.count := by
  induction hr with
  | none => exact fun h => absurd h (by decide)
  | @pin p lsn _ hroom _ =>
    intro _
    show 0 < p.count + 1
    rw [UInt32.lt_iff_toNat_lt, UInt32.toNat_add, UInt32.toNat_one, Nat.mod_eq_of_lt hroom]
    exact Nat.succ_pos _
  | @release p _ hpos ih =>
    intro h
    show 0 < p.count - 1
    rw [UInt32.lt_iff_toNat_lt] at hpos ⊢
    have hne : p.count ≠ 1 := by
      intro he
      simp [SnapshotPins.releaseSnapshot, he] at h
    have hle : (1 : UInt32) ≤ p.count := UInt32.le_iff_toNat_le.2 hpos
    rw [UInt32.toNat_sub_of_le _ _ hle]
    have hone : p.count.toNat ≠ 1 := fun he => hne (UInt32.toNat_inj.1 he)
    have hpos' : 0 < p.count.toNat := hpos
    show 0 < p.count.toNat - 1
    omega

/-! ## Reading headers -/

namespace GcView

variable {g : GcView} {lsn : Nat} {bs : Bytes}

/-- **`ReadHeaderAtLsn`** reads a header if its checksum is that of the address. -/
theorem readHeaderAtLsn_ok : g.datafile.readHeaderAtLsn g.hdrAddr lsn = .ok bs ↔
    g.headerAt lsn = some bs ∧ leNat (fieldAt bs 16 4) = g.addressCrc := by
  unfold DataFile.readHeaderAtLsn headerAt addressCrc
  cases g.datafile.lsnIndex.find? lsn with
  | none => simp
  | some offset =>
    simp only [Option.bind_some]
    cases readAt? g.datafile.file offset kDataHeaderSize with
    | none => simp
    | some hdr =>
      by_cases hcrc : leNat (fieldAt hdr 16 4) = (crc32 ((le 8 g.hdrAddr.toNat).take 4)).toNat
      · simp only [hcrc, ne_eq, not_true_eq_false, if_false, Except.ok.injEq, Option.some.injEq]
        exact ⟨fun he => ⟨he, he ▸ hcrc⟩, fun he => he.1⟩
      · simp only [ne_eq, hcrc, not_false_eq_true, if_true, Option.some.injEq]
        refine ⟨fun he => (by cases he), ?_⟩
        rintro ⟨rfl, he⟩
        exact absurd he hcrc

/-- The loop of `MaybeGcSwap`. -/
theorem gcDefers_eq_true {refs : List Nat} :
    g.datafile.gcDefers g.hdrAddr g.reclaimGeneration refs = true ↔
      ∃ lsn ∈ refs, ∃ bs, g.headerAt lsn = some bs ∧ leNat (fieldAt bs 16 4) = g.addressCrc ∧
        reservedByte bs 0 = g.reclaimGeneration := by
  rw [DataFile.gcDefers, List.any_eq_true]
  refine exists_congr fun lsn => and_congr_right fun _ => ?_
  cases hr : g.datafile.readHeaderAtLsn g.hdrAddr lsn with
  | error e =>
    refine ⟨fun h => absurd h Bool.false_ne_true, ?_⟩
    rintro ⟨bs, hh, hcrc, -⟩
    rw [readHeaderAtLsn_ok.2 ⟨hh, hcrc⟩] at hr
    cases hr
  | ok hdr =>
    obtain ⟨hh, hcrc⟩ := readHeaderAtLsn_ok.1 hr
    simp only [decide_eq_true_eq]
    refine ⟨fun he => ⟨hdr, hh, hcrc, he⟩, ?_⟩
    rintro ⟨bs, hh', -, he⟩
    cases hh.symm.trans hh'
    exact he

/-- **What puts a swap off.** -/
theorem swaps_eq_false : g.swaps = false ↔
    g.gcReclaimThresholdBytes = 0 ∨ g.defers = true ∨ 0 < g.pins.count ∨
      g.datafile.file.length < g.gcReclaimThresholdBytes := by
  unfold swaps
  by_cases h0 : g.gcReclaimThresholdBytes = 0
  · simp [h0]
  · by_cases hd : g.defers = true
    · simp [h0, hd]
    · by_cases hc : 0 < g.pins.count
      · simp [h0, hd, hc]
      · by_cases hl : g.datafile.file.length < g.gcReclaimThresholdBytes
        · simp [h0, hd, hc, hl]
        · simp [h0, hd, hc, hl]

/-- The loop finds a header whose checksum is that of the address it is read to, and whose codec is
the generation that is reclaimed. -/
def FoundByChance (g : GcView) : Prop :=
  0 < g.pins.pinnedLsn ∧ ∃ lsn ∈ g.vcs.referencedLsnsAbove g.pins.pinnedLsn, ∃ bs,
    g.headerAt lsn = some bs ∧ leNat (fieldAt bs 16 4) = g.addressCrc ∧
      reservedByte bs 0 = g.reclaimGeneration

theorem defers_eq_true : g.defers = true ↔ g.FoundByChance := by
  rw [defers, Bool.and_eq_true, decide_eq_true_eq, gcDefers_eq_true, FoundByChance]

/-- **The region is protected** exactly if a swap that would hide a version is put off by a counted
pin, by the threshold or by chance, and the checksum of every intact record that is indexed is that
of the address. -/
theorem protected_iff (g : GcView) : g.Protected ↔
    (g.NeedsRegion → g.gcReclaimThresholdBytes = 0 ∨ g.FoundByChance ∨ 0 < g.pins.count ∨
      g.datafile.file.length < g.gcReclaimThresholdBytes) ∧
    ∀ lsn bs, g.headerAt lsn = some bs → DataRecordHeader.verifyCrc bs = true →
      leNat (fieldAt bs 16 4) = g.addressCrc := by
  constructor
  · intro h
    refine ⟨fun hneeds => ?_, fun lsn bs hh hv => (readHeaderAtLsn_ok.1 (h.headers lsn bs hh hv)).2⟩
    rw [← defers_eq_true]
    exact swaps_eq_false.1 (h.deferred hneeds)
  · rintro ⟨hdef, hcrc⟩
    refine ⟨fun hneeds => ?_, fun lsn bs hh hv => readHeaderAtLsn_ok.2 ⟨hh, hcrc lsn bs hh hv⟩⟩
    have h := hdef hneeds
    rw [← defers_eq_true] at h
    exact swaps_eq_false.2 h

/-- **No swap happens while a snapshot is pinned**: the pins are counted. -/
theorem swap_deferred_pinned (hr : PinRun g.pins) (hpin : 0 < g.pins.pinnedLsn) :
    g.swaps = false :=
  swaps_eq_false.2 (.inr (.inr (.inl (hr.counted hpin))))

/-- A put of generation one, its version in the chains, and a snapshot pinned below it. -/
def pinned : GcView where
  datafile := DataFile.appendStored ⟨[], SortedMap.empty⟩ ⟨5, [107], [118], false, 0, 1⟩
  hdrAddr := 0
  vcs := (VersionChainStore.empty.append [107] 5 0).1
  pins := SnapshotPins.none.pinSnapshot 3
  reclaimGeneration := 1
  gcReclaimThresholdBytes := 1

/-- **A header that cannot be read**, of an intact record that is indexed. -/
theorem header_unreadable : ¬ ∀ g : GcView, PinRun g.pins → 0 < g.pins.pinnedLsn → g.Protected := by
  intro hall
  have hr : PinRun pinned.pins := PinRun.none.pin 3 (by decide)
  have hp := hall pinned hr (by decide)
  have hread : ∃ bs, pinned.headerAt 5 = some bs ∧ DataRecordHeader.verifyCrc bs = true ∧
      leNat (fieldAt bs 16 4) ≠ pinned.addressCrc :=
    ⟨(StoredRecord.mk 5 [107] [118] false 0 1).header, by decide +kernel, by decide +kernel,
      by decide +kernel⟩
  obtain ⟨bs, hh, hv, hne⟩ := hread
  exact hne (readHeaderAtLsn_ok.1 (hp.headers 5 bs hh hv)).2

end GcView

end EBTree.Engine
