import EBTree.Engine.FallbackLoad
import EBTree.Engine.Proof.DatafileLoad
import EBTree.Lib.WriteList

/-!
# The second load of a recovery

The load that failed leaves what it read in the map, and the second one goes on from there.

* `loadDatafileMmap_out`: a load applies its records to the map it is given.
* `fallback_clean_iff`: the second load gives what it would give alone exactly if it takes in a
  record of every key that the first one left in the map.
* `fallback_keeps_leftover`: a key that it does not.
-/

set_option autoImplicit false

namespace EBTree.Engine

open Lib Codec

section
variable {L : LzmaLib} {caps : LoadCaps} {file : Bytes}

/-- A round, on a map. -/
def Round.apply (out : LoadedMap) (mx : Nat) : Round → ParseStep
  | .stop => .stop
  | .fail e => .fail e
  | .skip next => .next next out mx
  | .take next key value lsn => .next next (applyWrite out (key, value)) (max mx lsn)

/-- The map has no say in what a round does. -/
theorem parseStep_eq (pos : Nat) (out : LoadedMap) (mx : Nat) :
    parseStep L caps file 0 pos out mx = (roundAt L caps file pos).apply out mx := by
  unfold parseStep roundAt
  simp only [Nat.zero_add]
  split
  · rfl
  · cases readAt? file pos kDataHeaderSize with
    | none => rfl
    | some bs =>
      simp only
      split
      · rfl
      · split
        · rfl
        · split
          · rfl
          · split
            · rfl
            · split
              · rfl
              · split
                · rfl
                · cases decodeRecordValue L bs
                      (fieldAt file (pos + kDataHeaderSize + (DataRecordHeader.decode bs).keyLen)
                        (DataRecordHeader.decode bs).valueLen) with
                  | error e => rfl
                  | ok decoded =>
                    simp only [Round.apply, applyWrite]
                    cases (DataRecordHeader.decode bs).deleted <;> rfl

theorem parseLoop_out (fuel pos : Nat) (out : LoadedMap) (mx : Nat) :
    (parseLoop L caps file 0 fuel pos out mx).out =
      applyWrites out (takenFrom L caps file fuel pos) := by
  induction fuel generalizing pos out mx with
  | zero => rfl
  | succ fuel ih =>
    rw [parseLoop, takenFrom, parseStep_eq]
    split
    · rfl
    · cases roundAt L caps file pos with
      | stop => rfl
      | fail e => rfl
      | skip next => exact ih next out mx
      | take next key value lsn => exact ih next _ _

/-- **A load** applies its records to the map it is given. -/
theorem loadDatafileMmap_out (hne : file ≠ []) (out : LoadedMap) (mx : Nat) :
    (loadDatafileMmap L caps file kMmapWindowSize out mx).out =
      applyWrites out (takenRecords L caps file) := by
  rw [(loadDatafileMmap_agrees L caps file (show 131090 ≤ kMmapWindowSize by decide)
    fun h => absurd h hne).out, loadRecordsWhole, parseRecordsIncremental, takenRecords,
    ← parseLoop_out file.length 0 out mx]
  split <;> rfl

/-- An empty file does not fail. -/
theorem ne_nil_of_fail {out : LoadedMap} {mx : Nat} {e : Status}
    (h : (loadDatafileMmap L caps file kMmapWindowSize out mx).status = .error e) : file ≠ [] := by
  rintro rfl
  cases h

end

section
variable {L : LzmaLib} {file : Bytes} {datafileSize dataLsn : Nat} {reclaim : UInt8} {caps : LoadCaps}

theorem loadDatafileOnRecover_eq (hcaps : fallbackCaps datafileSize dataLsn reclaim = some caps)
    {out : LoadedMap} {mx : Nat} {e : Status}
    (hfail : (loadDatafileMmap L ⟨0, 0, reclaim⟩ file kMmapWindowSize out mx).status = .error e) :
    loadDatafileOnRecover L file datafileSize dataLsn reclaim out mx =
      loadDatafileMmap L caps file kMmapWindowSize
        (loadDatafileMmap L ⟨0, 0, reclaim⟩ file kMmapWindowSize out mx).out
        (loadDatafileMmap L ⟨0, 0, reclaim⟩ file kMmapWindowSize out mx).maxLsn := by
  unfold fallbackCaps at hcaps
  simp only [loadDatafileOnRecover, hfail]
  split at hcaps
  · cases hcaps
    rename_i hsize
    rw [if_pos hsize]
  · rename_i hsize
    split at hcaps
    · cases hcaps
      rename_i hlsn
      rw [if_neg hsize, if_pos hlsn]
    · cases hcaps

/-- **The second load is as if it were alone** exactly if every key that the records before the
damaged one leave in the map is the key of a record that the second load takes in. -/
theorem fallback_clean_iff (L : LzmaLib) (file : Bytes) (datafileSize dataLsn : Nat) (reclaim : UInt8)
    (caps : LoadCaps) (hcaps : fallbackCaps datafileSize dataLsn reclaim = some caps)
    (hfail : (loadDatafileMmap L ⟨0, 0, reclaim⟩ file kMmapWindowSize SortedMap.empty 0).status ≠
      .ok ()) :
    (loadDatafileOnRecover L file datafileSize dataLsn reclaim SortedMap.empty 0).out =
        (loadDatafileMmap L caps file kMmapWindowSize SortedMap.empty 0).out ↔
      ∀ key value, lastWrite (takenRecords L ⟨0, 0, reclaim⟩ file) key = some (some value) →
        ∃ r ∈ takenRecords L caps file, r.1 = key := by
  cases hs : (loadDatafileMmap L ⟨0, 0, reclaim⟩ file kMmapWindowSize SortedMap.empty 0).status with
  | ok u => exact absurd hs hfail
  | error e =>
    have hne := ne_nil_of_fail hs
    rw [loadDatafileOnRecover_eq hcaps hs, loadDatafileMmap_out hne, loadDatafileMmap_out hne,
      loadDatafileMmap_out hne, applyWrites_over_iff]
    simp only [find?_applyWrites_empty]

/-- A header whose codec is LZ4 with a value too short to be of it. -/
def damagedRecord : Bytes :=
  le 8 3 ++ (le 2 1 ++ (le 2 1 ++ [0, 2, 0, 0])) ++
    (le 4 (crc32 (le 8 3 ++ (le 2 1 ++ (le 2 1 ++ [0, 2, 0, 0])))).toNat ++ [99, 0])

/-- A put that the snapshot has, a put after it, and a record that cannot be decoded. -/
def damagedFile : Bytes :=
  (DataRecord.mk 1 [97] [1] false).encode ++
    ((DataRecord.mk 2 [98] [2] false).encode ++ damagedRecord)

/-- A file whose second load covers the first. -/
theorem fallback_clean_iff_covered :
    (loadDatafileOnRecover noLzma ((DataRecord.mk 1 [97] [1] false).encode ++ damagedRecord) 22 0 0xFF
      SortedMap.empty 0).out =
    (loadDatafileMmap noLzma ⟨0, 22, 0xFF⟩ ((DataRecord.mk 1 [97] [1] false).encode ++ damagedRecord)
      kMmapWindowSize SortedMap.empty 0).out := by
  have hone : takenRecords noLzma ⟨0, 0, 0xFF⟩ ((DataRecord.mk 1 [97] [1] false).encode ++
      damagedRecord) = [([97], some ([1], 1))] := by decide +kernel
  have hcapped : takenRecords noLzma ⟨0, 22, 0xFF⟩ ((DataRecord.mk 1 [97] [1] false).encode ++
      damagedRecord) = [([97], some ([1], 1))] := by decide +kernel
  refine (fallback_clean_iff noLzma _ 22 0 0xFF ⟨0, 22, 0xFF⟩ rfl ?_).2 ?_
  · decide +kernel
  · intro key value hlast
    rw [hcapped]
    rw [hone, lastWrite_cons] at hlast
    refine ⟨_, List.mem_singleton.2 rfl, ?_⟩
    by_contra hne
    rw [if_neg hne] at hlast
    cases hlast

/-- **A key of the load that failed stays**: the second load ends before it. -/
theorem fallback_keeps_leftover : ¬ ∀ (L : LzmaLib) (file : Bytes) (datafileSize dataLsn : Nat)
    (reclaim : UInt8) (caps : LoadCaps), fallbackCaps datafileSize dataLsn reclaim = some caps →
    (loadDatafileMmap L ⟨0, 0, reclaim⟩ file kMmapWindowSize SortedMap.empty 0).status ≠ .ok () →
    (loadDatafileOnRecover L file datafileSize dataLsn reclaim SortedMap.empty 0).out =
      (loadDatafileMmap L caps file kMmapWindowSize SortedMap.empty 0).out := by
  intro hall
  have h := hall noLzma damagedFile 22 0 0xFF ⟨0, 22, 0xFF⟩ rfl (by decide +kernel)
  have hleft : (loadDatafileOnRecover noLzma damagedFile 22 0 0xFF SortedMap.empty 0).out.contains
      [98] = true := by decide +kernel
  rw [h] at hleft
  exact absurd hleft (by decide +kernel)

end

end EBTree.Engine
