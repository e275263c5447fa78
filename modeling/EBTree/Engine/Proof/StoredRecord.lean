import EBTree.Codec.Proof.RoundTrip
import EBTree.Engine.StoredRecord

/-!
# What the readers make of a header

* `reservedByte_header`: the reserved bytes of a header that was appended.
* `recordGeneration_header`: the generation that `RecordGeneration` reads off it.
* `generations_agree_iff`: **when every reader sees the generation that was passed**.
-/

set_option autoImplicit false

namespace EBTree.Engine

open Lib Codec

namespace StoredRecord

@[simp] theorem length_checked (r : StoredRecord) : r.checked.length = 16 := by
  simp [checked]

@[simp] theorem length_header (r : StoredRecord) : r.header.length = kDataHeaderSize := by
  simp [header, kDataHeaderSize]

@[simp] theorem length_encode (r : StoredRecord) : r.encode.length = r.size := by
  simp [encode, size]
  omega

theorem size_pos (r : StoredRecord) : 0 < r.size := by simp [size, kDataHeaderSize]

/-- The checksum in a header. -/
theorem crc_header (r : StoredRecord) :
    leNat (fieldAt r.header 16 4) = (crc32 r.checked).toNat := by
  have hf : fieldAt r.header 16 4 = le 4 (crc32 r.checked).toNat :=
    fieldAt_of_append r.checked [] (by simp [header]) (by simp) (by simp)
  have hlt : (crc32 r.checked).toNat < 256 ^ 4 := (crc32 r.checked).toNat_lt
  rw [hf, leNat_le, Nat.mod_eq_of_lt hlt]

theorem verifyCrc_header (r : StoredRecord) : DataRecordHeader.verifyCrc r.header = true := by
  have ht : r.header.take 16 = r.checked := List.take_left' (length_checked r)
  rw [DataRecordHeader.verifyCrc, ht, crc_header, decide_eq_true_eq]

theorem InRange.decode_header {r : StoredRecord} (h : r.InRange) :
    DataRecordHeader.decode r.header =
      ⟨r.lsn, r.key.length, r.payload.length, r.deleted⟩ := by
  have hd : (if r.deleted then (1 : UInt8) else 0) ≠ 0 ↔ r.deleted = true := by
    cases r.deleted <;> simp
  have hk : r.key.length < 256 ^ 2 := by
    have := h.key_le
    omega
  have hv : r.payload.length < 256 ^ 2 := by
    have := h.payload_le
    omega
  simp only [DataRecordHeader.decode, header, checked, List.append_assoc]
  simp only [fieldAt_here, fieldAt_skip, length_le, leNat_le, Nat.reduceLeDiff, Nat.reduceSub,
    le_refl, List.length_singleton, List.headD_cons, hd, Bool.decide_eq_true,
    Nat.mod_eq_of_lt (show r.lsn < 256 ^ 8 from h.lsn_lt), Nat.mod_eq_of_lt hk,
    Nat.mod_eq_of_lt hv]

/-- The reserved bytes of a header: the codec and the generation. -/
theorem reservedByte_header (r : StoredRecord) {i : Nat} (hi : i < 3) :
    reservedByte r.header i = ([r.codec, r.generation, 0] : List UInt8).getD i 0 := by
  have hlen : (le 8 r.lsn ++ (le 2 r.key.length ++ (le 2 r.payload.length ++
      [if r.deleted then (1 : UInt8) else 0]))).length = 13 := by simp
  have he : r.header = (le 8 r.lsn ++ (le 2 r.key.length ++ (le 2 r.payload.length ++
      [if r.deleted then (1 : UInt8) else 0]))) ++ ([r.codec, r.generation, 0] ++
        le 4 (crc32 r.checked).toNat) := by
    simp [header, checked]
  rw [reservedByte, fieldAt, he, ← hlen, List.drop_length_add_append]
  obtain rfl | rfl | rfl : i = 0 ∨ i = 1 ∨ i = 2 := by omega
  all_goals rfl

theorem reserved_codec (r : StoredRecord) : reservedByte r.header 0 = r.codec :=
  r.reservedByte_header (by decide)

theorem recordCodec_header {r : StoredRecord} (hc : r.codec ≤ 4) :
    recordCodec r.header = r.codec := by
  rw [recordCodec, reserved_codec, if_pos hc]

/-- `RecordGeneration` reads generation zero of a compressed value as its codec. -/
theorem recordGeneration_header {r : StoredRecord} (hc : r.codec ≤ 4) :
    recordGeneration r.header =
      if r.generation ≠ 0 then r.generation else if r.codec ≤ 1 then 0 else r.codec := by
  have h1 : reservedByte r.header 1 = r.generation := r.reservedByte_header (by decide)
  have h2 : reservedByte r.header 2 = 0 := r.reservedByte_header (by decide)
  rw [recordGeneration, recordCodec_header hc, reserved_codec, h1, h2]
  by_cases hg : r.generation = 0
  · simp [hg]
  · simp [hg, hc]

end StoredRecord

theorem codecByte_le (c : ValueCodec) : codecByte c ≤ 4 := by cases c <;> decide

theorem storeValue_codec_le (L : LzmaLib) (compressValues : Bool) (policy : CompressPolicy)
    (value : Value) (deleted : Bool) :
    (storeValue L compressValues policy value deleted).1 ≤ 4 := by
  unfold storeValue
  split
  · dsimp only
    split
    · exact codecByte_le _
    · exact UInt8.zero_le
  · exact UInt8.zero_le

/-! ## The generation that is seen -/

theorem generationVisible_eq_false {g reclaim : UInt8} (hr : reclaim ≠ 0xFF) :
    generationVisible g reclaim = false ↔ g = reclaim := by
  simp [generationVisible, hr]

theorem decodeRecordValue_error {L : LzmaLib} {bs payload : Bytes} {e : Status}
    (h : decodeRecordValue L bs payload = .error e) :
    e = .corruptPage "datafile decompress failed" := by
  unfold decodeRecordValue at h
  split at h
  · cases h
  split at h
  · cases h
  split at h
  · cases h
    rfl
  dsimp only at h
  split at h
  · cases h
  · cases h
    rfl

section
variable {d : DataFile} {r : StoredRecord}

/-- The header of the record appended last. -/
theorem appendStored_header (d : DataFile) (r : StoredRecord) :
    readAt? (d.appendStored r).file d.file.length kDataHeaderSize = some r.header :=
  readAt?_of_append d.file (r.key ++ r.payload)
    (by simp [DataFile.appendStored, StoredRecord.encode]) rfl (by simp)

/-- `ReadRecordAt` says of a record that its generation is reclaimed. -/
theorem readRecordIn_reclaimed (L : LzmaLib) {reclaim : UInt8} (hr : reclaim ≠ 0xFF) :
    (d.appendStored r).readRecordIn L d.file.length reclaim =
        .error (.notFound "reclaimed generation") ↔ recordGeneration r.header = reclaim := by
  rw [DataFile.readRecordIn, appendStored_header]
  dsimp only
  rw [r.verifyCrc_header, ← generationVisible_eq_false hr]
  cases hv : generationVisible (recordGeneration r.header) reclaim with
  | false => simp
  | true =>
    refine iff_of_false (fun h => ?_) Bool.noConfusion
    simp only [Bool.not_true, Bool.false_eq_true, if_false] at h
    split at h
    · rename_i e he
      rw [decodeRecordValue_error he] at h
      cases h
    · cases h

/-- The loop of `MaybeGcSwap` is put off for a record exactly when the checksum of the record is
that of the address, and the codec is the generation that is reclaimed. -/
theorem gcDefers_iff {hdrAddr : UInt64} {reclaim : UInt8} :
    (d.appendStored r).gcDefers hdrAddr reclaim [r.lsn] = true ↔
      crc32 r.checked = crc32 ((le 8 hdrAddr.toNat).take 4) ∧ r.codec = reclaim := by
  have hix : (d.appendStored r).lsnIndex.find? r.lsn = some d.file.length := by
    rw [DataFile.appendStored, SortedMap.find?_insert, if_pos rfl]
  have hcrc : (crc32 r.checked).toNat = (crc32 ((le 8 hdrAddr.toNat).take 4)).toNat ↔
      crc32 r.checked = crc32 ((le 8 hdrAddr.toNat).take 4) :=
    ⟨UInt32.toNat.inj, congrArg _⟩
  simp only [DataFile.gcDefers, List.any_cons, List.any_nil, Bool.or_false,
    DataFile.readHeaderAtLsn, hix, appendStored_header, StoredRecord.crc_header, ne_eq, hcrc]
  by_cases hc : crc32 r.checked = crc32 ((le 8 hdrAddr.toNat).take 4)
  · simp [hc, r.reserved_codec]
  · simp [hc]

end

/-- What the readers make of the record appended last: under every generation that is reclaimed,
each takes it for reclaimed exactly if it was passed that generation; and the codec that is read is
the one that was used. -/
structure SeenAs (L : LzmaLib) (d : DataFile) (r : StoredRecord) (hdrAddr : UInt64) : Prop where
  loader : ∀ reclaim, reclaim ≠ 0xFF →
    (generationVisible (recordGeneration
      (fieldAt (d.appendStored r).file d.file.length kDataHeaderSize)) reclaim = false ↔
        r.generation = reclaim)
  single : ∀ reclaim, reclaim ≠ 0xFF →
    ((d.appendStored r).readRecordIn L d.file.length reclaim =
      .error (.notFound "reclaimed generation") ↔ r.generation = reclaim)
  rebuild : ∀ reclaim, reclaim ≠ 0xFF →
    (DataFile.rebuildPassesOver
      (fieldAt (d.appendStored r).file d.file.length kDataHeaderSize) reclaim = true ↔
        r.generation = reclaim)
  gc : ∀ reclaim, reclaim ≠ 0xFF →
    ((d.appendStored r).gcDefers hdrAddr reclaim [r.lsn] = true ↔ r.generation = reclaim)
  codec : recordCodec (fieldAt (d.appendStored r).file d.file.length kDataHeaderSize) = r.codec

/-- **Every reader sees the generation that was passed** exactly if it is the codec the value was
stored with, and the checksum of the header is that of the address the last reader reads it to. -/
theorem generations_agree_iff (L : LzmaLib) (compressValues : Bool) (policy : CompressPolicy)
    (d : DataFile) (lsn : Nat) (key : Key) (value : Value) (deleted : Bool) (generation : UInt8)
    (hdrAddr : UInt64) :
    SeenAs L d (storedRecord L compressValues policy lsn key value deleted generation) hdrAddr ↔
      (storeValue L compressValues policy value deleted).1 = generation ∧
        crc32 (storedRecord L compressValues policy lsn key value deleted generation).checked =
          crc32 ((le 8 hdrAddr.toNat).take 4) := by
  have hle := storeValue_codec_le L compressValues policy value deleted
  generalize hr : storedRecord L compressValues policy lsn key value deleted generation = r
  have hcodec : r.codec = (storeValue L compressValues policy value deleted).1 := by
    rw [← hr]
    rfl
  have hgen : r.generation = generation := by
    rw [← hr]
    rfl
  rw [← hcodec, ← hgen]
  rw [← hcodec] at hle
  have hhdr : fieldAt (d.appendStored r).file d.file.length kDataHeaderSize = r.header :=
    (readAt?_some (appendStored_header d r)).2.1.symm
  have hne : r.codec ≠ 0xFF := by
    intro h
    rw [h] at hle
    exact absurd hle (by decide)
  constructor
  · intro h
    -- asked for the codec, the collector and the rebuild answer alike
    have hreb := (h.rebuild r.codec hne).1 (by
      rw [hhdr, DataFile.rebuildPassesOver, r.reserved_codec]
      simp [hne])
    have hgc := (gcDefers_iff.1 ((h.gc r.codec hne).2 hreb)).1
    exact ⟨hreb.symm, hgc⟩
  · rintro ⟨hcg, hcrc⟩
    have hrec : recordGeneration r.header = r.generation := by
      rw [StoredRecord.recordGeneration_header hle, hcg]
      by_cases h0 : r.generation = 0
      · simp [h0]
      · simp [h0]
    refine ⟨fun reclaim hn => ?_, fun reclaim hn => ?_, fun reclaim hn => ?_, fun reclaim hn => ?_,
      ?_⟩
    · rw [hhdr, hrec, generationVisible_eq_false hn]
    · rw [readRecordIn_reclaimed L hn, hrec]
    · rw [hhdr, DataFile.rebuildPassesOver, r.reserved_codec, hcg]
      simp [hn]
    · rw [gcDefers_iff, hcg]
      exact and_iff_right hcrc
    · rw [hhdr, StoredRecord.recordCodec_header hle]

/-- A value stored as it is, in generation one, is taken for one of generation zero by the rebuild
of the chains. -/
theorem raw_in_one_disagrees :
    ¬ SeenAs storedLzma ⟨[], SortedMap.empty⟩
      (storedRecord storedLzma false .kOff 1 [107] [118] false 1) 0 := by
  intro h
  exact absurd ((h.rebuild 0 (by decide)).1 (by decide)) (by decide)

end EBTree.Engine
