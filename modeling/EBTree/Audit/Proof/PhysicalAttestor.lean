import EBTree.Audit.PhysicalAttestor

/-!
# The attestor against the replayer

The attestor reads every log in the V1 layout, from its first byte on: the magic of a V2 log is the
LSN of its first record.

* `length_replayScan`: the records behind an LSN that are counted are those that are replayed.
* `stream_frames`: where the V1 loop stops.
* `attested_iff`: **when the two see the same**.
-/

set_option autoImplicit false

namespace EBTree.Audit

open Lib Wal Reader

/-- The records that are counted as unreplayed are those that the replayer goes through. -/
theorem length_replayScan (f : Bytes) (walLsn : Nat) :
    (replayStats f walLsn).unreplayedTailCount = (replayScan f walLsn).length := by
  rw [replayStats, WalScanStats.ofLsns, replayedLsns, replayScan]
  cases detectFormatV2OnDisk f with
  | true =>
    simp only [if_true, scanWalV2Sparse, List.length_map, List.filter_map, Function.comp_def]
  | false =>
    simp only [Bool.false_eq_true, if_false, scanWalV1, List.length_map, List.filter_map,
      Function.comp_def]

variable {f : Bytes}

/-! ## The V1 layout -/

/-- **The V1 loop** goes through records one behind the other and stops where it reads none. -/
theorem stream_frames (f : Bytes) (o : Nat) : ∃ xs e, Frames (rawReaderV1 f) o xs e ∧
    (rawReaderV1 f).scan f.length o = xs ∧ (f.length ≤ e ∨ (rawReaderV1 f).read e = none) := by
  induction o using scan_induction (rawReaderV1 f) f.length with
  | done o h => exact ⟨[], o, .nil o, scan_of_ge h, .inl h⟩
  | read o a n ho hr ih =>
    obtain ⟨xs, e, hxs, hscan, hstop⟩ := ih
    exact ⟨(o, a) :: xs, e, .cons hr hxs, by rw [scan_read ho hr, hscan], hstop⟩
  | skip o ho hr _ =>
    refine ⟨[], o, .nil o, ?_, .inr hr⟩
    rw [scan_skip hr]
    exact scan_of_ge (le_streamEnd f o)

/-- The attestor reads the header of a record that the V1 loop reads. -/
theorem attestReader_read {o n : Nat} {r : RawRecord}
    (h : (rawReaderV1 f).read o = some (r, n)) : (attestReader f).read o = some (r.lsn, n) := by
  simp only [rawReaderV1, readRawV1At, Option.bind_eq_bind, Option.bind_eq_some_iff] at h
  obtain ⟨bs, hb, key, -, value, -, h⟩ := h
  cases h
  simp only [attestReader, hb, Option.map_some]

theorem attestReader_frames {o e : Nat} {xs : List (Nat × RawRecord)}
    (h : Frames (rawReaderV1 f) o xs e) :
    Frames (attestReader f) o (xs.map fun x => (x.1, x.2.lsn)) e := by
  induction h with
  | nil o => exact .nil o
  | cons hr _ ih => exact .cons (attestReader_read hr) ih

theorem attestReader_isSome {o : Nat} :
    ((attestReader f).read o).isSome ↔ o + kHeaderSizeV1 ≤ f.length := by
  rw [attestReader, Option.isSome_map]
  simp [readAt?]

/-- Where there is no header the attestor stops. -/
theorem attestReader_stops {o : Nat} (h : (attestReader f).read o = none) :
    (attestReader f).scan f.length o = [] := by
  rw [scan_skip h]
  exact scan_of_ge (le_streamEnd f o)

theorem frames_le {o e : Nat} {xs : List (Nat × RawRecord)} (h : Frames (rawReaderV1 f) o xs e)
    (ho : o ≤ f.length) : e ≤ f.length := by
  induction h with
  | nil => exact ho
  | cons hr _ ih => exact ih (readRawV1At_some hr).2

/-- **Without a magic** the two see the same exactly if no header follows the complete records. -/
theorem attested_v1_iff (walLsn : Nat) :
    WalScanStats.ofLsns (((attestReader f).scan f.length 0).map (·.2)) walLsn =
        .ofLsns (((rawReaderV1 f).scan f.length 0).map (·.2.lsn)) walLsn ↔
      f.length < (rawReaderV1 f).lastEnd f.length 0 0 + kHeaderSizeV1 := by
  obtain ⟨xs, e, hxs, hscan, -⟩ := stream_frames f 0
  rw [lastEnd_frames hxs hscan fun _ => rfl, hscan,
    scan_frames (attestReader_frames hxs) (frames_le hxs (Nat.zero_le _)), List.map_append,
    List.map_map]
  have hlsns : xs.map ((·.2) ∘ fun x : Nat × RawRecord => (x.1, x.2.lsn)) = xs.map (·.2.lsn) := rfl
  rw [hlsns]
  cases hr : (attestReader f).read e with
  | none =>
    have hlt : f.length < e + kHeaderSizeV1 := by
      rw [← Nat.not_le, ← attestReader_isSome, hr]
      exact Bool.false_ne_true
    rw [attestReader_stops hr, List.map_nil, List.append_nil]
    exact iff_of_true rfl hlt
  | some x =>
    have hle : e + kHeaderSizeV1 ≤ f.length := by
      rw [← attestReader_isSome, hr]
      rfl
    refine iff_of_false (fun h => ?_) (Nat.not_lt.2 hle)
    have hlt : e < f.length := Nat.lt_of_lt_of_le (Nat.lt_add_of_pos_right (by decide)) hle
    have hcount := congrArg WalScanStats.recordCount h
    rw [scan_read hlt hr] at hcount
    simp [WalScanStats.ofLsns] at hcount

/-! ## The V2 layout -/

theorem le_foldl_max (l : List Nat) (m : Nat) : m ≤ l.foldl max m ∧ ∀ x ∈ l, x ≤ l.foldl max m := by
  induction l generalizing m with
  | nil => exact ⟨Nat.le_refl m, by simp⟩
  | cons a l ih =>
    obtain ⟨h1, h2⟩ := ih (max m a)
    refine ⟨Nat.le_trans (Nat.le_max_left m a) h1, fun x hx => ?_⟩
    rcases List.mem_cons.1 hx with rfl | hx
    · exact Nat.le_trans (Nat.le_max_right m x) h1
    · exact h2 x hx

theorem foldl_max_mem (l : List Nat) (m : Nat) : l.foldl max m = m ∨ l.foldl max m ∈ l := by
  induction l generalizing m with
  | nil => exact .inl rfl
  | cons a l ih =>
    rw [List.foldl_cons]
    rcases ih (max m a) with h | h
    · rw [h]
      rcases Nat.le_total m a with hle | hle
      · exact .inr (by rw [Nat.max_eq_right hle]; exact List.mem_cons_self)
      · exact .inl (Nat.max_eq_left hle)
    · exact .inr (List.mem_cons_of_mem _ h)

/-- The first eight bytes of a V2 log are its magic. -/
theorem detect_readAt {bs : Bytes} {n : Nat} (hd : detectFormatV2OnDisk f = true) (hn : 8 ≤ n)
    (h : readAt? f 0 n = some bs) : bs.take 8 = magicBytes := by
  unfold detectFormatV2OnDisk walMagicAt at hd
  obtain ⟨hle, hbs, -⟩ := readAt?_some h
  have h8 : readAt? f 0 8 = some (f.take 8) := by
    rw [readAt?, if_pos (by omega), List.drop_zero]
  rw [h8] at hd
  have hmagic : f.take 8 = magicBytes := by
    have hlen : (f.take 8).length = 8 := by
      rw [List.length_take]
      omega
    rw [magicBytes, ← beq_iff_eq.1 hd]
    conv => lhs; rw [← le_leNat (f.take 8), hlen]
  rw [hbs, List.drop_zero, List.take_take, Nat.min_eq_left hn, hmagic]

theorem not_badWal (hd : detectFormatV2OnDisk f = true) : isBadWalMarker f = false := by
  have hlen : 8 ≤ f.length := by
    by_contra hlt
    unfold detectFormatV2OnDisk walMagicAt at hd
    rw [readAt?_eq_none_iff.2 (by omega)] at hd
    cases hd
  have h8 : readAt? f 0 8 = some (f.take 8) := by
    rw [readAt?, if_pos (by omega), List.drop_zero]
  have hmagic := detect_readAt hd (Nat.le_refl 8) h8
  rw [List.take_take, Nat.min_self] at hmagic
  have h6 : readAt? f 0 6 = some (magicBytes.take 6) := by
    rw [readAt?, if_pos (by omega), List.drop_zero, ← hmagic, List.take_take]
    rfl
  rw [isBadWalMarker, h6]
  decide

/-- **A V2 log** with a record has the number of its magic for the attestor's largest LSN. -/
theorem magic_le_maxLsn (hd : detectFormatV2OnDisk f = true) (hl : kHeaderSizeV1 ≤ f.length)
    (walLsn : Nat) : kWalMagicV2 ≤ (scanWal f walLsn).maxLsn := by
  have hr : readAt? f 0 kHeaderSizeV1 = some (f.take kHeaderSizeV1) := by
    rw [readAt?, if_pos (by omega), List.drop_zero]
  have hread : (attestReader f).read 0 = some ((WalRecordHeader.decode (f.take kHeaderSizeV1)).lsn,
      0 + kHeaderSizeV1 + (WalRecordHeader.decode (f.take kHeaderSizeV1)).keyLen +
        (WalRecordHeader.decode (f.take kHeaderSizeV1)).valueLen) := by
    simp only [attestReader, hr, Option.map_some]
  have hlsn : (WalRecordHeader.decode (f.take kHeaderSizeV1)).lsn = kWalMagicV2 := by
    rw [WalRecordHeader.decode, detect_readAt hd (by decide) hr, leNat_magicBytes]
  have hpos : 0 < f.length := Nat.lt_of_lt_of_le (by decide) hl
  rw [scanWal, not_badWal hd, scan_read hpos hread, List.map_cons, hlsn]
  exact (le_foldl_max _ 0).2 _ List.mem_cons_self

theorem acceptedV2_short (hl : f.length < kHeaderSizeV1) : acceptedV2 f = [] := by
  cases hs : acceptedV2 f with
  | nil => rfl
  | cons x xs =>
    have hsize : (((walReader f).scan f.length (walDataOffsetOnDisk f true)).map
        fun x => WalRecord.size x.2).sum ≤ f.length - walDataOffsetOnDisk f true :=
      scan_size _ fun h => tryReadWalRecordV2Sparse_size h
    rw [acceptedV2] at hs
    rw [hs, List.map_cons, List.sum_cons] at hsize
    simp only [WalRecord.size, kHeaderSizeV2, kHeaderSizeV1] at hsize hl
    omega

/-! ## Together -/

/-- **When the attestor sees what the replayer sees**: the file holds the magic and no record; or
it has no magic, and behind its complete records there is no room for a header (or, under the
marker of a bad log, it has no complete record). -/
def Attestable (f : Bytes) : Prop :=
  if detectFormatV2OnDisk f then f.length < kHeaderSizeV1
  else if isBadWalMarker f then (rawReaderV1 f).scan f.length 0 = []
  else f.length < (rawReaderV1 f).lastEnd f.length 0 0 + kHeaderSizeV1

/-- **The attestor's counts are the replayer's** on every file that is attestable; on another one
they are not, unless a record in it has an LSN from the number of the magic on. -/
theorem attested_iff (f : Bytes) (walLsn : Nat) :
    (Attestable f → scanWal f walLsn = replayStats f walLsn) ∧
      (scanWal f walLsn = replayStats f walLsn →
        Attestable f ∨ ∃ x ∈ acceptedV2 f, kWalMagicV2 ≤ x.2.lsn) := by
  unfold Attestable
  by_cases hd : detectFormatV2OnDisk f = true
  · rw [if_pos hd]
    constructor
    · intro hl
      have hread : (attestReader f).read 0 = none := by
        rw [← Option.not_isSome_iff_eq_none, attestReader_isSome]
        omega
      rw [scanWal, not_badWal hd, replayStats, replayedLsns, if_pos hd, acceptedV2_short hl,
        attestReader_stops hread]
      rfl
    · intro h
      by_cases hl : f.length < kHeaderSizeV1
      · exact .inl hl
      · right
        have hmax := magic_le_maxLsn hd (Nat.not_lt.1 hl) walLsn
        rw [h, replayStats, replayedLsns, if_pos hd] at hmax
        rcases foldl_max_mem ((acceptedV2 f).map (·.2.lsn)) 0 with h0 | hmem
        · rw [WalScanStats.ofLsns, h0] at hmax
          exact absurd hmax (Nat.not_le.2 (by decide : 0 < kWalMagicV2))
        · obtain ⟨x, hx, he⟩ := List.mem_map.1 hmem
          refine ⟨x, hx, ?_⟩
          rw [he]
          exact hmax
  · rw [if_neg hd, replayStats, replayedLsns, if_neg hd, scanWal]
    by_cases hb : isBadWalMarker f = true
    · rw [if_pos hb, if_pos hb]
      constructor
      · intro hnil
        rw [hnil]
        rfl
      · intro h
        have hcount := congrArg WalScanStats.recordCount h
        refine .inl (List.eq_nil_of_length_eq_zero ?_)
        simpa [WalScanStats.ofLsns] using hcount.symm
    · rw [if_neg hb, if_neg hb]
      exact ⟨(attested_v1_iff walLsn).2, fun h => .inl ((attested_v1_iff walLsn).1 h)⟩

/-- A log with one put: the attestor counts other records than the replayer. -/
theorem one_put_not_attested :
    let f := ((WalWriter.open []).runCalls [.append ⟨.kPut, [107], [118], 0⟩]).1.file
    scanWal f 0 ≠ replayStats f 0 := by
  decide +kernel

end EBTree.Audit
