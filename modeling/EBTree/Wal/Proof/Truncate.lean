import EBTree.Wal.Proof.TornTail
import EBTree.Wal.Replay

/-!
# Truncating the log

`TruncateTo` on a log of appended records, later appends, and a scan by the replayer.

* `truncated_logFile`: the bytes it leaves are the records after the LSN, without the magic, or
  the magic alone when there are none.
* `not_kept_of_suffix`: a suffix that is not empty is lost. What follows it in the file is no longer
  as long as the records the replayer should find (`Cramped`), or is read in the V1 layout.
* `truncate_keeps_iff`: the records that should be found are found exactly when none was kept, and
  the LSNs of the later ones are neither zero nor a magic that hides a record.
-/

set_option autoImplicit false

namespace EBTree.Wal

open Lib Reader WalWriter

/-! ## What truncation leaves -/

theorem readRawV2At_encode (pre rest : Bytes) {r : WalRecord} (h : r.InRange) :
    readRawV2At (pre ++ (r.encode ++ rest)) pre.length = some (r.raw, pre.length + r.size) := by
  obtain ⟨hh, hk, hv⟩ := readAt?_encode pre rest r
  have hs : pre.length + kHeaderSizeV2 + r.header.keyLen + r.header.valueLen
      = pre.length + r.size := by
    simp [WalRecord.size, Nat.add_assoc]; rfl
  simp only [readRawV2At, hh, Option.bind_eq_bind, Option.bind_some, h.decode_header, hk, hv, hs]
  rfl

/-- The loop of `TruncateTo` reads every record of a log. -/
theorem raw_scan_logFile {rs : List WalRecord} (h : ∀ r ∈ rs, r.InRange) :
    (rawReaderV2 (logFile rs)).scan (logFile rs).length 8 = rawLayout 8 rs := by
  have hf := frames_blocks _ rawReaderV2 WalRecord.encode WalRecord.length_encode
    (fun pre rest _ hr => readRawV2At_encode pre rest hr) magicBytes [] h
  rw [length_magicBytes, List.append_nil, ← length_logFile] at hf
  rw [logFile, encodeAll] at *
  rw [scan_frames hf (Nat.le_refl _), scan_of_ge (Nat.le_refl _), List.append_nil, rawLayout]

/-- The offset of a record in a log, found by its LSN. -/
theorem find?_rawLayout (o : Nat) (rs : List WalRecord) (walLsn : Nat) :
    ((rawLayout o rs).find? fun x => walLsn < x.2.lsn).map (·.1) =
      if (rs.dropWhile fun r => r.lsn ≤ walLsn) = [] then none
      else some (o + ((rs.takeWhile fun r => r.lsn ≤ walLsn).map WalRecord.size).sum) := by
  induction rs generalizing o with
  | nil => rfl
  | cons r rs ih =>
    by_cases hr : r.lsn ≤ walLsn
    · have hr' : ¬ walLsn < r.lsn := by omega
      have hp : decide (walLsn < r.raw.lsn) = false := decide_eq_false hr'
      have := ih (o + r.size)
      simp only [rawLayout, Reader.layout, List.find?_cons, hp] at this ⊢
      rw [this]
      simp [hr, Nat.add_assoc]
    · have hr' : walLsn < r.lsn := by omega
      have hp : decide (walLsn < r.raw.lsn) = true := decide_eq_true hr'
      simp [rawLayout, Reader.layout, hp, hr]

namespace WalWriter

/-- The records after an LSN, in a log whose LSNs increase. -/
theorem dropWhile_eq_filter {rs : List WalRecord} (h : rs.Pairwise (·.lsn < ·.lsn)) (walLsn : Nat) :
    (rs.dropWhile fun r => r.lsn ≤ walLsn) = rs.filter (walLsn < ·.lsn) := by
  induction rs with
  | nil => rfl
  | cons r rs ih =>
    obtain ⟨hr, hrs⟩ := List.pairwise_cons.1 h
    by_cases hc : r.lsn ≤ walLsn
    · simp [hc, Nat.not_lt.2 hc, ih hrs]
    · have hall : ∀ r' ∈ rs, walLsn < r'.lsn := fun r' h' => by have := hr r' h'; omega
      have hf : rs.filter (fun r => decide (walLsn < r.lsn)) = rs :=
        List.filter_eq_self.2 fun r' h' => by simpa using hall r' h'
      simp [hc, Nat.lt_of_not_le hc, hf]

/-- **The bytes `TruncateTo` leaves** of a log: the records after the LSN without the magic, or the
magic alone. -/
theorem truncated_logFile {w : WalWriter} {rs : List WalRecord} (hv : w.formatV2 = true)
    (hf : w.file = logFile rs) (h : ∀ r ∈ rs, r.InRange) (hs : rs.Pairwise (·.lsn < ·.lsn))
    (walLsn : Nat) :
    w.truncated walLsn =
      if rs.filter (walLsn < ·.lsn) = [] then logFile []
      else encodeAll (rs.filter (walLsn < ·.lsn)) := by
  have hd : detectFormatV2OnDisk (logFile rs) = true := detectFormatV2OnDisk_magic _
  have hfind := find?_rawLayout 8 rs walLsn
  have hsplit : logFile rs = logFile (rs.takeWhile fun r => r.lsn ≤ walLsn)
      ++ encodeAll (rs.filter (walLsn < ·.lsn)) := by
    rw [← dropWhile_eq_filter hs, ← logFile_append, List.takeWhile_append_dropWhile]
  have hkeep : w.keepFrom walLsn
      = (logFile (rs.takeWhile fun r => r.lsn ≤ walLsn)).length := by
    rw [dropWhile_eq_filter hs] at hfind
    simp only [keepFrom, hv, hf, hd, Bool.and_self, if_true, raw_scan_logFile h]
    cases hx : (rawLayout 8 rs).find? fun x => decide (walLsn < x.2.lsn) with
    | none =>
      rw [hx] at hfind
      by_cases hn : rs.filter (walLsn < ·.lsn) = []
      · rw [hsplit, hn, encodeAll_nil, List.append_nil]
      · simp [hn] at hfind
    | some x =>
      rw [hx] at hfind
      by_cases hn : rs.filter (walLsn < ·.lsn) = []
      · simp [hn] at hfind
      · simp only [hn, if_false, Option.map_some, Option.some.injEq] at hfind
        simp only [hfind, length_logFile]
  by_cases hn : rs.filter (walLsn < ·.lsn) = []
  · have he : w.keepFrom walLsn = w.file.length := by
      rw [hkeep, hf, hsplit, hn, encodeAll_nil, List.append_nil]
    simp [truncated, hv, he, hn, logFile]
  · have hlt : w.keepFrom walLsn < w.file.length := by
      obtain ⟨r, rs', hr⟩ := List.exists_cons_of_ne_nil hn
      have := r.size_pos
      rw [hkeep, hf, hsplit, hr]
      simp only [List.length_append, encodeAll_cons, WalRecord.length_encode]
      omega
    have hne : ¬ w.keepFrom walLsn = w.file.length := by omega
    have hdrop : w.file.drop (w.keepFrom walLsn) = encodeAll (rs.filter (walLsn < ·.lsn)) := by
      rw [hkeep, hf, hsplit, List.drop_left]
    simp only [truncated, hv, hne, and_false, if_false, hlt, if_true, hdrop, hn]

/-! ## A file too short for its records -/

/-- The writer's file is at most `n` bytes long, and the next record starts in it. -/
structure Cramped (w : WalWriter) (n : Nat) : Prop where
  length_le : w.file.length ≤ n
  magic_le : 8 ≤ w.file.length
  offset_le : w.formatV2 = true → w.fileOffset ≤ w.file.length

theorem syncExternalTailLocked_formatV2 (w : WalWriter) :
    w.syncExternalTailLocked.formatV2 = w.formatV2 := by
  unfold syncExternalTailLocked; split <;> rfl

namespace Cramped

variable {w : WalWriter} {n : Nat}

theorem ensureWalMagicLocked (h : Cramped w n) : Cramped w.ensureWalMagicLocked n := by
  obtain ⟨h1, h2, h3⟩ := h
  by_cases hv : w.formatV2 = true
  · rw [ensureWalMagicLocked_of_formatV2 hv]; exact ⟨h1, h2, h3⟩
  · have hv : w.formatV2 = false := by simpa using hv
    refine ⟨?_, ?_, fun _ => ?_⟩ <;> simp only [WalWriter.ensureWalMagicLocked, hv,
      Bool.false_eq_true, if_false, length_overwrite, length_magicBytes] <;> omega

theorem syncExternalTailLocked (h : Cramped w n) : Cramped w.syncExternalTailLocked n := by
  obtain ⟨h1, h2, h3⟩ := h
  unfold WalWriter.syncExternalTailLocked
  split
  · exact ⟨h1, h2, h3⟩
  · have he : (extendTailFromOffset w.file w.tailDataEnd).dataEnd ≤ w.file.length := by
      unfold extendTailFromOffset
      split
      · exact lastEnd_le (fun hr => (tryReadWalRecordV2Sparse_size hr).2) (by omega)
      · exact lastEnd_le (fun hr => (readRawV1At_some hr).2) (by omega)
    refine ⟨h1, h2, fun hf => ?_⟩
    have := h3 hf
    dsimp only
    split
    · exact this
    · exact he

/-- One call makes the file longer by the record it acknowledges, at most. -/
theorem run (h : Cramped w n) (c : Call) :
    Cramped (c.run w).1 (n + (((c.run w).2.toList).map WalRecord.size).sum) := by
  unfold Call.run
  cases c.item? with
  | none => exact ⟨by simpa using h.length_le, h.magic_le, h.offset_le⟩
  | some it =>
    have hs := h.ensureWalMagicLocked.syncExternalTailLocked
    have hf : w.ensureWalMagicLocked.syncExternalTailLocked.formatV2 = true := by
      rw [syncExternalTailLocked_formatV2, ensureWalMagicLocked_formatV2]
    have ho := hs.offset_le hf
    obtain ⟨h1, h2, -⟩ := hs
    simp only [append, appendItem]
    by_cases hb : it.InBounds
    · simp only [hb, if_true, appendRecordV2]
      refine ⟨?_, ?_, fun _ => ?_⟩ <;>
        simp only [length_overwrite, WalRecord.length_encode, Option.toList_some, List.map_cons,
          List.map_nil, List.sum_cons, List.sum_nil] <;> omega
    · simp only [hb, if_false]
      exact ⟨by simpa using h1, h2, fun _ => ho⟩

theorem runCalls (h : Cramped w n) (cs : List Call) :
    Cramped (w.runCalls cs).1 (n + (((w.runCalls cs).2).map WalRecord.size).sum) := by
  induction cs generalizing w n with
  | nil => simpa [WalWriter.runCalls] using h
  | cons c cs ih =>
    have := ih (h.run c)
    simp only [WalWriter.runCalls, List.map_append, List.sum_append, ← Nat.add_assoc]
    exact this

end Cramped

/-- **The records scanned fit into the file behind its magic.** -/
theorem scanWalV2Sparse_size (f : Bytes) (afterLsn : Nat) :
    ((scanWalV2Sparse f afterLsn).map WalRecord.size).sum ≤ f.length - 8 := by
  have hsize : (((acceptedV2 f).map fun x => x.2.size).sum) ≤ f.length - walDataOffsetOnDisk f true :=
    scan_size _ fun hr => tryReadWalRecordV2Sparse_size hr
  have hge := walDataOffsetOnDisk_ge f
  have hsub : ((scanWalV2Sparse f afterLsn).map WalRecord.size).sum
      ≤ (((acceptedV2 f).map (·.2)).map WalRecord.size).sum :=
    (List.filter_sublist.map _).sum_le_sum fun _ _ => Nat.zero_le _
  rw [List.map_map] at hsub
  refine Nat.le_trans hsub (Nat.le_trans hsize (by omega))

/-- **A replay finds no list of records that takes more bytes than the file has behind its
magic.** -/
theorem replayScan_ne {f : Bytes} {afterLsn : Nat} {rs : List WalRecord} (hne : rs ≠ [])
    (hl : f.length ≤ (rs.map WalRecord.size).sum) (h8 : 8 ≤ f.length) :
    replayScan f afterLsn ≠ rs.map .v2 := by
  intro he
  unfold replayScan at he
  split at he
  · have hinj : scanWalV2Sparse f afterLsn = rs :=
      List.map_injective_iff.2 (fun a b h => by cases h; rfl) he
    have := scanWalV2Sparse_size f afterLsn
    rw [hinj] at this
    omega
  · -- V1 records are no V2 records
    cases rs with
    | nil => exact hne rfl
    | cons r rs =>
      cases hv : scanWalV1 f afterLsn with
      | nil => simp [hv] at he
      | cons r' rs' => simp [hv] at he

theorem rebuildKeyIndex_file {w : WalWriter} (h : 0 < w.file.length) :
    w.rebuildKeyIndex.file = w.file := by
  simp [rebuildKeyIndex, h]

theorem rebuildKeyIndex_offset_le {w : WalWriter} (h : 0 < w.file.length) :
    w.rebuildKeyIndex.fileOffset ≤ w.file.length := by
  have hstart : ∀ {f : Bytes}, 8 < f.length → walDataOffsetOnDisk f true ≤ f.length := by
    intro f hf
    rcases walDataOffsetOnDisk_cases f with h8 | hs
    · omega
    · obtain ⟨⟨r, n⟩, hr⟩ := Option.isSome_iff_exists.1 hs
      have := readWalRecordV2At_some hr
      omega
  have hv2 : ∀ {o a m}, (rebuildReader w.file).read o = some (a, m) → m ≤ w.file.length := by
    intro o a m hr
    simp only [rebuildReader] at hr
    split at hr
    · exact (readRawV2At_some hr).2
    · cases hr
  have hv1 : ∀ {o a m}, (rawReaderV1 w.file).read o = some (a, m) → m ≤ w.file.length :=
    fun hr => (readRawV1At_some hr).2
  simp only [rebuildKeyIndex, h, if_true]
  by_cases hf : (decide (8 < w.file.length) && detectFormatV2OnDisk w.file) = true
  · have h8 : 8 < w.file.length := by simpa using (Bool.and_eq_true_iff.1 hf).1
    simp only [hf, if_true]
    split
    · exact lastEnd_le hv2 (hstart h8)
    · exact le_rfl
  · simp only [hf, if_false, Bool.false_eq_true]
    split
    · exact lastEnd_le hv1 (Nat.zero_le _)
    · exact le_rfl

end WalWriter

/-! ## LSNs the scanner takes for something else -/

/-- No record has the LSN zero, which a replay from the start leaves out, and none has the magic
as its LSN with bytes that read as a record eight bytes in. -/
def Legible (rs : List WalRecord) : Prop :=
  ∀ x ∈ layout 8 rs, x.2.lsn ≠ 0 ∧
    (x.2.lsn = kWalMagicV2 → readWalRecordV2At (logFile rs) (x.1 + 8) = none)

/-- The scan of records laid out to the end of a file returns them exactly when none hides a record
behind a magic. -/
theorem scan_from_iff (pre : Bytes) (hpre : 8 ≤ pre.length) {rs : List WalRecord}
    (h : ∀ r ∈ rs, r.InRange) (hl : ∀ r ∈ rs, r.lsn ≠ 0) :
    (((walReader (pre ++ encodeAll rs)).scan (pre ++ encodeAll rs).length pre.length).map
        (·.2)).filter (0 < ·.lsn) = rs ↔
      ∀ x ∈ layout pre.length rs, x.2.lsn = kWalMagicV2 →
        readWalRecordV2At (pre ++ encodeAll rs) (x.1 + 8) = none := by
  induction rs generalizing pre with
  | nil => simp [layout, Reader.layout, scan_of_ge]
  | cons r rs ih =>
    have hr := h r List.mem_cons_self
    have hpos : 0 < r.lsn := Nat.pos_of_ne_zero (hl r List.mem_cons_self)
    have e : pre ++ encodeAll (r :: rs) = (pre ++ r.encode) ++ encodeAll rs := by simp
    have hm := walMagicAt_encode pre (encodeAll rs) hr
    have hread := readWalRecordV2At_encode pre (encodeAll rs) hr hpos
    rw [← encodeAll_cons] at hm hread
    have hlt : pre.length < (pre ++ encodeAll (r :: rs)).length := by
      have := r.size_pos
      simp; omega
    have hlen : (pre ++ r.encode).length = pre.length + r.size := by simp
    have hlay : layout pre.length (r :: rs)
        = (pre.length, r) :: layout (pre.length + r.size) rs := rfl
    have hrest := ih (pre ++ r.encode) (by simp; omega)
      (fun r' h' => h r' (List.mem_cons_of_mem _ h')) fun r' h' => hl r' (List.mem_cons_of_mem _ h')
    rw [← e, hlen] at hrest
    have hinside : ∀ {r' n}, readWalRecordV2At (pre ++ encodeAll (r :: rs)) (pre.length + 8)
        = some (r', n) → r'.lsn % 256 = r.op.code.toNat :=
      fun hq => readWalRecordV2At_inside (encodeAll_cons r rs ▸ hq)
    rw [hlay, List.forall_mem_cons]
    generalize pre ++ encodeAll (r :: rs) = f at hm hread hlt hrest hinside ⊢
    by_cases hin : r.lsn = kWalMagicV2 → readWalRecordV2At f (pre.length + 8) = none
    · -- the record itself is read
      have hx : tryReadWalRecordV2Sparse f pre.length = some (r, pre.length + r.size) := by
        by_cases hmag : r.lsn = kWalMagicV2
        · rw [tryReadWalRecordV2Sparse_of_magic hpre (by rw [hm]; exact decide_eq_true hmag),
            hin hmag, hread]
          rfl
        · rw [tryReadWalRecordV2Sparse_of_no_magic (by rw [hm]; exact decide_eq_false hmag), hread]
      rw [scan_read (R := walReader f) hlt hx]
      simp only [List.map_cons, List.filter_cons, hpos, decide_true, if_true, List.cons.injEq,
        true_and, hrest]
      exact ⟨fun h => ⟨hin, h⟩, fun h => h.2⟩
    · -- a record hidden in it is read in its place
      obtain ⟨hmag, hne⟩ := Classical.not_imp.1 hin
      obtain ⟨⟨r', n⟩, hq⟩ := Option.ne_none_iff_exists'.1 hne
      have hx : tryReadWalRecordV2Sparse f pre.length = some (r', n) := by
        rw [tryReadWalRecordV2Sparse_of_magic hpre (by rw [hm]; exact decide_eq_true hmag), hq]
        rfl
      have hlow := hinside hq
      have hcode := r.op.code_toNat_le
      have hcode' : 0 < r.op.code.toNat := by cases r.op <;> decide
      have hr' : 0 < r'.lsn := by omega
      have hne' : r' ≠ r := by
        intro he
        rw [he, hmag] at hlow
        have : kWalMagicV2 % 256 = 49 := by decide
        omega
      rw [scan_read (R := walReader f) hlt hx]
      simp only [List.map_cons, List.filter_cons, hr', decide_true, if_true, List.cons.injEq, hne',
        false_and, false_iff]
      exact fun hc => hin hc.1

/-- **A scan from the start returns the records of a log exactly when they are legible.** -/
theorem scan_logFile_iff {rs : List WalRecord} (h : ∀ r ∈ rs, r.InRange) :
    scanWalV2Sparse (logFile rs) 0 = rs ↔ Legible rs := by
  have hmem : ∀ r ∈ rs, ∃ x ∈ layout 8 rs, x.2 = r := by
    intro r hr
    rw [← layout_map_snd 8 rs] at hr
    exact List.mem_map.1 hr
  by_cases hl : ∀ r ∈ rs, r.lsn ≠ 0
  · have hoff : walDataOffsetOnDisk (logFile rs) true = 8 := by
      cases rs with
      | nil => simp [walDataOffsetOnDisk, logFile]
      | cons r rs =>
        have hr := readWalRecordV2At_encode magicBytes (encodeAll rs)
          (h r List.mem_cons_self) (Nat.pos_of_ne_zero (hl r List.mem_cons_self))
        rw [length_magicBytes] at hr
        simp [walDataOffsetOnDisk, hasValidWalRecordV2At, logFile, hr]
    have hs := scan_from_iff magicBytes (by simp) h hl
    rw [length_magicBytes] at hs
    rw [scanWalV2Sparse, acceptedV2, hoff]
    refine hs.trans ⟨fun hx x hm => ⟨?_, hx x hm⟩, fun hx x hm => (hx x hm).2⟩
    obtain ⟨r, hr, he⟩ := mem_layout hm
    exact he ▸ hl r hr
  · obtain ⟨r, hr⟩ := Classical.not_forall.1 hl
    obtain ⟨hr, h0⟩ := Classical.not_imp.1 hr
    refine ⟨fun hs => absurd hs fun hs => ?_, fun hx => ?_⟩
    · have : r ∈ scanWalV2Sparse (logFile rs) 0 := by rw [hs]; exact hr
      have := (List.mem_filter.1 this).2
      simp at this
      exact h0 (by omega)
    · obtain ⟨x, hm, rfl⟩ := hmem r hr
      exact absurd (hx x hm).1 h0

/-! ## Truncation, later appends and a replay -/

namespace WalWriter

/-- A run that appends nothing leaves the file alone. -/
theorem runCalls_of_items_nil {w : WalWriter} {cs : List Call} (h : items cs = []) :
    (w.runCalls cs).1.file = w.file ∧ (w.runCalls cs).2 = [] := by
  induction cs generalizing w with
  | nil => exact ⟨rfl, rfl⟩
  | cons c cs ih =>
    cases hc : c.item? with
    | none =>
      rw [items_cons_none hc] at h
      simpa [runCalls, Call.run, hc] using ih (w := w.fsync) h
    | some it =>
      rw [items_cons_some hc] at h
      exact absurd h (List.cons_ne_nil _ _)

/-- The writer behind a truncation that leaves the magic alone. It keeps its index. -/
theorem truncateTo_all_eq {w : WalWriter} {walLsn : Nat} (ht : w.truncated walLsn = logFile []) :
    w.truncateTo walLsn = { w with
      file := logFile [], fileOffset := 8, pendingIndex := [], formatV2 := false,
      maxLsn := walLsn } := by
  have hl : (logFile []).length = 8 := by simp [logFile]
  have hs : (rawReaderV1 (logFile [])).scan 8 0 = [] := by
    have hr : (rawReaderV1 (logFile [])).read 0 = none := by
      have : readAt? (logFile []) 0 kHeaderSizeV1 = none :=
        readAt?_eq_none_iff.2 (by rw [hl]; decide)
      simp [rawReaderV1, readRawV1At, this]
    rw [scan_skip hr]
    exact scan_of_ge (hl ▸ le_streamEnd (logFile []) 0)
  have hend : (rawReaderV1 (logFile [])).lastEnd 8 0 0 = 0 := lastEnd_of_nil hs
  have hmax : (if 0 < walLsn then walLsn else 0) = walLsn := by split <;> omega
  simp [truncateTo, ht, rebuildKeyIndex, hl, hs, hend, maxLsnOf, indexFrames, hmax]

/-- A truncation that keeps nothing leaves the magic, and the counter at the LSN. -/
theorem truncateTo_all {w : WalWriter} {walLsn : Nat} (ht : w.truncated walLsn = logFile []) :
    Shows (w.truncateTo walLsn) [] [] ∧ (w.truncateTo walLsn).maxLsn = walLsn ∧
      (w.truncateTo walLsn).file = logFile [] := by
  have hl : (logFile []).length = 8 := by simp [logFile]
  have ho : overwrite (logFile []) 0 magicBytes = logFile [] := by
    simp [overwrite, logFile]
  rw [truncateTo_all_eq ht]
  refine ⟨⟨⟨?_, ?_⟩, ?_, .of_ge (by simp)⟩, rfl, rfl⟩
  · simp [ensureWalMagicLocked, ho]
  · simp [ensureWalMagicLocked, hl]
  · simp only [List.append_nil, hl]; omega

/-- A truncation that keeps records cramps the writer. -/
theorem truncateTo_cramped {w : WalWriter} {walLsn : Nat} (h8 : 8 ≤ (w.truncated walLsn).length) :
    Cramped (w.truncateTo walLsn) (w.truncated walLsn).length := by
  have hpos : 0 < (w.truncated walLsn).length := by omega
  have hf : (w.truncateTo walLsn).file = w.truncated walLsn := rebuildKeyIndex_file hpos
  have ho := rebuildKeyIndex_offset_le (w := { w with
    file := w.truncated walLsn, fileOffset := (w.truncated walLsn).length,
    pendingIndex := [] }) hpos
  refine ⟨by rw [hf], by rw [hf]; exact h8, fun _ => ?_⟩
  rw [hf]
  exact ho

end WalWriter

/-- What truncation promises: a log of any calls, truncated to an LSN, appended to, flushed and
opened again, is replayed as the records after the LSN, in order and unchanged, and the records
appended later. -/
def TruncateKeeps (cs : List Call) (walLsn : Nat) (later : List Call) : Prop :=
  let w := («open» []).runCalls cs
  let w' := (w.1.truncateTo walLsn).runCalls later
  replayScan («open» w'.1.fsync.file).file 0
    = (w.2.filter (walLsn < ·.lsn) ++ w'.2).map .v2

/-- What the log of any run of calls holds, and what a truncation leaves of it. -/
theorem truncated_runCalls {cs : List Call} (hn : (items cs).length < 2 ^ 64) (walLsn : Nat) :
    let w := («open» []).runCalls cs
    w.1.truncated walLsn =
      if w.2.filter (walLsn < ·.lsn) = [] then logFile []
      else encodeAll (w.2.filter (walLsn < ·.lsn)) := by
  obtain ⟨hfile, hacked, -, -, hv⟩ := runCalls_fresh cs
  intro w
  have hsorted := (recordsFrom_lsn (show 0 + (items cs).length < 2 ^ 64 by omega)).1
  refine truncated_logFile hv (hfile.trans (by rw [← hacked])) ?_ ?_ walLsn
  · intro r hr
    rw [show w.2 = _ from hacked] at hr
    exact recordsFrom_inRange hr
  · rw [show w.2 = _ from hacked]
    exact hsorted

/-- **A suffix that is not empty is lost.** -/
theorem not_keeps_of_suffix {cs : List Call} (hn : (items cs).length < 2 ^ 64) {walLsn : Nat}
    (hk : ∃ r ∈ ((«open» []).runCalls cs).2, walLsn < r.lsn) (later : List Call) :
    ¬ TruncateKeeps cs walLsn later := by
  have htr := truncated_runCalls hn walLsn
  unfold TruncateKeeps
  generalize («open» []).runCalls cs = w at hk htr
  obtain ⟨r, hr, hlt⟩ := hk
  have hmem : r ∈ w.2.filter (walLsn < ·.lsn) := List.mem_filter.2 ⟨hr, decide_eq_true hlt⟩
  have hne : w.2.filter (walLsn < ·.lsn) ≠ [] := List.ne_nil_of_mem hmem
  simp only [hne, if_false] at htr
  have hlen : (w.1.truncated walLsn).length
      = ((w.2.filter (walLsn < ·.lsn)).map WalRecord.size).sum := by
    rw [htr, length_encodeAll]
  have h8 : 8 ≤ (w.1.truncated walLsn).length := by
    have h1 : r.size ≤ ((w.2.filter (walLsn < ·.lsn)).map WalRecord.size).sum :=
      List.single_le_sum (by simp) _ (List.mem_map_of_mem hmem)
    have h2 : kHeaderSizeV2 ≤ r.size := by simp [WalRecord.size, Nat.add_assoc]
    simp only [kHeaderSizeV2] at h2
    omega
  have hcr := truncateTo_cramped h8
  obtain ⟨hend, hend8, -⟩ := hcr.runCalls later
  dsimp only
  generalize (w.1.truncateTo walLsn).runCalls later = w' at hend hend8
  have hfile : («open» w'.1.fsync.file).file = w'.1.file :=
    (open_file w'.1.file).resolve_right fun h => by
      have := congrArg List.length h.1
      rw [List.length_nil] at this
      omega
  rw [hfile]
  refine replayScan_ne (by simp [hne]) ?_ hend8
  rw [List.map_append, List.sum_append]
  omega

/-- A truncation that keeps nothing leaves a log whose replay returns the later records exactly
when these are legible. -/
theorem keeps_iff_of_all {cs : List Call} (hn : (items cs).length < 2 ^ 64) {walLsn : Nat}
    (hk : ∀ r ∈ ((«open» []).runCalls cs).2, r.lsn ≤ walLsn) (later : List Call) :
    TruncateKeeps cs walLsn later ↔ Legible (recordsFrom walLsn later) := by
  have htr := truncated_runCalls hn walLsn
  unfold TruncateKeeps
  generalize («open» []).runCalls cs = w at hk htr
  have hnil : w.2.filter (walLsn < ·.lsn) = [] :=
    List.filter_eq_nil_iff.2 fun r hr => by simpa using hk r hr
  simp only [hnil, if_true] at htr
  obtain ⟨hsh, hmax, hf0⟩ := truncateTo_all htr
  obtain ⟨junk, hs, hj, -, hacked, hfv⟩ := hsh.runCalls (JunkSilent.nil _) later
  obtain rfl := hj rfl
  rw [hmax] at hs hacked
  have hfile : ((w.1.truncateTo walLsn).runCalls later).1.file
      = logFile (recordsFrom walLsn later) := by
    by_cases hi : items later = []
    · obtain ⟨he, hnone⟩ := runCalls_of_items_nil (w := w.1.truncateTo walLsn) hi
      rw [he, hf0, ← hacked, hnone]
    · obtain ⟨it, hit⟩ := List.exists_mem_of_ne_nil _ hi
      obtain ⟨c, hc, hci⟩ := List.mem_filterMap.1 hit
      simpa using hs.file (hfv (.inr ⟨c, hc, by simp [hci]⟩))
  have hopen : («open» (logFile (recordsFrom walLsn later))).file
      = logFile (recordsFrom walLsn later) :=
    (open_file _).resolve_right fun h => by simpa [length_logFile] using congrArg List.length h.1
  have hd : detectFormatV2OnDisk (logFile (recordsFrom walLsn later)) = true :=
    detectFormatV2OnDisk_magic _
  have hinj : Function.Injective (List.map ScannedRecord.v2) :=
    List.map_injective_iff.2 fun a b h => by cases h; rfl
  simp only [fsync_file, hfile, hopen, replayScan, hd, if_true, hnil, List.nil_append, hacked,
    hinj.eq_iff]
  exact scan_logFile_iff fun r hr => recordsFrom_inRange hr

/-- **Truncation.** The records after the LSN and the later ones are replayed exactly when there
are none after the LSN and the later ones are legible. -/
theorem truncate_keeps_iff (cs : List Call) (hn : (items cs).length < 2 ^ 64) (walLsn : Nat)
    (later : List Call) :
    TruncateKeeps cs walLsn later ↔
      (∀ r ∈ ((«open» []).runCalls cs).2, r.lsn ≤ walLsn) ∧
        Legible (recordsFrom walLsn later) := by
  by_cases hk : ∀ r ∈ ((«open» []).runCalls cs).2, r.lsn ≤ walLsn
  · rw [keeps_iff_of_all hn hk]
    exact ⟨fun h => ⟨hk, h⟩, fun h => h.2⟩
  · refine iff_of_false (not_keeps_of_suffix hn ?_ later) fun h => hk h.1
    simpa using hk

/-- A put covered by the truncation, and one appended after it. -/
theorem truncate_keeps_later :
    TruncateKeeps [.append ⟨.kPut, [1], [2], 0⟩] 1 [.append ⟨.kPut, [3], [4], 0⟩, .fsync] := by
  refine (truncate_keeps_iff [.append ⟨.kPut, [1], [2], 0⟩] (by decide) 1
    [.append ⟨.kPut, [3], [4], 0⟩, .fsync]).2 ⟨by decide +kernel, ?_⟩
  have : recordsFrom 1 [.append ⟨.kPut, [3], [4], 0⟩, .fsync] = [⟨2, .kPut, [3], [4], 0⟩] := by
    decide +kernel
  rw [this]
  intro x hx
  obtain rfl : x = (8, ⟨2, .kPut, [3], [4], 0⟩) := by simpa [layout, Reader.layout] using hx
  exact ⟨by decide, by decide⟩

/-- Two puts, the second after the LSN the log is truncated to. -/
theorem truncate_loses_suffix :
    ¬ TruncateKeeps [.append ⟨.kPut, [1], [2], 0⟩, .append ⟨.kPut, [3], [4], 0⟩] 1 [] :=
  not_keeps_of_suffix (by decide) ⟨⟨2, .kPut, [3], [4], 0⟩, by decide +kernel, by decide⟩ []

end EBTree.Wal
