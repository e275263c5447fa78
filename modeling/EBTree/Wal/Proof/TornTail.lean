import EBTree.Wal.Proof.Append

/-!
# Recovery of a torn log

A log cut at an arbitrary byte, scanned, opened again, appended to and scanned once more.

* `take_logFile`: a cut log is the records that lie completely within it and a torn record.
* `open_shows`: `RebuildKeyIndex` of it stops in front of the torn record.
* `torn_tail_recovers_iff`: recovery finds just the complete records, before and after later
  appends, exactly when nothing in the torn bytes reads as a record where the scanner may look:
  at a sector, or behind a record written over them.
-/

set_option autoImplicit false

namespace EBTree.Wal

open Lib Reader WalWriter

/-! ## What a cut leaves -/

/-- The records that lie completely within the first `room` bytes of `encodeAll rs`. -/
def within : Nat → List WalRecord → List WalRecord
  | _, [] => []
  | room, r :: rs => if r.size ≤ room then r :: within (room - r.size) rs else []

/-- A proper prefix of a record's bytes, or no bytes at all. -/
inductive Torn : Bytes → Prop
  | nil : Torn []
  | cut {torn : Bytes} {r : WalRecord} : r.Fits → torn <+: r.encode → torn.length < r.size →
      Torn torn

theorem mem_within {room : Nat} {rs : List WalRecord} {r : WalRecord} (h : r ∈ within room rs) :
    r ∈ rs := by
  induction rs generalizing room with
  | nil => exact h
  | cons r' rs ih =>
    rw [within] at h
    split at h
    · rcases List.mem_cons.1 h with rfl | h
      · exact List.mem_cons_self
      · exact List.mem_cons_of_mem _ (ih h)
    · cases h

/-- **A cut log**: its complete records and a torn one. -/
theorem take_encodeAll {rs : List WalRecord} (h : ∀ r ∈ rs, r.Fits) (room : Nat) :
    ∃ torn, (encodeAll rs).take room = encodeAll (within room rs) ++ torn ∧ Torn torn := by
  induction rs generalizing room with
  | nil => exact ⟨[], by simp [within], .nil⟩
  | cons r rs ih =>
    rw [within, encodeAll_cons]
    by_cases hr : r.size ≤ room
    · obtain ⟨torn, ht, htorn⟩ := ih (fun r' h' => h r' (List.mem_cons_of_mem _ h')) (room - r.size)
      refine ⟨torn, ?_, htorn⟩
      rw [if_pos hr, List.take_append, List.take_of_length_le (by simpa using hr),
        WalRecord.length_encode, ht, encodeAll_cons, List.append_assoc]
    · refine ⟨r.encode.take room, ?_, .cut (h r List.mem_cons_self) (List.take_prefix _ _) ?_⟩
      · rw [if_neg hr, List.take_append_of_le_length (by simp; omega)]; simp
      · simp; omega

theorem take_logFile {rs : List WalRecord} (h : ∀ r ∈ rs, r.Fits) {n : Nat} (hn : 8 ≤ n) :
    ∃ torn, (logFile rs).take n = logFile (within (n - 8) rs) ++ torn ∧ Torn torn := by
  obtain ⟨torn, ht, htorn⟩ := take_encodeAll h (n - 8)
  refine ⟨torn, ?_, htorn⟩
  rw [logFile, List.take_append, List.take_of_length_le (by simpa using hn), length_magicBytes, ht,
    logFile, List.append_assoc]

/-- The sparse reader takes nothing off a torn record. -/
theorem Torn.tryRead {torn : Bytes} (h : Torn torn) (pre : Bytes) :
    tryReadWalRecordV2Sparse (pre ++ torn) pre.length = none := by
  cases h with
  | nil => exact tryReadWalRecordV2Sparse_of_ge (by simp)
  | cut hf ht hl => exact tryReadWalRecordV2Sparse_torn hf ht hl

/-! ## Opening a cut log -/

def WalRecord.raw (r : WalRecord) : RawRecord := ⟨r.lsn, r.op.code, r.key, r.value⟩

/-- `RebuildKeyIndex` reads a record that was laid out. -/
theorem rebuildReader_encode (pre rest : Bytes) {r : WalRecord} (h : r.Fits) :
    (rebuildReader (pre ++ (r.encode ++ rest))).read pre.length
      = some (r.raw, pre.length + r.size) := by
  obtain ⟨hh, hk, hv⟩ := readAt?_encode pre rest r
  have ha : headerAccepted (pre ++ (r.encode ++ rest)) pre.length = true := by
    simp [headerAccepted, headerV2At, hh, h.decode_header, WalRecord.header_isPadding h.lsn_pos,
      r.header_verifyCrc]
  have hs : pre.length + kHeaderSizeV2 + r.header.keyLen + r.header.valueLen
      = pre.length + r.size := by
    simp [WalRecord.size, Nat.add_assoc]; rfl
  simp only [rebuildReader, ha, if_true, readRawV2At, hh, Option.bind_eq_bind, Option.bind_some,
    h.decode_header, hk, hv, hs]
  rfl

/-- The frames the stream loops find in a log. -/
def rawLayout (o : Nat) (rs : List WalRecord) : List (Nat × RawRecord) :=
  Reader.layout WalRecord.size WalRecord.raw o rs

theorem rebuild_frames (pre rest : Bytes) {rs : List WalRecord} (h : ∀ r ∈ rs, r.Fits) :
    Frames (rebuildReader (pre ++ (encodeAll rs ++ rest))) pre.length (rawLayout pre.length rs)
      (pre.length + (rs.map WalRecord.size).sum) :=
  frames_blocks _ rebuildReader WalRecord.encode WalRecord.length_encode
    (fun pre rest _ hr => rebuildReader_encode pre rest hr) pre rest h

/-- `RebuildKeyIndex` leaves its loop in front of a torn record: the stream has ended. -/
theorem Torn.rebuild_scan {torn : Bytes} (h : Torn torn) (pre : Bytes) :
    (rebuildReader (pre ++ torn)).scan (pre ++ torn).length pre.length = [] := by
  cases h with
  | nil => exact scan_of_ge (by simp)
  | @cut _ r hf ht hl =>
    have hr : (rebuildReader (pre ++ torn)).read pre.length = none := by
      obtain hh | ⟨hh, hv⟩ := readAt?_torn pre ht hl
      · simp [rebuildReader, headerAccepted, headerV2At, hh]
      · simp [rebuildReader, readRawV2At, hh, hf.decode_header, hv]
    have hk : (pre ++ torn).length ≤ (rebuildReader (pre ++ torn)).skip pre.length := by
      obtain hh | ⟨hh, hv⟩ := readAt?_torn pre ht hl
      · simp only [rebuildReader, rebuildSkip, headerV2At, hh, Option.map_none]
        exact le_streamEnd _ _
      · have hraw : readRawV2At (pre ++ torn) pre.length = none := by
          simp [readRawV2At, hh, hf.decode_header, hv]
        simp only [rebuildReader, rebuildSkip, headerV2At, hraw, hh, hf.decode_header,
          WalRecord.header_isPadding hf.lsn_pos, Option.map_some, Option.isSome_none,
          Bool.false_eq_true, or_self, if_false]
        exact le_streamEnd _ _
    rw [scan_skip hr, scan_of_ge hk]

namespace WalWriter

theorem maxLsnOf_le {frames : List (Nat × RawRecord)} {b : Nat} (h : ∀ x ∈ frames, x.2.lsn ≤ b) :
    maxLsnOf frames ≤ b := by
  suffices ∀ m, m ≤ b → frames.foldl (fun m x => max m x.2.lsn) m ≤ b from this 0 (Nat.zero_le _)
  induction frames with
  | nil => exact fun m hm => hm
  | cons x frames ih =>
    intro m hm
    exact ih (fun y hy => h y (List.mem_cons_of_mem _ hy)) _
      (Nat.max_le.2 ⟨hm, h x List.mem_cons_self⟩)

/-- **`RebuildKeyIndex` of a cut log** ends its data behind the last complete record. -/
theorem rebuildKeyIndex_logFile {w : WalWriter} {rs : List WalRecord} {torn : Bytes}
    (hf : w.file = logFile rs ++ torn) (hl : 8 < w.file.length)
    (ho : walDataOffsetOnDisk w.file true = 8) (h : ∀ r ∈ rs, r.Fits)
    (hq : (rebuildReader w.file).scan w.file.length (logFile rs).length = []) :
    w.rebuildKeyIndex.file = w.file ∧ w.rebuildKeyIndex.formatV2 = true ∧
      w.rebuildKeyIndex.fileOffset = (logFile rs).length ∧
      w.rebuildKeyIndex.tailDataEnd = (logFile rs).length ∧
      w.rebuildKeyIndex.maxLsn = maxLsnOf (rawLayout 8 rs) := by
  have hd : detectFormatV2OnDisk w.file = true := by rw [hf, detectFormatV2OnDisk_logFile]
  have hfr := rebuild_frames magicBytes torn h
  rw [length_magicBytes, ← List.append_assoc, ← length_logFile, ← logFile, ← hf] at hfr
  have hscan : (rebuildReader w.file).scan w.file.length 8 = rawLayout 8 rs := by
    rw [scan_frames hfr (by rw [hf]; simp), hq, List.append_nil]
  have hend : (rebuildReader w.file).lastEnd w.file.length 8 8 = (logFile rs).length :=
    lastEnd_frames hfr hscan fun _ => rfl
  have hpos : 0 < (logFile rs).length := by rw [length_logFile]; omega
  have hl0 : 0 < w.file.length := by omega
  simp only [rebuildKeyIndex, hl, hl0, hd, ho, decide_true, Bool.and_self, if_true, hscan, hend,
    hpos, and_self]

/-- A file that holds no more than the magic is opened to nothing, and kept. -/
theorem open_short {f : Bytes} (hf : f = magicBytes.take f.length) :
    Shows («open» f) [] [] ∧ («open» f).maxLsn = 0 := by
  have hl : f.length ≤ 8 := by
    have := congrArg List.length hf
    simp at this; omega
  by_cases h0 : f.length = 0
  · obtain rfl := List.eq_nil_of_length_eq_zero h0
    exact ⟨open_nil_shows.1, open_nil_shows.2.1⟩
  have hs : (rawReaderV1 f).scan f.length 0 = [] := by
    have hr : (rawReaderV1 f).read 0 = none := by
      have : readAt? f 0 kHeaderSizeV1 = none :=
        readAt?_eq_none_iff.2 (by simp only [kHeaderSizeV1]; omega)
      simp [rawReaderV1, readRawV1At, this]
    rw [scan_skip hr]
    exact scan_of_ge (le_streamEnd f 0)
  have hend : (rawReaderV1 f).lastEnd f.length 0 0 = 0 := lastEnd_of_nil hs
  have hnot : ¬ 8 < f.length := by omega
  have hpos : 0 < f.length := by omega
  have ho : overwrite f 0 magicBytes = magicBytes := by
    have : f.drop 8 = [] := List.drop_eq_nil_of_le hl
    simp [overwrite, this]
  refine ⟨⟨⟨?_, ?_⟩, .inr ?_, .of_ge (by simp)⟩, ?_⟩ <;>
    simp [«open», rebuildKeyIndex, hnot, hpos, hs, hend, ensureWalMagicLocked, ho, logFile, maxLsnOf,
      indexFrames]

/-- **A cut log opens in front of its torn record**, when its torn bytes are silent. -/
theorem open_shows {rs : List WalRecord} {torn : Bytes} (h : ∀ r ∈ rs, r.Fits)
    (hq : (rebuildReader (logFile rs ++ torn)).scan (logFile rs ++ torn).length
      (logFile rs).length = [])
    (ho : walDataOffsetOnDisk (logFile rs ++ torn) true = 8)
    (hs : Silent (logFile rs ++ torn) (logFile rs).length) {b : Nat} (hb : ∀ r ∈ rs, r.lsn ≤ b) :
    Shows («open» (logFile rs ++ torn)) rs torn ∧ («open» (logFile rs ++ torn)).maxLsn ≤ b := by
  by_cases hl : 8 < (logFile rs ++ torn).length
  · obtain ⟨hfile, hv, hoff, htail, hmax⟩ := rebuildKeyIndex_logFile
      (w := ⟨logFile rs ++ torn, 0, false, .empty, [], 0, 0⟩) rfl hl ho h hq
    refine ⟨⟨.of_formatV2 hv hfile hoff, .inr ?_, hs⟩, ?_⟩
    · rw [«open», htail, length_logFile]; omega
    · rw [«open», hmax]
      refine maxLsnOf_le fun x hx => ?_
      obtain ⟨r, hr, he⟩ := mem_layout hx
      rw [he]
      exact hb r hr
  · -- nothing behind the magic
    have hrs : rs = [] := by
      cases rs with
      | nil => rfl
      | cons r rs =>
        have := r.size_pos
        simp [length_logFile] at hl; omega
    subst hrs
    have htorn : torn = [] := by
      simp [logFile] at hl; exact hl
    subst htorn
    obtain ⟨hsh, hm⟩ := open_short (f := logFile [] ++ [])
      (by rw [List.append_nil, logFile, encodeAll_nil, List.append_nil, List.take_length])
    exact ⟨by simpa using hsh, by omega⟩

end WalWriter

/-! ## Recovery -/

theorem walDataOffsetOnDisk_of_ne_nil {rs : List WalRecord} (h : ∀ r ∈ rs, r.Fits)
    (hne : rs ≠ []) (junk : Bytes) : walDataOffsetOnDisk (logFile rs ++ junk) true = 8 := by
  cases rs with
  | nil => exact absurd rfl hne
  | cons r rs =>
    simpa [logFile] using walDataOffsetOnDisk_cons (h r List.mem_cons_self) (encodeAll rs ++ junk)

theorem Silent.tryRead {f : Bytes} {o : Nat} (h : Silent f o) :
    tryReadWalRecordV2Sparse f o = none := by
  by_cases ho : o < f.length
  · exact (scan_eq_nil_iff o).1 h 0 ho
  · exact tryReadWalRecordV2Sparse_of_ge (by omega)

/-- A scan accepts just the records of the log exactly when it starts behind the magic and finds
nothing behind them. -/
theorem acceptedV2_eq_layout_iff {rs : List WalRecord} (h : ∀ r ∈ rs, r.Fits) {junk : Bytes}
    (hr : tryReadWalRecordV2Sparse (logFile rs ++ junk) (logFile rs).length = none) :
    acceptedV2 (logFile rs ++ junk) = layout 8 rs ↔
      walDataOffsetOnDisk (logFile rs ++ junk) true = 8 ∧
        Silent (logFile rs ++ junk) (logFile rs).length := by
  constructor
  · intro ha
    have ho : walDataOffsetOnDisk (logFile rs ++ junk) true = 8 := by
      cases rs with
      | cons r rs => exact walDataOffsetOnDisk_of_ne_nil h (List.cons_ne_nil _ _) junk
      | nil =>
        -- a record found elsewhere would be accepted
        refine (walDataOffsetOnDisk_cases _).resolve_right fun hd => ?_
        obtain ⟨⟨r, n⟩, hd⟩ := Option.isSome_iff_exists.1 hd
        have hn := readWalRecordV2At_some hd
        have hpos := r.size_pos
        cases ht : tryReadWalRecordV2Sparse (logFile [] ++ junk)
            (walDataOffsetOnDisk (logFile [] ++ junk) true) with
        | none =>
          simp [tryReadWalRecordV2Sparse, hd] at ht
        | some p =>
          rw [acceptedV2, scan_read (R := walReader _) (a := p.1) (n := p.2) (by omega) ht] at ha
          exact absurd ha (List.cons_ne_nil _ _)
    refine ⟨ho, ?_⟩
    rw [acceptedV2, ho, scan_layout h junk] at ha
    exact List.append_right_eq_self.1 ha
  · rintro ⟨ho, hs⟩
    rw [acceptedV2, ho, scan_layout h junk, hs, List.append_nil]

theorem scanWalV2Sparse_of_accepted {f : Bytes} {rs : List WalRecord} (h : ∀ r ∈ rs, r.Fits)
    (ha : acceptedV2 f = layout 8 rs) : scanWalV2Sparse f 0 = rs := by
  rw [scanWalV2Sparse, ha, layout_map_snd]
  exact List.filter_eq_self.2 fun r hr => by simpa using (h r hr).lsn_pos

/-- The request a record answers. -/
def WalRecord.item (r : WalRecord) : Item := ⟨r.op, r.key, r.value, r.txnId⟩

/-- A fresh log after appending `its`, and the records acknowledged. -/
def appended (its : List Item) : WalWriter × List WalRecord :=
  («open» []).runCalls (its.map .append ++ [.fsync])

/-- What recovery promises of the log of `its` cut behind its first `n` bytes: a scan finds exactly
the records that lie completely within them, taking no other bytes for a record header, and finds
them and the new records after later appends. -/
structure TornTailRecovers (its : List Item) (n : Nat) : Prop where
  scan : scanWalV2Sparse ((appended its).1.file.take n) 0 = within (n - 8) (appended its).2
  headers : acceptedV2 ((appended its).1.file.take n) = layout 8 (within (n - 8) (appended its).2)
  rescan : ∀ new : List Item, (∀ it ∈ new, it.InBounds) →
    its.length + new.length < kWalMagicV2 →
    let w := («open» ((appended its).1.file.take n)).runCalls (new.map .append ++ [.fsync])
    w.2.map WalRecord.item = new ∧
      scanWalV2Sparse w.1.file 0 = within (n - 8) (appended its).2 ++ w.2 ∧
      acceptedV2 w.1.file = layout 8 (within (n - 8) (appended its).2 ++ w.2)

/-- Nothing in the bytes of `cut` from `p` on reads as a record where a scan may look for one: at
the offsets a first record is searched at, at a sector, or behind a record written at `p`. -/
def TailSilent (cut : Bytes) (p : Nat) : Prop :=
  walDataOffsetOnDisk cut true = 8 ∧
    ∀ q, p < q → q < cut.length → (kWalSectorSize ∣ q ∨ p + kHeaderSizeV2 ≤ q) →
      tryReadWalRecordV2Sparse cut q = none

theorem items_appends (its : List Item) : items (its.map .append ++ [.fsync]) = its := by
  rw [items, List.filterMap_append, ← items, items_map_append]; simp [Call.item?]

/-- What the log of in-bounds appends holds. -/
theorem appended_eq {its : List Item} (hn : its.length < kWalMagicV2) :
    (appended its).1.file = logFile (appended its).2 ∧
      ∀ r ∈ (appended its).2, r.Fits ∧ r.lsn ≤ its.length := by
  obtain ⟨hfile, hacked, -⟩ := runCalls_fresh (its.map .append ++ [.fsync])
  have hn' : 0 + (items (its.map .append ++ [.fsync])).length < kWalMagicV2 := by
    rw [items_appends]; omega
  have hb := (recordsFrom_lsn (Nat.lt_trans hn' (by decide))).2
  rw [items_appends] at hb
  refine ⟨by rw [appended, hfile, hacked], fun r hr => ?_⟩
  rw [appended, hacked] at hr
  exact ⟨recordsFrom_fits hn' hr, by have := hb r hr; omega⟩

/-- The records of in-bounds appends answer them one by one. -/
theorem recordsFrom_items {lsn : Nat} {its : List Item} (hb : ∀ it ∈ its, it.InBounds)
    (hn : lsn + its.length < 2 ^ 64) :
    (recordsFrom lsn (its.map .append ++ [.fsync])).map WalRecord.item = its := by
  rw [recordsFrom_inBounds (by rwa [items_appends]) (by rwa [items_appends]), items_appends,
    List.map_map]
  exact (List.map_congr_left fun x _ => rfl).trans (List.zipIdx_map_fst _ _)

/-- The cut log in the cases of `n`: less than the magic, or complete records and a torn one. -/
theorem cut_cases {its : List Item} (hn : its.length < kWalMagicV2) (n : Nat) :
    (n < 8 ∧ (appended its).1.file.take n = magicBytes.take n ∧
        within (n - 8) (appended its).2 = []) ∨
      ∃ torn, (appended its).1.file.take n
        = logFile (within (n - 8) (appended its).2) ++ torn ∧ Torn torn := by
  obtain ⟨hfile, hf⟩ := appended_eq hn
  by_cases h8 : 8 ≤ n
  · exact .inr (by rw [hfile]; exact take_logFile (fun r hr => (hf r hr).1) h8)
  · refine .inl ⟨by omega, ?_, ?_⟩
    · rw [hfile, logFile, List.take_append_of_le_length (by simp; omega)]
    · cases (appended its).2 with
      | nil => rfl
      | cons r rs =>
        have := r.size_pos
        rw [within, if_neg (by omega)]

/-- A silent tail, in the terms of the writer that opens the log. -/
theorem TailSilent.silent {rs : List WalRecord} {torn : Bytes}
    (hs : TailSilent (logFile rs ++ torn) (logFile rs).length) (ht : Torn torn) :
    Silent (logFile rs ++ torn) (logFile rs).length ∧ JunkSilent rs torn := by
  refine ⟨(walReader_scan_eq_nil_iff (ht.tryRead _)).2 fun q hq hl hd => hs.2 q hq hl (.inl hd),
    fun q hq hl => hs.2 q ?_ hl (.inr hq)⟩
  simp only [kHeaderSizeV2] at hq; omega

/-- Later appends over silent junk are found behind the records before them. -/
theorem rescan_of_silent {w : WalWriter} {rs : List WalRecord} {junk : Bytes}
    (hw : Shows w rs junk) (hj : JunkSilent rs junk) (h : ∀ r ∈ rs, r.Fits) {new : List Item}
    (hb : ∀ it ∈ new, it.InBounds) (hn : w.maxLsn + new.length < kWalMagicV2) (hne : new ≠ []) :
    let w' := w.runCalls (new.map .append ++ [.fsync])
    w'.2.map WalRecord.item = new ∧ (∀ r ∈ rs ++ w'.2, r.Fits) ∧
      acceptedV2 w'.1.file = layout 8 (rs ++ w'.2) := by
  intro w'
  obtain ⟨junk', hs, -, -, hacked, hfv⟩ := hw.runCalls hj (new.map .append ++ [.fsync])
  rw [← hacked] at hs
  have hitems : w'.2.map WalRecord.item = new := by
    rw [show w'.2 = _ from hacked]
    exact recordsFrom_items hb (Nat.lt_trans hn (by decide))
  have hfits : ∀ r ∈ rs ++ w'.2, r.Fits := by
    intro r hr
    rcases List.mem_append.1 hr with hr | hr
    · exact h r hr
    · rw [show w'.2 = _ from hacked] at hr
      exact recordsFrom_fits (by rwa [items_appends]) hr
  have hne' : rs ++ w'.2 ≠ [] := by
    intro he
    rw [(List.append_eq_nil_iff.1 he).2] at hitems
    exact hne hitems.symm
  obtain ⟨it, new', rfl⟩ := List.exists_cons_of_ne_nil hne
  have hfile := hs.file (hfv (.inr ⟨.append it, by simp, rfl⟩))
  refine ⟨hitems, hfits, ?_⟩
  rw [hfile]
  exact (acceptedV2_eq_layout_iff hfits (Silent.tryRead hs.silent)).2 ⟨walDataOffsetOnDisk_of_ne_nil hfits hne' junk', hs.silent⟩

/-- Opening a file leaves it as it is; an empty one gets the magic. -/
theorem open_file (f : Bytes) :
    («open» f).file = f ∨ (f = [] ∧ («open» f).file = logFile []) := by
  by_cases h0 : 0 < f.length
  · exact .inl (by simp [«open», rebuildKeyIndex, h0])
  · obtain rfl : f = [] := by simpa using h0
    exact .inr ⟨rfl, by simpa using open_nil_shows.1.file open_nil_shows.2.2⟩

/-- **A silent torn tail is recovered from.** -/
theorem recovers_of_silent {its : List Item} (hn : its.length < kWalMagicV2) {n : Nat}
    (hs : TailSilent ((appended its).1.file.take n)
      (logFile (within (n - 8) (appended its).2)).length) : TornTailRecovers its n := by
  obtain ⟨hfile, hf⟩ := appended_eq hn
  have hkept : ∀ r ∈ within (n - 8) (appended its).2, r.Fits ∧ r.lsn ≤ its.length :=
    fun r hr => hf r (mem_within hr)
  -- the cut log opens in front of its torn record, and a scan of it finds the complete ones
  have hopen : ∃ torn, Shows («open» ((appended its).1.file.take n))
      (within (n - 8) (appended its).2) torn ∧
      JunkSilent (within (n - 8) (appended its).2) torn ∧
      («open» ((appended its).1.file.take n)).maxLsn ≤ its.length ∧
      acceptedV2 ((appended its).1.file.take n)
        = layout 8 (within (n - 8) (appended its).2) := by
    obtain ⟨hlt, hcut, hnil⟩ | ⟨torn, hcut, htorn⟩ := cut_cases hn n
    · rw [hcut, hnil]
      have hlen : (magicBytes.take n).length = n := by simp; omega
      obtain ⟨hsh, hm⟩ := open_short (f := magicBytes.take n) (by rw [hlen])
      refine ⟨[], hsh, JunkSilent.nil _, by omega, ?_⟩
      rw [acceptedV2, scan_of_ge]
      · rfl
      · rw [hlen]
        have : walDataOffsetOnDisk (magicBytes.take n) true = 8 := by
          simp [walDataOffsetOnDisk]
        omega
    · rw [hcut] at hs ⊢
      obtain ⟨hsil, hj⟩ := hs.silent htorn
      obtain ⟨hsh, hm⟩ := open_shows (fun r hr => (hkept r hr).1)
        (htorn.rebuild_scan _) hs.1 hsil
        (fun r hr => (hkept r hr).2)
      exact ⟨torn, hsh, hj, hm, (acceptedV2_eq_layout_iff (fun r hr => (hkept r hr).1)
        (htorn.tryRead _)).2 ⟨hs.1, hsil⟩⟩
  obtain ⟨torn, hsh, hj, hm, hacc⟩ := hopen
  have hkf : ∀ r ∈ within (n - 8) (appended its).2, r.Fits := fun r hr => (hkept r hr).1
  refine ⟨scanWalV2Sparse_of_accepted hkf hacc, hacc, fun new hb hlen => ?_⟩
  by_cases hne : new = []
  · subst hne
    have hfile' : acceptedV2 («open» ((appended its).1.file.take n)).file
        = layout 8 (within (n - 8) (appended its).2) := by
      obtain he | ⟨hc, he⟩ := open_file ((appended its).1.file.take n)
      · rw [he, hacc]
      · rw [he, ← hacc, hc, acceptedV2_logFile (by simp)]
        exact (scan_of_ge (Nat.zero_le _)).symm
    simp only [List.map_nil, List.nil_append, runCalls, Call.run, Call.item?, fsync_file,
      Option.toList_none, List.append_nil, true_and]
    exact ⟨scanWalV2Sparse_of_accepted hkf hfile', hfile'⟩
  · obtain ⟨hitems, hfits, hacc'⟩ := rescan_of_silent hsh hj hkf hb (by omega) hne
    exact ⟨hitems, scanWalV2Sparse_of_accepted hfits hacc', hacc'⟩

/-- Some record within the bounds takes any number of bytes up to the largest record's. -/
theorem exists_item_size {d : Nat} (hd : d ≤ 131070) (lsn : Nat) :
    ∃ it : Item, it.InBounds ∧ (it.record lsn).size = kHeaderSizeV2 + d := by
  refine ⟨⟨.kPut, List.replicate (min 65535 d) 0, List.replicate (d - min 65535 d) 0, 0⟩, ?_, ?_⟩
  · simp only [Item.InBounds, List.length_replicate]; omega
  · simp only [WalRecord.size, Item.record, List.length_replicate]; omega

/-- What an append over a torn record leaves behind the new one is scanned in its place. -/
theorem tryRead_of_rescan {w : WalWriter} {rs : List WalRecord} {torn : Bytes}
    (hw : Shows w rs torn) (h : ∀ r ∈ rs, r.Fits) {it : Item} (hb : it.InBounds)
    (hn : w.maxLsn + 1 < kWalMagicV2)
    (ha : let w' := w.runCalls ([it].map .append ++ [.fsync])
      acceptedV2 w'.1.file = layout 8 (rs ++ w'.2))
    (hq : (it.record (nextLsn w.maxLsn)).size < torn.length) :
    tryReadWalRecordV2Sparse (logFile rs ++ torn)
      ((logFile rs).length + (it.record (nextLsn w.maxLsn)).size) = none := by
  obtain ⟨r, hr⟩ : ∃ r, r = it.record (nextLsn w.maxLsn) := ⟨_, rfl⟩
  rw [← hr] at hq ⊢
  obtain ⟨w', happ, -, hv, -, hw'⟩ := hw.append_holds hb hr
  have hfile := hw'.file hv
  simp only [List.map_cons, List.map_nil, List.cons_append, List.nil_append, runCalls, Call.run,
    Call.item?, happ, ← hr, fsync_file, hfile, Option.toList_some, Option.toList_none] at ha
  have hnext : nextLsn w.maxLsn = w.maxLsn + 1 :=
    Nat.mod_eq_of_lt (Nat.lt_trans hn (by decide))
  have hfits : ∀ r' ∈ rs ++ [r], r'.Fits := by
    intro r' h'
    rcases List.mem_append.1 h' with h' | h'
    · exact h r' h'
    · obtain rfl : r' = r := by simpa using h'
      have hl : r'.lsn = w.maxLsn + 1 := by rw [hr, ← hnext]; rfl
      exact { lsn_lt := hr ▸ Nat.mod_lt _ (by decide), key_le := hr ▸ hb.1, value_le := hr ▸ hb.2,
              lsn_pos := by omega, lsn_ne := by omega }
  have hsil : Silent (logFile (rs ++ [r]) ++ torn.drop r.size) (logFile (rs ++ [r])).length := by
    rw [acceptedV2, walDataOffsetOnDisk_of_ne_nil hfits (by simp), scan_layout hfits] at ha
    exact List.append_right_eq_self.1 ha
  have hj : torn.drop r.size ≠ [] := by
    intro he
    have := List.drop_eq_nil_iff.1 he
    omega
  obtain ⟨hl, hd⟩ := junk_drop rs hj
  have hread := Silent.tryRead hsil
  rw [tryReadWalRecordV2Sparse_congr hl hd (Nat.le_refl _)] at hread
  rw [logFile_append] at hread
  simpa using hread

/-- **Recovery fails on a torn tail that is not silent.** -/
theorem silent_of_recovers {its : List Item} (hn : its.length + 1 < kWalMagicV2) {n : Nat}
    (hr : TornTailRecovers its n) : TailSilent ((appended its).1.file.take n)
      (logFile (within (n - 8) (appended its).2)).length := by
  obtain ⟨hfile, hf⟩ := appended_eq (show its.length < kWalMagicV2 by omega)
  have hkept : ∀ r ∈ within (n - 8) (appended its).2, r.Fits ∧ r.lsn ≤ its.length :=
    fun r hr => hf r (mem_within hr)
  have hkf : ∀ r ∈ within (n - 8) (appended its).2, r.Fits := fun r hr => (hkept r hr).1
  obtain ⟨hlt, hcut, hnil⟩ | ⟨torn, hcut, htorn⟩ := cut_cases (show its.length < kWalMagicV2 by omega) n
  · rw [hcut, hnil]
    have hlen : (magicBytes.take n).length = n := by simp; omega
    refine ⟨by simp [walDataOffsetOnDisk], fun q hq hl => ?_⟩
    have h8 : (logFile []).length = 8 := by simp [logFile]
    omega
  · have hacc := hr.headers
    have hre := hr.rescan
    rw [hcut] at hacc hre ⊢
    generalize within (n - 8) (appended its).2 = kept at *
    obtain ⟨ho, hs⟩ := (acceptedV2_eq_layout_iff hkf (htorn.tryRead _)).1 hacc
    obtain ⟨hsh, hm⟩ := open_shows hkf (htorn.rebuild_scan _) ho hs
      (fun r hr => (hkept r hr).2)
    refine ⟨ho, fun q hq hl hqc => ?_⟩
    rcases hqc with hd | hge
    · exact (walReader_scan_eq_nil_iff (htorn.tryRead _)).1 hs q hq hl hd
    · -- write a record that ends at `q`
      have htl : torn.length < kHeaderSizeV2 + 131071 := by
        cases htorn with
        | nil => simp [kHeaderSizeV2]
        | cut hf _ hl =>
          have := hf.key_le
          have := hf.value_le
          simp only [WalRecord.size] at hl
          omega
      simp only [List.length_append] at hl
      obtain ⟨it, hb, hsize⟩ := exists_item_size
        (d := q - (logFile kept).length - kHeaderSizeV2) (by omega)
        (nextLsn («open» (logFile kept ++ torn)).maxLsn)
      have := tryRead_of_rescan hsh hkf hb (by omega)
        (hre [it] (by simpa using hb) (by simpa using hn)).2.2 (by omega)
      rwa [hsize, show (logFile kept).length + (kHeaderSizeV2 + (q - (logFile kept).length
        - kHeaderSizeV2)) = q by omega] at this

/-- **Torn-tail recovery.** A cut log is recovered exactly when its torn bytes are silent. -/
theorem torn_tail_recovers_iff (its : List Item) (hn : its.length + 1 < kWalMagicV2) (n : Nat) :
    TornTailRecovers its n ↔ TailSilent ((appended its).1.file.take n)
      (logFile (within (n - 8) (appended its).2)).length :=
  ⟨silent_of_recovers hn, recovers_of_silent (by omega)⟩

/-- A put cut inside its header. -/
theorem torn_header_recovers : TornTailRecovers [⟨.kPut, [1], [2], 0⟩] 15 := by
  refine (torn_tail_recovers_iff [⟨.kPut, [1], [2], 0⟩] (by decide) 15).2 ⟨by decide +kernel, ?_⟩
  have hcut : ((appended [⟨.kPut, [1], [2], 0⟩]).1.file.take 15).length = 15 := by decide +kernel
  have hp : (logFile (within (15 - 8) (appended [⟨.kPut, [1], [2], 0⟩]).2)).length = 8 := by
    decide +kernel
  rw [hcut, hp]
  rintro q hq hl (⟨j, rfl⟩ | hge)
  · simp only [kWalSectorSize] at hq hl; omega
  · simp only [kHeaderSizeV2] at hge; omega

/-- A record in the value of another. -/
def embedded : WalRecord := ⟨9, .kPut, [2], [3], 0⟩

/-- The put whose value is the bytes of `embedded` and one more, torn in front of its last byte:
once a record of 22 bytes is written over it, the value is scanned as a record. -/
theorem torn_value_read_as_record :
    ¬ TornTailRecovers [⟨.kPut, [1], embedded.encode ++ [0], 0⟩] 53 := by
  intro h
  have hs := (silent_of_recovers (by decide) h).2 30 (by decide +kernel) (by decide +kernel)
    (.inr (by decide +kernel))
  have hr : tryReadWalRecordV2Sparse
      ((appended [⟨.kPut, [1], embedded.encode ++ [0], 0⟩]).1.file.take 53) 30
        = some (embedded, 53) := by decide +kernel
  rw [hr] at hs
  cases hs

end EBTree.Wal
