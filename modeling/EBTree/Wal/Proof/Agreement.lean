import EBTree.Wal.Proof.Log

/-!
# The writer's scanner and the replayer's

`RebuildKeyIndex` leaves its loop at a record the file does not hold all of; `ScanWalV2Sparse` goes
on at the next sector. Both read the same log as long as no bytes behind its records read as one.

* `ScannersAgree f`: the two find the same records, LSNs and end of data in a file, and an append
  after opening it takes a new LSN and keeps all of them.
* `Settled f rs junk`: the file is a log of `rs`, and neither scanner stops in `junk`
  (`QuietBehind`). `Settled.agree`: the scanners agree on it. `Settled.append`: a record more.
* `LogOp`, `LogRun`: appends, truncations, and crashes that tear the tail or a record.
* `LogRun.scanners_agree`: **the scanners agree in every run whose torn bytes are quiet** and whose
  truncations keep no record.
* `torn_tail_hides_lsn`: a torn value with a record at a sector.
-/

set_option autoImplicit false

namespace EBTree.Wal

open Lib Reader WalWriter

/-! ## What the scanners are to agree on -/

/-- The records `RebuildKeyIndex` visits, in the format it detects. -/
def rebuildFrames (f : Bytes) : List (Nat × RawRecord) :=
  if 8 < f.length && detectFormatV2OnDisk f then
    (rebuildReader f).scan f.length (walDataOffsetOnDisk f true)
  else (rawReaderV1 f).scan f.length 0

/-- `ScanWalV2TailExtent`: where the data of the sparse scan ends. -/
def scanDataEnd (f : Bytes) : Nat :=
  (walReader f).lastEnd f.length (walDataOffsetOnDisk f true) (walDataOffsetOnDisk f true)

/-- The largest LSN of some records. -/
def maxLsnIn (rs : List WalRecord) : Nat := rs.foldl (fun m r => max m r.lsn) 0

/-- The two scanners find the same in a file, and the next append after opening it takes a greater
LSN than any they find and loses none of the records. -/
structure ScannersAgree (f : Bytes) : Prop where
  records : rebuildFrames f = (acceptedV2 f).map fun x => (x.1, x.2.raw)
  maxLsn : («open» f).maxLsn = maxLsnIn (scanWalV2Sparse f 0)
  dataEnd : («open» f).ensureWalMagicLocked.fileOffset = scanDataEnd f
  append : ∀ it : Item, it.InBounds → («open» f).maxLsn + 1 < kWalMagicV2 →
    ∃ w' lsn, («open» f).append it = (w', .ok lsn) ∧ (∀ r ∈ scanWalV2Sparse f 0, r.lsn < lsn) ∧
      acceptedV2 w'.file = acceptedV2 f ++ [(scanDataEnd f, it.record lsn)]

/-! ## Quiet bytes -/

/-- Behind `p`, where the records end, no offset a scanner may come to reads as a record: `p`, a
sector, or the end of a record yet to be written. -/
def QuietBehind (f : Bytes) (p : Nat) : Prop :=
  walDataOffsetOnDisk f true = 8 ∧
    ∀ q, p ≤ q → q < f.length → q = p ∨ kWalSectorSize ∣ q ∨ p + kHeaderSizeV2 ≤ q →
      tryReadWalRecordV2Sparse f q = none ∧ (rebuildReader f).read q = none

theorem readRawV2At_congr {f g : Bytes} {o o' : Nat} (hl : f.length = g.length)
    (hd : f.drop o = g.drop o) (ho : o ≤ o') : readRawV2At f o' = readRawV2At g o' := by
  have hr : ∀ k n, readAt? f (o' + k) n = readAt? g (o' + k) n :=
    fun k n => readAt?_congr hl hd (by omega)
  simp only [readRawV2At, readAt?_congr hl hd ho, Nat.add_assoc, hr]

/-- `RebuildKeyIndex` sees only the bytes from its offset on. -/
theorem rebuildReader_congr {f g : Bytes} {o o' : Nat} (hl : f.length = g.length)
    (hd : f.drop o = g.drop o) (ho : o ≤ o') :
    (rebuildReader f).read o' = (rebuildReader g).read o' := by
  have hhdr : headerAccepted f o' = headerAccepted g o' := by
    rw [headerAccepted, headerAccepted, headerV2At, headerV2At, readAt?_congr hl hd ho]
  change (if headerAccepted f o' then readRawV2At f o' else none)
    = if headerAccepted g o' then readRawV2At g o' else none
  rw [hhdr, readRawV2At_congr hl hd ho]

namespace QuietBehind

variable {f : Bytes} {p : Nat}

/-- The sparse scan finds nothing. -/
theorem silent (h : QuietBehind f p) : Silent f p := by
  by_cases hp : p < f.length
  · have hnone := (h.2 p (Nat.le_refl _) hp (.inl rfl)).1
    refine (walReader_scan_eq_nil_iff hnone).2 fun q hq hl hd => ?_
    exact (h.2 q (Nat.le_of_lt hq) hl (.inr (.inl hd))).1
  · exact .of_ge (not_lt.1 hp)

/-- Neither does `RebuildKeyIndex`, whether it goes on at the next sector or leaves its loop. -/
theorem rebuild_scan (h : QuietBehind f p) : (rebuildReader f).scan f.length p = [] := by
  have hall : ∀ o, p ≤ o → o = p ∨ kWalSectorSize ∣ o → (rebuildReader f).scan f.length o = [] := by
    intro o
    refine scan_induction (P := fun o => p ≤ o → o = p ∨ kWalSectorSize ∣ o →
      (rebuildReader f).scan f.length o = []) (rebuildReader f) f.length ?_ ?_ ?_ o
    · exact fun o ho _ _ => scan_of_ge ho
    · intro o a n ho hr _ hle hwhere
      have hnone := (h.2 o hle ho (hwhere.imp id .inl)).2
      rw [hnone] at hr
      cases hr
    · intro o ho hr ih hle _
      have hgt := (rebuildReader f).skip_gt o
      rw [scan_skip hr]
      -- the loop ends, or goes on at a sector
      have hskip : f.length ≤ (rebuildReader f).skip o ∨
          kWalSectorSize ∣ (rebuildReader f).skip o := by
        have hdef : (rebuildReader f).skip o = rebuildSkip f o := rfl
        rw [hdef, rebuildSkip]
        split
        · exact .inl (le_streamEnd f o)
        · split
          · exact .inr (Nat.dvd_mul_left _ _)
          · exact .inl (le_streamEnd f o)
      rcases hskip with hend | hsector
      · exact scan_of_ge hend
      · exact ih (by omega) (.inr hsector)
  exact hall p (Nat.le_refl _) (.inl rfl)

end QuietBehind

/-- The file holds no more than a part of the magic, or is a log of the records with bytes behind
them that neither scanner stops in. -/
structure Settled (f : Bytes) (rs : List WalRecord) (junk : Bytes) : Prop where
  fits : ∀ r ∈ rs, r.Fits
  content : (f = magicBytes.take f.length ∧ rs = [] ∧ junk = []) ∨
    (f = logFile rs ++ junk ∧ QuietBehind f (logFile rs).length)

/-- The counter of a writer is the largest LSN its scanner has seen. -/
theorem open_maxLsn (f : Bytes) : («open» f).maxLsn = maxLsnOf (rebuildFrames f) := by
  by_cases h0 : 0 < f.length
  · rw [rebuildFrames]
    by_cases hv : (8 < f.length && detectFormatV2OnDisk f) = true
    · simp only [«open», rebuildKeyIndex, h0, hv, if_true]
    · simp only [«open», rebuildKeyIndex, h0, hv, if_true, if_false, Bool.false_eq_true]
  · obtain rfl : f = [] := List.eq_nil_of_length_eq_zero (by omega)
    rfl

theorem maxLsnOf_rawLayout (o : Nat) (rs : List WalRecord) :
    maxLsnOf (rawLayout o rs) = maxLsnIn rs := by
  suffices ∀ m, (rawLayout o rs).foldl (fun m x => max m x.2.lsn) m
      = rs.foldl (fun m r => max m r.lsn) m from this 0
  induction rs generalizing o with
  | nil => exact fun _ => rfl
  | cons r rs ih => exact fun m => ih (o + r.size) _

theorem layout_raw (o : Nat) (rs : List WalRecord) :
    rawLayout o rs = (layout o rs).map fun x => (x.1, x.2.raw) := by
  induction rs generalizing o with
  | nil => rfl
  | cons r rs ih => exact congrArg ((o, r.raw) :: ·) (ih (o + r.size))

theorem le_maxLsnIn {rs : List WalRecord} {r : WalRecord} (h : r ∈ rs) : r.lsn ≤ maxLsnIn rs := by
  have hmem : (0, r.raw).2 ∈ (rawLayout 8 rs).map (·.2) := by
    rw [rawLayout, Reader.layout_map_snd]
    exact List.mem_map_of_mem h
  obtain ⟨x, hx, he⟩ := List.mem_map.1 hmem
  have hle := Logs.le_maxLsnOf hx
  rw [he, maxLsnOf_rawLayout] at hle
  exact hle

namespace Settled

variable {f : Bytes} {rs : List WalRecord} {junk : Bytes}

theorem quiet_nil (rs : List WalRecord) (h : ∀ r ∈ rs, r.Fits) :
    QuietBehind (logFile rs ++ []) (logFile rs).length := by
  refine ⟨by rw [List.append_nil]; exact walDataOffsetOnDisk_logFile h, fun q hq hl _ => ?_⟩
  rw [List.append_nil] at hl
  omega

theorem of_logFile (h : ∀ r ∈ rs, r.Fits) : Settled (logFile rs) rs [] :=
  ⟨h, .inr ⟨(List.append_nil _).symm, by
    have := quiet_nil rs h
    rwa [List.append_nil] at this⟩⟩

/-- The magic cut short reads as no log. -/
theorem short_scan (hf : f = magicBytes.take f.length) :
    rebuildFrames f = [] ∧ acceptedV2 f = [] ∧ walDataOffsetOnDisk f true = 8 := by
  have hl : f.length ≤ 8 := by
    have := congrArg List.length hf
    simp at this
    omega
  have hstart : walDataOffsetOnDisk f true = 8 := by
    simp [walDataOffsetOnDisk, hl]
  refine ⟨?_, ?_, hstart⟩
  · rw [rebuildFrames, if_neg (by simp; omega)]
    have hr : (rawReaderV1 f).read 0 = none := by
      have : readAt? f 0 kHeaderSizeV1 = none :=
        readAt?_eq_none_iff.2 (by simp only [kHeaderSizeV1]; omega)
      simp [rawReaderV1, readRawV1At, this]
    rw [scan_skip hr]
    exact scan_of_ge (le_streamEnd f 0)
  · rw [acceptedV2, hstart]
    exact scan_of_ge hl

theorem rebuildFrames_eq (h : Settled f rs junk) : rebuildFrames f = rawLayout 8 rs := by
  rcases h.content with ⟨hf, rfl, -⟩ | ⟨hf, hq⟩
  · exact (short_scan hf).1
  by_cases hl : 8 < f.length
  · have hd : detectFormatV2OnDisk f = true := by rw [hf, detectFormatV2OnDisk_logFile]
    have hfr := rebuild_frames magicBytes junk h.fits
    rw [length_magicBytes, ← List.append_assoc, ← length_logFile, ← logFile, ← hf] at hfr
    rw [rebuildFrames, if_pos (by simp [hl, hd]), hq.1,
      scan_frames hfr (by rw [hf]; simp), hq.rebuild_scan, List.append_nil]
  · -- nothing behind the magic
    have hlen : (logFile rs).length + junk.length = f.length := by rw [hf, List.length_append]
    have hrs : rs = [] := by
      cases rs with
      | nil => rfl
      | cons r rs =>
        have := r.size_pos
        simp [length_logFile] at hlen
        omega
    have hjunk : junk = [] := by
      rw [hrs, length_logFile] at hlen
      simp at hlen
      exact List.eq_nil_of_length_eq_zero (by omega)
    refine (short_scan ?_).1.trans (by rw [hrs]; rfl)
    rw [hf, hrs, hjunk, logFile, encodeAll_nil, List.append_nil, List.append_nil, List.take_length]

theorem acceptedV2_eq (h : Settled f rs junk) : acceptedV2 f = layout 8 rs := by
  rcases h.content with ⟨hf, rfl, -⟩ | ⟨rfl, hq⟩
  · exact (short_scan hf).2.1
  · exact (acceptedV2_eq_layout_iff h.fits (Silent.tryRead hq.silent)).2 ⟨hq.1, hq.silent⟩

theorem scan_eq (h : Settled f rs junk) : scanWalV2Sparse f 0 = rs :=
  scanWalV2Sparse_of_accepted h.fits h.acceptedV2_eq

/-- **Opening the file** goes on behind its records, over the quiet bytes. -/
theorem opened (h : Settled f rs junk) :
    Shows («open» f) rs junk ∧ ∀ b, (∀ r ∈ rs, r.lsn ≤ b) → («open» f).maxLsn ≤ b := by
  rcases h.content with ⟨hf, rfl, rfl⟩ | ⟨rfl, hq⟩
  · obtain ⟨hsh, hm⟩ := open_short hf
    exact ⟨hsh, fun b _ => by omega⟩
  · exact ⟨(open_shows h.fits hq.rebuild_scan hq.1 hq.silent (b := 2 ^ 64) fun r hr =>
        Nat.le_of_lt (h.fits r hr).lsn_lt).1,
      fun b hb => (open_shows h.fits hq.rebuild_scan hq.1 hq.silent hb).2⟩

theorem scanDataEnd_eq (h : Settled f rs junk) : scanDataEnd f = (logFile rs).length := by
  rcases h.content with ⟨hf, rfl, -⟩ | ⟨hf, hq⟩
  · obtain ⟨-, hacc, hstart⟩ := short_scan hf
    rw [acceptedV2] at hacc
    rw [scanDataEnd, lastEnd_of_nil hacc, hstart, length_logFile]
    rfl
  · have hacc := h.acceptedV2_eq
    rw [acceptedV2, hq.1] at hacc
    have hfr := frames_encodeAll magicBytes junk h.fits
    rw [length_magicBytes, ← List.append_assoc, ← length_logFile, ← logFile, ← hf] at hfr
    rw [scanDataEnd, hq.1]
    exact lastEnd_frames hfr hacc fun _ => rfl

/-- **A record written behind the others** leaves the file settled, and the junk it does not cover
quiet. -/
theorem append (h : Settled f rs junk) {w : WalWriter} (hw : Shows w rs junk) {it : Item}
    (hb : it.InBounds) (hn : w.maxLsn + 1 < kWalMagicV2) :
    ∃ w', w.append it = (w', .ok (w.maxLsn + 1)) ∧ w'.maxLsn = w.maxLsn + 1 ∧
      Shows w' (rs ++ [it.record (w.maxLsn + 1)]) (junk.drop (it.record (w.maxLsn + 1)).size) ∧
      Settled w'.file (rs ++ [it.record (w.maxLsn + 1)])
        (junk.drop (it.record (w.maxLsn + 1)).size) := by
  have hmagic : kWalMagicV2 < 2 ^ 64 := by decide
  have hnext : nextLsn w.maxLsn = w.maxLsn + 1 := Nat.mod_eq_of_lt (by omega)
  have hfit : (it.record (w.maxLsn + 1)).Fits := by
    refine ⟨⟨?_, hb.1, hb.2⟩, Nat.succ_pos _, ?_⟩
    · change w.maxLsn + 1 < 2 ^ 64
      omega
    · change w.maxLsn + 1 ≠ kWalMagicV2
      omega
  have hfits : ∀ r ∈ rs ++ [it.record (w.maxLsn + 1)], r.Fits := by
    intro r hr
    rcases List.mem_append.1 hr with hr | hr
    · exact h.fits r hr
    · rw [List.mem_singleton.1 hr]
      exact hfit
  obtain ⟨w', ha, hm, hv, htail, hholds⟩ := hw.append_holds hb rfl
  rw [hnext] at ha hm htail hholds
  generalize it.record (w.maxLsn + 1) = r at hfit hfits htail hholds ⊢
  have hsize : kHeaderSizeV2 ≤ r.size := by simp [WalRecord.size, Nat.add_assoc]
  have hlen : (logFile (rs ++ [r])).length = (logFile rs).length + r.size := by
    simp [logFile_append]
  have hfile : w'.file = logFile (rs ++ [r]) ++ junk.drop r.size := hholds.file hv
  -- what is left of the junk sits where it sat
  have hquiet : QuietBehind w'.file (logFile (rs ++ [r])).length := by
    rw [hfile]
    by_cases hj : junk.drop r.size = []
    · rw [hj]
      exact quiet_nil _ hfits
    rcases h.content with ⟨-, -, rfl⟩ | ⟨hf, hq⟩
    · exact absurd List.drop_nil hj
    obtain ⟨hl, hd⟩ := junk_drop rs hj
    refine ⟨walDataOffsetOnDisk_of_ne_nil hfits (by simp) _, fun q hge hlt _ => ?_⟩
    rw [hl] at hlt
    obtain ⟨hsparse, hrebuild⟩ := hq.2 q (by omega) (by rw [hf]; exact hlt) (.inr (.inr (by omega)))
    rw [hf] at hsparse hrebuild
    exact ⟨(tryReadWalRecordV2Sparse_congr hl hd hge).trans hsparse,
      (rebuildReader_congr hl hd hge).trans hrebuild⟩
  refine ⟨w', ha, hm, { hholds with tail := .inr ?_, silent := ?_ }, hfits, .inr ⟨hfile, hquiet⟩⟩
  · rw [htail, length_logFile]
    omega
  · have hsil := hquiet.silent
    rwa [hfile] at hsil

/-- **The scanners agree** on a settled file. -/
theorem agree (h : Settled f rs junk) : ScannersAgree f := by
  obtain ⟨hsh, -⟩ := h.opened
  have hmax : («open» f).maxLsn = maxLsnIn rs := by
    rw [open_maxLsn, h.rebuildFrames_eq, maxLsnOf_rawLayout]
  refine ⟨?_, ?_, ?_, fun it hb hn => ?_⟩
  · rw [h.rebuildFrames_eq, h.acceptedV2_eq, layout_raw]
  · rw [hmax, h.scan_eq]
  · rw [hsh.offset_eq, h.scanDataEnd_eq]
  · obtain ⟨w', ha, -, -, hset⟩ := h.append hsh hb hn
    refine ⟨w', _, ha, fun r hr => ?_, ?_⟩
    · rw [h.scan_eq] at hr
      have := le_maxLsnIn hr
      omega
    · rw [hset.acceptedV2_eq, h.acceptedV2_eq, h.scanDataEnd_eq, length_logFile, layout, layout,
        Reader.layout_append]
      rfl

end Settled

/-! ## Runs -/

/-- What happens to a log: calls of its writer, and crashes behind which it is opened again. -/
inductive LogOp
  | append (it : Item)
  | fsync
  | ensureMinLsn (lsn : Nat)
  | truncateTo (walLsn : Nat)
  /-- The file is left with its first `n` bytes. -/
  | crash (n : Nat)
  /-- The file is left with the first `k` bytes of the record that is being appended. -/
  | tear (it : Item) (k : Nat)

namespace LogOp

/-- The bytes a crash leaves of the file. -/
def torn (w : WalWriter) : LogOp → Bytes
  | crash n => w.file.take n
  | tear it k =>
    let w := w.ensureWalMagicLocked.syncExternalTailLocked
    overwrite w.file w.fileOffset ((it.record (nextLsn w.maxLsn)).encode.take k)
  | _ => w.file

def apply (w : WalWriter) : LogOp → WalWriter
  | append it => (w.append it).1
  | fsync => w.fsync
  | ensureMinLsn lsn => w.ensureMinLsn lsn
  | truncateTo walLsn => w.truncateTo walLsn
  | op => «open» (op.torn w)

/-- Where the records end that lie completely within the first `n` bytes of a log. -/
def keptEnd (f : Bytes) (n : Nat) : Nat := (logFile (within (n - 8) ((acceptedV2 f).map (·.2)))).length

/-- The counter stays in front of the magic, truncations keep no record, and what a crash leaves
behind the last complete record is quiet. -/
def Meets (w : WalWriter) : LogOp → Prop
  | append _ => w.maxLsn + 1 < kWalMagicV2
  | fsync => True
  | ensureMinLsn _ => True
  | truncateTo walLsn => w.keepFrom walLsn = w.file.length
  | crash n => n < 8 ∨ QuietBehind (w.file.take n) (keptEnd w.file n)
  | op@(tear _ _) => QuietBehind (op.torn w) (scanDataEnd w.file)

end LogOp

/-- The writers that runs from an empty path lead to. -/
inductive LogRun : WalWriter → Prop
  | init : LogRun («open» [])
  | step {w : WalWriter} (op : LogOp) : LogRun w → op.Meets w → LogRun (op.apply w)

/-- What every state of a run keeps. -/
structure Kept (w : WalWriter) (rs : List WalRecord) (junk : Bytes) : Prop where
  settled : Settled w.file rs junk
  shows : Shows w rs junk
  lsn_le : ∀ r ∈ rs, r.lsn ≤ w.maxLsn

namespace Kept

variable {w : WalWriter} {rs : List WalRecord} {junk : Bytes}

/-- The file with its magic is the log. -/
theorem magic_settled (h : Kept w rs junk) : Settled (logFile rs ++ junk) rs junk := by
  rcases h.settled.content with ⟨-, rfl, rfl⟩ | ⟨hf, hq⟩
  · rw [List.append_nil]
    exact Settled.of_logFile h.settled.fits
  · rw [← hf]
    exact h.settled

/-- **Opening a settled file.** -/
theorem «open» {f : Bytes} (h : Settled f rs junk) : Kept («open» f) rs junk := by
  refine ⟨?_, h.opened.1, fun r hr => ?_⟩
  · rcases open_file f with hf | ⟨rfl, hf⟩
    · rw [hf]
      exact h
    · rw [hf]
      rcases h.content with ⟨-, rfl, rfl⟩ | ⟨hc, -⟩
      · exact Settled.of_logFile h.fits
      · have := congrArg List.length hc
        simp [length_logFile] at this
        omega
  · rw [open_maxLsn, h.rebuildFrames_eq, maxLsnOf_rawLayout]
    exact le_maxLsnIn hr

theorem append (h : Kept w rs junk) {it : Item} (hn : w.maxLsn + 1 < kWalMagicV2) :
    ∃ rs' junk', Kept (w.append it).1 rs' junk' := by
  by_cases hb : it.InBounds
  · obtain ⟨w', ha, hm, hsh, hset⟩ := h.settled.append h.shows hb hn
    rw [ha]
    refine ⟨_, _, hset, hsh, fun r hr => ?_⟩
    rw [hm]
    rcases List.mem_append.1 hr with hr | hr
    · exact Nat.le_succ_of_le (h.lsn_le r hr)
    · rw [List.mem_singleton.1 hr]
      exact Nat.le_refl _
  · have hnext : nextLsn w.maxLsn = w.maxLsn + 1 := by
      have hmagic : kWalMagicV2 < 2 ^ 64 := by decide
      exact Nat.mod_eq_of_lt (by omega)
    obtain ⟨w', e, ha, hm, hv, hsh⟩ := h.shows.append_tooLarge hb
    rw [ha]
    refine ⟨rs, junk, ?_, hsh, fun r hr => ?_⟩
    · rw [hsh.file hv]
      exact h.magic_settled
    · rw [hm, hnext]
      exact Nat.le_succ_of_le (h.lsn_le r hr)

theorem ensureMinLsn (h : Kept w rs junk) (lsn : Nat) : Kept (w.ensureMinLsn lsn) rs junk := by
  obtain ⟨⟨h1, h2⟩, h3, h4⟩ := h.shows
  refine ⟨h.settled, ⟨⟨?_, ?_⟩, h3, h4⟩, fun r hr => ?_⟩
  · cases hv : w.formatV2 <;> simp_all [WalWriter.ensureMinLsn, ensureWalMagicLocked]
  · cases hv : w.formatV2 <;> simp_all [WalWriter.ensureMinLsn, ensureWalMagicLocked]
  · have hle := h.lsn_le r hr
    simp only [WalWriter.ensureMinLsn]
    split <;> omega

/-- A truncation that keeps nothing. -/
theorem truncateTo {walLsn : Nat} (hk : w.keepFrom walLsn = w.file.length) :
    Kept (w.truncateTo walLsn) [] [] := by
  have hset : Settled (logFile []) [] [] := Settled.of_logFile fun r hr => absurd hr List.not_mem_nil
  cases hv : w.formatV2 with
  | true =>
    have ht : w.truncated walLsn = logFile [] := by
      simp [truncated, hv, hk, logFile]
    obtain ⟨hsh, -, hf⟩ := truncateTo_all ht
    exact ⟨by rw [hf]; exact hset, hsh, fun r hr => absurd hr List.not_mem_nil⟩
  | false =>
    have ht : w.truncated walLsn = [] := by
      simp [truncated, hv, hk]
    have hfile : (w.truncateTo walLsn).file = logFile [] := by
      simp [WalWriter.truncateTo, ht, rebuildKeyIndex, ensureWalMagicLocked, overwrite, logFile]
    have hv' : (w.truncateTo walLsn).formatV2 = true := by
      simp [WalWriter.truncateTo, ht, rebuildKeyIndex, ensureWalMagicLocked]
    refine ⟨by rw [hfile]; exact hset, ⟨.of_formatV2 hv' (by rw [hfile, List.append_nil]) ?_, ?_,
      .of_ge (by simp)⟩, fun r hr => absurd hr List.not_mem_nil⟩
    · simp [WalWriter.truncateTo, ht, rebuildKeyIndex, ensureWalMagicLocked, logFile]
    · right
      simp [WalWriter.truncateTo, ht, rebuildKeyIndex, ensureWalMagicLocked, logFile]

/-- A crash that leaves the first `n` bytes. -/
theorem crash (h : Kept w rs junk) {n : Nat}
    (hm : n < 8 ∨ QuietBehind (w.file.take n) (LogOp.keptEnd w.file n)) :
    ∃ rs' junk', Settled (w.file.take n) rs' junk' := by
  have hnone : ∀ r ∈ ([] : List WalRecord), r.Fits := fun r hr => absurd hr List.not_mem_nil
  have hshort : ∀ {f : Bytes}, f = magicBytes.take f.length →
      f.take n = magicBytes.take (f.take n).length := by
    intro f hf
    have hl : f.length ≤ 8 := by
      have := congrArg List.length hf
      simp at this
      omega
    rw [List.length_take, hf, List.take_take, ← hf]
  rcases h.settled.content with ⟨hf, -, -⟩ | ⟨hf, -⟩
  · exact ⟨[], [], hnone, .inl ⟨hshort hf, rfl, rfl⟩⟩
  by_cases h8 : n < 8
  · refine ⟨[], [], hnone, .inl ⟨?_, rfl, rfl⟩⟩
    have hcut : w.file.take n = magicBytes.take n := by
      rw [hf, logFile, List.append_assoc, List.take_append_of_le_length (by simp; omega)]
    have hlen : (magicBytes.take n).length = n := by simp; omega
    rw [hcut, hlen]
  · have hq := hm.resolve_left h8
    rw [LogOp.keptEnd, h.settled.acceptedV2_eq, layout_map_snd] at hq
    refine ⟨within (n - 8) rs, (w.file.take n).drop (logFile (within (n - 8) rs)).length,
      fun r hr => h.settled.fits r (mem_within hr), .inr ⟨?_, hq⟩⟩
    -- the complete records are the front of the cut file
    have hfront : logFile (within (n - 8) rs) <+: w.file.take n := by
      obtain ⟨torn, ht, -⟩ := take_logFile h.settled.fits (not_lt.1 h8)
      rw [hf, List.take_append, ht, List.append_assoc]
      exact List.prefix_append _ _
    obtain ⟨rest, hrest⟩ := hfront
    rw [← hrest, List.drop_left]

/-- A crash that tears the record being appended. -/
theorem tear (h : Kept w rs junk) {it : Item} {k : Nat}
    (hm : QuietBehind (LogOp.torn w (.tear it k)) (scanDataEnd w.file)) :
    ∃ junk', Settled (LogOp.torn w (.tear it k)) rs junk' := by
  rw [h.settled.scanDataEnd_eq] at hm
  have hfile : LogOp.torn w (.tear it k) = logFile rs ++
      (((it.record (nextLsn w.ensureWalMagicLocked.maxLsn)).encode.take k) ++ junk.drop
        ((it.record (nextLsn w.ensureWalMagicLocked.maxLsn)).encode.take k).length) := by
    simp only [LogOp.torn, h.shows.sync]
    rw [h.shows.file_eq, h.shows.offset_eq, overwrite_append, List.append_assoc]
  exact ⟨_, h.settled.fits, .inr ⟨hfile, hm⟩⟩

/-- **One step** whose condition is met. -/
theorem step (h : Kept w rs junk) {op : LogOp} (hm : op.Meets w) :
    ∃ rs' junk', Kept (op.apply w) rs' junk' := by
  cases op with
  | append it => exact h.append hm
  | fsync => exact ⟨rs, junk, h.settled, h.shows.fsync, h.lsn_le⟩
  | ensureMinLsn lsn => exact ⟨rs, junk, h.ensureMinLsn lsn⟩
  | truncateTo walLsn => exact ⟨[], [], truncateTo hm⟩
  | crash n =>
    obtain ⟨rs', junk', hset⟩ := h.crash hm
    exact ⟨rs', junk', Kept.open hset⟩
  | tear it k =>
    obtain ⟨junk', hset⟩ := h.tear hm
    exact ⟨rs, junk', Kept.open hset⟩

end Kept

theorem LogRun.kept {w : WalWriter} (h : LogRun w) : ∃ rs junk, Kept w rs junk := by
  induction h with
  | init =>
    exact ⟨[], [], Kept.open ⟨fun r hr => absurd hr List.not_mem_nil, .inl ⟨rfl, rfl, rfl⟩⟩⟩
  | step op _ hm ih =>
    obtain ⟨rs, junk, hk⟩ := ih
    exact hk.step hm

/-- **In every run whose steps meet the condition the two scanners agree** on the file, and LSNs are
never assigned twice. -/
theorem LogRun.scanners_agree {w : WalWriter} (h : LogRun w) : ScannersAgree w.file := by
  obtain ⟨rs, junk, hk⟩ := h.kept
  exact hk.settled.agree

/-- A put, and one that is cut in its header. -/
def tornHeader : WalWriter :=
  LogOp.apply (LogOp.apply («open» []) (.append ⟨.kPut, [1], [2], 0⟩)) (.append ⟨.kPut, [1], [3], 0⟩)

/-- Such a log, opened and appended to. -/
theorem agree_torn_header :
    ScannersAgree (LogOp.apply (LogOp.apply tornHeader (.crash 40))
      (.append ⟨.kPut, [1], [4], 0⟩)).file := by
  have hquiet : QuietBehind (tornHeader.file.take 40) (LogOp.keptEnd tornHeader.file 40) := by
    have hend : LogOp.keptEnd tornHeader.file 40 = 31 := by decide +kernel
    have hlen : (tornHeader.file.take 40).length = 40 := by decide +kernel
    refine ⟨by decide +kernel, fun q hq hl hw => ?_⟩
    rw [hend] at hq hw
    rw [hlen] at hl
    obtain rfl : q = 31 := by
      simp only [kWalSectorSize, kHeaderSizeV2] at hw
      omega
    decide +kernel
  refine LogRun.scanners_agree (.step (.append _) (.step (.crash 40) (.step (.append _)
    (.step (.append _) .init ?_) ?_) (.inr hquiet)) ?_)
  · exact (by decide +kernel : («open» []).maxLsn + 1 < kWalMagicV2)
  · exact (by decide +kernel :
      (LogOp.apply («open» []) (.append ⟨.kPut, [1], [2], 0⟩)).maxLsn + 1 < kWalMagicV2)
  · exact (by decide +kernel : (LogOp.apply tornHeader (.crash 40)).maxLsn + 1 < kWalMagicV2)

/-! ## A record in a torn value -/

/-- A put whose value has the bytes of `embedded` at the second sector of the file, when it is
appended behind a record of 23 bytes. -/
def sectorItem : Item := ⟨.kPut, [1], List.replicate 4043 0 ++ (embedded.encode ++ [0]), 0⟩

/-- The file of a put and `sectorItem`, without its last byte. -/
def tornSector : Bytes :=
  (LogOp.apply (LogOp.apply (LogOp.apply («open» []) (.append ⟨.kPut, [1], [2], 0⟩))
    (.append sectorItem)) (.crash 4119)).file

/-- **The sparse scan goes on at the next sector**, inside the torn value, and finds the LSN 9 there.
`RebuildKeyIndex` has left its loop, and the next append takes the LSN 2. -/
theorem torn_tail_hides_lsn :
    («open» tornSector).maxLsn = 1 ∧ embedded ∈ scanWalV2Sparse tornSector 0 ∧
      ¬ ScannersAgree tornSector := by
  have hmax : («open» tornSector).maxLsn = 1 := by decide +kernel
  have hmem : embedded ∈ scanWalV2Sparse tornSector 0 := by decide +kernel
  refine ⟨hmax, hmem, fun h => ?_⟩
  have hle := le_maxLsnIn hmem
  rw [← h.maxLsn, hmax] at hle
  exact absurd hle (by decide)

end EBTree.Wal
