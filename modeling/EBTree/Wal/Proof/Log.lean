import EBTree.Wal.Proof.Replay
import EBTree.Wal.Proof.Truncate

/-!
# A log in use

`Logs w rs`: the writer's file is the log of the records `rs`, which are legible and numbered
upwards to the counter. It is what every call of a shard engine keeps: an append adds a record, a
truncation that covers every record takes them all, and opening the file again finds them.

* `Logs.append`, `Logs.append_tooLarge`, `Logs.truncateTo`, `Logs.reopen`: one lemma for each.
* `scanWalV2Sparse_after`, `mem_replayPending`: what a scan and a replay make of the file.
-/

set_option autoImplicit false

namespace EBTree.Wal

open Lib Reader WalWriter

structure Logs (w : WalWriter) (rs : List WalRecord) : Prop where
  shows : Shows w rs []
  file_eq : w.file = logFile rs
  v2 : w.formatV2 = true ∨ rs = []
  fits : ∀ r ∈ rs, r.Fits
  sorted : rs.Pairwise (·.lsn < ·.lsn)
  le_max : ∀ r ∈ rs, r.lsn ≤ w.maxLsn

/-- Within its bounds, a record fits its header under any LSN below the magic. -/
theorem fits_record {it : Item} (hb : it.InBounds) {lsn : Nat} (hn : lsn + 1 < kWalMagicV2) :
    (it.record (lsn + 1)).Fits :=
  have h64 : kWalMagicV2 < 2 ^ 64 := by decide
  { lsn_lt := by simp only [Item.record]; omega
    key_le := hb.1
    value_le := hb.2
    lsn_pos := Nat.succ_pos _
    lsn_ne := by simp only [Item.record]; omega }

namespace Logs

variable {w : WalWriter} {rs : List WalRecord}

theorem fresh : Logs («open» []) [] where
  shows := open_nil_shows.1
  file_eq := by simp [«open», rebuildKeyIndex, ensureWalMagicLocked, overwrite, logFile]
  v2 := .inr rfl
  fits r hr := absurd hr List.not_mem_nil
  sorted := List.Pairwise.nil
  le_max r hr := absurd hr List.not_mem_nil

theorem fsync (h : Logs w rs) : Logs w.fsync rs :=
  ⟨h.shows.fsync, h.file_eq, h.v2, h.fits, h.sorted, h.le_max⟩

/-- **One append**: the record gets the next LSN and goes behind the others. -/
theorem append (h : Logs w rs) {it : Item} (hb : it.InBounds) (hn : w.maxLsn + 1 < kWalMagicV2) :
    ∃ w', w.append it = (w', .ok (w.maxLsn + 1)) ∧ w'.maxLsn = w.maxLsn + 1 ∧
      Logs w' (rs ++ [it.record (w.maxLsn + 1)]) := by
  have h64 : kWalMagicV2 < 2 ^ 64 := by decide
  have hnext : nextLsn w.maxLsn = w.maxLsn + 1 := Nat.mod_eq_of_lt (by omega)
  obtain ⟨w', ha, hm, hv, hs, -⟩ := h.shows.append (JunkSilent.nil rs) hb rfl
  rw [hnext] at ha hm hs
  rw [List.drop_nil] at hs
  refine ⟨w', ha, hm, hs, by simpa using hs.file hv, .inl hv, fun r hr => ?_, ?_, fun r hr => ?_⟩
  · rcases List.mem_append.1 hr with hr | hr
    · exact h.fits r hr
    · rw [List.mem_singleton.1 hr]
      exact fits_record hb hn
  · refine List.pairwise_append.2 ⟨h.sorted, List.pairwise_singleton _ _, fun a ha b hb' => ?_⟩
    rw [List.mem_singleton.1 hb']
    exact Nat.lt_succ_of_le (h.le_max a ha)
  · rw [hm]
    rcases List.mem_append.1 hr with hr | hr
    · exact Nat.le_succ_of_le (h.le_max r hr)
    · rw [List.mem_singleton.1 hr]
      exact Nat.le_refl _

/-- A record too large for its header uses up an LSN. -/
theorem append_tooLarge (h : Logs w rs) {it : Item} (hb : ¬ it.InBounds)
    (hn : w.maxLsn + 1 < kWalMagicV2) :
    ∃ w' e, w.append it = (w', .error e) ∧ w'.maxLsn = w.maxLsn + 1 ∧ Logs w' rs := by
  have h64 : kWalMagicV2 < 2 ^ 64 := by decide
  have hnext : nextLsn w.maxLsn = w.maxLsn + 1 := Nat.mod_eq_of_lt (by omega)
  obtain ⟨w', e, ha, hm, hv, hs⟩ := h.shows.append_tooLarge hb
  rw [hnext] at hm
  refine ⟨w', e, ha, hm, hs, by simpa using hs.file hv, .inl hv, h.fits, h.sorted, fun r hr => ?_⟩
  rw [hm]
  exact Nat.le_succ_of_le (h.le_max r hr)

/-- There is nothing behind the records to take in. -/
theorem syncExternalTailLocked (h : Logs w rs) : w.syncExternalTailLocked = w := by
  refine syncExternalTailLocked_of_silent (by rw [h.file_eq]; exact detectFormatV2OnDisk_magic _) ?_
  have ht := h.shows.tail
  rw [List.append_nil] at ht
  rw [h.file_eq]
  refine ht.imp id fun he => ?_
  rw [he]
  exact .of_ge (Nat.le_refl _)

/-- A truncation that covers every record leaves the magic. -/
theorem truncateTo (h : Logs w rs) {walLsn : Nat} (hall : ∀ r ∈ rs, r.lsn ≤ walLsn) :
    Logs (w.truncateTo walLsn) [] ∧ (w.truncateTo walLsn).maxLsn = walLsn := by
  have hlogs : ∀ {w' : WalWriter}, Shows w' [] [] → w'.file = logFile [] → Logs w' [] :=
    fun hs hf => ⟨hs, hf, .inr rfl, by simp, List.Pairwise.nil, by simp⟩
  by_cases hv : w.formatV2 = true
  · have hnil : rs.filter (walLsn < ·.lsn) = [] :=
      List.filter_eq_nil_iff.2 fun r hr => by simpa using hall r hr
    have htr := truncated_logFile hv h.file_eq (fun r hr => (h.fits r hr).toInRange) h.sorted walLsn
    rw [hnil, if_pos rfl] at htr
    obtain ⟨hs, hm, hf⟩ := truncateTo_all htr
    exact ⟨hlogs hs hf, hm⟩
  · -- the file holds the magic, which is read in the V1 layout and taken for nothing
    obtain rfl := h.v2.resolve_left hv
    have hv : w.formatV2 = false := by simpa using hv
    have hl : (logFile []).length = 8 := by simp [logFile]
    have hscan : (rawReaderV1 (logFile [])).scan 8 0 = [] := by
      have hr : (rawReaderV1 (logFile [])).read 0 = none := by
        have : readAt? (logFile []) 0 kHeaderSizeV1 = none :=
          readAt?_eq_none_iff.2 (by rw [hl]; decide)
        simp [rawReaderV1, readRawV1At, this]
      rw [scan_skip hr]
      exact scan_of_ge (hl ▸ le_streamEnd (logFile []) 0)
    have htr : w.truncated walLsn = [] := by
      have hf : w.file = logFile [] := h.file_eq
      simp [truncated, keepFrom, hv, hf, hl, hscan]
    have hmax : (if 0 < walLsn then walLsn else 0) = walLsn := by split <;> omega
    have heq : w.truncateTo walLsn = { w with
        file := magicBytes, fileOffset := 8, pendingIndex := [], formatV2 := true,
        keyIndex := .empty, tailDataEnd := 0, maxLsn := walLsn } := by
      simp [WalWriter.truncateTo, htr, rebuildKeyIndex, ensureWalMagicLocked, overwrite, hmax]
    have hfile : (w.truncateTo walLsn).file = logFile [] := by rw [heq]; simp [logFile]
    have hv' : (w.truncateTo walLsn).formatV2 = true := by rw [heq]
    have hoff : (w.truncateTo walLsn).fileOffset = (logFile []).length := by rw [heq]; simp [logFile]
    have htail : max (w.truncateTo walLsn).tailDataEnd 8 = (logFile []).length := by
      rw [heq]; simp [logFile]
    have hmaxLsn : (w.truncateTo walLsn).maxLsn = walLsn := by rw [heq]
    exact ⟨hlogs ⟨.of_formatV2 hv' (by simpa using hfile) hoff, .inr htail,
      .of_ge (by simp)⟩ hfile, hmaxLsn⟩

theorem ensureMinLsn (h : Logs w rs) (minLsn : Nat) :
    Logs (w.ensureMinLsn minLsn) rs ∧ (w.ensureMinLsn minLsn).maxLsn = max w.maxLsn minLsn := by
  have hmax : (w.ensureMinLsn minLsn).maxLsn = max w.maxLsn minLsn := by
    simp only [WalWriter.ensureMinLsn]
    split <;> omega
  have hmagic : (w.ensureMinLsn minLsn).ensureWalMagicLocked.file = w.ensureWalMagicLocked.file ∧
      (w.ensureMinLsn minLsn).ensureWalMagicLocked.fileOffset
        = w.ensureWalMagicLocked.fileOffset := by
    unfold WalWriter.ensureMinLsn ensureWalMagicLocked
    cases w.formatV2 <;> exact ⟨rfl, rfl⟩
  refine ⟨⟨⟨⟨?_, ?_⟩, h.shows.tail, h.shows.silent⟩, h.file_eq, h.v2, h.fits, h.sorted,
    fun r hr => ?_⟩, hmax⟩
  · rw [hmagic.1, h.shows.file_eq]
  · rw [hmagic.2, h.shows.offset_eq]
  · rw [hmax]
    exact Nat.le_trans (h.le_max r hr) (Nat.le_max_left _ _)

theorem le_maxLsnOf {frames : List (Nat × RawRecord)} {x : Nat × RawRecord} (hx : x ∈ frames) :
    x.2.lsn ≤ maxLsnOf frames := by
  suffices ∀ m, (m ≤ frames.foldl (fun m x => max m x.2.lsn) m) ∧
      x.2.lsn ≤ frames.foldl (fun m x => max m x.2.lsn) m from (this 0).2
  induction frames with
  | nil => exact absurd hx List.not_mem_nil
  | cons y frames ih =>
    intro m
    have hmono : ∀ (l : List (Nat × RawRecord)) n, n ≤ l.foldl (fun m x => max m x.2.lsn) n := by
      intro l
      induction l with
      | nil => exact fun n => Nat.le_refl n
      | cons z l ihl => exact fun n => Nat.le_trans (Nat.le_max_left _ _) (ihl _)
    have hrest := hmono frames (max m y.2.lsn)
    refine ⟨Nat.le_trans (Nat.le_max_left _ _) hrest, ?_⟩
    rcases List.mem_cons.1 hx with rfl | hx
    · exact Nat.le_trans (Nat.le_max_right _ _) hrest
    · exact (ih hx _).2

/-- **Opening a file of records** finds them, and the counter at the largest LSN. -/
theorem open_logFile (hfits : ∀ r ∈ rs, r.Fits) (hsorted : rs.Pairwise (·.lsn < ·.lsn)) :
    Logs («open» (logFile rs)) rs ∧
      ∀ b, (∀ r ∈ rs, r.lsn ≤ b) → («open» (logFile rs)).maxLsn ≤ b := by
  have ho := walDataOffsetOnDisk_logFile hfits
  have hsil : Silent (logFile rs ++ []) (logFile rs).length := .of_ge (by simp)
  have hopen : ∀ b, (∀ r ∈ rs, r.lsn ≤ b) →
      Shows («open» (logFile rs)) rs [] ∧ («open» (logFile rs)).maxLsn ≤ b := by
    intro b hb
    have := open_shows hfits (Torn.nil.rebuild_scan _) (by rw [List.append_nil]; exact ho) hsil hb
    simpa using this
  refine ⟨?_, fun b hb => (hopen b hb).2⟩
  have hsh := (hopen (2 ^ 64) fun r hr => Nat.le_of_lt (hfits r hr).lsn_lt).1
  by_cases hrs : rs = []
  · subst hrs
    refine ⟨hsh, ?_, .inr rfl, hfits, hsorted, by simp⟩
    rcases open_file (logFile []) with hf | ⟨hf, -⟩
    · exact hf
    · exact absurd (congrArg List.length hf) (by simp [logFile])
  · have hl : 8 < (logFile rs).length := by
      obtain ⟨r, rs', rfl⟩ := List.exists_cons_of_ne_nil hrs
      have := r.size_pos
      rw [length_logFile, List.map_cons, List.sum_cons]
      omega
    obtain ⟨hf, hv, -, -, hmax⟩ := @rebuildKeyIndex_logFile
      ⟨logFile rs, 0, false, .empty, [], 0, 0⟩ rs [] (List.append_nil _).symm hl ho hfits
      (scan_of_ge (Nat.le_refl _))
    refine ⟨hsh, hf, .inl hv, hfits, hsorted, fun r hr => ?_⟩
    rw [«open», hmax]
    have hmem : r.raw ∈ (rawLayout 8 rs).map (·.2) := by
      rw [rawLayout, Reader.layout_map_snd]
      exact List.mem_map_of_mem hr
    obtain ⟨x, hx, he⟩ := List.mem_map.1 hmem
    have := le_maxLsnOf hx
    rw [he] at this
    exact this

/-- **Opening the file again** finds the records. -/
theorem reopen (h : Logs w rs) :
    Logs («open» w.file) rs ∧ ∀ b, (∀ r ∈ rs, r.lsn ≤ b) → («open» w.file).maxLsn ≤ b := by
  rw [h.file_eq]
  exact open_logFile h.fits h.sorted

end Logs

/-! ## What is read from it -/

variable {rs : List WalRecord}

theorem scanWalV2Sparse_after (h : ∀ r ∈ rs, r.Fits) (afterLsn : Nat) :
    scanWalV2Sparse (logFile rs) afterLsn = rs.filter (afterLsn < ·.lsn) := by
  rw [scanWalV2Sparse, acceptedV2_logFile h, layout_map_snd]

/-- A scan of all of it finds its records, -/
theorem Logs.scan_all {w : WalWriter} (h : Logs w rs) : scanWalV2Sparse w.file 0 = rs := by
  rw [h.file_eq, scanWalV2Sparse_after h.fits]
  exact List.filter_eq_self.2 fun r hr => decide_eq_true (h.fits r hr).lsn_pos

/-- which its bytes determine. -/
theorem Logs.unique {w : WalWriter} {rs' : List WalRecord} (h : Logs w rs) (h' : Logs w rs') :
    rs = rs' := h.scan_all.symm.trans h'.scan_all

/-- **A replay puts records of the log into the memtable**, durable only if no transaction is left
open or aborted over them. -/
theorem mem_replayPending (h : ∀ r ∈ rs, r.Fits) {mt : MemTable} {afterLsn : Nat} {key : Key}
    {e : MemTableEntry} (he : (replayPending (logFile rs) mt afterLsn).find? key = some e) :
    mt.find? key = some e ∨ ∃ r ∈ rs, r.isData = true ∧ r.key = key ∧ afterLsn < r.lsn ∧
      ∃ durable : Bool, e = entryOf durable r ∧ (durable = true → Durable rs r) := by
  have hd : detectFormatV2OnDisk (logFile rs) = true := detectFormatV2OnDisk_magic _
  rw [replayPending, if_pos hd] at he
  simp only [scanWalV2Records, scanWalV2Sparse_after h, find?_replay] at he
  rcases Option.or_eq_some_iff.1 he with he | ⟨-, he⟩
  · obtain ⟨r, hr, rfl⟩ := Option.map_eq_some_iff.1 he
    have hm := List.mem_of_getLast? hr
    simp only [List.mem_filter, Bool.and_eq_true, decide_eq_true_eq] at hm
    obtain ⟨⟨⟨hrs, hlt⟩, hdata⟩, hkey, -⟩ := hm
    refine .inr ⟨r, hrs, hdata, hkey, hlt, _, rfl, fun hdur => ?_⟩
    rcases of_decide_eq_true hdur with h0 | hc
    · exact .inl h0
    · obtain ⟨c, hcm, ht⟩ := List.mem_map.1 hc
      simp only [List.mem_filter, decide_eq_true_eq] at hcm
      exact .inr ⟨c, hcm.1.1, hcm.2, ht⟩
  · exact .inl he

end EBTree.Wal
