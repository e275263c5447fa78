import EBTree.Wal.Writer

/-!
# Appending to the log

The bytes of a log and what its readers make of them.

* `logFile rs`: the magic and the records `rs`; `acceptedV2_logFile`: the sparse scanner accepts
  just these, each where it was written.
* `Shows w rs junk`: the writer's file is `logFile rs ++ junk` and its next record goes over
  `junk`. `Shows.append` is what one call does to it, `Shows.runCalls` what a run does.
* `scan_after_appends`: **the round trip** of a run of appends and a scan.
-/

set_option autoImplicit false

namespace EBTree.Wal

open Lib Reader

/-! ## The layout of a log -/

def logFile (rs : List WalRecord) : Bytes := magicBytes ++ encodeAll rs

theorem logFile_append (rs rs' : List WalRecord) :
    logFile (rs ++ rs') = logFile rs ++ encodeAll rs' := by
  simp [logFile]

theorem length_logFile (rs : List WalRecord) :
    (logFile rs).length = 8 + (rs.map WalRecord.size).sum := by
  simp [logFile, length_encodeAll]

/-- The records with the offsets they are written at, from `o` on. -/
def layout (o : Nat) (rs : List WalRecord) : List (Nat × WalRecord) :=
  Reader.layout WalRecord.size id o rs

@[simp] theorem layout_map_snd (o : Nat) (rs : List WalRecord) :
    (layout o rs).map (·.2) = rs := by
  rw [layout, Reader.layout_map_snd, List.map_id]

/-- The scanner accepts records laid out one after the other, whatever is around them. -/
theorem frames_encodeAll (pre rest : Bytes) {rs : List WalRecord} (h : ∀ r ∈ rs, r.Fits) :
    Frames (walReader (pre ++ (encodeAll rs ++ rest))) pre.length (layout pre.length rs)
      (pre.length + (rs.map WalRecord.size).sum) :=
  frames_blocks _ walReader WalRecord.encode WalRecord.length_encode
    (fun pre rest _ hr => tryReadWalRecordV2Sparse_encode pre rest hr) pre rest h

theorem detectFormatV2OnDisk_magic (f : Bytes) : detectFormatV2OnDisk (magicBytes ++ f) = true := by
  have h : readAt? (magicBytes ++ f) 0 8 = some magicBytes :=
    readAt?_of_append [] _ rfl rfl (by simp)
  simp [detectFormatV2OnDisk, walMagicAt, h, leNat_magicBytes]

/-- The data of a log that starts with a record starts right behind the magic. -/
theorem walDataOffsetOnDisk_cons {r : WalRecord} (h : r.Fits) (rest : Bytes) :
    walDataOffsetOnDisk (magicBytes ++ (r.encode ++ rest)) true = 8 := by
  have hr := readWalRecordV2At_encode magicBytes rest h.toInRange h.lsn_pos
  rw [length_magicBytes] at hr
  simp [walDataOffsetOnDisk, hasValidWalRecordV2At, hr]

theorem walDataOffsetOnDisk_logFile {rs : List WalRecord} (h : ∀ r ∈ rs, r.Fits) :
    walDataOffsetOnDisk (logFile rs) true = 8 := by
  cases rs with
  | nil => simp [walDataOffsetOnDisk, logFile]
  | cons r rs => exact walDataOffsetOnDisk_cons (h r List.mem_cons_self) (encodeAll rs)

/-- The scan of a log whose data starts behind the magic begins with the records laid out there. -/
theorem scan_layout {rs : List WalRecord} (h : ∀ r ∈ rs, r.Fits) (rest : Bytes) :
    (walReader (logFile rs ++ rest)).scan (logFile rs ++ rest).length 8
      = layout 8 rs ++ (walReader (logFile rs ++ rest)).scan (logFile rs ++ rest).length
          (logFile rs).length := by
  have hf := frames_encodeAll magicBytes rest h
  rw [length_magicBytes, ← List.append_assoc, ← length_logFile] at hf
  exact scan_frames hf (by simp [logFile])

/-- **The scanner accepts exactly the records of a log**, each at the offset it was written at. -/
theorem acceptedV2_logFile {rs : List WalRecord} (h : ∀ r ∈ rs, r.Fits) :
    acceptedV2 (logFile rs) = layout 8 rs := by
  have hs := scan_layout h []
  simp only [List.append_nil, scan_of_ge (Nat.le_refl _)] at hs
  rw [acceptedV2, walDataOffsetOnDisk_logFile h, hs]

theorem scanWalV2Sparse_logFile {rs : List WalRecord} (h : ∀ r ∈ rs, r.Fits) :
    scanWalV2Sparse (logFile rs) 0 = rs := by
  rw [scanWalV2Sparse, acceptedV2_logFile h, layout_map_snd]
  exact List.filter_eq_self.2 fun r hr => by simpa using (h r hr).lsn_pos

/-! ## What a run appends -/

namespace WalWriter

/-- The records a run appends when the counter stands at `lsn`. -/
def recordsFrom (lsn : Nat) : List Call → List WalRecord
  | [] => []
  | c :: cs =>
    match c.item? with
    | none => recordsFrom lsn cs
    | some it =>
      if it.InBounds then it.record (nextLsn lsn) :: recordsFrom (nextLsn lsn) cs
      else recordsFrom (nextLsn lsn) cs

/-- Where the counter stands after the run. -/
def lsnAfter (lsn : Nat) : List Call → Nat
  | [] => lsn
  | c :: cs => lsnAfter (if c.item?.isSome then nextLsn lsn else lsn) cs

theorem recordsFrom_append (lsn : Nat) (cs cs' : List Call) :
    recordsFrom lsn (cs ++ cs') = recordsFrom lsn cs ++ recordsFrom (lsnAfter lsn cs) cs' := by
  induction cs generalizing lsn with
  | nil => rfl
  | cons c cs ih =>
    simp only [List.cons_append, recordsFrom, lsnAfter]
    cases c.item? with
    | none => simp [ih]
    | some it =>
      simp only [ih, Option.isSome_some, if_true]
      split <;> rfl

theorem recordsFrom_inRange {lsn : Nat} {cs : List Call} {r : WalRecord}
    (h : r ∈ recordsFrom lsn cs) : r.InRange := by
  induction cs generalizing lsn with
  | nil => cases h
  | cons c cs ih =>
    simp only [recordsFrom] at h
    cases hc : c.item? with
    | none => exact ih (by simpa [hc] using h)
    | some it =>
      simp only [hc] at h
      split at h
      · rename_i hb
        rcases List.mem_cons.1 h with rfl | h
        · exact ⟨Nat.mod_lt _ (by decide), hb.1, hb.2⟩
        · exact ih h
      · exact ih h

/-- What the calls of a run ask to append. -/
def items (cs : List Call) : List Item := cs.filterMap Call.item?

theorem items_cons_none {c : Call} {cs : List Call} (h : c.item? = none) :
    items (c :: cs) = items cs := List.filterMap_cons_none h

theorem items_cons_some {c : Call} {cs : List Call} {it : Item} (h : c.item? = some it) :
    items (c :: cs) = it :: items cs := List.filterMap_cons_some h

@[simp] theorem items_map_append (its : List Item) : items (its.map .append) = its := by
  induction its with
  | nil => rfl
  | cons it its ih => rw [List.map_cons, items_cons_some (show (Call.append it).item? = some it from rfl), ih]

/-- Without a wrap the LSNs of a run increase from the counter on, one for each append at most. -/
theorem recordsFrom_lsn {lsn : Nat} {cs : List Call} (hn : lsn + (items cs).length < 2 ^ 64) :
    (recordsFrom lsn cs).Pairwise (·.lsn < ·.lsn) ∧
      ∀ r ∈ recordsFrom lsn cs, lsn < r.lsn ∧ r.lsn ≤ lsn + (items cs).length := by
  induction cs generalizing lsn with
  | nil => simp [recordsFrom]
  | cons c cs ih =>
    simp only [recordsFrom]
    cases hc : c.item? with
    | none =>
      rw [items_cons_none hc] at hn ⊢
      exact ih hn
    | some it =>
      rw [items_cons_some hc, List.length_cons] at hn ⊢
      have hnext : nextLsn lsn = lsn + 1 := Nat.mod_eq_of_lt (by omega)
      obtain ⟨hp, hb⟩ := @ih (lsn + 1) (by omega)
      simp only [hnext]
      split
      · refine ⟨List.pairwise_cons.2 ⟨fun r hr => (hb r hr).1, hp⟩, fun r hr => ?_⟩
        rcases List.mem_cons.1 hr with rfl | hr
        · simp [Item.record]
        · have := hb r hr; omega
      · exact ⟨hp, fun r hr => by have := hb r hr; omega⟩

/-- When every request fits, each gets a record, numbered from the counter on. -/
theorem recordsFrom_inBounds {lsn : Nat} {cs : List Call} (hb : ∀ it ∈ items cs, it.InBounds)
    (hn : lsn + (items cs).length < 2 ^ 64) :
    recordsFrom lsn cs = ((items cs).zipIdx (lsn + 1)).map fun x => x.1.record x.2 := by
  induction cs generalizing lsn with
  | nil => rfl
  | cons c cs ih =>
    simp only [recordsFrom]
    cases hc : c.item? with
    | none =>
      rw [items_cons_none hc] at hb hn ⊢
      exact ih hb hn
    | some it =>
      rw [items_cons_some hc] at hb hn ⊢
      simp only [List.length_cons] at hn
      have hnext : nextLsn lsn = lsn + 1 := Nat.mod_eq_of_lt (by omega)
      simp only [hb it List.mem_cons_self, if_true, hnext]
      rw [ih (fun it h => hb it (List.mem_cons_of_mem _ h)) (by omega)]
      rfl

/-! ## A writer's file -/

/-- The scanner finds nothing from `o` on. -/
def Silent (f : Bytes) (o : Nat) : Prop := (walReader f).scan f.length o = []

theorem Silent.of_ge {f : Bytes} {o : Nat} (h : f.length ≤ o) : Silent f o := scan_of_ge h

/-- The writer's file holds the magic, the records `rs` and then `junk`, and the next record goes
over `junk`; a file that holds less than the magic gets it with the next append. -/
structure Holds (w : WalWriter) (rs : List WalRecord) (junk : Bytes) : Prop where
  file_eq : w.ensureWalMagicLocked.file = logFile rs ++ junk
  offset_eq : w.ensureWalMagicLocked.fileOffset = (logFile rs).length

/-- A `Holds` whose junk reads as no record, for a writer that knows of all its data. -/
structure Shows (w : WalWriter) (rs : List WalRecord) (junk : Bytes) : Prop
    extends Holds w rs junk where
  tail : (logFile rs ++ junk).length ≤ w.tailDataEnd ∨ max w.tailDataEnd 8 = (logFile rs).length
  silent : Silent (logFile rs ++ junk) (logFile rs).length

section Magic

variable (w : WalWriter)

@[simp] theorem ensureWalMagicLocked_formatV2 : w.ensureWalMagicLocked.formatV2 = true := by
  unfold ensureWalMagicLocked; split <;> simp_all

@[simp] theorem ensureWalMagicLocked_maxLsn : w.ensureWalMagicLocked.maxLsn = w.maxLsn := by
  unfold ensureWalMagicLocked; split <;> rfl

@[simp] theorem ensureWalMagicLocked_tailDataEnd :
    w.ensureWalMagicLocked.tailDataEnd = w.tailDataEnd := by
  unfold ensureWalMagicLocked; split <;> rfl

@[simp] theorem fsync_maxLsn : w.fsync.maxLsn = w.maxLsn := rfl

@[simp] theorem fsync_formatV2 : w.fsync.formatV2 = w.formatV2 := rfl

@[simp] theorem fsync_file : w.fsync.file = w.file := rfl

end Magic

theorem ensureWalMagicLocked_of_formatV2 {w : WalWriter} (h : w.formatV2 = true) :
    w.ensureWalMagicLocked = w := by
  simp [ensureWalMagicLocked, h]

theorem detectFormatV2OnDisk_logFile (rs : List WalRecord) (junk : Bytes) :
    detectFormatV2OnDisk (logFile rs ++ junk) = true := by
  rw [logFile, List.append_assoc]; exact detectFormatV2OnDisk_magic _

/-- Of a silent tail `SyncExternalTail` takes in nothing. -/
theorem syncExternalTailLocked_of_silent {w : WalWriter}
    (hd : detectFormatV2OnDisk w.file = true)
    (h : w.file.length ≤ w.tailDataEnd ∨ Silent w.file (max w.tailDataEnd 8)) :
    w.syncExternalTailLocked = w := by
  unfold syncExternalTailLocked
  split
  · rfl
  · have hs : (walReader w.file).scan w.file.length (max w.tailDataEnd 8) = [] :=
      h.resolve_left ‹_›
    simp [extendTailFromOffset, hd, hs, lastEnd_of_nil hs, indexFrames]

variable {w : WalWriter} {rs : List WalRecord} {junk : Bytes}

theorem Holds.file (h : Holds w rs junk) (hv : w.formatV2 = true) :
    w.file = logFile rs ++ junk := by
  rw [← h.file_eq, ensureWalMagicLocked_of_formatV2 hv]

/-- A formatted writer holds what its file does. -/
theorem Holds.of_formatV2 (hv : w.formatV2 = true) (hf : w.file = logFile rs ++ junk)
    (ho : w.fileOffset = (logFile rs).length) : Holds w rs junk := by
  refine ⟨?_, ?_⟩ <;> rw [ensureWalMagicLocked_of_formatV2 hv] <;> assumption

namespace Shows

theorem sync (h : Shows w rs junk) :
    w.ensureWalMagicLocked.syncExternalTailLocked = w.ensureWalMagicLocked := by
  refine syncExternalTailLocked_of_silent (by rw [h.file_eq, detectFormatV2OnDisk_logFile]) ?_
  rw [h.file_eq, ensureWalMagicLocked_tailDataEnd]
  refine h.tail.imp id fun ht => ?_
  rw [ht]
  exact h.silent

theorem fsync (h : Shows w rs junk) : Shows w.fsync rs junk := by
  obtain ⟨⟨h1, h2⟩, h3, h4⟩ := h
  refine ⟨⟨?_, ?_⟩, h3, h4⟩ <;> cases hv : w.formatV2 <;>
    simp_all [WalWriter.fsync, ensureWalMagicLocked]

/-- **One append**: the record goes right behind the ones before it, over the junk there, and the
data ends behind it. -/
theorem append_holds (h : Shows w rs junk) {it : Item} (hb : it.InBounds) {r : WalRecord}
    (hr : r = it.record (nextLsn w.maxLsn)) :
    ∃ w', w.append it = (w', .ok (nextLsn w.maxLsn)) ∧ w'.maxLsn = nextLsn w.maxLsn ∧
      w'.formatV2 = true ∧ w'.tailDataEnd = (logFile (rs ++ [r])).length ∧
      Holds w' (rs ++ [r]) (junk.drop r.size) := by
  have hoff : w.ensureWalMagicLocked.fileOffset + r.size = (logFile (rs ++ [r])).length := by
    rw [h.offset_eq, logFile_append]; simp
  have hfile : overwrite w.ensureWalMagicLocked.file w.ensureWalMagicLocked.fileOffset r.encode
      = logFile (rs ++ [r]) ++ junk.drop r.size := by
    rw [h.file_eq, h.offset_eq, overwrite_append, logFile_append]
    simp
  have hv : { w.ensureWalMagicLocked with maxLsn := nextLsn w.maxLsn }.formatV2 = true :=
    ensureWalMagicLocked_formatV2 w
  refine ⟨{ w.ensureWalMagicLocked with maxLsn := nextLsn w.maxLsn }.appendRecordV2 r,
    ?_, rfl, hv, hoff, .of_formatV2 hv hfile hoff⟩
  simp only [WalWriter.append, h.sync, appendItem, hb, if_true, ensureWalMagicLocked_maxLsn, hr]

/-- A record too large for its header takes an LSN and leaves the file alone. -/
theorem append_tooLarge (h : Shows w rs junk) {it : Item} (hb : ¬ it.InBounds) :
    ∃ w' e, w.append it = (w', .error e) ∧ w'.maxLsn = nextLsn w.maxLsn ∧ w'.formatV2 = true ∧
      Shows w' rs junk := by
  have hv : { w.ensureWalMagicLocked with maxLsn := nextLsn w.maxLsn }.formatV2 = true :=
    ensureWalMagicLocked_formatV2 w
  refine ⟨{ w.ensureWalMagicLocked with maxLsn := nextLsn w.maxLsn },
    Status.invalidArgument "wal record too large", ?_, rfl, hv,
    .of_formatV2 hv h.file_eq h.offset_eq, ?_, h.silent⟩
  · simp only [WalWriter.append, h.sync, appendItem, hb, if_false, ensureWalMagicLocked_maxLsn]
  · rw [ensureWalMagicLocked_tailDataEnd]; exact h.tail

end Shows

/-- Past its first 21 bytes no offset of the junk reads as a record. -/
def JunkSilent (rs : List WalRecord) (junk : Bytes) : Prop :=
  ∀ q, (logFile rs).length + kHeaderSizeV2 ≤ q → q < (logFile rs ++ junk).length →
    tryReadWalRecordV2Sparse (logFile rs ++ junk) q = none

theorem JunkSilent.nil (rs : List WalRecord) : JunkSilent rs [] := by
  intro q hq hl
  simp only [List.append_nil] at hl
  omega

/-- What a record written over junk leaves of it sits where it sat. -/
theorem junk_drop (rs : List WalRecord) {r : WalRecord} (hj : junk.drop r.size ≠ []) :
    (logFile (rs ++ [r]) ++ junk.drop r.size).length = (logFile rs ++ junk).length ∧
      (logFile (rs ++ [r]) ++ junk.drop r.size).drop (logFile (rs ++ [r])).length
        = (logFile rs ++ junk).drop (logFile (rs ++ [r])).length := by
  have hlt : r.size < junk.length := by
    by_contra hc
    exact hj (List.drop_eq_nil_of_le (by omega))
  refine ⟨by simp [logFile_append]; omega, ?_⟩
  have hl : (logFile (rs ++ [r])).length = (logFile rs).length + r.size := by
    simp [logFile_append]
  have hz : (logFile rs).drop (logFile (rs ++ [r])).length = [] :=
    List.drop_eq_nil_of_le (by omega)
  rw [List.drop_left, List.drop_append, hz, List.nil_append, hl, Nat.add_sub_cancel_left]

/-- A silent junk stays silent under the records written over it. -/
theorem JunkSilent.append (h : JunkSilent rs junk) (r : WalRecord) :
    JunkSilent (rs ++ [r]) (junk.drop r.size) ∧
      Silent (logFile (rs ++ [r]) ++ junk.drop r.size) (logFile (rs ++ [r])).length := by
  by_cases hj : junk.drop r.size = []
  · rw [hj]
    exact ⟨JunkSilent.nil _, .of_ge (by simp)⟩
  obtain ⟨hl, hd⟩ := junk_drop rs hj
  have hlen : (logFile (rs ++ [r])).length = (logFile rs).length + r.size := by
    simp [logFile_append]
  have hsize : kHeaderSizeV2 ≤ r.size := by simp [WalRecord.size, Nat.add_assoc]
  have hread : ∀ q, (logFile (rs ++ [r])).length ≤ q →
      q < (logFile (rs ++ [r]) ++ junk.drop r.size).length →
      tryReadWalRecordV2Sparse (logFile (rs ++ [r]) ++ junk.drop r.size) q = none := by
    intro q hq hlt
    rw [tryReadWalRecordV2Sparse_congr hl hd hq]
    exact h q (by omega) (by omega)
  exact ⟨fun q hq => hread q (by omega), scan_eq_nil_of_forall hread⟩

namespace Shows

theorem append (h : Shows w rs junk) (hj : JunkSilent rs junk) {it : Item} (hb : it.InBounds)
    {r : WalRecord} (hr : r = it.record (nextLsn w.maxLsn)) :
    ∃ w', w.append it = (w', .ok (nextLsn w.maxLsn)) ∧ w'.maxLsn = nextLsn w.maxLsn ∧
      w'.formatV2 = true ∧ Shows w' (rs ++ [r]) (junk.drop r.size) ∧
      JunkSilent (rs ++ [r]) (junk.drop r.size) := by
  obtain ⟨w', ha, hm, hv, ht, hw⟩ := h.append_holds hb hr
  obtain ⟨hj', hs⟩ := hj.append r
  refine ⟨w', ha, hm, hv, { hw with tail := .inr ?_, silent := hs }, hj'⟩
  rw [ht, length_logFile]; omega

/-- **A run** over silent junk appends its records in order and acknowledges just these. -/
theorem runCalls (h : Shows w rs junk) (hj : JunkSilent rs junk) (cs : List Call) :
    ∃ junk', Shows (w.runCalls cs).1 (rs ++ recordsFrom w.maxLsn cs) junk' ∧
      (junk = [] → junk' = []) ∧
      (w.runCalls cs).1.maxLsn = lsnAfter w.maxLsn cs ∧
      (w.runCalls cs).2 = recordsFrom w.maxLsn cs ∧
      (w.formatV2 = true ∨ (∃ c ∈ cs, c.item?.isSome) → (w.runCalls cs).1.formatV2 = true) := by
  induction cs generalizing w rs junk with
  | nil => exact ⟨junk, by simpa [WalWriter.runCalls, recordsFrom, lsnAfter] using h⟩
  | cons c cs ih =>
    simp only [WalWriter.runCalls, Call.run, recordsFrom, lsnAfter]
    cases hc : c.item? with
    | none => simpa [hc] using ih h.fsync hj
    | some it =>
      by_cases hb : it.InBounds
      · obtain ⟨w', ha, hm, hv, hs, hj'⟩ := h.append hj hb rfl
        obtain ⟨junk', h1, h2, h3, h4, h5⟩ := ih hs hj'
        rw [hm] at h1 h3 h4
        refine ⟨junk', ?_, fun hn => h2 (by simp [hn]), ?_, ?_, fun _ => ?_⟩
        · simpa [ha, hb] using h1
        · simpa [ha] using h3
        · simpa [ha, hb] using h4
        · simpa [ha] using h5 (.inl hv)
      · obtain ⟨w', e, ha, hm, hv, hs⟩ := h.append_tooLarge hb
        obtain ⟨junk', h1, h2, h3, h4, h5⟩ := ih hs hj
        rw [hm] at h1 h3 h4
        refine ⟨junk', ?_, h2, ?_, ?_, fun _ => ?_⟩
        · simpa [ha, hb] using h1
        · simpa [ha] using h3
        · simpa [ha, hb] using h4
        · simpa [ha] using h5 (.inl hv)

end Shows

/-- A writer on a fresh path has written the magic and nothing else. -/
theorem open_nil_shows : Shows («open» []) [] [] ∧ («open» []).maxLsn = 0 ∧
    («open» []).formatV2 = true := by
  have hf : («open» []).file = logFile [] := by
    simp [«open», rebuildKeyIndex, ensureWalMagicLocked, overwrite, logFile]
  have hv : («open» []).formatV2 = true := by
    simp [«open», rebuildKeyIndex, ensureWalMagicLocked]
  exact ⟨⟨.of_formatV2 hv (by simpa using hf) rfl, .inr rfl, .of_ge (by simp)⟩, rfl, hv⟩

/-- The log a run of calls on a fresh path leaves, and the records it acknowledged. -/
theorem runCalls_fresh (cs : List Call) :
    ((«open» []).runCalls cs).1.file = logFile (recordsFrom 0 cs) ∧
      ((«open» []).runCalls cs).2 = recordsFrom 0 cs ∧
      Shows ((«open» []).runCalls cs).1 (recordsFrom 0 cs) [] ∧
      ((«open» []).runCalls cs).1.maxLsn = lsnAfter 0 cs ∧
      ((«open» []).runCalls cs).1.formatV2 = true := by
  obtain ⟨hopen, hmax, hv⟩ := open_nil_shows
  obtain ⟨junk, hs, hj, hm, hacked, hfv⟩ := hopen.runCalls (JunkSilent.nil _) cs
  obtain rfl := hj rfl
  rw [hmax] at hs hm hacked
  have hv' := hfv (.inl hv)
  exact ⟨by simpa using hs.file hv', hacked, hs, hm, hv'⟩

end WalWriter

/-! ## The round trip -/

open WalWriter

/-- The LSNs a run assigns are positive and, while the counter stays below the magic, none of them
is the magic. -/
theorem recordsFrom_fits {lsn : Nat} {cs : List Call}
    (hn : lsn + (items cs).length < kWalMagicV2) {r : WalRecord} (h : r ∈ recordsFrom lsn cs) :
    r.Fits := by
  have hlt : lsn + (items cs).length < 2 ^ 64 := Nat.lt_trans hn (by decide)
  obtain ⟨-, hb⟩ := recordsFrom_lsn hlt
  have := hb r h
  exact { recordsFrom_inRange h with lsn_pos := by omega, lsn_ne := by omega }

/-- **A scan returns what was appended.** After any run of appends on a fresh log and an `Fsync`,
the sparse scanner returns exactly the acknowledged records with their assigned LSNs, in append
order; when every key and value fits its header, that is one record for each append. -/
theorem scan_after_appends (cs : List Call) (hb : ∀ it ∈ items cs, it.InBounds)
    (hn : (items cs).length < kWalMagicV2) :
    scanWalV2Sparse ((«open» []).runCalls cs).1.fsync.file 0 = ((«open» []).runCalls cs).2 ∧
      ((«open» []).runCalls cs).2
        = ((items cs).zipIdx 1).map fun x => x.1.record x.2 := by
  obtain ⟨hfile, hacked, -⟩ := runCalls_fresh cs
  have hn' : 0 + (items cs).length < kWalMagicV2 := by omega
  rw [fsync_file, hfile, hacked]
  exact ⟨scanWalV2Sparse_logFile fun r hr => recordsFrom_fits hn' hr,
    recordsFrom_inBounds hb (Nat.lt_trans hn' (by decide))⟩

/-- A put inside a transaction and the transaction's commit record. -/
theorem scan_after_put_and_commit :
    let cs := [.append ⟨.kPut, [97], [98, 99], 7⟩, .appendTxnControl .kTxnCommit 7 1, .fsync]
    scanWalV2Sparse ((«open» []).runCalls cs).1.fsync.file 0
      = [⟨1, .kPut, [97], [98, 99], 7⟩, ⟨2, .kTxnCommit, [], [1, 0, 0, 0, 0, 0, 0, 0], 7⟩] := by
  intro cs
  obtain ⟨h, h'⟩ := scan_after_appends cs (by decide) (by decide)
  rw [h, h']
  rfl

end EBTree.Wal
