import EBTree.Wal.Proof.Log
import EBTree.Wal.TwoWriters

/-!
# Two writers of one log, in turn

* `Knows w rs`: a writer knows of the records `rs` at the start of the log. `Knows.sync`: before it
  appends it takes in the records behind them.
* `Shared p rs b`: the log holds `rs` once the streams are written out, of which at most one holds
  anything, the end of the last record. `Shared.step`: a call keeps this, if no record is appended
  while the stream of the other side holds something (`Call.InTurn`).
* `run_shared`: **every record of such a run is in the file once**, under an LSN of its own.
* `both_append`: two records appended before either is flushed have one LSN and one place.
-/

set_option autoImplicit false

namespace EBTree.Wal

open Lib Reader WalWriter

/-! ## What a writer knows -/

/-- The writer goes on behind the records `rs`. -/
structure Knows (w : WalWriter) (rs : List WalRecord) : Prop where
  v2 : w.formatV2 = true ∨ rs = []
  offset : w.formatV2 = true → w.fileOffset = (logFile rs).length
  tail : w.tailDataEnd = (logFile rs).length ∨ (w.tailDataEnd ≤ 8 ∧ rs = [])
  le_max : ∀ r ∈ rs, r.lsn ≤ w.maxLsn

variable {w : WalWriter} {p : WriterPair} {rs rs' more : List WalRecord} {i : Side} {b : Nat}

theorem Knows.fsync (h : Knows w rs) : Knows w.fsync rs := ⟨h.v2, h.offset, h.tail, h.le_max⟩

theorem Knows.max_tail (h : Knows w rs) : max w.tailDataEnd 8 = (logFile rs).length := by
  have hlen := length_logFile rs
  rcases h.tail with ht | ⟨ht, rfl⟩
  · omega
  · rw [logFile, encodeAll_nil, List.append_nil, length_magicBytes]
    omega

theorem le_foldl_max (l : List (Nat × WalRecord)) (m : Nat) :
    m ≤ l.foldl (fun m x => max m x.2.lsn) m ∧
      ∀ x ∈ l, x.2.lsn ≤ l.foldl (fun m x => max m x.2.lsn) m := by
  induction l generalizing m with
  | nil => exact ⟨Nat.le_refl m, fun x hx => absurd hx List.not_mem_nil⟩
  | cons y l ih =>
    obtain ⟨hle, hall⟩ := ih (max m y.2.lsn)
    refine ⟨Nat.le_trans (Nat.le_max_left _ _) hle, fun x hx => ?_⟩
    rcases List.mem_cons.1 hx with rfl | hx
    · exact Nat.le_trans (Nat.le_max_right _ _) hle
    · exact hall x hx

theorem foldl_max_le {l : List (Nat × WalRecord)} {m : Nat} (hm : m ≤ b)
    (hl : ∀ x ∈ l, x.2.lsn ≤ b) : l.foldl (fun m x => max m x.2.lsn) m ≤ b := by
  induction l generalizing m with
  | nil => exact hm
  | cons y l ih =>
    exact ih (Nat.max_le.2 ⟨hm, hl y List.mem_cons_self⟩)
      fun x hx => hl x (List.mem_cons_of_mem _ hx)

/-- What the scan from the end of `rs` on finds. -/
theorem extend_logFile (hfits : ∀ r ∈ rs ++ more, r.Fits) {start : Nat}
    (hstart : max start 8 = (logFile rs).length) :
    (extendTailFromOffset (logFile (rs ++ more)) start).dataEnd =
        (if more = [] then start else (logFile (rs ++ more)).length) ∧
      (∀ r ∈ more, r.lsn ≤ (extendTailFromOffset (logFile (rs ++ more)) start).maxLsn) ∧
      ((∀ r ∈ more, r.lsn ≤ b) →
        (extendTailFromOffset (logFile (rs ++ more)) start).maxLsn ≤ b) := by
  have hfile := logFile_append rs more
  have hdetect := detectFormatV2OnDisk_logFile (rs ++ more) []
  rw [List.append_nil] at hdetect
  have hframes := frames_encodeAll (logFile rs) []
    (fun r hr => hfits r (List.mem_append_right _ hr) : ∀ r ∈ more, r.Fits)
  rw [List.append_nil] at hframes
  have hend : (logFile rs ++ encodeAll more).length
      = (logFile rs).length + (more.map WalRecord.size).sum := by
    rw [List.length_append, length_encodeAll]
  have hscan := scan_frames hframes (le_of_eq hend.symm)
  rw [scan_of_ge (le_of_eq hend), List.append_nil] at hscan
  have hmem : ∀ r, r ∈ more ↔ ∃ o, (o, r) ∈ layout (logFile rs).length more := by
    intro r
    have hmap := layout_map_snd (logFile rs).length more
    constructor
    · intro hr
      rw [← hmap] at hr
      obtain ⟨x, hx, rfl⟩ := List.mem_map.1 hr
      exact ⟨x.1, hx⟩
    · rintro ⟨o, ho⟩
      rw [← hmap]
      exact List.mem_map.2 ⟨_, ho, rfl⟩
  simp only [extendTailFromOffset, hdetect, if_true, hstart]
  rw [hfile, hscan]
  refine ⟨?_, fun r hr => ?_, fun hb => ?_⟩
  · split
    · rename_i hnil
      subst hnil
      exact lastEnd_of_nil hscan
    · rename_i hne
      have hlay : layout (logFile rs).length more ≠ [] := by
        intro hnil
        have hmap := layout_map_snd (logFile rs).length more
        rw [hnil] at hmap
        exact hne hmap.symm
      exact (lastEnd_frames hframes hscan fun hnil => absurd hnil hlay).trans hend.symm
  · obtain ⟨o, ho⟩ := (hmem r).1 hr
    exact (le_foldl_max _ 0).2 _ ho
  · exact foldl_max_le (Nat.zero_le b) fun x hx => hb _ ((hmem x.2).2 ⟨x.1, hx⟩)

/-- **Before it appends** a writer takes in what lies behind the records it knows of. -/
theorem Knows.sync (h : Knows w rs) (hv : w.formatV2 = true) (hfits : ∀ r ∈ rs ++ more, r.Fits)
    (hf : w.file = logFile (rs ++ more)) :
    Knows w.syncExternalTailLocked (rs ++ more) ∧ w.syncExternalTailLocked.formatV2 = true ∧
      (w.maxLsn ≤ b → (∀ r ∈ more, r.lsn ≤ b) → w.syncExternalTailLocked.maxLsn ≤ b) := by
  have hoff := h.offset hv
  have hle : (logFile rs).length ≤ (logFile (rs ++ more)).length := by
    rw [logFile_append, List.length_append]
    exact Nat.le_add_right _ _
  have hlog := length_logFile rs
  by_cases hnew : more = []
  · -- nothing lies behind them
    subst hnew
    rw [List.append_nil] at hf hfits ⊢
    have hsame : w.syncExternalTailLocked = w := by
      refine syncExternalTailLocked_of_silent ?_ (.inr ?_)
      · rw [hf, ← List.append_nil (logFile rs)]
        exact detectFormatV2OnDisk_logFile rs []
      · rw [hf, h.max_tail]
        exact .of_ge (Nat.le_refl _)
    rw [hsame]
    exact ⟨h, hv, fun hm _ => hm⟩
  · have hlt : (logFile rs).length < (logFile (rs ++ more)).length := by
      obtain ⟨r, more, rfl⟩ := List.exists_cons_of_ne_nil hnew
      rw [logFile_append, List.length_append, encodeAll_cons, List.length_append,
        WalRecord.length_encode]
      have := r.size_pos
      omega
    have hmax := h.max_tail
    obtain ⟨hend, hlsn, hbound⟩ := extend_logFile hfits hmax
    rw [if_neg hnew] at hend
    have hdo : ¬ w.file.length ≤ w.tailDataEnd := by
      rw [hf]
      omega
    unfold syncExternalTailLocked
    rw [if_neg hdo, hf]
    simp only [hend]
    refine ⟨⟨.inl hv, fun _ => ?_, .inl ?_, fun r hr => ?_⟩, hv, fun hm hb => ?_⟩
    · simp only
      rw [if_neg (by rw [hoff]; omega)]
    · simp only
      rw [if_neg (by omega)]
    · simp only
      rcases List.mem_append.1 hr with hr | hr
      · have := h.le_max r hr
        split <;> omega
      · have := hlsn r hr
        split <;> omega
    · have := hbound hb
      split <;> omega

/-! ## The log both write -/

/-- Nothing is left to write. -/
structure Quiet (p : WriterPair) (rs : List WalRecord) : Prop where
  unwritten : ∀ i, p.unwritten i = none
  file_eq : p.file = logFile rs

/-- The stream of one side holds the end of the last record. -/
structure Busy (p : WriterPair) (rs : List WalRecord) (i : Side) : Prop where
  other : p.unwritten i.other = none
  v2 : (p.writer i).formatV2 = true
  knows : Knows (p.writer i) rs
  last : ∃ front r n, rs = front ++ [r] ∧ n ≤ r.size ∧
    p.unwritten i = some ⟨(logFile front).length + n, r.encode.drop n⟩ ∧
    p.file = logFile front ++ r.encode.take n

/-- The two writers share a log of `rs`, whose LSNs are at most `b`. -/
structure Shared (p : WriterPair) (rs : List WalRecord) (b : Nat) : Prop where
  fits : ∀ r ∈ rs, r.Fits
  sorted : rs.Pairwise (·.lsn < ·.lsn)
  le_bound : ∀ r ∈ rs, r.lsn ≤ b
  max_le : ∀ i, (p.writer i).maxLsn ≤ b
  knows : ∀ i, ∃ front, front <+: rs ∧ Knows (p.writer i) front
  state : Quiet p rs ∨ ∃ i, Busy p rs i

theorem Side.eq_or_other (i j : Side) : j = i ∨ j = i.other := by
  cases i <;> cases j <;> simp [Side.other]

theorem Side.other_other (i : Side) : i.other.other = i := by cases i <;> rfl

theorem Side.other_ne (i : Side) : i.other ≠ i := by cases i <;> simp [Side.other]

namespace WriterPair

theorem writeOut_none (h : p.unwritten i = none) : p.writeOut i = p := by
  unfold writeOut
  rw [h]

theorem writeOut_writer (p : WriterPair) (i : Side) : (p.writeOut i).writer = p.writer := by
  unfold writeOut
  split <;> rfl

end WriterPair

/-- Written out, the log holds all of its records. -/
theorem Busy.writeOut (h : Busy p rs i) : Quiet (p.writeOut i) rs := by
  obtain ⟨front, r, n, rfl, hn, hu, hf⟩ := h.last
  have hlen : (logFile front ++ r.encode.take n).length = (logFile front).length + n := by
    rw [List.length_append, List.length_take, WalRecord.length_encode, Nat.min_eq_left hn]
  unfold WriterPair.writeOut
  rw [hu]
  refine ⟨fun j => ?_, ?_⟩
  · rcases Side.eq_or_other i j with rfl | rfl
    · exact Function.update_self ..
    · simp only [Function.update_of_ne i.other_ne]
      exact h.other
  · simp only [hf]
    rw [← hlen, overwrite_end, List.append_assoc, List.take_append_drop, logFile_append]
    simp

theorem Knows.mono (h : Knows w rs) {m : Nat} (hm : w.maxLsn ≤ m) :
    Knows { w with maxLsn := m } rs :=
  ⟨h.v2, h.offset, h.tail, fun r hr => Nat.le_trans (h.le_max r hr) hm⟩

theorem Knows.file (h : Knows w rs) (f : Bytes) : Knows { w with file := f } rs :=
  ⟨h.v2, h.offset, h.tail, h.le_max⟩

/-- Setting the writer of one side. -/
theorem Shared.setWriter (h : Shared p rs b) {w : WalWriter} (hk : ∃ front, front <+: rs ∧ Knows w front)
    (hm : w.maxLsn ≤ b) (hbusy : Busy p rs i → Knows w rs ∧ w.formatV2 = true) :
    Shared { p with writer := Function.update p.writer i w } rs b where
  fits := h.fits
  sorted := h.sorted
  le_bound := h.le_bound
  max_le j := by
    rcases Side.eq_or_other i j with rfl | rfl
    · simpa only [Function.update_self] using hm
    · simpa only [Function.update_of_ne i.other_ne] using h.max_le i.other
  knows j := by
    rcases Side.eq_or_other i j with rfl | rfl
    · simpa only [Function.update_self] using hk
    · simpa only [Function.update_of_ne i.other_ne] using h.knows i.other
  state := by
    rcases h.state with hq | ⟨j, hj⟩
    · exact .inl ⟨hq.unwritten, hq.file_eq⟩
    · refine .inr ⟨j, ?_⟩
      rcases Side.eq_or_other i j with rfl | rfl
      · obtain ⟨hkn, hv⟩ := hbusy hj
        exact ⟨hj.other, by simpa only [Function.update_self] using hv,
          by simpa only [Function.update_self] using hkn, hj.last⟩
      · exact ⟨hj.other, by simpa only [Function.update_of_ne i.other_ne] using hj.v2,
          by simpa only [Function.update_of_ne i.other_ne] using hj.knows, hj.last⟩

/-- A sync writes the end of the last record of its side. -/
theorem Shared.fsync (h : Shared p rs b) (i : Side) : Shared (p.fsync i) rs b := by
  have hout : Shared (p.writeOut i) rs b := by
    refine ⟨h.fits, h.sorted, h.le_bound, fun j => ?_, fun j => ?_, ?_⟩
    · rw [WriterPair.writeOut_writer]
      exact h.max_le j
    · rw [WriterPair.writeOut_writer]
      exact h.knows j
    · rcases h.state with hq | ⟨j, hj⟩
      · rw [WriterPair.writeOut_none (hq.unwritten i)]
        exact .inl hq
      · rcases Side.eq_or_other i j with rfl | rfl
        · exact .inl hj.writeOut
        · have hother := hj.other
          rw [Side.other_other] at hother
          rw [WriterPair.writeOut_none hother]
          exact .inr ⟨_, hj⟩
  obtain ⟨front, hfront, hk⟩ := hout.knows i
  exact hout.setWriter ⟨front, hfront, hk.fsync⟩ (hout.max_le i)
    fun hb => ⟨hb.knows.fsync, hb.v2⟩

namespace WriterPair

/-- Nothing is held back, so the magic is all that is written. -/
theorem ensureWalMagicLocked_eq (h : p.unwritten i = none) :
    p.ensureWalMagicLocked i =
      { p with
        file := { p.writer i with file := p.file }.ensureWalMagicLocked.file
        writer := Function.update p.writer i
          (if (p.writer i).formatV2 then p.writer i
          else { p.writer i with file := p.file }.ensureWalMagicLocked) } := by
  unfold WriterPair.ensureWalMagicLocked
  by_cases hv : (p.writer i).formatV2 = true
  · simp [hv, WalWriter.ensureWalMagicLocked]
  · rw [if_neg hv, if_neg hv, writeOut_none h]

theorem syncExternalTailLocked_eq (h : p.unwritten i = none) :
    p.syncExternalTailLocked i =
      { p with
        writer := Function.update p.writer i
          { p.writer i with file := p.file }.syncExternalTailLocked } := by
  unfold WriterPair.syncExternalTailLocked
  simp only [writeOut_none h, ite_self]

end WriterPair

theorem overwrite_magicBytes (rs : List WalRecord) :
    overwrite (logFile rs) 0 magicBytes = logFile rs := by
  have h := overwrite_append [] (logFile rs) magicBytes
  rw [List.nil_append, List.length_nil, List.nil_append] at h
  rw [h, logFile, List.drop_left]

/-- A writer with nothing to write takes in the whole log, -/
theorem Quiet.prepare (h : Quiet p rs) {front : List WalRecord} (hfront : front <+: rs)
    (hk : Knows (p.writer i) front) (hfits : ∀ r ∈ rs, r.Fits) (hle : ∀ r ∈ rs, r.lsn ≤ b)
    (hm : (p.writer i).maxLsn ≤ b) :
    ∃ w, (p.ensureWalMagicLocked i).syncExternalTailLocked i
        = { p with writer := Function.update p.writer i w } ∧
      Knows w rs ∧ w.formatV2 = true ∧ w.maxLsn ≤ b := by
  obtain ⟨more, rfl⟩ := hfront
  have hmore : ∀ r ∈ more, r.lsn ≤ b := fun r hr => hle r (List.mem_append_right _ hr)
  -- behind the magic the writer is in the V2 layout, at the end of what it knows of
  have hmagic : ∃ w, p.ensureWalMagicLocked i = { p with writer := Function.update p.writer i w } ∧
      Knows w front ∧ w.formatV2 = true ∧ w.maxLsn ≤ b := by
    rw [WriterPair.ensureWalMagicLocked_eq (h.unwritten i)]
    by_cases hv : (p.writer i).formatV2 = true
    · refine ⟨p.writer i, ?_, hk, hv, hm⟩
      simp [hv, WalWriter.ensureWalMagicLocked]
    · obtain rfl := hk.v2.resolve_left hv
      have hfile : overwrite p.file 0 magicBytes = p.file := by
        rw [h.file_eq]
        exact overwrite_magicBytes _
      refine ⟨{ p.writer i with file := p.file, formatV2 := true, fileOffset := 8 }, ?_,
        ⟨.inl rfl, fun _ => ?_, hk.tail, hk.le_max⟩, rfl, hm⟩
      · simp [hv, WalWriter.ensureWalMagicLocked, hfile]
      · simp [logFile]
  obtain ⟨w, heq, hw, hv, hmw⟩ := hmagic
  have hsync := @WriterPair.syncExternalTailLocked_eq
    { p with writer := Function.update p.writer i w } i (h.unwritten i)
  obtain ⟨hk', hv', hm'⟩ := (hw.file p.file).sync hv hfits h.file_eq
  refine ⟨_, ?_, hk', hv', hm' hmw hmore⟩
  rw [heq, hsync]
  simp only [Function.update_idem, Function.update_self]

/-- and one that holds the end of the log knows of it already. -/
theorem Busy.prepare (h : Busy p rs i) :
    (p.ensureWalMagicLocked i).syncExternalTailLocked i
      = { p with writer := Function.update p.writer i { p.writer i with file := p.file } } := by
  obtain ⟨front, r, n, rfl, hn, -, hf⟩ := h.last
  have hlen : p.file.length ≤ (p.writer i).tailDataEnd := by
    rcases h.knows.tail with ht | ⟨-, hnil⟩
    · rw [hf, ht, logFile_append, List.length_append, List.length_append, encodeAll_cons,
        List.length_append, List.length_take]
      omega
    · simp at hnil
  have hmagic : p.ensureWalMagicLocked i = p := by
    unfold WriterPair.ensureWalMagicLocked
    rw [if_pos h.v2]
  have hsync : { p.writer i with file := p.file }.syncExternalTailLocked
      = { p.writer i with file := p.file } := by
    unfold WalWriter.syncExternalTailLocked
    rw [if_pos hlen]
  rw [hmagic]
  unfold WriterPair.syncExternalTailLocked
  simp only [hsync, if_true]

theorem Busy.unwritten_ne (h : Busy p rs i) : p.unwritten i ≠ none := by
  obtain ⟨front, r, n, -, -, hu, -⟩ := h.last
  rw [hu]
  exact Option.some_ne_none _

/-- **In front of its record** the writer knows of the whole log, which stays as it is. -/
theorem Shared.prepare (h : Shared p rs b) (hturn : p.unwritten i.other = none) :
    ∃ w, (p.ensureWalMagicLocked i).syncExternalTailLocked i
        = { p with writer := Function.update p.writer i w } ∧
      Knows w rs ∧ w.formatV2 = true ∧ w.maxLsn ≤ b := by
  rcases h.state with hq | ⟨j, hj⟩
  · obtain ⟨front, hfront, hk⟩ := h.knows i
    exact hq.prepare hfront hk h.fits h.le_bound (h.max_le i)
  · rcases Side.eq_or_other i j with rfl | rfl
    · exact ⟨_, hj.prepare, hj.knows.file _, hj.v2, h.max_le _⟩
    · exact absurd hturn hj.unwritten_ne

theorem Shared.mono (h : Shared p rs b) {b' : Nat} (hb : b ≤ b') : Shared p rs b' :=
  ⟨h.fits, h.sorted, fun r hr => Nat.le_trans (h.le_bound r hr) hb,
    fun i => Nat.le_trans (h.max_le i) hb, h.knows, h.state⟩

theorem Shared.writeOut (h : Shared p rs b) (hturn : p.unwritten i.other = none) :
    Quiet (p.writeOut i) rs := by
  rcases h.state with hq | ⟨j, hj⟩
  · rw [WriterPair.writeOut_none (hq.unwritten i)]
    exact hq
  · rcases Side.eq_or_other i j with rfl | rfl
    · exact hj.writeOut
    · exact absurd hturn hj.unwritten_ne

/-- The record goes behind the others, as far as the platform lets it through. -/
theorem Shared.appendRecordV2 (h : Shared p rs b) (hturn : p.unwritten i.other = none)
    (hk : Knows (p.writer i) rs) (hv : (p.writer i).formatV2 = true) {r : WalRecord} (hr : r.Fits)
    (hlt : ∀ x ∈ rs, x.lsn < r.lsn) (hmax : r.lsn ≤ (p.writer i).maxLsn) (hb : r.lsn ≤ b) (n : Nat) :
    Shared (p.appendRecordV2 i r n) (rs ++ [r]) b := by
  have hq := h.writeOut hturn
  have hoff : (p.writer i).fileOffset = (logFile rs).length := hk.offset hv
  have hlen : (logFile (rs ++ [r])).length = (logFile rs).length + r.size := by
    rw [logFile_append, List.length_append, length_encodeAll]
    simp
  have hmem : ∀ {P : WalRecord → Prop}, (∀ x ∈ rs, P x) → P r → ∀ x ∈ rs ++ [r], P x := by
    intro P hrs hr x hx
    rcases List.mem_append.1 hx with hx | hx
    · exact hrs x hx
    · rwa [List.mem_singleton.1 hx]
  have hk' : Knows ((p.writer i).appendRecordV2 r) (rs ++ [r]) := by
    refine ⟨.inl hv, fun _ => ?_, .inl ?_, hmem hk.le_max hmax⟩
    · rw [hlen, ← hoff]
      rfl
    · rw [hlen, ← hoff]
      rfl
  have hfile : (p.appendRecordV2 i r n).file = logFile rs ++ r.encode.take n := by
    simp only [WriterPair.appendRecordV2, WriterPair.writeOut_writer, hq.file_eq, hoff,
      overwrite_end]
  have hself : (p.appendRecordV2 i r n).writer i = (p.writer i).appendRecordV2 r := by
    simp only [WriterPair.appendRecordV2, WriterPair.writeOut_writer, Function.update_self]
  have hother : (p.appendRecordV2 i r n).writer i.other = p.writer i.other := by
    simp only [WriterPair.appendRecordV2, WriterPair.writeOut_writer,
      Function.update_of_ne i.other_ne]
  have hnone : (p.appendRecordV2 i r n).unwritten i.other = none := by
    simp only [WriterPair.appendRecordV2, Function.update_of_ne i.other_ne]
    exact hq.unwritten _
  have hheld : (p.appendRecordV2 i r n).unwritten i
      = if r.size ≤ n then none else some ⟨(logFile rs).length + n, r.encode.drop n⟩ := by
    simp only [WriterPair.appendRecordV2, WriterPair.writeOut_writer, Function.update_self, hoff]
  refine ⟨hmem h.fits hr, ?_, hmem h.le_bound hb, fun j => ?_, fun j => ?_, ?_⟩
  · refine List.pairwise_append.2 ⟨h.sorted, List.pairwise_singleton _ _, fun x hx y hy => ?_⟩
    rw [List.mem_singleton.1 hy]
    exact hlt x hx
  · rcases Side.eq_or_other i j with rfl | rfl
    · rw [hself]
      exact h.max_le _
    · rw [hother]
      exact h.max_le _
  · rcases Side.eq_or_other i j with rfl | rfl
    · rw [hself]
      exact ⟨_, List.prefix_refl _, hk'⟩
    · rw [hother]
      obtain ⟨front, hfront, hkn⟩ := h.knows i.other
      exact ⟨front, hfront.trans (List.prefix_append _ _), hkn⟩
  · by_cases hn : r.size ≤ n
    · -- the whole record went through
      refine .inl ⟨fun j => ?_, ?_⟩
      · rcases Side.eq_or_other i j with rfl | rfl
        · rw [hheld, if_pos hn]
        · exact hnone
      · rw [hfile, List.take_of_length_le (by rw [WalRecord.length_encode]; exact hn),
          logFile_append]
        simp
    · rw [if_neg hn] at hheld
      refine .inr ⟨i, hnone, ?_, ?_, rs, r, n, rfl, by omega, hheld, hfile⟩
      · rw [hself]
        exact hv
      · rw [hself]
        exact hk'

/-- **An append in turn** adds its record, unless that is too large for a header. -/
theorem Shared.append (h : Shared p rs b) (hturn : p.unwritten i.other = none)
    (hb : b + 1 < kWalMagicV2) (it : Item) (n : Nat) :
    (∃ p' lsn, p.append i it n = (p', .ok lsn) ∧ Shared p' (rs ++ [it.record lsn]) (b + 1)) ∨
      ∃ p' e, p.append i it n = (p', .error e) ∧ Shared p' rs (b + 1) := by
  obtain ⟨w, heq, hk, hv, hm⟩ := h.prepare hturn
  have h64 : kWalMagicV2 < 2 ^ 64 := by decide
  have hnext : nextLsn w.maxLsn = w.maxLsn + 1 := Nat.mod_eq_of_lt (by omega)
  have hk' : Knows { w with maxLsn := w.maxLsn + 1 } rs := hk.mono (Nat.le_succ _)
  have hset : Shared
      { p with writer := Function.update p.writer i { w with maxLsn := w.maxLsn + 1 } } rs (b + 1) :=
    (h.mono (Nat.le_succ b)).setWriter ⟨rs, List.prefix_refl _, hk'⟩ (by simp only; omega)
      fun _ => ⟨hk', hv⟩
  unfold WriterPair.append
  simp only [heq, Function.update_self, Function.update_idem, hnext]
  by_cases hin : it.InBounds
  · rw [if_pos hin]
    refine .inl ⟨_, _, rfl, hset.appendRecordV2 hturn ?_ ?_ (fits_record hin (by omega)) ?_ ?_ ?_ n⟩
    · simpa only [Function.update_self] using hk'
    · simpa only [Function.update_self] using hv
    · exact fun x hx => Nat.lt_succ_of_le (hk.le_max x hx)
    · simp only [Function.update_self, Item.record, Nat.le_refl]
    · simp only [Item.record]
      omega
  · rw [if_neg hin]
    exact .inr ⟨_, _, rfl, hset⟩

/-! ## Runs -/

/-- No record is appended while the stream of the other side holds something. -/
def WriterPair.Call.InTurn (p : WriterPair) : WriterPair.Call → Prop
  | .append i _ _ => p.unwritten i.other = none
  | .fsync _ => True

/-- Every call of the run is in turn. -/
def WriterPair.InTurn (p : WriterPair) : List WriterPair.Call → Prop
  | [] => True
  | c :: cs => c.InTurn p ∧ (p.step c).1.InTurn cs

/-- One call adds the record it acknowledges. -/
theorem Shared.step (h : Shared p rs b) {c : WriterPair.Call} (hturn : c.InTurn p)
    (hb : b + 1 < kWalMagicV2) :
    Shared (p.step c).1 (rs ++ (p.step c).2.toList) (b + 1) := by
  cases c with
  | append i it n =>
    rcases h.append hturn hb it n with ⟨p', lsn, heq, hs⟩ | ⟨p', e, heq, hs⟩
    · simpa [WriterPair.step, heq] using hs
    · simpa [WriterPair.step, heq] using hs
  | fsync i => simpa [WriterPair.step] using (h.fsync i).mono (Nat.le_succ b)

theorem Shared.run (h : Shared p rs b) {cs : List WriterPair.Call} (hturn : p.InTurn cs)
    (hb : b + cs.length < kWalMagicV2) :
    Shared (p.run cs).1 (rs ++ (p.run cs).2) (b + cs.length) := by
  induction cs generalizing p rs b with
  | nil => simpa [WriterPair.run] using h
  | cons c cs ih =>
    rw [List.length_cons] at hb ⊢
    have := ih (h.step hturn.1 (by omega)) hturn.2 (by omega)
    rw [List.append_assoc, Nat.add_assoc, Nat.add_comm 1] at this
    exact this

theorem open_nil_file : («open» []).file = logFile [] := Logs.fresh.file_eq

/-- What the constructor knows of a log. -/
theorem knows_open (hfits : ∀ r ∈ rs, r.Fits) (hsorted : rs.Pairwise (·.lsn < ·.lsn)) :
    Knows («open» (logFile rs)) rs := by
  have hlogs := (Logs.open_logFile hfits hsorted).1
  by_cases hrs : rs = []
  · subst hrs
    have hmagic : logFile [] = magicBytes := by rw [logFile, encodeAll_nil, List.append_nil]
    have hv : («open» (logFile [])).formatV2 = false := by
      rw [hmagic]
      decide +kernel
    have ht : («open» (logFile [])).tailDataEnd = 0 := by
      rw [hmagic]
      decide +kernel
    exact ⟨.inr rfl, fun h => absurd (hv.symm.trans h) Bool.false_ne_true,
      .inr ⟨by omega, rfl⟩, hlogs.le_max⟩
  · have hl : 8 < (logFile rs).length := by
      obtain ⟨r, rs', rfl⟩ := List.exists_cons_of_ne_nil hrs
      have := r.size_pos
      rw [length_logFile, List.map_cons, List.sum_cons]
      omega
    obtain ⟨-, hv, hoff, htail, -⟩ := @rebuildKeyIndex_logFile
      ⟨logFile rs, 0, false, .empty, [], 0, 0⟩ rs [] (List.append_nil _).symm hl
      (walDataOffsetOnDisk_logFile hfits) hfits (scan_of_ge (Nat.le_refl _))
    exact ⟨.inl hv, fun _ => hoff, .inl htail, hlogs.le_max⟩

/-- Both writers on a path that holds no log yet, or the log of `rs`. -/
theorem shared_open {f : Bytes} (hf : f = logFile rs ∨ (f = [] ∧ rs = []))
    (hfits : ∀ r ∈ rs, r.Fits) (hsorted : rs.Pairwise (·.lsn < ·.lsn))
    (hle : ∀ r ∈ rs, r.lsn ≤ b) : Shared (WriterPair.open f) rs b := by
  have hlog := Logs.open_logFile hfits hsorted
  have hsecond := knows_open hfits hsorted
  have hfirst : («open» f).file = logFile rs ∧ Knows («open» f) rs ∧ («open» f).maxLsn ≤ b := by
    rcases hf with rfl | ⟨rfl, rfl⟩
    · exact ⟨hlog.1.file_eq, hsecond, hlog.2 b hle⟩
    · refine ⟨open_nil_file, ⟨.inr rfl, fun _ => ?_, .inr ⟨?_, rfl⟩, by simp⟩, ?_⟩
      · decide +kernel
      · decide +kernel
      · exact Nat.le_trans (Nat.le_of_eq open_nil_shows.2.1) (Nat.zero_le b)
  refine ⟨hfits, hsorted, hle, fun i => ?_, fun i => ⟨rs, List.prefix_refl _, ?_⟩,
    .inl ⟨fun i => rfl, hfirst.1⟩⟩
  · cases i with
    | first => exact hfirst.2.2
    | second =>
      simp only [WriterPair.open, hfirst.1]
      exact hlog.2 b hle
  · cases i with
    | first => exact hfirst.2.1
    | second =>
      simp only [WriterPair.open, hfirst.1]
      exact hsecond

/-- Synced by both sides, the log is in the file. -/
theorem Shared.synced (h : Shared p rs b) :
    ((p.fsync .first).fsync .second).file = logFile rs := by
  have h₁ := h.fsync .first
  have hnone : (p.fsync .first).unwritten .first = none := by
    unfold WriterPair.fsync WriterPair.writeOut
    split
    · assumption
    · simp only [Function.update_self]
  exact (h₁.writeOut (i := .second) hnone).file_eq

/-- **Two writers on one log that append in turn**: both synced, the log holds the records it held
before and behind them the acknowledged ones, in order, under LSNs that are all different. -/
theorem run_shared {f : Bytes} (hf : f = logFile rs ∨ (f = [] ∧ rs = []))
    (hfits : ∀ r ∈ rs, r.Fits) (hsorted : rs.Pairwise (·.lsn < ·.lsn))
    (hle : ∀ r ∈ rs, r.lsn ≤ b) {cs : List WriterPair.Call}
    (hturn : (WriterPair.open f).InTurn cs) (hb : b + cs.length < kWalMagicV2) :
    let q := (WriterPair.open f).run cs
    let file := ((q.1.fsync .first).fsync .second).file
    file = logFile (rs ++ q.2) ∧ scanWalV2Sparse file 0 = rs ++ q.2 ∧
      ((rs ++ q.2).map WalRecord.lsn).Nodup := by
  have hs := (shared_open hf hfits hsorted hle).run hturn hb
  refine ⟨hs.synced, ?_, ?_⟩
  · simp only [hs.synced]
    rw [scanWalV2Sparse_after hs.fits]
    exact List.filter_eq_self.2 fun r hr => decide_eq_true (hs.fits r hr).lsn_pos
  · exact (List.pairwise_map.2 hs.sorted).imp Nat.ne_of_lt

/-- One side appends a record and syncs it, then the other appends one. -/
theorem run_shared_two :
    let q := (WriterPair.open []).run [.append .first ⟨.kPut, [97], [98], 0⟩ 0, .fsync .first,
      .append .second ⟨.kPut, [99], [100], 0⟩ 0]
    let file := ((q.1.fsync .first).fsync .second).file
    file = logFile ([] ++ q.2) ∧ scanWalV2Sparse file 0 = [] ++ q.2 ∧
      (([] ++ q.2).map WalRecord.lsn).Nodup :=
  @run_shared [] 0 [] (.inr ⟨rfl, rfl⟩) (by simp) List.Pairwise.nil (by simp) _
    ⟨rfl, trivial, rfl, trivial⟩ (by decide)

/-- Both append before either syncs: the records have one LSN, and one of them is gone. -/
theorem both_append :
    let q := (WriterPair.open []).run [.append .first ⟨.kPut, [97], [98], 0⟩ 0,
      .append .second ⟨.kPut, [99], [100], 0⟩ 0]
    let file := ((q.1.fsync .first).fsync .second).file
    q.2.map (fun r => (r.lsn, r.key)) = [(1, [97]), (1, [99])] ∧
      (scanWalV2Sparse file 0).map (fun r => (r.lsn, r.key)) = [(1, [99])] := by
  decide +kernel

end EBTree.Wal
