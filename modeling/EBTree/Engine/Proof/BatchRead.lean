import EBTree.Engine.BatchRead
import EBTree.Engine.Proof.DatafileLoad
import EBTree.Engine.Proof.StoredRecord

/-!
# Many records at once

`Served`: an entry of a batch, whose record lies in the file and reads by itself. A window, a blob and
the stream each leave under its index what `ReadRecordAt` gives (`readOneStream_fills`,
`parseView_fills`, `parseBlob_fills`): `Fills` says which values are there after some entries.

* `readWindows_fills`, `readBlobs_fills`: what the loops leave.
* `batch_reads_iff`: a batch reads as the records one by one, with every window and without, exactly if
  no deletion that is in sight was appended with a value.
* `batch_reads_deleted`: one that was.
-/

set_option autoImplicit false

namespace EBTree.Engine

open Lib Codec

/-! ## What a batch leaves -/

/-- After the entries `done` the values, empty at first, hold under their indexes what `want` says. -/
structure Fills (n : Nat) (want : Nat → Value) (done : List (Nat × Nat)) (values : List Value) :
    Prop where
  length_eq : values.length = n
  only : ∀ i < n, values[i]? = some [] ∨ values[i]? = some (want i)
  there : ∀ e ∈ done, e.2 < n → values[e.2]? = some (want e.2)

namespace Fills

variable {n : Nat} {want : Nat → Value} {done : List (Nat × Nat)} {values : List Value}

theorem start (n : Nat) (want : Nat → Value) : Fills n want [] (List.replicate n []) where
  length_eq := List.length_replicate
  only i hi := .inl (by rw [List.getElem?_replicate, if_pos hi])
  there e he := absurd he List.not_mem_nil

/-- An entry whose record counts as empty leaves the values. -/
theorem skip (h : Fills n want done values) {e : Nat × Nat} (he : want e.2 = []) :
    Fills n want (done ++ [e]) values where
  length_eq := h.length_eq
  only := h.only
  there e' hm hlt := by
    rcases List.mem_append.1 hm with hm | hm
    · exact h.there e' hm hlt
    · rw [List.mem_singleton.1 hm] at hlt ⊢
      rcases h.only e.2 hlt with h0 | h1
      · rw [h0, he]
      · exact h1

/-- Another entry puts its value in its place. -/
theorem set (h : Fills n want done values) {e : Nat × Nat} {v : Value} (he : want e.2 = v) :
    Fills n want (done ++ [e]) (values.set e.2 v) := by
  have hget : ∀ i < n, (values.set e.2 v)[i]? = if e.2 = i then some v else values[i]? := by
    intro i hi
    rw [List.getElem?_set, h.length_eq]
    by_cases hei : e.2 = i
    · rw [if_pos hei, if_pos hei, if_pos (hei ▸ hi)]
    · rw [if_neg hei, if_neg hei]
  refine ⟨by rw [List.length_set, h.length_eq], fun i hi => ?_, fun e' hm hlt => ?_⟩
  · rw [hget i hi]
    split
    · rename_i hei
      exact .inr (by rw [← hei, he])
    · exact h.only i hi
  · rw [hget e'.2 hlt]
    split
    · rename_i hei
      rw [← hei, he]
    · rename_i hei
      rcases List.mem_append.1 hm with hm | hm
      · exact h.there e' hm hlt
      · exact absurd (congrArg Prod.snd (List.mem_singleton.1 hm)).symm hei

end Fills

/-! ## One record -/

namespace DataFile

/-- What a batch leaves for a record: nothing for a deletion, nor for a record out of sight. -/
def singleValue (L : LzmaLib) (d : DataFile) (reclaim : UInt8) (offset : Nat) : Value :=
  match d.readRecordIn L offset reclaim with
  | .ok r => if r.deleted then [] else r.value
  | .error _ => []

/-- `ReadRecordAt` hands out the record, or says that its generation is reclaimed. -/
def Reads (L : LzmaLib) (d : DataFile) (reclaim : UInt8) (offset : Nat) : Prop :=
  (∃ r, d.readRecordIn L offset reclaim = .ok r) ∨
    d.readRecordIn L offset reclaim = .error (.notFound "reclaimed generation")

/-- A whole record lies at the offset, with the header `bs`. -/
structure WholeAt (file : Bytes) (offset : Nat) (bs : Bytes) : Prop where
  header : readAt? file offset kDataHeaderSize = some bs
  crc : DataRecordHeader.verifyCrc bs = true
  ends : recordEnd offset bs ≤ file.length

variable {L : LzmaLib} {d : DataFile} {reclaim : UInt8} {o i : Nat} {bs : Bytes}

theorem padTo_whole {f : Bytes} {o n : Nat} (h : o + n ≤ f.length) :
    padTo n (fieldAt f o n) = fieldAt f o n :=
  padTo_fieldAt (if_pos h)

/-- What `ReadRecordAt` says of a whole record. -/
theorem readRecordIn_whole (h : WholeAt d.file o bs) :
    d.readRecordIn L o reclaim =
      if generationVisible (recordGeneration bs) reclaim then
        match decodeRecordValue L bs (fieldAt d.file (o + kDataHeaderSize +
          (DataRecordHeader.decode bs).keyLen) (DataRecordHeader.decode bs).valueLen) with
        | .error e => .error e
        | .ok value => .ok ⟨fieldAt d.file (o + kDataHeaderSize) (DataRecordHeader.decode bs).keyLen,
            value, (DataRecordHeader.decode bs).lsn, (DataRecordHeader.decode bs).deleted⟩
      else .error (.notFound "reclaimed generation") := by
  have hends := h.ends
  unfold recordEnd at hends
  rw [readRecordIn, h.header]
  simp only [h.crc, Bool.not_true, Bool.false_eq_true, if_false]
  cases generationVisible (recordGeneration bs) reclaim with
  | false => rfl
  | true =>
    have hkey : padTo (DataRecordHeader.decode bs).keyLen (fieldAt d.file (o + kDataHeaderSize)
        (DataRecordHeader.decode bs).keyLen) = fieldAt d.file (o + kDataHeaderSize)
          (DataRecordHeader.decode bs).keyLen := padTo_whole (by omega)
    simp only [Bool.not_true, Bool.false_eq_true, if_false, if_true, hkey, padTo_whole hends]
    <;> rfl

/-- **A part of the file that holds a record** reads it as the file does. -/
theorem parseRecordAt_part (h : WholeAt d.file o bs) {a n : Nat} (ha : a ≤ o)
    (hn : a + n ≤ d.file.length) (hin : recordEnd o bs ≤ a + n) :
    parseRecordAt L (fieldAt d.file a n) (o - a) reclaim = d.readRecordIn L o reclaim := by
  have hlen := length_fieldAt hn
  unfold recordEnd at hin
  have hhdr : readAt? (fieldAt d.file a n) (o - a) kDataHeaderSize = some bs := by
    rw [readAt?_fieldAt hn (by omega), Nat.add_sub_cancel' ha, h.header]
  rw [readRecordIn_whole h, parseRecordAt, hhdr]
  simp only [h.crc, Bool.not_true, Bool.false_eq_true, if_false]
  cases generationVisible (recordGeneration bs) reclaim with
  | false => rfl
  | true =>
    have hends : ¬ (fieldAt d.file a n).length < recordEnd (o - a) bs := by
      unfold recordEnd
      omega
    simp only [Bool.not_true, Bool.false_eq_true, if_false, if_true, hends]
    rw [fieldAt_fieldAt (by omega), fieldAt_fieldAt (by omega),
      show a + (o - a + kDataHeaderSize) = o + kDataHeaderSize by omega,
      show a + (o - a + kDataHeaderSize + (DataRecordHeader.decode bs).keyLen) =
        o + kDataHeaderSize + (DataRecordHeader.decode bs).keyLen by omega]
    <;> rfl

/-- An entry whose record is whole and reads, and whose index is to hold that record's value. -/
structure Served (L : LzmaLib) (d : DataFile) (reclaim : UInt8) (want : Nat → Value)
    (e : Nat × Nat) : Prop where
  whole : ∃ bs, WholeAt d.file e.1 bs
  reads : Reads L d reclaim e.1
  wants : want e.2 = singleValue L d reclaim e.1

variable {n : Nat} {want : Nat → Value} {done : List (Nat × Nat)} {values : List Value}
  {e : Nat × Nat}

/-- **The stream** leaves what `ReadRecordAt` gives. -/
theorem readOneStream_fills (hf : Fills n want done values) (he : Served L d reclaim want e) :
    ∃ values', readOneStream L d.file reclaim e.1 e.2 values = .ok values' ∧
      Fills n want (done ++ [e]) values' := by
  obtain ⟨bs, hw⟩ := he.whole
  have hwants := he.wants
  have hreads := he.reads
  rw [singleValue, readRecordIn_whole hw] at hwants
  rw [Reads, readRecordIn_whole hw] at hreads
  rw [readOneStream, hw.header]
  simp only [hw.crc, Bool.not_true, Bool.false_eq_true, if_false]
  cases hv : generationVisible (recordGeneration bs) reclaim with
  | false =>
    rw [hv] at hwants
    exact ⟨values, rfl, hf.skip hwants⟩
  | true =>
    simp only [hv, if_true] at hwants hreads
    simp only [Bool.not_true, Bool.false_eq_true, if_false, Nat.not_lt.2 hw.ends]
    cases hd : decodeRecordValue L bs (fieldAt d.file (e.1 + kDataHeaderSize +
        (DataRecordHeader.decode bs).keyLen) (DataRecordHeader.decode bs).valueLen) with
    | error err =>
      -- a value that does not decode is not read
      rw [hd] at hreads
      obtain ⟨r, hr⟩ | hr := hreads
      · cases hr
      · rw [decodeRecordValue_error hd] at hr
        cases hr
    | ok value =>
      rw [hd] at hwants
      simp only at hwants
      split
      · rename_i hdel
        rw [if_pos hdel] at hwants
        exact ⟨values, rfl, hf.skip hwants⟩
      · rename_i hdel
        rw [if_neg hdel] at hwants
        exact ⟨_, rfl, hf.set hwants⟩

/-! ## Windows -/

/-- **A window** leaves what `ReadRecordAt` gives, or says no. -/
theorem tryParseInView_fills (hf : Fills n want done values) (he : Served L d reclaim want e)
    {a k : Nat} (hk : a + k ≤ d.file.length) :
    tryParseInView L reclaim (fieldAt d.file a k) a e.1 e.2 values = none ∨
      ∃ values', tryParseInView L reclaim (fieldAt d.file a k) a e.1 e.2 values = some values' ∧
        Fills n want (done ++ [e]) values' := by
  obtain ⟨bs, hw⟩ := he.whole
  have hwants := he.wants
  have hreads := he.reads
  have hlen := length_fieldAt hk
  unfold tryParseInView
  split
  · exact .inl rfl
  rename_i ha
  simp only
  by_cases hin : recordEnd e.1 bs ≤ a + k
  · have hparse : parseRecordAt L (fieldAt d.file a k) (e.1 - a) reclaim =
        d.readRecordIn L e.1 reclaim := parseRecordAt_part hw (Nat.not_lt.1 ha) hk hin
    have hends : ¬ (fieldAt d.file a k).length < recordEnd (e.1 - a) bs := by
      unfold recordEnd at hin ⊢
      omega
    have hhdr : readAt? (fieldAt d.file a k) (e.1 - a) kDataHeaderSize = some bs := by
      unfold recordEnd at hin
      rw [readAt?_fieldAt hk (by omega), Nat.add_sub_cancel' (Nat.not_lt.1 ha), hw.header]
    rw [hhdr, hparse]
    simp only [hends, if_false, hw.crc, Bool.not_true, Bool.false_eq_true]
    rw [singleValue] at hwants
    cases hv : generationVisible (recordGeneration bs) reclaim with
    | false =>
      rw [readRecordIn_whole hw, hv] at hwants
      exact .inr ⟨values, rfl, hf.skip hwants⟩
    | true =>
      simp only [Bool.not_true, Bool.false_eq_true, if_false]
      obtain ⟨r, hr⟩ | hr := hreads
      · have hdel : r.deleted = (DataRecordHeader.decode bs).deleted := by
          rw [readRecordIn_whole hw, hv, if_pos rfl] at hr
          split at hr
          · cases hr
          · cases hr
            rfl
        rw [hr] at hwants ⊢
        simp only [hdel] at hwants ⊢
        split
        · rename_i h
          rw [if_pos h] at hwants
          exact .inr ⟨values, rfl, hf.skip hwants⟩
        · rename_i h
          rw [if_neg h] at hwants
          exact .inr ⟨_, rfl, hf.set hwants⟩
      · rw [hr] at hwants ⊢
        split
        · exact .inr ⟨values, rfl, hf.skip hwants⟩
        · exact .inl rfl
  · -- the window ends inside the record
    left
    cases hhdr : readAt? (fieldAt d.file a k) (e.1 - a) kDataHeaderSize with
    | none => rfl
    | some bs' =>
      have hle := (readAt?_some hhdr).1
      rw [readAt?_fieldAt hk (by omega), Nat.add_sub_cancel' (Nat.not_lt.1 ha), hw.header] at hhdr
      cases hhdr
      have hcut : (fieldAt d.file a k).length < recordEnd (e.1 - a) bs := by
        unfold recordEnd at hin ⊢
        omega
      simp only [hcut, if_true]

/-- The loop over a window takes the entries up to one that it does not hold. -/
theorem parseView_fills {a k : Nat} (hk : a + k ≤ d.file.length) {es : List (Nat × Nat)}
    (hes : ∀ e ∈ es, Served L d reclaim want e) (hf : Fills n want done values) :
    ∃ taken left values', parseView L reclaim (fieldAt d.file a k) a es values = (left, values') ∧
      es = taken ++ left ∧ Fills n want (done ++ taken) values' := by
  induction es generalizing done values with
  | nil => exact ⟨[], [], values, rfl, rfl, by rwa [List.append_nil]⟩
  | cons e es ih =>
    obtain hnone | ⟨values₁, hsome, hf₁⟩ := tryParseInView_fills hf (hes e List.mem_cons_self) hk
    · refine ⟨[], e :: es, values, ?_, rfl, by rwa [List.append_nil]⟩
      rw [parseView, hnone]
    · obtain ⟨taken, left, values', hp, rfl, hf'⟩ := ih
        (fun e' he' => hes e' (List.mem_cons_of_mem _ he')) hf₁
      refine ⟨e :: taken, left, values', ?_, rfl, ?_⟩
      · rw [parseView, hsome]
        exact hp
      · rw [List.append_assoc] at hf'
        exact hf'

/-- **The loop over the windows** serves every entry. -/
theorem readWindows_fills (fuel : Nat) {m : MmapWindowManager} (hm : m.Mapped d.file)
    {es : List (Nat × Nat)} (hfuel : es.length ≤ fuel) (hes : ∀ e ∈ es, Served L d reclaim want e)
    (hf : Fills n want done values) :
    ∃ values', readWindows L d.file reclaim fuel m es values = .ok values' ∧
      Fills n want (done ++ es) values' := by
  induction fuel generalizing m es done values with
  | zero =>
    rw [List.length_eq_zero_iff.1 (Nat.le_zero.1 hfuel)]
    exact ⟨values, by rw [readWindows], by rwa [List.append_nil]⟩
  | succ fuel ih =>
    cases es with
    | nil => exact ⟨values, by rw [readWindows], by rwa [List.append_nil]⟩
    | cons e rest =>
      have hrest : ∀ e' ∈ rest, Served L d reclaim want e' := fun e' he' =>
        hes e' (List.mem_cons_of_mem _ he')
      have he := hes e List.mem_cons_self
      rw [List.length_cons] at hfuel
      obtain ⟨bs, hw⟩ := he.whole
      have hlt : e.1 < d.file.length := by
        have hle := (readAt?_some hw.header).1
        unfold kDataHeaderSize at hle
        omega
      obtain ⟨hm', -, hview⟩ := pinWindow_spec hm hlt
      have hk : e.1 + min m.windowSize (d.file.length - e.1) ≤ d.file.length := by omega
      -- the record that no window holds is read from the stream
      obtain ⟨values₁, hone, hf₁⟩ := readOneStream_fills hf he
      obtain ⟨values₂, hnext, hf₂⟩ := ih hm' (Nat.le_of_succ_le_succ hfuel) hrest hf₁
      rw [List.append_assoc] at hf₂
      rw [readWindows]
      simp only [hview]
      split
      · refine ⟨values₂, ?_, hf₂⟩
        simp only [List.length_cons, if_true, hone, hnext]
      · obtain ⟨taken, left, values', hp, hsplit, hf'⟩ := parseView_fills hk hes hf
        rw [hp]
        simp only
        cases taken with
        | nil =>
          rw [List.nil_append] at hsplit
          refine ⟨values₂, ?_, hf₂⟩
          rw [if_pos (by rw [← hsplit, List.length_cons])]
          simp only [hone, hnext]
        | cons e' taken =>
          rw [List.cons_append, List.cons.injEq] at hsplit
          obtain ⟨rfl, rfl⟩ := hsplit
          rw [List.length_append] at hfuel ⊢
          rw [if_neg (by omega)]
          obtain ⟨values'', hr, hf''⟩ := ih hm' (by omega : left.length ≤ fuel)
            (fun e' he' => hrest e' (List.mem_append_right _ he')) hf'
          refine ⟨values'', hr, ?_⟩
          rw [List.append_assoc] at hf''
          exact hf''

/-! ## Blobs -/

/-- The entries of a blob are the first ones, and their records end in the blob. -/
theorem gather_spec (file : Bytes) (start : Nat) (first : Bool) {blobEnd : Nat}
    (hend : blobEnd ≤ file.length) (es : List (Nat × Nat))
    (hes : ∀ e ∈ es, ∃ bs, WholeAt file e.1 bs) :
    ∃ taken left blobEnd', gather file start first blobEnd es = (taken, left, blobEnd') ∧
      es = taken ++ left ∧ blobEnd ≤ blobEnd' ∧ blobEnd' ≤ file.length ∧
      ∀ e ∈ taken, ∀ bs, WholeAt file e.1 bs → recordEnd e.1 bs ≤ blobEnd' := by
  induction es generalizing first blobEnd with
  | nil =>
    exact ⟨[], [], blobEnd, by rw [gather], rfl, Nat.le_refl _, hend,
      fun e he => absurd he List.not_mem_nil⟩
  | cons e es ih =>
    obtain ⟨bs, hw⟩ := hes e List.mem_cons_self
    rw [gather, hw.header]
    simp only
    split
    · exact ⟨[], e :: es, blobEnd, rfl, rfl, Nat.le_refl _, hend,
        fun e he => absurd he List.not_mem_nil⟩
    · obtain ⟨taken, left, blobEnd', hg, rfl, hle, hfile, hin⟩ := ih false
        (max_le hend hw.ends) fun e' he' => hes e' (List.mem_cons_of_mem _ he')
      refine ⟨e :: taken, left, blobEnd', by rw [hg], rfl,
        Nat.le_trans (Nat.le_max_left _ _) hle, hfile, fun e' he' bs' hw' => ?_⟩
      rcases List.mem_cons.1 he' with rfl | he'
      · have hsame := hw.header.symm.trans hw'.header
        cases hsame
        exact Nat.le_trans (Nat.le_max_right _ _) hle
      · exact hin e' he' bs' hw'

/-- A deletion that is read has no value. -/
def Bare (L : LzmaLib) (d : DataFile) (reclaim : UInt8) (e : Nat × Nat) : Prop :=
  ∀ r, d.readRecordIn L e.1 reclaim = .ok r → r.deleted = true → r.value = []

/-- **A blob** leaves what `ReadRecordAt` gives, if the deletions in it have no values. -/
theorem parseBlob_fills {start k : Nat} (hk : start + k ≤ d.file.length) {es : List (Nat × Nat)}
    (hes : ∀ e ∈ es, Served L d reclaim want e) (hbare : ∀ e ∈ es, Bare L d reclaim e)
    (hin : ∀ e ∈ es, start ≤ e.1 ∧ ∀ bs, WholeAt d.file e.1 bs → recordEnd e.1 bs ≤ start + k)
    (hf : Fills n want done values) :
    ∃ values', parseBlob L d.file reclaim (fieldAt d.file start k) start es values = .ok values' ∧
      Fills n want (done ++ es) values' := by
  induction es generalizing done values with
  | nil => exact ⟨values, by rw [parseBlob], by rwa [List.append_nil]⟩
  | cons e es ih =>
    have he := hes e List.mem_cons_self
    obtain ⟨hstart, hends⟩ := hin e List.mem_cons_self
    obtain ⟨bs, hw⟩ := he.whole
    have hstep : ∃ values₁, (∀ rest, parseBlob L d.file reclaim (fieldAt d.file start k) start
        (e :: rest) values =
          parseBlob L d.file reclaim (fieldAt d.file start k) start rest values₁) ∧
        Fills n want (done ++ [e]) values₁ := by
      have hparse : parseRecordAt L (fieldAt d.file start k) (e.1 - start) reclaim =
          d.readRecordIn L e.1 reclaim := parseRecordAt_part hw hstart hk (hends bs hw)
      obtain ⟨r, hr⟩ | hr := he.reads
      · have hwant : want e.2 = r.value := by
          rw [he.wants, singleValue, hr]
          simp only
          split
          · rename_i hdel
            rw [hbare e List.mem_cons_self r hr hdel]
          · rfl
        by_cases hnil : r.value = []
        · refine ⟨values, fun rest => ?_, hf.skip (hwant.trans hnil)⟩
          rw [parseBlob, hparse, hr]
          simp only [hnil, if_true]
        · refine ⟨_, fun rest => ?_, hf.set hwant⟩
          rw [parseBlob, hparse, hr]
          simp only [hnil, if_false]
      · obtain ⟨values₁, hone, hf₁⟩ := readOneStream_fills hf he
        refine ⟨values₁, fun rest => ?_, hf₁⟩
        rw [parseBlob, hparse, hr]
        simp only [hone]
    obtain ⟨values₁, heq, hf₁⟩ := hstep
    obtain ⟨values', hp, hf'⟩ := ih (fun e' he' => hes e' (List.mem_cons_of_mem _ he'))
      (fun e' he' => hbare e' (List.mem_cons_of_mem _ he'))
      (fun e' he' => hin e' (List.mem_cons_of_mem _ he')) hf₁
    rw [List.append_assoc] at hf'
    exact ⟨values', (heq es).trans hp, hf'⟩

/-- **The loop over the blobs** serves every entry, if the deletions have no values. -/
theorem readBlobs_fills (fuel : Nat) {es : List (Nat × Nat)} (hfuel : es.length ≤ fuel)
    (hes : ∀ e ∈ es, Served L d reclaim want e) (hbare : ∀ e ∈ es, Bare L d reclaim e)
    (hsorted : es.Pairwise (·.1 ≤ ·.1)) (hf : Fills n want done values) :
    ∃ values', readBlobs L d.file reclaim fuel es values = .ok values' ∧
      Fills n want (done ++ es) values' := by
  induction fuel generalizing es done values with
  | zero =>
    rw [List.length_eq_zero_iff.1 (Nat.le_zero.1 hfuel)]
    exact ⟨values, by rw [readBlobs], by rwa [List.append_nil]⟩
  | succ fuel ih =>
    cases es with
    | nil => exact ⟨values, by rw [readBlobs], by rwa [List.append_nil]⟩
    | cons e rest =>
      obtain ⟨hfirst, hpair⟩ := List.pairwise_cons.1 hsorted
      have hall : ∀ e' ∈ e :: rest, e.1 ≤ e'.1 := fun e' he' => by
        rcases List.mem_cons.1 he' with rfl | he'
        · exact Nat.le_refl _
        · exact hfirst e' he'
      obtain ⟨bs, hw⟩ := (hes e List.mem_cons_self).whole
      rw [List.length_cons] at hfuel
      obtain ⟨values₁, hone, hf₁⟩ := readOneStream_fills hf (hes e List.mem_cons_self)
      obtain ⟨values₂, hnext, hf₂⟩ := ih (Nat.le_of_succ_le_succ hfuel)
        (fun e' he' => hes e' (List.mem_cons_of_mem _ he'))
        (fun e' he' => hbare e' (List.mem_cons_of_mem _ he')) hpair hf₁
      rw [List.append_assoc] at hf₂
      obtain ⟨taken, left, blobEnd, hg, hsplit, hle, hfile, hin⟩ := gather_spec d.file e.1 true
        (readAt?_some hw.header).1 (e :: rest) fun e' he' => (hes e' he').whole
      rw [readBlobs, hg]
      simp only [hone, hnext]
      split
      · exact ⟨values₂, rfl, hf₂⟩
      · rename_i hmany
        rw [not_or] at hmany
        have hk : e.1 + (blobEnd - e.1) ≤ d.file.length := by omega
        have hread : readAt? d.file e.1 (blobEnd - e.1) = some (fieldAt d.file e.1 (blobEnd - e.1)) :=
          if_pos hk
        have htaken : ∀ e' ∈ taken, e' ∈ e :: rest := fun e' he' =>
          hsplit ▸ List.mem_append_left _ he'
        have hleft : ∀ e' ∈ left, e' ∈ e :: rest := fun e' he' =>
          hsplit ▸ List.mem_append_right _ he'
        obtain ⟨values', hp, hf'⟩ := parseBlob_fills hk (fun e' he' => hes e' (htaken e' he'))
          (fun e' he' => hbare e' (htaken e' he'))
          (fun e' he' => ⟨hall e' (htaken e' he'), fun bs' hw' => by
            have hend := hin e' he' bs' hw'
            omega⟩) hf
        have hlen := congrArg List.length hsplit
        rw [List.length_cons, List.length_append] at hlen
        rw [hsplit] at hsorted
        obtain ⟨values'', hr, hf''⟩ := ih (by omega : left.length ≤ fuel)
          (fun e' he' => hes e' (hleft e' he')) (fun e' he' => hbare e' (hleft e' he'))
          (List.pairwise_append.1 hsorted).2.1 hf'
        rw [hread]
        simp only [hp]
        refine ⟨values'', hr, ?_⟩
        rw [List.append_assoc, ← hsplit] at hf''
        exact hf''

/-- One record under two indexes goes through a blob, which does not ask whether it is a deletion. -/
theorem readBlobs_twice {r : ReadOut} (hw : WholeAt d.file o bs)
    (hr : d.readRecordIn L o reclaim = .ok r) (hne : r.value ≠ []) :
    readBlobs L d.file reclaim 2 [(o, 0), (o, 1)] [[], []] = .ok [r.value, r.value] := by
  have hbound := header_bound bs o
  have hge : o + kDataHeaderSize ≤ recordEnd o bs := by
    unfold recordEnd
    omega
  have hle : recordEnd o bs - o ≤ kMaxRecordSize := by
    unfold recordEnd
    omega
  have hsmall : ¬ kStreamBlobCap < recordEnd o bs - o := by
    have hcap : kMaxRecordSize ≤ kStreamBlobCap := by decide
    omega
  have hnear : ¬ recordEnd o bs + 4096 < o := by omega
  have hg : gather d.file o true (o + kDataHeaderSize) [(o, 0), (o, 1)] =
      ([(o, 0), (o, 1)], [], recordEnd o bs) := by
    simp only [gather, hw.header, Bool.not_true, Bool.false_and, Bool.false_eq_true, if_false,
      Nat.max_eq_right hge, Nat.max_self, Bool.not_false, Bool.true_and, hsmall, hnear,
      decide_false, Bool.or_self]
  have hk : o + (recordEnd o bs - o) ≤ d.file.length := by
    have hends := hw.ends
    omega
  have hread : readAt? d.file o (recordEnd o bs - o) = some (fieldAt d.file o (recordEnd o bs - o)) :=
    if_pos hk
  have hparse : parseRecordAt L (fieldAt d.file o (recordEnd o bs - o)) (o - o) reclaim = .ok r :=
    (parseRecordAt_part hw (Nat.le_refl _) hk (by omega)).trans hr
  have hmany : ¬ ([(o, 0), (o, 1)].length ≤ 1 ∨ kStreamBlobCap < recordEnd o bs - o) := by
    rw [not_or]
    exact ⟨by simp, hsmall⟩
  rw [readBlobs, hg]
  simp only [hmany, if_false, hread, parseBlob, hparse, hne, readBlobs]
  rfl

end DataFile

/-! ## A file that was appended to -/

namespace StoredRecord

theorem decode_lengths (r : StoredRecord) :
    (DataRecordHeader.decode r.header).keyLen = r.key.length % 2 ^ 16 ∧
      (DataRecordHeader.decode r.header).valueLen = r.payload.length % 2 ^ 16 ∧
      (DataRecordHeader.decode r.header).deleted = r.deleted := by
  have hd : (if r.deleted then (1 : UInt8) else 0) ≠ 0 ↔ r.deleted = true := by
    cases r.deleted <;> simp
  simp only [DataRecordHeader.decode, header, checked, List.append_assoc]
  simp only [fieldAt_here, fieldAt_skip, length_le, leNat_le, Nat.reduceLeDiff, Nat.reduceSub,
    le_refl, List.length_singleton, List.headD_cons, hd, Bool.decide_eq_true]
  exact ⟨rfl, rfl, trivial⟩

end StoredRecord

open DataFile

variable {L : LzmaLib} {calls : List AppendCall} {c : AppendCall} {o : Nat} {reclaim : UInt8}

theorem file_foldl (L : LzmaLib) (calls : List AppendCall) (d : DataFile) :
    (calls.foldl (fun d c => d.appendStored (c.record L)) d).file =
      d.file ++ calls.flatMap fun c => (c.record L).encode := by
  induction calls generalizing d with
  | nil => exact (List.append_nil _).symm
  | cons c calls ih =>
    rw [List.foldl_cons, ih, List.flatMap_cons, appendStored, List.append_assoc]

/-- The call's record lies at the offset. -/
def OffsetOf (L : LzmaLib) (calls : List AppendCall) (c : AppendCall) (o : Nat) : Prop :=
  ∃ pre post, calls = pre ++ c :: post ∧ o = (appendedFile L pre).file.length

theorem OffsetOf.whole (h : OffsetOf L calls c o) :
    WholeAt (appendedFile L calls).file o (c.record L).header := by
  obtain ⟨pre, post, rfl, rfl⟩ := h
  have hfile : (appendedFile L (pre ++ c :: post)).file = (appendedFile L pre).file ++
      ((c.record L).header ++ ((c.record L).key ++ (c.record L).payload ++
        post.flatMap fun c => (c.record L).encode)) := by
    rw [appendedFile, List.foldl_append, List.foldl_cons, file_foldl, appendStored]
    simp only [StoredRecord.encode, List.append_assoc]
    rfl
  refine ⟨readAt?_of_append _ _ hfile rfl (by simp), (c.record L).verifyCrc_header, ?_⟩
  obtain ⟨hk, hv, -⟩ := (c.record L).decode_lengths
  have hkle := Nat.mod_le (c.record L).key.length (2 ^ 16)
  have hvle := Nat.mod_le (c.record L).payload.length (2 ^ 16)
  rw [recordEnd, hk, hv, hfile]
  simp only [List.length_append, StoredRecord.length_header]
  omega

/-- A deletion is stored as it is. -/
theorem AppendCall.record_deletion (L : LzmaLib) (hdel : c.deleted = true) :
    (c.record L).codec = 0 ∧ (c.record L).payload = c.value := by
  have hstored : storeValue L c.compressValues c.policy c.value c.deleted = (0, c.value) := by
    rw [storeValue, hdel]
    rfl
  rw [AppendCall.record, storedRecord]
  simp only [hstored, and_self]

theorem AppendCall.generation_deletion (L : LzmaLib) (hdel : c.deleted = true) :
    recordGeneration (c.record L).header = c.generation := by
  obtain ⟨hcodec, -⟩ := c.record_deletion L hdel
  have hle : (c.record L).codec ≤ 4 := by
    rw [hcodec]
    decide
  rw [StoredRecord.recordGeneration_header hle, hcodec]
  change (if c.generation ≠ 0 then c.generation else if (0 : UInt8) ≤ 1 then 0 else 0) = _
  split
  · rfl
  · rename_i h0
    rw [not_not.1 h0]
    rfl

/-- What a deletion reads as: its value, as far as the header's sixteen bits go. -/
theorem OffsetOf.read_deletion (h : OffsetOf L calls c o) (hdel : c.deleted = true)
    (hv : generationVisible c.generation reclaim = true) :
    ∃ r, (appendedFile L calls).readRecordIn L o reclaim = .ok r ∧ r.deleted = true ∧
      r.value.length = c.value.length % 2 ^ 16 := by
  have hw := h.whole
  obtain ⟨-, hlen, hd⟩ := (c.record L).decode_lengths
  obtain ⟨hcodec, hpayload⟩ := c.record_deletion L hdel
  have hle : (c.record L).codec ≤ 4 := by
    rw [hcodec]
    decide
  have hraw : ∀ payload, decodeRecordValue L (c.record L).header payload = .ok payload := by
    intro payload
    rw [decodeRecordValue, StoredRecord.recordCodec_header hle, hcodec]
    rfl
  have hends := hw.ends
  unfold recordEnd at hends
  rw [readRecordIn_whole hw, c.generation_deletion L hdel, hv, if_pos rfl, hraw]
  refine ⟨_, rfl, hd.trans hdel, ?_⟩
  simp only
  rw [length_fieldAt hends, hlen, hpayload]

theorem exists_offsetOf (L : LzmaLib) (hc : c ∈ calls) : ∃ o, OffsetOf L calls c o := by
  obtain ⟨pre, post, rfl⟩ := List.append_of_mem hc
  exact ⟨_, pre, post, rfl, rfl⟩

/-- **A batch reads as the records one by one**: offsets of records that `ReadRecordAt` gives, each
index with one value to hold, in every order that `std::sort` may leave, with every window manager and
without. -/
def BatchReads (L : LzmaLib) (calls : List AppendCall) (reclaim : UInt8) : Prop :=
  ∀ (pairs sorted : List (Nat × Nat)) (n : Nat) (mmapMgr : Option MmapWindowManager),
    (∀ e ∈ pairs, (∃ c, OffsetOf L calls c e.1) ∧ Reads L (appendedFile L calls) reclaim e.1) →
    (∀ e ∈ pairs, ∀ e' ∈ pairs, e.2 = e'.2 → singleValue L (appendedFile L calls) reclaim e.1 =
      singleValue L (appendedFile L calls) reclaim e'.1) →
    sorted.Perm pairs → sorted.Pairwise (·.1 ≤ ·.1) →
    (∀ m, mmapMgr = some m → m.Mapped (appendedFile L calls).file) →
    ∃ values, (appendedFile L calls).readRecordsAtOffsets L mmapMgr sorted (List.replicate n [])
        reclaim = .ok values ∧ values.length = n ∧
      ∀ e ∈ pairs, e.2 < n →
        values[e.2]? = some (singleValue L (appendedFile L calls) reclaim e.1)

/-- A deletion with a value that is asked for twice goes through a blob. -/
theorem BatchReads.no_value (hall : BatchReads L calls reclaim) (hc : c ∈ calls)
    (hdel : c.deleted = true) (hv : generationVisible c.generation reclaim = true) :
    c.value.length % 2 ^ 16 = 0 := by
  obtain ⟨o, ho⟩ := exists_offsetOf L hc
  obtain ⟨r, hr, hrdel, hlen⟩ := ho.read_deletion hdel hv
  by_contra hne
  have hvalue : r.value ≠ [] := by
    intro h
    rw [h] at hlen
    exact hne hlen.symm
  have hsingle : singleValue L (appendedFile L calls) reclaim o = [] := by
    rw [singleValue, hr]
    exact if_pos hrdel
  have hmem : ∀ e ∈ [(o, 0), (o, 1)], e.1 = o := by
    intro e he
    rcases List.mem_cons.1 he with rfl | he
    · rfl
    · rw [List.mem_singleton.1 he]
  obtain ⟨values, hbatch, -, hread⟩ := hall [(o, 0), (o, 1)] [(o, 0), (o, 1)] 2 none
    (fun e he => by
      rw [hmem e he]
      exact ⟨⟨c, ho⟩, .inl ⟨r, hr⟩⟩)
    (fun e he e' he' _ => by rw [hmem e he, hmem e' he']) (List.Perm.refl _)
    (List.pairwise_pair.2 (Nat.le_refl o)) fun m hm => nomatch hm
  have htwice := readBlobs_twice ho.whole hr hvalue
  have hvalues : values = [r.value, r.value] := by
    have hsame := hbatch.symm.trans (show (appendedFile L calls).readRecordsAtOffsets L none
      [(o, 0), (o, 1)] (List.replicate 2 []) reclaim = .ok [r.value, r.value] from htwice)
    cases hsame
    rfl
  have h0 := hread (o, 0) List.mem_cons_self Nat.zero_lt_two
  rw [hvalues, hsingle] at h0
  exact hvalue (Option.some.inj h0)

/-- **Batches read as single reads** exactly if no deletion in sight was appended with a value (one
whose length the header's sixteen bits do not show as zero). -/
theorem batch_reads_iff (L : LzmaLib) (calls : List AppendCall) (reclaim : UInt8) :
    BatchReads L calls reclaim ↔ ∀ c ∈ calls, c.deleted = true →
      generationVisible c.generation reclaim = true → c.value.length % 2 ^ 16 = 0 := by
  constructor
  · exact fun hall c hc hdel hv => hall.no_value hc hdel hv
  · intro hbare pairs sorted n mmapMgr hoff hsame hperm hsorted hmgr
    have hmem : ∀ e ∈ sorted, e ∈ pairs := fun e he => hperm.mem_iff.1 he
    -- what each index is to hold
    obtain ⟨want, hwant⟩ : ∃ want : Nat → Value, ∀ e ∈ pairs,
        want e.2 = singleValue L (appendedFile L calls) reclaim e.1 := by
      refine ⟨fun i => ((pairs.find? fun e => e.2 = i).map fun e =>
        singleValue L (appendedFile L calls) reclaim e.1).getD [], fun e he => ?_⟩
      obtain ⟨e', he'⟩ := Option.isSome_iff_exists.1 (List.find?_isSome.2 ⟨e, he, decide_eq_true rfl⟩ :
        (pairs.find? fun e' => e'.2 = e.2).isSome)
      simp only [he', Option.map_some, Option.getD_some]
      have hidx : e'.2 = e.2 := by simpa using List.find?_some he'
      exact hsame e' (List.mem_of_find?_eq_some he') e he hidx
    have hserved : ∀ e ∈ sorted, Served L (appendedFile L calls) reclaim want e := by
      intro e he
      obtain ⟨⟨c, hc⟩, hreads⟩ := hoff e (hmem e he)
      exact ⟨⟨_, hc.whole⟩, hreads, hwant e (hmem e he)⟩
    have hnone : ∀ e ∈ sorted, Bare L (appendedFile L calls) reclaim e := by
      intro e he r hr hdel
      obtain ⟨⟨c, hc⟩, -⟩ := hoff e (hmem e he)
      have hcm : c ∈ calls := by
        obtain ⟨pre, post, rfl, -⟩ := hc
        exact List.mem_append_right _ List.mem_cons_self
      obtain ⟨-, -, hcdel⟩ := (c.record L).decode_lengths
      have hseen : c.deleted = true ∧ generationVisible (recordGeneration (c.record L).header) reclaim := by
        have hread := hr
        rw [readRecordIn_whole hc.whole] at hread
        split at hread
        · rename_i hvis
          split at hread
          · cases hread
          · cases hread
            exact ⟨hcdel.symm.trans hdel, hvis⟩
        · cases hread
      obtain ⟨hdeleted, hv⟩ := hseen
      rw [c.generation_deletion L hdeleted] at hv
      obtain ⟨r', hr', -, hlen⟩ := hc.read_deletion hdeleted hv
      cases hr.symm.trans hr'
      rw [hbare c hcm hdeleted hv] at hlen
      exact List.length_eq_zero_iff.1 hlen
    have hdone : ∃ values, (appendedFile L calls).readRecordsAtOffsets L mmapMgr sorted
        (List.replicate n []) reclaim = .ok values ∧ Fills n want ([] ++ sorted) values := by
      cases mmapMgr with
      | some m =>
        exact readWindows_fills sorted.length (hmgr m rfl) (Nat.le_refl _) hserved
          (Fills.start n want)
      | none =>
        exact readBlobs_fills sorted.length (Nat.le_refl _) hserved hnone hsorted
          (Fills.start n want)
    obtain ⟨values, hv, hf⟩ := hdone
    refine ⟨values, hv, hf.length_eq, fun e he hlt => ?_⟩
    rw [hf.there e (hperm.mem_iff.2 he) hlt, hwant e he]

/-- **A deletion with a value** is read back with it where it is asked for twice, without a window
manager. -/
theorem batch_reads_deleted : ¬ ∀ L calls reclaim, BatchReads L calls reclaim := by
  intro hall
  have hzero := (hall noLzma [⟨false, .kOff, 1, [107], [118], true, 0⟩] 0xFF).no_value
    List.mem_cons_self rfl (by decide)
  exact absurd hzero (by decide)

end EBTree.Engine
