import EBTree.Engine.Proof.DatafileLoad
import EBTree.Engine.Proof.StoredRecord

/-!
# A torn record in the data file

The file is opened for appending behind whatever a crash left of the last record. The loader takes
the lengths of a record from its header, so that what is appended behind a torn record is read as
its rest.

* `parseFrom_records`: the records at the front of a file are loaded one by one.
* `roundAt_torn`: behind a torn record no round starts where the next record does.
* `loads_right_iff`: **when the file loads as its complete records**.
-/

set_option autoImplicit false

namespace EBTree.Engine

open Lib Codec

/-- A record that was appended: its sizes fit, and its value is found again. -/
structure AppendedRecord (L : LzmaLib) where
  stored : StoredRecord
  value : Value
  inRange : stored.InRange
  decodes : decodeRecordValue L stored.header stored.payload = .ok value

namespace AppendedRecord

variable {L : LzmaLib}

/-- What a record does to the map of the versions. -/
def apply (m : LoadedMap) (r : AppendedRecord L) : LoadedMap :=
  if r.stored.deleted then m.erase r.stored.key
  else m.insert r.stored.key (r.value, r.stored.lsn)

/-- The effect of a sequence of records: the versions, and the largest LSN. -/
def effect (rs : List (AppendedRecord L)) : LoadedMap × Nat :=
  (rs.foldl apply SortedMap.empty, rs.foldl (fun n r => max n r.stored.lsn) 0)

def bytes (rs : List (AppendedRecord L)) : Bytes := (rs.map fun r => r.stored.encode).flatten

@[simp] theorem bytes_cons (r : AppendedRecord L) (rs : List (AppendedRecord L)) :
    bytes (r :: rs) = r.stored.encode ++ bytes rs := rfl

@[simp] theorem bytes_append (rs rs' : List (AppendedRecord L)) :
    bytes (rs ++ rs') = bytes rs ++ bytes rs' := by
  simp [bytes]

end AppendedRecord

open AppendedRecord

/-- `LoadAll` of every generation: no limits. -/
def LoadCaps.all : LoadCaps := ⟨0, 0, 0xFF⟩

/-- The loop of a load of the file comes to a round at `pos`. -/
inductive RoundAt (L : LzmaLib) (file : Bytes) : Nat → LoadedMap → Nat → Prop
  | start : RoundAt L file 0 SortedMap.empty 0
  | next {pos mx pos' mx' : Nat} {out out' : LoadedMap} : RoundAt L file pos out mx →
      pos < file.length → parseStep L .all file 0 pos out mx = .next pos' out' mx' →
      RoundAt L file pos' out' mx'

section
variable {L : LzmaLib}

/-! ## Complete records -/

/-- **A round at a complete record** takes it in. -/
theorem parseStep_record (r : AppendedRecord L) (pre rest : Bytes) (out : LoadedMap) (mx : Nat) :
    parseStep L .all (pre ++ (r.stored.encode ++ rest)) 0 pre.length out mx =
      .next (pre.length + r.stored.size) (apply out r) (max mx r.stored.lsn) := by
  have e : pre ++ (r.stored.encode ++ rest) =
      pre ++ (r.stored.header ++ (r.stored.key ++ (r.stored.payload ++ rest))) := by
    simp [StoredRecord.encode]
  generalize hf : pre ++ (r.stored.encode ++ rest) = f at e ⊢
  have hhdr : readAt? f pre.length kDataHeaderSize = some r.stored.header :=
    readAt?_of_append pre (r.stored.key ++ (r.stored.payload ++ rest)) e rfl (by simp)
  have hkey : fieldAt f (pre.length + kDataHeaderSize) r.stored.key.length = r.stored.key :=
    fieldAt_of_append (pre ++ r.stored.header) (r.stored.payload ++ rest) (by simp [e]) (by simp)
      rfl
  have hpay : fieldAt f (pre.length + kDataHeaderSize + r.stored.key.length)
      r.stored.payload.length = r.stored.payload :=
    fieldAt_of_append (pre ++ r.stored.header ++ r.stored.key) rest (by simp [e])
      (by simp [Nat.add_assoc]) rfl
  have hlen : ¬ f.length < pre.length + kDataHeaderSize + r.stored.key.length +
      r.stored.payload.length := by
    simp [e]
    omega
  have hcut : ∀ n, ¬ LoadCaps.all.cuts n := fun n h => absurd h.1 (Nat.lt_irrefl 0)
  have hvis : generationVisible (recordGeneration r.stored.header) LoadCaps.all.reclaimGeneration =
      true := by simp [generationVisible, LoadCaps.all]
  rw [parseStep, if_neg (hcut _), hhdr]
  simp only [r.inRange.decode_header, if_neg (hcut _), if_neg hlen, r.stored.verifyCrc_header,
    Bool.not_true, Bool.false_eq_true, if_false, hvis, hkey, hpay, r.decodes]
  rw [if_neg (by simp [LoadCaps.all])]
  simp only [StoredRecord.size, Nat.add_assoc, apply]

/-- A round starts at a record. -/
theorem length_lt_record (r : AppendedRecord L) (pre rest : Bytes) :
    pre.length < (pre ++ (r.stored.encode ++ rest)).length := by
  have := r.stored.size_pos
  simp only [List.length_append, StoredRecord.length_encode]
  omega

/-- **The records at the front of a file** are loaded one by one. -/
theorem parseFrom_records (rs : List (AppendedRecord L)) (pre rest : Bytes) (out : LoadedMap)
    (mx : Nat) :
    parseFrom L .all (pre ++ (bytes rs ++ rest)) pre.length out mx =
      parseFrom L .all (pre ++ (bytes rs ++ rest)) (pre.length + (bytes rs).length)
        (rs.foldl apply out) (rs.foldl (fun n r => max n r.stored.lsn) mx) := by
  induction rs generalizing pre out mx with
  | nil => rfl
  | cons r rs ih =>
    have e : pre ++ (bytes (r :: rs) ++ rest) = pre ++ (r.stored.encode ++ (bytes rs ++ rest)) := by
      simp
    have e' := (List.append_assoc pre r.stored.encode (bytes rs ++ rest)).symm
    have hlt := length_lt_record r pre (bytes rs ++ rest)
    have hnext := ih (pre ++ r.stored.encode) (apply out r) (max mx r.stored.lsn)
    rw [List.length_append, StoredRecord.length_encode] at hnext
    rw [e, parseFrom_next hlt (parseStep_record r pre _ out mx), e', hnext, bytes_cons,
      List.length_append, StoredRecord.length_encode, Nat.add_assoc]
    rfl

/-- The rounds at the records of a file, behind a front from whose end a round starts. -/
theorem roundAt_records (rs : List (AppendedRecord L)) (pre rest : Bytes) {out : LoadedMap}
    {mx : Nat} (h : RoundAt L (pre ++ (bytes rs ++ rest)) pre.length out mx) :
    RoundAt L (pre ++ (bytes rs ++ rest)) (pre.length + (bytes rs).length)
      (rs.foldl apply out) (rs.foldl (fun n r => max n r.stored.lsn) mx) := by
  induction rs generalizing pre out mx with
  | nil => exact h
  | cons r rs ih =>
    have e : pre ++ (bytes (r :: rs) ++ rest) = pre ++ (r.stored.encode ++ (bytes rs ++ rest)) := by
      simp
    have e' := (List.append_assoc pre r.stored.encode (bytes rs ++ rest)).symm
    have hlt := length_lt_record r pre (bytes rs ++ rest)
    rw [e] at h ⊢
    have hstep := RoundAt.next h hlt (parseStep_record r pre _ out mx)
    rw [e', ← StoredRecord.length_encode, ← List.length_append] at hstep
    have hrest := ih (pre ++ r.stored.encode) hstep
    rw [e']
    rw [bytes_cons, List.length_append, ← Nat.add_assoc, ← List.length_append]
    exact hrest

/-! ## The torn record -/

/-- Where a torn record holds its header, that is what is read. -/
theorem torn_header (r : AppendedRecord L) {torn : Bytes} (ht : torn <+: r.stored.encode)
    (hc : kDataHeaderSize ≤ torn.length) (pre rest : Bytes) :
    readAt? (pre ++ (torn ++ rest)) pre.length kDataHeaderSize = some r.stored.header := by
  obtain ⟨body, rfl⟩ : ∃ body, torn = r.stored.header ++ body := by
    have hp : r.stored.header <+: torn :=
      List.prefix_of_prefix_length_le (List.prefix_append _ _) ht (by simpa using hc)
    exact hp.imp fun _ h => h.symm
  exact readAt?_of_append pre (body ++ rest) (by simp) rfl (by simp)

/-- A round at a torn record at the end of the file stops. -/
theorem parseStep_torn (r : AppendedRecord L) {torn : Bytes} (ht : torn <+: r.stored.encode)
    (hl : torn.length < r.stored.size) (pre : Bytes) (out : LoadedMap) (mx : Nat) :
    parseStep L .all (pre ++ torn) 0 pre.length out mx = .stop := by
  have hcut : ∀ n, ¬ LoadCaps.all.cuts n := fun n h => absurd h.1 (Nat.lt_irrefl 0)
  rw [parseStep, if_neg (hcut _)]
  by_cases hc : kDataHeaderSize ≤ torn.length
  · have hhdr := torn_header r ht hc pre []
    rw [List.append_nil] at hhdr
    have hshort : (pre ++ torn).length < pre.length + kDataHeaderSize + r.stored.key.length +
        r.stored.payload.length := by
      simp only [StoredRecord.size] at hl
      rw [List.length_append]
      omega
    rw [hhdr]
    simp only [r.inRange.decode_header, if_neg (hcut _), if_pos hshort]
  · rw [readAt?_eq_none_iff.2 (by rw [List.length_append]; omega)]

/-- **A round at a torn record** does not end where the record behind it starts. -/
theorem parseStep_over_torn (r : AppendedRecord L) {torn : Bytes} (ht : torn <+: r.stored.encode)
    (hl : torn.length < r.stored.size) (pre rest : Bytes) {out out' : LoadedMap} {mx mx' pos' : Nat}
    (hs : parseStep L .all (pre ++ (torn ++ rest)) 0 pre.length out mx = .next pos' out' mx') :
    pre.length + torn.length < pos' := by
  obtain ⟨bs, hbs, hpos, -⟩ := parseStep_next_pos hs
  by_cases hc : kDataHeaderSize ≤ torn.length
  · rw [torn_header r ht hc pre rest] at hbs
    cases hbs
    rw [r.inRange.decode_header] at hpos
    simp only [StoredRecord.size] at hl
    dsimp only at hpos
    omega
  · omega

/-- The rounds start at the records in front of the torn one, at the torn one, or behind the start
of the record that follows it. -/
theorem roundAt_torn {before : List (AppendedRecord L)} (r : AppendedRecord L) {torn rest : Bytes}
    (ht : torn <+: r.stored.encode) (hl : torn.length < r.stored.size) {pos mx : Nat}
    {out : LoadedMap} (h : RoundAt L (bytes before ++ (torn ++ rest)) pos out mx) :
    (∃ front back, before = front ++ back ∧ pos = (bytes front).length) ∨
      (bytes before).length + torn.length < pos := by
  induction h with
  | start => exact .inl ⟨[], before, rfl, rfl⟩
  | @next pos mx pos' mx' out out' _ _ hs ih =>
    rcases ih with ⟨front, back, rfl, rfl⟩ | hgt
    · cases back with
      | nil =>
        rw [List.append_nil] at hs ⊢
        exact .inr (parseStep_over_torn r ht hl _ _ hs)
      | cons b back =>
        have e : bytes (front ++ b :: back) ++ (torn ++ rest) =
            bytes front ++ (b.stored.encode ++ (bytes back ++ (torn ++ rest))) := by simp
        rw [e, parseStep_record] at hs
        cases hs
        exact .inl ⟨front ++ [b], back, by simp, by simp [bytes]⟩
    · exact .inr (Nat.lt_trans hgt (parseStep_next hs).1)

end

/-! ## Loading after a crash -/

section
variable {L : LzmaLib} (before : List (AppendedRecord L)) (r : AppendedRecord L) (cut : Nat)
  (after : List (AppendedRecord L))

/-- The records that are complete in a file that was cut in its last record. -/
def complete : List (AppendedRecord L) := if r.stored.size ≤ cut then before ++ [r] else before

/-- What is left of the last record when it is not complete. -/
def tornTail : Bytes := if r.stored.size ≤ cut then [] else r.stored.encode.take cut

/-- The file after the crash and what was appended then. -/
def crashedFile : Bytes := bytes (complete before r cut) ++ (tornTail r cut ++ bytes after)

/-- **The file loads as its complete records**: the load succeeds with their effect, and every
record appended after the crash is read where it was written, as what was written. -/
structure LoadsRight : Prop where
  status : (loadRecordsWhole L .all (crashedFile before r cut after) SortedMap.empty 0).status =
    .ok ()
  out : (loadRecordsWhole L .all (crashedFile before r cut after) SortedMap.empty 0).out =
    (effect (complete before r cut ++ after)).1
  maxLsn : (loadRecordsWhole L .all (crashedFile before r cut after) SortedMap.empty 0).maxLsn =
    (effect (complete before r cut ++ after)).2
  read : ∀ front x back, after = front ++ x :: back → ∃ out mx,
    RoundAt L (crashedFile before r cut after)
      ((bytes (complete before r cut)).length + (tornTail r cut).length + (bytes front).length)
      out mx ∧
    parseStep L .all (crashedFile before r cut after) 0
      ((bytes (complete before r cut)).length + (tornTail r cut).length + (bytes front).length)
      out mx =
      .next ((bytes (complete before r cut)).length + (tornTail r cut).length +
        (bytes front).length + x.stored.size) (apply out x) (max mx x.stored.lsn)

theorem tornTail_spec :
    tornTail r cut <+: r.stored.encode ∧ (tornTail r cut).length < r.stored.size := by
  have hpos := r.stored.size_pos
  unfold tornTail
  split
  · exact ⟨List.nil_prefix, hpos⟩
  · refine ⟨List.take_prefix _ _, ?_⟩
    rw [List.length_take]
    omega

theorem tornTail_eq_nil_iff : tornTail r cut = [] ↔ cut = 0 ∨ r.stored.size ≤ cut := by
  have hne : r.stored.encode ≠ [] := by
    rw [← List.length_pos_iff, StoredRecord.length_encode]
    exact r.stored.size_pos
  unfold tornTail
  split
  · exact iff_of_true rfl (.inr ‹_›)
  · rename_i hlt
    rw [List.take_eq_nil_iff]
    simp [hlt, hne]

/-- A load of the whole file, as rounds from its start. -/
theorem loadRecordsWhole_done {file : Bytes} {pos mx : Nat} {out : LoadedMap}
    (h : parseFrom L .all file 0 SortedMap.empty 0 = ⟨.ok (), pos, out, mx⟩) :
    (loadRecordsWhole L .all file SortedMap.empty 0).status = .ok () ∧
      (loadRecordsWhole L .all file SortedMap.empty 0).out = out ∧
      (loadRecordsWhole L .all file SortedMap.empty 0).maxLsn = mx := by
  rw [parseFrom, Nat.sub_zero] at h
  rw [loadRecordsWhole, parseRecordsIncremental, h]
  exact ⟨rfl, rfl, rfl⟩

/-- **The file loads as its complete records** exactly if it was cut between two records, or
nothing was appended after the crash. -/
theorem loads_right_iff :
    LoadsRight before r cut after ↔ cut = 0 ∨ r.stored.size ≤ cut ∨ after = [] := by
  obtain ⟨ht, hl⟩ := tornTail_spec r cut
  rw [← or_assoc, ← tornTail_eq_nil_iff]
  constructor
  · intro h
    by_contra hc
    rw [not_or] at hc
    obtain ⟨htorn, hafter⟩ := hc
    obtain ⟨x, back, rfl⟩ := List.exists_cons_of_ne_nil hafter
    obtain ⟨out, mx, hround, -⟩ := h.read [] x back rfl
    have hpos := List.length_pos_iff.2 htorn
    rcases roundAt_torn r ht hl hround with ⟨front, back', hb, hp⟩ | hgt
    · rw [hb, bytes_append, List.length_append] at hp
      omega
    · rw [show bytes ([] : List (AppendedRecord L)) = [] from rfl, List.length_nil] at hgt
      omega
  · intro h
    have hfront := parseFrom_records (complete before r cut) []
      (tornTail r cut ++ bytes after) SortedMap.empty 0
    rw [List.nil_append, List.length_nil, Nat.zero_add] at hfront
    rcases h with htorn | rfl
    · -- nothing of the last record is left: the file is that of the complete records
      have hfile : crashedFile before r cut after = bytes (complete before r cut ++ after) := by
        rw [crashedFile, htorn, List.nil_append, bytes_append]
      have hall := parseFrom_records (complete before r cut ++ after) [] [] SortedMap.empty 0
      rw [List.nil_append, List.append_nil, List.length_nil, Nat.zero_add,
        parseFrom_done (.inl (Nat.le_refl _)), ← hfile] at hall
      obtain ⟨hst, hout, hmx⟩ := loadRecordsWhole_done hall
      refine ⟨hst, hout, hmx, ?_⟩
      rintro front x back rfl
      have e : crashedFile before r cut (front ++ x :: back) =
          bytes (complete before r cut ++ front) ++ (x.stored.encode ++ bytes back) := by
        rw [hfile]
        simp
      have hround := roundAt_records (complete before r cut ++ front) []
        (x.stored.encode ++ bytes back) RoundAt.start
      rw [List.nil_append, List.length_nil, Nat.zero_add, ← e] at hround
      have hlen : (bytes (complete before r cut)).length + (tornTail r cut).length +
          (bytes front).length = (bytes (complete before r cut ++ front)).length := by
        simp [htorn]
      rw [hlen]
      refine ⟨_, _, hround, ?_⟩
      rw [e]
      exact parseStep_record x _ _ _ _
    · -- the torn record is the end of the file
      have hfile : crashedFile before r cut [] =
          bytes (complete before r cut) ++ tornTail r cut := by
        rw [crashedFile, show bytes ([] : List (AppendedRecord L)) = [] from rfl, List.append_nil]
      have hbytes : tornTail r cut ++ bytes ([] : List (AppendedRecord L)) = tornTail r cut :=
        List.append_nil _
      rw [hbytes, parseFrom_done (.inr (parseStep_torn r ht hl _ _ _)), ← hfile] at hfront
      obtain ⟨hst, hout, hmx⟩ := loadRecordsWhole_done hfront
      refine ⟨hst, ?_, ?_, ?_⟩
      · rw [hout, List.append_nil, effect]
      · rw [hmx, List.append_nil, effect]
      · rintro front x back h
        exact absurd h.symm (by simp)

end

/-- A put of `a` under the key `k`, as it is. -/
def putRecord : AppendedRecord storedLzma where
  stored := ⟨1, [107], [97], false, 0, 0⟩
  value := [97]
  inRange := ⟨by decide, by decide, by decide⟩
  decodes := by
    rw [decodeRecordValue, StoredRecord.recordCodec_header (by decide)]
    rfl

/-- A put that follows one cut off behind its header is read as the value of that one. -/
theorem torn_put_loses : ¬ LoadsRight [] putRecord 20 [putRecord] := by
  intro h
  obtain ⟨out, mx, hround, -⟩ := h.read [] putRecord [] rfl
  obtain ⟨ht, hl⟩ := tornTail_spec putRecord 20
  have hlen : (tornTail putRecord 20).length = 20 := by
    rw [tornTail, if_neg (by decide), List.length_take, StoredRecord.length_encode]
    rfl
  rcases @roundAt_torn _ [] putRecord _ _ ht hl _ _ _ hround with ⟨front, back, hb, hp⟩ | hgt
  · obtain ⟨rfl, -⟩ := List.append_eq_nil_iff.1 hb.symm
    rw [hlen] at hp
    exact absurd hp (by decide)
  · rw [hlen] at hgt
    exact absurd hgt (by decide)

end EBTree.Engine
