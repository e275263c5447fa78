import EBTree.Engine.VersionChain

/-!
# What the data file holds

`Stores d ds`: the file is the records `ds` one behind the other, and every LSN of the index leads
to one of them. `Append` adds a record (`Stores.append`); what is read by LSN or loaded when a shard
is opened is one of the records (`Stores.readByLsn_ok`, `Stores.loadRecords_eq`,
`Stores.mem_rebuildRecords`), and so is what an index built from the file leads to
(`Stores.buildFromFile`).
-/

set_option autoImplicit false

namespace EBTree.Engine

open Lib

/-- The records with their offsets. -/
def recordsAt (ds : List DataRecord) : List (Nat × DataRecord) :=
  Reader.layout DataRecord.size id 0 ds

/-- The bytes of the records. -/
def dataBytes (ds : List DataRecord) : Bytes := (ds.map DataRecord.encode).flatten

theorem length_dataBytes (ds : List DataRecord) :
    (dataBytes ds).length = (ds.map DataRecord.size).sum := by
  induction ds with
  | nil => rfl
  | cons r ds ih =>
    have : dataBytes (r :: ds) = r.encode ++ dataBytes ds := rfl
    rw [this, List.length_append, ih, DataRecord.length_encode, List.map_cons, List.sum_cons]

/-- The index leads to records with the LSN looked up. -/
def Leads (ix : SortedMap Nat Nat) (ds : List DataRecord) : Prop :=
  ∀ lsn off, ix.find? lsn = some off → ∃ r, (off, r) ∈ recordsAt ds ∧ r.lsn = lsn

theorem recordsAt_append (ds ds' : List DataRecord) {x : Nat × DataRecord}
    (h : x ∈ recordsAt ds) : x ∈ recordsAt (ds ++ ds') := by
  rw [recordsAt, Reader.layout_append]
  exact List.mem_append_left _ h

theorem Leads.append {ix : SortedMap Nat Nat} {ds : List DataRecord} (h : Leads ix ds)
    (ds' : List DataRecord) : Leads ix (ds ++ ds') := by
  intro lsn off hf
  obtain ⟨r, hr, hl⟩ := h lsn off hf
  exact ⟨r, recordsAt_append ds ds' hr, hl⟩

theorem leads_empty (ds : List DataRecord) : Leads SortedMap.empty ds := by
  intro lsn off hf
  rw [SortedMap.find?_empty] at hf
  cases hf

structure Stores (d : DataFile) (ds : List DataRecord) : Prop where
  file_eq : d.file = dataBytes ds
  inRange : ∀ r ∈ ds, r.InRange
  leads : Leads d.lsnIndex ds

namespace Stores

variable {d : DataFile} {ds : List DataRecord}

theorem append (h : Stores d ds) {r : DataRecord} (hr : r.InRange) :
    Stores (d.append r) (ds ++ [r]) where
  file_eq := by
    rw [DataFile.append, h.file_eq]
    simp [dataBytes]
  inRange r' hr' := by
    rcases List.mem_append.1 hr' with hr' | hr'
    · exact h.inRange r' hr'
    · exact List.mem_singleton.1 hr' ▸ hr
  leads lsn off hf := by
    change (d.lsnIndex.insert r.lsn d.file.length).find? lsn = some off at hf
    rw [SortedMap.find?_insert] at hf
    split at hf
    · rename_i hlsn
      cases hf
      refine ⟨r, ?_, hlsn.symm⟩
      rw [recordsAt, Reader.layout_append, h.file_eq, length_dataBytes]
      simp [Reader.layout]
    · exact h.leads.append [r] lsn off hf

/-- The file in front of a record, the record, and the file behind it. -/
theorem split (h : Stores d ds) {off : Nat} {r : DataRecord} (hr : (off, r) ∈ recordsAt ds) :
    ∃ pre rest, d.file = pre ++ (r.encode ++ rest) ∧ pre.length = off ∧ r.InRange := by
  obtain ⟨front, r', back, hds, he⟩ := Reader.mem_layout_iff.1 hr
  cases he
  refine ⟨dataBytes front, dataBytes back, ?_, ?_, h.inRange _ (by simp [hds])⟩
  · rw [h.file_eq, hds]
    simp [dataBytes]
  · rw [length_dataBytes]
    simp

theorem readRecordAt (h : Stores d ds) {off : Nat} {r : DataRecord}
    (hr : (off, r) ∈ recordsAt ds) : d.readRecordAt off = .ok r := by
  obtain ⟨pre, rest, hf, rfl, hin⟩ := h.split hr
  exact DataFile.readRecordAt_encode hin hf

/-- A read by LSN: nothing where the index has no such LSN, and else what a record with it says. -/
theorem readByLsn_cases (h : Stores d ds) (lsn : Nat) :
    (d.lsnIndex.find? lsn = none ∧ d.readByLsn lsn = .error (Status.notFound "lsn not in datafile index")) ∨
    ∃ r ∈ ds, r.lsn = lsn ∧ d.readByLsn lsn =
      if r.deleted then .error (Status.notFound "deleted at lsn") else .ok ⟨lsn, r.value⟩ := by
  unfold DataFile.readByLsn
  cases hf : d.lsnIndex.find? lsn with
  | none => exact .inl ⟨rfl, rfl⟩
  | some off =>
    obtain ⟨r, hr, hl⟩ := h.leads lsn off hf
    obtain ⟨r', hr', he⟩ := Reader.mem_layout hr
    refine .inr ⟨r, by rw [show r = r' from he]; exact hr', hl, ?_⟩
    simp only [h.readRecordAt hr, hl]

/-- **A value read by LSN is the value of a record with this LSN.** -/
theorem readByLsn_ok (h : Stores d ds) {lsn : Nat} {v : Version} (hv : d.readByLsn lsn = .ok v) :
    ∃ r ∈ ds, r.lsn = lsn ∧ r.deleted = false ∧ v = ⟨lsn, r.value⟩ := by
  rcases h.readByLsn_cases lsn with ⟨-, he⟩ | ⟨r, hr, hl, he⟩
  · rw [he] at hv
    cases hv
  · rw [he] at hv
    cases hd : r.deleted with
    | true =>
      rw [hd] at hv
      cases hv
    | false =>
      rw [hd] at hv
      cases hv
      exact ⟨r, hr, hl, hd, rfl⟩

/-- The batch read at an offset of the index. -/
theorem readBatchAt_ok (h : Stores d ds) {lsn off : Nat} (hf : d.lsnIndex.find? lsn = some off)
    {v : Version} (hv : d.readBatchAt off = .ok v) :
    ∃ r ∈ ds, r.lsn = lsn ∧ v = ⟨lsn, if r.deleted then [] else r.value⟩ := by
  obtain ⟨r, hr, hl⟩ := h.leads lsn off hf
  obtain ⟨r', hr', he⟩ := Reader.mem_layout hr
  obtain ⟨pre, rest, hfile, rfl, hin⟩ := h.split hr
  refine ⟨r, by rw [show r = r' from he]; exact hr', hl, ?_⟩
  have hraw := DataFile.readRawAt_encode pre rest hin
  have hhdr := (DataFile.readAt?_encode pre rest r).1
  rw [← hfile] at hraw hhdr
  simp only [DataFile.readBatchAt, hhdr, DataRecordHeader.verifyCrc_encode, Bool.not_true,
    Bool.false_eq_true, if_false, hraw] at hv
  cases hv
  rw [hl]

/-! ## Loading -/

theorem frames_of_read (h : Stores d ds) (R : Bytes → Reader DataRecord)
    (hread : ∀ pre rest r, DataRecord.InRange r →
      (R (pre ++ (r.encode ++ rest))).read pre.length = some (r, pre.length + r.size)) :
    (R d.file).scan d.file.length 0 = recordsAt ds := by
  have hf := Reader.frames_blocks id R DataRecord.encode DataRecord.length_encode
    hread [] [] h.inRange
  rw [List.nil_append, List.append_nil, List.length_nil, Nat.zero_add] at hf
  have hl := length_dataBytes ds
  rw [h.file_eq, dataBytes] at *
  rw [Reader.scan_frames hf (Nat.le_of_eq hl.symm), Reader.scan_of_ge (Nat.le_of_eq hl),
    List.append_nil]
  rfl

theorem map_recordsAt (ds : List DataRecord) : (recordsAt ds).map (·.2) = ds := by
  rw [recordsAt, Reader.layout_map_snd, List.map_id]

/-- **Loading the file finds its records.** -/
theorem loadRecords_eq (h : Stores d ds) : d.loadRecords = ds := by
  rw [DataFile.loadRecords, h.frames_of_read DataFile.loadReader, map_recordsAt]
  intro pre rest r hin
  simp only [DataFile.loadReader, DataFile.headerAccepted_encode, if_true,
    DataFile.readRawAt_encode pre rest hin]

theorem mem_rebuildRecords (h : Stores d ds) {r : DataRecord} :
    r ∈ VersionChainStore.rebuildRecords d ↔ r ∈ ds := by
  rw [VersionChainStore.rebuildRecords, List.mem_mergeSort, h.frames_of_read DataFile.rawReader,
    map_recordsAt]
  intro pre rest r hin
  exact DataFile.readRawAt_encode pre rest hin

end Stores

/-- The records of a data file are determined by its bytes. -/
theorem Stores.unique {d : DataFile} {ds ds' : List DataRecord} (hst : Stores d ds)
    (hst' : Stores d ds') : ds = ds' := by
  rw [← hst.loadRecords_eq, hst'.loadRecords_eq]

/-- What is loaded for a key is the value of a record of the key that is not a deletion. -/
theorem mem_foldl_loadStep {ds : List DataRecord} {m : SortedMap Key (Value × Nat)} {key : Key}
    {x : Value × Nat} (h : (ds.foldl DataFile.loadStep m).find? key = some x) :
    m.find? key = some x ∨ ∃ r ∈ ds, r = ⟨x.2, key, x.1, false⟩ := by
  induction ds generalizing m with
  | nil => exact .inl h
  | cons r ds ih =>
    rcases ih h with h | ⟨r', hr', he⟩
    · unfold DataFile.loadStep at h
      split at h
      · rw [SortedMap.find?_erase] at h
        split at h
        · cases h
        · exact .inl h
      · rename_i hd
        rw [SortedMap.find?_insert] at h
        split at h
        · rename_i hkey
          cases h
          refine .inr ⟨r, List.mem_cons_self, ?_⟩
          obtain ⟨lsn, key', value, deleted⟩ := r
          have hd : deleted = false := by simpa using hd
          simp_all
        · exact .inl h
    · exact .inr ⟨r', List.mem_cons_of_mem _ hr', he⟩

theorem Stores.load_find? {d : DataFile} {ds : List DataRecord} (h : Stores d ds) {key : Key}
    {x : Value × Nat} (hf : d.load.find? key = some x) : ⟨x.2, key, x.1, false⟩ ∈ ds := by
  rw [DataFile.load, h.loadRecords_eq] at hf
  rcases mem_foldl_loadStep hf with h | ⟨r, hr, rfl⟩
  · rw [SortedMap.find?_empty] at h
    cases h
  · exact hr

/-! ## The index -/

/-- **An index built from the file leads to its records.** -/
theorem leads_buildFromFile {ds : List DataRecord} (hin : ∀ r ∈ ds, r.InRange) :
    Leads (DataFile.buildFromFile (dataBytes ds)) ds := by
  have hf := Reader.frames_blocks DataRecord.lsn DataFile.indexReader DataRecord.encode
    DataRecord.length_encode (P := DataRecord.InRange) (fun pre rest r hr => by
      have hhdr := (DataFile.readAt?_encode pre rest r).1
      simp only [DataFile.indexReader, hhdr, Option.map_some, hr.decode_header, DataRecord.size,
        Nat.add_assoc]
      rfl) [] [] hin
  rw [List.nil_append, List.append_nil, List.length_nil, Nat.zero_add] at hf
  have hl := length_dataBytes ds
  have hscan : (DataFile.indexReader (dataBytes ds)).scan (dataBytes ds).length 0
      = Reader.layout DataRecord.size DataRecord.lsn 0 ds := by
    rw [dataBytes] at hl ⊢
    rw [Reader.scan_frames hf (Nat.le_of_eq hl.symm), Reader.scan_of_ge (Nat.le_of_eq hl),
      List.append_nil]
  -- an entry of the index comes from a frame
  have hfold : ∀ (xs : List (Nat × Nat)) (ix : SortedMap Nat Nat) lsn off,
      (xs.foldl (fun ix x => ix.insert x.2 x.1) ix).find? lsn = some off →
      ix.find? lsn = some off ∨ (off, lsn) ∈ xs := by
    intro xs
    induction xs with
    | nil => exact fun ix lsn off h => .inl h
    | cons x xs ih =>
      intro ix lsn off h
      rcases ih _ lsn off h with h | h
      · rw [SortedMap.find?_insert] at h
        split at h
        · rename_i hx
          cases h
          exact .inr (by rw [hx]; exact List.mem_cons_self)
        · exact .inl h
      · exact .inr (List.mem_cons_of_mem _ h)
  intro lsn off hfind
  rw [DataFile.buildFromFile, hscan] at hfind
  rcases hfold _ _ lsn off hfind with h | h
  · rw [SortedMap.find?_empty] at h
    cases h
  · obtain ⟨front, r, back, hds, he⟩ := Reader.mem_layout_iff.1 h
    cases he
    exact ⟨r, Reader.mem_layout_iff.2 ⟨front, r, back, hds, rfl⟩, rfl⟩

theorem Stores.buildLsnIndex {d : DataFile} {ds : List DataRecord} (hf : d.file = dataBytes ds)
    (hin : ∀ r ∈ ds, r.InRange) {sidecar : Option (SortedMap Nat Nat)}
    (hs : ∀ ix, sidecar = some ix → Leads ix ds) : Stores (d.buildLsnIndex sidecar) ds := by
  have hbuilt := leads_buildFromFile hin
  rw [← hf] at hbuilt
  unfold DataFile.buildLsnIndex
  split
  · rename_i ix
    split
    · exact ⟨hf, hin, hbuilt⟩
    · exact ⟨hf, hin, hs ix rfl⟩
  · exact ⟨hf, hin, hbuilt⟩

end EBTree.Engine
