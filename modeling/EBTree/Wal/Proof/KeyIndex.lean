import EBTree.Wal.Proof.Agreement

/-!
# What the key index holds

The index of a writer leads, for every key, to the last put or delete of the key among the records
that were synced; the entries that wait for a sync are those of the other records.

* `find?_foldl_update`: what indexing a list of records does to a lookup.
* `Indexed.append`, `Indexed.fsync`, `Indexed.reopen`: one lemma for each call.
* `IndexRun.indexed`: the index over a run of calls and reopenings.
-/

set_option autoImplicit false

namespace EBTree.Wal

open Lib Reader WalWriter

/-- A run of a writer on a fresh path, and the records it acknowledged: any calls, and the end of
the process followed by a reopening. -/
inductive IndexRun : WalWriter → List WalRecord → Prop
  | fresh : IndexRun («open» []) []
  | call {w : WalWriter} {rs : List WalRecord} (c : Call) : IndexRun w rs →
      w.maxLsn + 1 < kWalMagicV2 → IndexRun (c.run w).1 (rs ++ (c.run w).2.toList)
  | reopen {w : WalWriter} {rs : List WalRecord} : IndexRun w rs → IndexRun («open» w.file) rs

/-! ## Entries -/

/-- The puts and deletes of a key, with their offsets. -/
def dataOf (xs : List (Nat × WalRecord)) (key : Key) : List (Nat × WalRecord) :=
  xs.filter fun x => x.2.isData && decide (x.2.key = key)

/-- The last of them, as an entry of the index. -/
def lastEntry (xs : List (Nat × WalRecord)) (key : Key) : Option WalKeyIndexEntry :=
  (dataOf xs key).getLast?.map fun x => ⟨x.1, x.2.lsn⟩

theorem dataOf_append (xs ys : List (Nat × WalRecord)) (key : Key) :
    dataOf (xs ++ ys) key = dataOf xs key ++ dataOf ys key := List.filter_append ..

theorem lastEntry_append (xs ys : List (Nat × WalRecord)) (key : Key) :
    lastEntry (xs ++ ys) key = (lastEntry ys key).or (lastEntry xs key) := by
  rw [lastEntry, dataOf_append, List.getLast?_append, lastEntry, lastEntry]
  cases (dataOf ys key).getLast? <;> rfl

theorem dataOf_filter_data (xs : List (Nat × WalRecord)) (key : Key) :
    dataOf (xs.filter (·.2.isData)) key = dataOf xs key := by
  rw [dataOf, dataOf, List.filter_filter]
  refine List.filter_congr fun x _ => ?_
  cases x.2.isData <;> simp

/-- **Indexing records** one by one: a lookup finds the last of the key. -/
theorem find?_foldl_update (xs : List (Nat × WalRecord)) (hd : ∀ x ∈ xs, x.2.isData = true)
    (ix : WalKeyIndex) (key : Key) :
    (xs.foldl (fun ix x => ix.update x.1 x.2.key x.2.lsn) ix).find? key =
      (lastEntry xs key).or (ix.find? key) := by
  induction xs generalizing ix with
  | nil => rfl
  | cons x xs ih =>
    have hx := hd x List.mem_cons_self
    rw [List.foldl_cons, ih (fun y hy => hd y (List.mem_cons_of_mem _ hy)),
      show x :: xs = [x] ++ xs from rfl, lastEntry_append, Option.or_assoc]
    congr 1
    rw [WalKeyIndex.update, SortedMap.find?_insert, lastEntry, dataOf]
    by_cases hk : key = x.2.key
    · simp [hx, hk]
    · simp [hx, hk, Ne.symm hk]

/-! ## The invariant -/

/-- What the index and its waiting entries are, by the records synced and the others. -/
structure Indexed (w : WalWriter) (synced unsynced : List WalRecord) : Prop where
  find : ∀ key, w.keyIndex.find? key = lastEntry (layout 8 synced) key
  pending : w.pendingIndex = ((layout (logFile synced).length unsynced).filter (·.2.isData)).map
    fun x => ⟨x.1, x.2.key, x.2.lsn⟩

theorem layout_append' (rs rs' : List WalRecord) :
    layout 8 (rs ++ rs') = layout 8 rs ++ layout (logFile rs).length rs' := by
  rw [layout, Reader.layout_append, length_logFile]
  rfl

theorem layout_snoc (o : Nat) (rs : List WalRecord) (r : WalRecord) :
    layout o (rs ++ [r]) = layout o rs ++ [(o + (rs.map WalRecord.size).sum, r)] := by
  rw [layout, Reader.layout_append]
  rfl

theorem isData_iff (r : WalRecord) : r.isData = true ↔ r.op = .kPut ∨ r.op = .kDelete := by
  simp [WalRecord.isData]

/-- The magic is written without a look at the index. -/
theorem ensureWalMagicLocked_index (w : WalWriter) :
    w.ensureWalMagicLocked.keyIndex = w.keyIndex ∧
      w.ensureWalMagicLocked.pendingIndex = w.pendingIndex := by
  unfold ensureWalMagicLocked
  split
  · exact ⟨rfl, rfl⟩
  · exact ⟨rfl, rfl⟩

section
variable {w : WalWriter} {synced unsynced : List WalRecord}

theorem Indexed.fsync (h : Indexed w synced unsynced) :
    Indexed w.fsync (synced ++ unsynced) [] := by
  refine ⟨fun key => ?_, rfl⟩
  have hfold := find?_foldl_update ((layout (logFile synced).length unsynced).filter (·.2.isData))
    (fun x hx => (List.mem_filter.1 hx).2) w.keyIndex key
  rw [layout_append', lastEntry_append, ← h.find]
  rw [lastEntry, dataOf_filter_data] at hfold
  rw [WalWriter.fsync, h.pending, List.foldl_map]
  exact hfold

/-- **One append**: an entry of a put or a delete waits. -/
theorem Indexed.append (h : Indexed w synced unsynced) (hl : Logs w (synced ++ unsynced))
    {it : Item} (hb : it.InBounds) (hn : w.maxLsn + 1 < kWalMagicV2) :
    Indexed (w.append it).1 synced (unsynced ++ [it.record (w.maxLsn + 1)]) := by
  have h64 : kWalMagicV2 < 2 ^ 64 := by decide
  have hnext : nextLsn w.maxLsn = w.maxLsn + 1 := Nat.mod_eq_of_lt (by omega)
  have hkeep := ensureWalMagicLocked_index w
  have hoff := hl.shows.offset_eq
  have happ : (w.append it).1 = { w.ensureWalMagicLocked with
      maxLsn := w.maxLsn + 1 }.appendRecordV2 (it.record (w.maxLsn + 1)) := by
    simp only [WalWriter.append, hl.shows.sync, appendItem, hb, if_true,
      ensureWalMagicLocked_maxLsn, hnext]
  rw [happ]
  refine ⟨fun key => ?_, ?_⟩
  · rw [← h.find]
    exact congrArg (SortedMap.find? · key) hkeep.1
  · rw [layout_snoc, List.filter_append, List.map_append, ← h.pending]
    have hend : (logFile synced).length + (unsynced.map WalRecord.size).sum =
        w.ensureWalMagicLocked.fileOffset := by
      rw [hoff, length_logFile, length_logFile, List.map_append, List.sum_append, Nat.add_assoc]
    rw [hend]
    simp only [appendRecordV2, hkeep.2]
    by_cases hd : (it.record (w.maxLsn + 1)).op = .kPut ∨ (it.record (w.maxLsn + 1)).op = .kDelete
    · rw [if_pos hd]
      have hdata := (isData_iff _).2 hd
      simp [hdata]
    · rw [if_neg hd]
      have hdata : (it.record (w.maxLsn + 1)).isData = false := by
        rw [← Bool.not_eq_true, isData_iff]
        exact hd
      simp [hdata]

/-- A record that is refused changes neither the index nor the entries that wait. -/
theorem Indexed.append_tooLarge (h : Indexed w synced unsynced) (hl : Logs w (synced ++ unsynced))
    {it : Item} (hb : ¬ it.InBounds) : Indexed (w.append it).1 synced unsynced := by
  have hkeep := ensureWalMagicLocked_index w
  have happ : (w.append it).1 = { w.ensureWalMagicLocked with maxLsn := nextLsn w.maxLsn } := by
    simp only [WalWriter.append, hl.shows.sync, appendItem, hb, if_false,
      ensureWalMagicLocked_maxLsn]
  rw [happ]
  exact ⟨fun key => (congrArg (SortedMap.find? · key) hkeep.1).trans (h.find key),
    hkeep.2.trans h.pending⟩

/-- The index of a writer that opened a file of records. -/
theorem open_keyIndex {rs : List WalRecord} (h : ∀ r ∈ rs, r.Fits) :
    («open» (logFile rs)).keyIndex =
      indexFrames .empty ((rawLayout 8 rs).filter (·.2.isData)) := by
  have hframes := (Settled.of_logFile h).rebuildFrames_eq
  have hlen : 0 < (logFile rs).length := by
    rw [length_logFile]
    omega
  by_cases hv : (8 < (logFile rs).length && detectFormatV2OnDisk (logFile rs)) = true
  · rw [rebuildFrames, if_pos hv] at hframes
    simp only [«open», rebuildKeyIndex, hlen, hv, if_true, hframes]
  · have hrs : rs = [] := by
      cases rs with
      | nil => rfl
      | cons r rs =>
        have hsize := r.size_pos
        have hd := detectFormatV2OnDisk_logFile (r :: rs) []
        rw [List.append_nil] at hd
        refine absurd ?_ hv
        rw [hd, length_logFile]
        simp
        omega
    rw [rebuildFrames, if_neg hv] at hframes
    simp only [«open», rebuildKeyIndex, hlen, hv, if_true, if_false, Bool.false_eq_true, hframes]
    rw [hrs]
    rfl

/-- Indexing the data records among some that were read. -/
theorem find?_indexFrames (o : Nat) (rs : List WalRecord) (ix : WalKeyIndex) (key : Key) :
    (indexFrames ix (((layout o rs).map fun x => (x.1, x.2.raw)).filter (·.2.isData))).find? key =
      (lastEntry (layout o rs) key).or (ix.find? key) := by
  have hraw : ∀ x : Nat × WalRecord, x.2.raw.isData = x.2.isData := by
    intro x
    cases hx : x.2.op <;> simp [WalRecord.raw, RawRecord.isData, WalRecord.isData, hx] <;> rfl
  have hcongr : (fun x : Nat × RawRecord => x.2.isData) ∘
      (fun x : Nat × WalRecord => (x.1, x.2.raw)) = fun x => x.2.isData := funext hraw
  have hfold := find?_foldl_update ((layout o rs).filter (·.2.isData))
    (fun x hx => (List.mem_filter.1 hx).2) ix key
  rw [lastEntry, dataOf_filter_data] at hfold
  rw [List.filter_map, hcongr, indexFrames, List.foldl_map]
  exact hfold

theorem Indexed.reopen {rs : List WalRecord} (h : ∀ r ∈ rs, r.Fits) :
    Indexed («open» (logFile rs)) rs [] := by
  have hlen : 0 < (logFile rs).length := by
    rw [length_logFile]
    omega
  refine ⟨fun key => ?_, ?_⟩
  · rw [open_keyIndex h, layout_raw, find?_indexFrames, SortedMap.find?_empty, Option.or_none]
  · simp only [«open», rebuildKeyIndex, hlen, if_true]
    rfl

end

/-- **The index over a run**: the records it acknowledged are in the file, and those that were
synced are what the index is of. -/
theorem IndexRun.indexed {w : WalWriter} {rs : List WalRecord} (h : IndexRun w rs) :
    ∃ synced unsynced, rs = synced ++ unsynced ∧ Logs w rs ∧ Indexed w synced unsynced := by
  induction h with
  | fresh => exact ⟨[], [], rfl, Logs.fresh, fun _ => rfl, rfl⟩
  | @call w rs c _ hn ih =>
    obtain ⟨synced, unsynced, rfl, hl, hi⟩ := ih
    cases hc : c.item? with
    | none =>
      have hrun : c.run w = (w.fsync, none) := by rw [Call.run, hc]
      rw [hrun]
      exact ⟨synced ++ unsynced, [], by simp, by simpa using hl.fsync, hi.fsync⟩
    | some it =>
      by_cases hb : it.InBounds
      · obtain ⟨w', ha, -, hl'⟩ := hl.append hb hn
        have hrun : c.run w = (w', some (it.record (w.maxLsn + 1))) := by simp only [Call.run, hc, ha]
        have hi' := hi.append hl hb hn
        rw [ha] at hi'
        rw [hrun]
        exact ⟨synced, unsynced ++ [it.record (w.maxLsn + 1)], by simp, by simpa using hl', hi'⟩
      · obtain ⟨w', e, ha, -, hl'⟩ := hl.append_tooLarge hb hn
        have hrun : c.run w = (w', none) := by simp only [Call.run, hc, ha]
        have hi' := hi.append_tooLarge hl hb
        rw [ha] at hi'
        rw [hrun]
        exact ⟨synced, unsynced, by simp, by simpa using hl', hi'⟩
  | @reopen w rs _ ih =>
    obtain ⟨synced, unsynced, -, hl, -⟩ := ih
    refine ⟨rs, [], by simp, hl.reopen.1, ?_⟩
    rw [hl.file_eq]
    exact Indexed.reopen hl.fits

end EBTree.Wal
