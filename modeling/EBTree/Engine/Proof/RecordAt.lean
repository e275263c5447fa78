import EBTree.Engine.Read
import EBTree.Engine.Run
import EBTree.Wal.Proof.KeyIndex

/-!
# Reading one record of the log

`ReplayRecordAt` reads a header of the V1 layout, which is four bytes shorter than the one the
writer writes: the key and the value it reads start with the checksum.

* `replayRecordAt_layout`: what is read at the offset of a record.
* `restore_iff`: **when a key is restored as its latest write**.
-/

set_option autoImplicit false

namespace EBTree.Engine

open Lib Wal ShardEngine

/-! ## What is read -/

/-- The bytes behind a V1 header: the checksum, the key and the value. -/
def bodyOf (r : WalRecord) : Bytes := le 4 r.header.recordCrc.toNat ++ (r.key ++ r.value)

/-- The key and the value are the four bytes of the checksum over and over. -/
def Repeats (r : WalRecord) : Prop := r.key ++ r.value <+: bodyOf r

instance (r : WalRecord) : Decidable (Repeats r) := by unfold Repeats; infer_instance

theorem decode_checked {r : WalRecord} (h : r.InRange) :
    (WalRecordHeader.decode r.header.checked).lsn = r.lsn ∧
      (WalRecordHeader.decode r.header.checked).op = r.op.code ∧
      (WalRecordHeader.decode r.header.checked).keyLen = r.key.length ∧
      (WalRecordHeader.decode r.header.checked).valueLen = r.value.length := by
  have hdec := h.decode_header
  have hk := h.key_le
  have hv := h.value_le
  -- the four fields lie where they do in a V2 header
  have htake : ∀ n o, o + n ≤ 17 →
      (r.header.checked.drop o).take n = (r.header.encode.drop o).take n := by
    intro n o hn
    rw [WalRecordHeaderV2.encode, List.drop_append_of_le_length
      (by rw [WalRecordHeaderV2.length_checked]; omega), List.take_append_of_le_length
      (by rw [List.length_drop, WalRecordHeaderV2.length_checked]; omega)]
  have hhead : (r.header.checked.drop 8).headD 0 = (r.header.encode.drop 8).headD 0 := by
    have hone : ∀ l : Bytes, l.headD 0 = (l.take 1).headD 0 := by
      intro l
      cases l with
      | nil => rfl
      | cons b l => rfl
    rw [hone, htake 1 8 (by decide), ← hone]
  have hlsn := htake 8 0 (by decide)
  have hkey := htake 2 9 (by decide)
  have hval := htake 2 11 (by decide)
  rw [List.drop_zero, List.drop_zero] at hlsn
  have e1 : (WalRecordHeaderV2.decode r.header.encode).lsn = r.lsn := by rw [hdec]; rfl
  have e2 : (WalRecordHeaderV2.decode r.header.encode).op = r.op.code := by rw [hdec]; rfl
  have e3 : (WalRecordHeaderV2.decode r.header.encode).keyLen = r.key.length := by rw [hdec]; rfl
  have e4 : (WalRecordHeaderV2.decode r.header.encode).valueLen = r.value.length := by
    rw [hdec]; rfl
  refine ⟨?_, ?_, ?_, ?_⟩
  · rw [← e1, WalRecordHeader.decode, WalRecordHeaderV2.decode, hlsn]
  · rw [← e2, WalRecordHeader.decode, WalRecordHeaderV2.decode, hhead]
  · rw [← e3, WalRecordHeader.decode, WalRecordHeaderV2.decode, hkey]
  · rw [← e4, WalRecordHeader.decode, WalRecordHeaderV2.decode, hval]

/-- **What is read at the offset of a record**: its LSN and operation, and the front of its body
in place of its key and value. -/
theorem replayRecordAt_encode (pre rest : Bytes) {r : WalRecord} (h : r.InRange) :
    replayRecordAt (pre ++ (r.encode ++ rest)) pre.length =
      some ⟨r.lsn, r.op.code, (bodyOf r).take r.key.length,
        ((bodyOf r).drop r.key.length).take r.value.length⟩ := by
  have e : pre ++ (r.encode ++ rest) = pre ++ (r.header.checked ++ (bodyOf r ++ rest)) := by
    simp [WalRecord.encode, WalRecordHeaderV2.encode, bodyOf]
  have hlen : (bodyOf r).length = 4 + r.key.length + r.value.length := by
    simp [bodyOf]
    omega
  obtain ⟨h1, h2, h3, h4⟩ := decode_checked h
  generalize hf : pre ++ (r.encode ++ rest) = f at e ⊢
  have hhdr : readAt? f pre.length kHeaderSizeV1 = some r.header.checked :=
    readAt?_of_append pre (bodyOf r ++ rest) e rfl
      (by rw [WalRecordHeaderV2.length_checked]; rfl)
  have hfield : ∀ o n, o + n ≤ (bodyOf r).length →
      fieldAt f (pre.length + kHeaderSizeV1 + o) n = ((bodyOf r).drop o).take n := by
    intro o n hn
    have e' : f = (pre ++ r.header.checked) ++ (bodyOf r ++ rest) := by simp [e]
    have hl : pre.length + kHeaderSizeV1 + o = (pre ++ r.header.checked).length + o := by
      rw [List.length_append, WalRecordHeaderV2.length_checked]
      rfl
    rw [fieldAt, e', hl, List.drop_length_add_append, List.drop_append_of_le_length (by omega),
      List.take_append_of_le_length (by rw [List.length_drop]; omega)]
  have hpad : ∀ o n, o + n ≤ (bodyOf r).length →
      padTo n (((bodyOf r).drop o).take n) = ((bodyOf r).drop o).take n := by
    intro o n hn
    have hln : (((bodyOf r).drop o).take n).length = n := by
      rw [List.length_take, List.length_drop]
      omega
    rw [padTo_of_le (Nat.le_of_eq hln), hln, Nat.sub_self, List.replicate_zero, List.append_nil]
  have hkey := hfield 0 r.key.length (by omega)
  have hkpad := hpad 0 r.key.length (by omega)
  rw [List.drop_zero] at hkey hkpad
  rw [Nat.add_zero] at hkey
  rw [replayRecordAt, hhdr]
  simp only [Option.map_some, h1, h2, h3, h4, hkey, hfield r.key.length r.value.length (by omega),
    hkpad, hpad r.key.length r.value.length (by omega)]

/-- The record itself is read exactly if its key and value repeat the checksum. -/
theorem repeats_iff (r : WalRecord) :
    ((bodyOf r).take r.key.length = r.key ∧
      ((bodyOf r).drop r.key.length).take r.value.length = r.value) ↔ Repeats r := by
  have hsplit : (bodyOf r).take (r.key ++ r.value).length =
      (bodyOf r).take r.key.length ++ ((bodyOf r).drop r.key.length).take r.value.length := by
    rw [List.length_append, List.take_add]
  have hlen : ((bodyOf r).take r.key.length).length = r.key.length := by
    rw [List.length_take, bodyOf]
    simp
    omega
  rw [Repeats, List.prefix_iff_eq_take, hsplit]
  constructor
  · rintro ⟨h1, h2⟩
    rw [h1, h2]
  · intro h
    obtain ⟨h1, h2⟩ := List.append_inj h hlen.symm
    exact ⟨h1.symm, h2.symm⟩

section
variable {rs : List WalRecord} {o : Nat} {r : WalRecord}

/-- A record of a log, and the bytes around it. -/
theorem mem_layout_split (h : (o, r) ∈ layout 8 rs) :
    ∃ pre rest, logFile rs = pre ++ (r.encode ++ rest) ∧ o = pre.length ∧ r ∈ rs := by
  obtain ⟨front, b, back, rfl, hx⟩ := Reader.mem_layout_iff.1 h
  obtain ⟨rfl, rfl⟩ := Prod.mk.inj hx
  refine ⟨logFile front, encodeAll back, ?_, (length_logFile front).symm, by simp⟩
  rw [logFile_append, encodeAll_cons]

theorem mem_of_layout (h : (o, r) ∈ layout 8 rs) : r ∈ rs := by
  rw [← layout_map_snd 8 rs]
  exact List.mem_map_of_mem h

theorem replayRecordAt_layout (hfits : ∀ r ∈ rs, r.Fits) (h : (o, r) ∈ layout 8 rs) :
    replayRecordAt (logFile rs) o =
      some ⟨r.lsn, r.op.code, (bodyOf r).take r.key.length,
        ((bodyOf r).drop r.key.length).take r.value.length⟩ := by
  obtain ⟨pre, rest, hf, rfl, hr⟩ := mem_layout_split h
  rw [hf]
  exact replayRecordAt_encode pre rest (hfits r hr).toInRange

/-- The record that was written is read back. -/
theorem replayRecordAt_eq_raw_iff (hfits : ∀ r ∈ rs, r.Fits) (h : (o, r) ∈ layout 8 rs) :
    replayRecordAt (logFile rs) o = some r.raw ↔ Repeats r := by
  rw [replayRecordAt_layout hfits h, ← repeats_iff, WalRecord.raw]
  simp

end

/-! ## What is restored -/

/-- The memtable with a record of the log in it. -/
def restoredTable (mt : MemTable) (key : Key) (r : WalRecord) : MemTable :=
  if r.op = .kDelete then MemTable.deleteKey mt key r.lsn 0 true
  else MemTable.put mt key r.value r.lsn 0 true

/-- What is asked of the reads of single records: at the offset that the index holds for a key there
is a record of the key and it is read as it was written; and the key is restored as its latest write
behind the superblock, if there is one, which is of no open transaction. -/
structure ReadsBack (s : ShardEngine) (rs : List WalRecord) (key : Key) : Prop where
  replay : ∀ e, s.wal.keyIndex.find? key = some e → ∃ r, (e.offset, r) ∈ layout 8 rs ∧
    r.isData = true ∧ r.key = key ∧ replayRecordAt s.wal.file e.offset = some r.raw
  none : (dataFor rs s.sb.walLsn key).getLast? = none → s.restoreKeyFromWal key = none
  latest : ∀ r, (dataFor rs s.sb.walLsn key).getLast? = some r → Durable rs r ∧
    (s.restoreKeyFromWal key).map (·.memtable) = some (restoredTable s.memtable key r)

section
variable {rs : List WalRecord}

theorem eq_of_sorted (h : rs.Pairwise (·.lsn < ·.lsn)) {a b : WalRecord} (ha : a ∈ rs)
    (hb : b ∈ rs) (he : a.lsn = b.lsn) : a = b := by
  induction h with
  | nil => cases ha
  | @cons c rs hc _ ih =>
    rcases List.mem_cons.1 ha with rfl | ha'
    · rcases List.mem_cons.1 hb with rfl | hb'
      · rfl
      · exact absurd he (Nat.ne_of_lt (hc b hb'))
    · rcases List.mem_cons.1 hb with rfl | hb'
      · exact absurd he.symm (Nat.ne_of_lt (hc a ha'))
      · exact ih ha' hb'

/-- In a sorted log the last record of a key is the last behind an LSN, if it is behind it. -/
theorem getLast?_behind (h : rs.Pairwise (·.lsn < ·.lsn)) (lsn : Nat) :
    (rs.filter (lsn < ·.lsn)).getLast? = rs.getLast?.filter (lsn < ·.lsn) := by
  induction rs using List.reverseRecOn with
  | nil => rfl
  | append_singleton rs r _ =>
    rw [List.filter_append, List.getLast?_append, List.getLast?_append, List.getLast?_singleton,
      Option.some_or]
    by_cases hr : lsn < r.lsn
    · simp [hr, Option.filter]
    · have hall : rs.filter (lsn < ·.lsn) = [] := by
        refine List.filter_eq_nil_iff.2 fun x hx => ?_
        have := (List.pairwise_append.1 h).2.2 x hx r (List.mem_singleton_self r)
        simp only [decide_eq_true_eq]
        omega
      rw [hall]
      simp [hr, Option.filter]

/-- The latest write of a key behind an LSN, by the places of the records. -/
theorem dataFor_getLast? (h : rs.Pairwise (·.lsn < ·.lsn)) (lsn : Nat) (key : Key) :
    (dataFor rs lsn key).getLast? =
      ((dataOf (layout 8 rs) key).getLast?.map (·.2)).filter (lsn < ·.lsn) := by
  have hmap : (dataOf (layout 8 rs) key).map (·.2) =
      rs.filter fun r => r.isData && decide (r.key = key) := by
    rw [← layout_map_snd 8 rs, List.filter_map, layout_map_snd]
    rfl
  have hfor : dataFor rs lsn key =
      (rs.filter fun r => r.isData && decide (r.key = key)).filter (lsn < ·.lsn) := by
    rw [dataFor, List.filter_filter]
    refine List.filter_congr fun r _ => ?_
    cases r.isData <;> cases decide (lsn < r.lsn) <;> simp
  rw [hfor, getLast?_behind (h.filter _), ← hmap, List.getLast?_map]

theorem mem_dataOf {xs : List (Nat × WalRecord)} {key : Key} {x : Nat × WalRecord}
    (h : (dataOf xs key).getLast? = some x) : x ∈ xs ∧ x.2.isData = true ∧ x.2.key = key := by
  have hx := List.mem_of_getLast? h
  simpa [dataOf] using hx

/-- What restoring a key does, by the entry of the index. -/
theorem restoreKeyFromWal_entry {s : ShardEngine} {key : Key} {e : WalKeyIndexEntry}
    {r : RawRecord} (he : s.wal.keyIndex.find? key = some e) (hlt : s.sb.walLsn < e.lsn)
    (hr : replayRecordAt s.wal.file e.offset = some r) :
    (s.restoreKeyFromWal key).map (·.memtable) = some
      (if r.op = WalOp.kDelete.code then MemTable.deleteKey s.memtable key r.lsn 0 true
        else MemTable.put s.memtable key r.value r.lsn 0 true) := by
  have hlook : s.wal.keyIndex.lookup key s.sb.walLsn = some e.offset := by
    rw [WalKeyIndex.lookup, he]
    exact if_neg (Nat.not_le.2 hlt)
  rw [restoreKeyFromWal, walRecordOf, hlook, Option.bind_some, hr]
  rfl

theorem restoreKeyFromWal_none {s : ShardEngine} {key : Key}
    (h : ∀ e, s.wal.keyIndex.find? key = some e → e.lsn ≤ s.sb.walLsn) :
    s.restoreKeyFromWal key = none := by
  have hlook : s.wal.keyIndex.lookup key s.sb.walLsn = none := by
    rw [WalKeyIndex.lookup]
    cases he : s.wal.keyIndex.find? key with
    | none => rfl
    | some e => exact if_pos (h e he)
  rw [restoreKeyFromWal, walRecordOf, hlook]
  rfl

/-- The LSN that a key is restored with. -/
theorem restored_lsn (mt : MemTable) (key : Key) (r : RawRecord) :
    (MemTable.get (if r.op = WalOp.kDelete.code then MemTable.deleteKey mt key r.lsn 0 true
      else MemTable.put mt key r.value r.lsn 0 true) key).map (·.lsn) = some r.lsn := by
  split
  · simp [MemTable.get, MemTable.deleteKey]
  · simp [MemTable.get, MemTable.put]

theorem restoredTable_lsn (mt : MemTable) (key : Key) (r : WalRecord) :
    (MemTable.get (restoredTable mt key r) key).map (·.lsn) = some r.lsn := by
  unfold restoredTable
  split
  · simp [MemTable.get, MemTable.deleteKey]
  · simp [MemTable.get, MemTable.put]

theorem restoredTable_raw (mt : MemTable) (key : Key) (r : WalRecord) :
    (if r.raw.op = WalOp.kDelete.code then MemTable.deleteKey mt key r.raw.lsn 0 true
      else MemTable.put mt key r.raw.value r.raw.lsn 0 true) = restoredTable mt key r := by
  have hop : r.raw.op = WalOp.kDelete.code ↔ r.op = .kDelete := by
    change r.op.code = WalOp.kDelete.code ↔ r.op = .kDelete
    cases r.op <;> decide
  simp only [hop, restoredTable]
  rfl

end

/-- **Single records are read back**, and a key is restored as its latest write, exactly if the
record that the index leads to repeats its checksum, and the latest write behind the superblock is
not one that waits for a sync nor of a transaction that did not commit. -/
theorem restore_iff {s : ShardEngine} {rs : List WalRecord} (h : IndexRun s.wal rs) (key : Key) :
    ReadsBack s rs key ↔
      (∀ o r, (o, r) ∈ layout 8 rs → s.wal.keyIndex.find? key = some ⟨o, r.lsn⟩ → Repeats r) ∧
      (∀ r, (dataFor rs s.sb.walLsn key).getLast? = some r →
        (∀ p ∈ s.wal.pendingIndex, p.key ≠ key) ∧ Durable rs r) := by
  obtain ⟨synced, unsynced, hrs, hl, hi⟩ := h.indexed
  have hfile := hl.file_eq
  have hlay : layout 8 rs = layout 8 synced ++ layout (logFile synced).length unsynced := by
    rw [hrs, layout_append']
  -- what the index leads to is the last synced write of the key
  have hentry : ∀ e, s.wal.keyIndex.find? key = some e → ∃ r,
      (dataOf (layout 8 synced) key).getLast? = some (e.offset, r) ∧ r.lsn = e.lsn ∧
        (e.offset, r) ∈ layout 8 rs ∧ r ∈ synced ∧ r.isData = true ∧ r.key = key := by
    intro e he
    rw [hi.find, lastEntry, Option.map_eq_some_iff] at he
    obtain ⟨⟨o, r⟩, hx, rfl⟩ := he
    obtain ⟨hmem, hd, hk⟩ := mem_dataOf hx
    have hr : r ∈ synced := by
      rw [← layout_map_snd 8 synced]
      exact List.mem_map_of_mem hmem
    exact ⟨r, hx, rfl, by rw [hlay]; exact List.mem_append_left _ hmem, hr, hd, hk⟩
  have hpend : (∀ p ∈ s.wal.pendingIndex, p.key ≠ key) ↔
      dataOf (layout (logFile synced).length unsynced) key = [] := by
    rw [hi.pending, ← dataOf_filter_data, dataOf, List.filter_eq_nil_iff, List.forall_mem_map]
    refine forall₂_congr fun x hx => ?_
    simp [(List.mem_filter.1 hx).2]
  have hlatest := dataFor_getLast? hl.sorted s.sb.walLsn key
  rw [hlay, dataOf_append] at hlatest
  constructor
  · intro hb
    refine ⟨fun o r hr he => ?_, fun r hr => ?_⟩
    · obtain ⟨r', hr', -, -, hraw⟩ := hb.replay _ he
      rw [hfile] at hraw
      have hrep := (replayRecordAt_eq_raw_iff hl.fits hr').1 hraw
      have hlsn : r.lsn = r'.lsn := by
        rw [replayRecordAt_layout hl.fits hr] at hraw
        exact congrArg RawRecord.lsn (Option.some.inj hraw)
      rwa [eq_of_sorted hl.sorted (mem_of_layout hr) (mem_of_layout hr') hlsn]
    · obtain ⟨hdur, hrest⟩ := hb.latest r hr
      refine ⟨hpend.2 ?_, hdur⟩
      by_contra hne
      -- the latest write waits: what is restored is an older one
      obtain ⟨x, hx⟩ : ∃ x, (dataOf (layout (logFile synced).length unsynced) key).getLast? = some x :=
        ⟨_, List.getLast?_eq_some_getLast hne⟩
      rw [hlatest, List.getLast?_append, hx, Option.some_or] at hr
      obtain rfl : x.2 = r := by
        rw [Option.map_some, Option.filter_eq_some_iff] at hr
        exact Option.some.inj hr.1
      have hun : x.2 ∈ unsynced := by
        rw [← layout_map_snd (logFile synced).length unsynced]
        exact List.mem_map_of_mem (mem_dataOf hx).1
      cases he : s.wal.keyIndex.find? key with
      | none =>
        rw [restoreKeyFromWal_none (fun e h => by rw [he] at h; cases h)] at hrest
        cases hrest
      | some e =>
        obtain ⟨r0, -, hlsn0, hmem0, hsyn, -, -⟩ := hentry e he
        by_cases hlt : s.sb.walLsn < e.lsn
        · have hread := replayRecordAt_layout hl.fits hmem0
          rw [← hfile] at hread
          rw [restoreKeyFromWal_entry he hlt hread] at hrest
          have hlsns := congrArg (fun mt => (MemTable.get mt key).map (·.lsn))
            (Option.some.inj hrest)
          dsimp only at hlsns
          rw [restoredTable_lsn] at hlsns
          have hold := restored_lsn s.memtable key ⟨r0.lsn, r0.op.code,
            (bodyOf r0).take r0.key.length, ((bodyOf r0).drop r0.key.length).take r0.value.length⟩
          rw [hold] at hlsns
          have hlt' := (List.pairwise_append.1 (hrs ▸ hl.sorted)).2.2 r0 hsyn x.2 hun
          exact absurd (Option.some.inj hlsns) (Nat.ne_of_lt hlt')
        · rw [restoreKeyFromWal_none (fun e' h => by rw [he] at h; cases h; omega)] at hrest
          cases hrest
  · rintro ⟨hrep, hcond⟩
    have hread : ∀ e, s.wal.keyIndex.find? key = some e → ∃ r,
        (dataOf (layout 8 synced) key).getLast? = some (e.offset, r) ∧ r.lsn = e.lsn ∧
        (e.offset, r) ∈ layout 8 rs ∧ r.isData = true ∧ r.key = key ∧
        replayRecordAt s.wal.file e.offset = some r.raw := by
      intro e he
      obtain ⟨r, hx, hlsn, hmem, -, hd, hk⟩ := hentry e he
      have hr := hrep e.offset r hmem (by rw [he, hlsn])
      rw [hfile]
      exact ⟨r, hx, hlsn, hmem, hd, hk, (replayRecordAt_eq_raw_iff hl.fits hmem).2 hr⟩
    refine ⟨fun e he => ?_, fun hnone => ?_, fun r hr => ?_⟩
    · obtain ⟨r, -, -, hmem, hd, hk, hraw⟩ := hread e he
      exact ⟨r, hmem, hd, hk, hraw⟩
    · refine restoreKeyFromWal_none fun e he => ?_
      obtain ⟨r, hx, hlsn, hmem, -⟩ := hread e he
      by_contra hlt
      -- the entry's write is behind the superblock, and so is the last one
      have hfor : r ∈ dataFor rs s.sb.walLsn key := by
        obtain ⟨-, hd, hk⟩ := mem_dataOf hx
        have hr := mem_of_layout hmem
        rw [dataFor, List.mem_filter]
        refine ⟨hr, ?_⟩
        simp only at hd hk
        simp [hd, hk]
        omega
      rw [List.getLast?_eq_none_iff.1 hnone] at hfor
      cases hfor
    · obtain ⟨hp, hdur⟩ := hcond r hr
      refine ⟨hdur, ?_⟩
      rw [hlatest, hpend.1 hp, List.append_nil] at hr
      obtain ⟨hlast, hlt⟩ := Option.filter_eq_some_iff.1 hr
      obtain ⟨⟨o, r'⟩, hx, rfl⟩ := Option.map_eq_some_iff.1 hlast
      have he : s.wal.keyIndex.find? key = some ⟨o, r'.lsn⟩ := by
        rw [hi.find, lastEntry, hx]
        rfl
      obtain ⟨r0, hx0, -, -, -, -, hraw⟩ := hread _ he
      rw [hx] at hx0
      cases hx0
      rw [restoreKeyFromWal_entry he (by simpa using hlt) hraw, restoredTable_raw]

/-! ## A put that was synced -/

/-- A log with one put in it, which was synced. -/
def syncedPut (key : Key) (value : Value) : WalWriter :=
  ((WalWriter.Call.append ⟨.kPut, key, value, 0⟩).run (WalWriter.open [])).1.fsync

def syncedEngine (key : Key) (value : Value) : ShardEngine :=
  { ShardEngine.open .sync ShardFiles.none with wal := syncedPut key value }

/-- A put of the empty key with the empty value repeats its checksum. -/
theorem restore_iff_empty : ReadsBack (syncedEngine [] []) [⟨1, .kPut, [], [], 0⟩] [] := by
  have hrun : IndexRun (syncedEngine [] []).wal [⟨1, .kPut, [], [], 0⟩] :=
    (IndexRun.fresh.call (.append ⟨.kPut, [], [], 0⟩) (by decide)).call .fsync (by decide)
  refine (restore_iff hrun []).2 ⟨fun o r hr _ => ?_, fun r hr => ⟨by decide, ?_⟩⟩
  · rw [List.mem_singleton.1 (mem_of_layout hr)]
    decide
  · rw [List.mem_singleton.1 (List.mem_filter.1 (List.mem_of_getLast? hr)).1]
    exact .inl rfl

/-- The key of a put is read as the front of its checksum. -/
theorem put_not_read_back :
    ¬ ReadsBack (syncedEngine [107] [118]) [⟨1, .kPut, [107], [118], 0⟩] [107] := by
  intro h
  obtain ⟨r, -, -, hk, hraw⟩ := h.replay ⟨8, 1⟩ (by decide)
  have hkey := congrArg (Option.map RawRecord.key) hraw
  rw [Option.map_some, show r.raw.key = [107] from hk] at hkey
  revert hkey
  decide +kernel

end EBTree.Engine
