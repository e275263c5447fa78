import EBTree.Engine.Proof.Data
import EBTree.Engine.Shard
import EBTree.Wal.Proof.Log

/-!
# Folding the log

What `FoldWalToVcs` reads of a log in use, and what it makes of the version chains.

* `foldRecords_eq`: the data records behind an LSN that are committed behind it too.
* `foldInto_induction`: what an accepted version keeps, the fold keeps.
-/

set_option autoImplicit false

namespace EBTree.Engine

open Lib Wal BTree ShardEngine

namespace ShardEngine

/-- A record as the fold reads it. -/
def foldRecord (r : WalRecord) : FoldRecord := ⟨r.lsn, r.op.code, r.key, r.txnId⟩

theorem foldReaderV2_read (pre rest : Bytes) {r : WalRecord} (h : r.InRange) :
    (foldReaderV2 (pre ++ (r.encode ++ rest))).read pre.length
      = some (foldRecord r, pre.length + r.size) := by
  obtain ⟨hh, hk, -⟩ := Wal.readAt?_encode pre rest r
  have hkey := DataFile.padTo_fieldAt hk
  simp only [foldReaderV2, hh, Option.map_some, h.decode_header]
  rw [show r.header.keyLen = r.key.length from rfl] at hkey ⊢
  rw [hkey]
  simp only [foldRecord, WalRecord.size, WalRecord.header, WalRecord.bareHeader, Nat.add_assoc]

theorem foldReaderV2_logFile {rs : List WalRecord} (h : ∀ r ∈ rs, r.InRange) :
    ((foldReaderV2 (logFile rs)).scan (logFile rs).length 8).map (·.2) = rs.map foldRecord := by
  have hf := Reader.frames_blocks _ foldReaderV2 WalRecord.encode WalRecord.length_encode
    (fun pre rest _ hr => foldReaderV2_read pre rest hr) magicBytes [] h
  rw [length_magicBytes, List.append_nil, ← length_logFile] at hf
  rw [logFile, encodeAll] at *
  rw [Reader.scan_frames hf (Nat.le_refl _), Reader.scan_of_ge (Nat.le_refl _), List.append_nil,
    Reader.layout_map_snd]

theorem foldReaderV1_magic : (foldReaderV1 (logFile [])).scan (logFile []).length 0 = [] := by
  have hl : (logFile []).length = 8 := by simp [logFile]
  have hr : (foldReaderV1 (logFile [])).read 0 = none := by
    have : readAt? (logFile []) 0 kHeaderSizeV1 = none :=
      readAt?_eq_none_iff.2 (by rw [hl]; decide)
    simp [foldReaderV1, this]
  rw [Reader.scan_skip hr]
  exact Reader.scan_of_ge (le_streamEnd (logFile []) 0)

theorem code_eq_iff (a b : WalOp) : a.code = b.code ↔ a = b := by
  cases a <;> cases b <;> decide

theorem foldRecord_isData (r : WalRecord) : (foldRecord r).isData = r.isData := by
  obtain ⟨_, op, _, _, _⟩ := r
  cases op <;> rfl

/-- The transactions a list of records commits. -/
def committedIn (rs : List WalRecord) : List UInt32 :=
  (rs.filter (·.op = .kTxnCommit)).map (·.txnId)

/-- The data records among them that are of no transaction or of one they commit. -/
def foldable (rs : List WalRecord) : List WalRecord :=
  (rs.filter (·.isData)).filter fun r => r.txnId = 0 ∨ r.txnId ∈ committedIn rs

theorem filter_map_foldRecord {p : FoldRecord → Bool} {q : WalRecord → Bool}
    (h : ∀ r, p (foldRecord r) = q r) (rs : List WalRecord) :
    (rs.map foldRecord).filter p = (rs.filter q).map foldRecord := by
  rw [List.filter_map]
  congr 1
  exact List.filter_congr fun r _ => h r

theorem map_txnId_foldRecord (rs : List WalRecord) :
    (rs.map foldRecord).map (·.txnId) = rs.map (·.txnId) := by
  rw [List.map_map]
  rfl

/-- **What the fold offers to the chains.** -/
theorem foldRecords_eq {w : WalWriter} {rs : List WalRecord} (hl : Logs w rs) (afterLsn : Nat) :
    foldRecords w afterLsn = (foldable (rs.filter (afterLsn < ·.lsn))).map foldRecord := by
  have hd : detectFormatV2OnDisk (logFile rs) = true := detectFormatV2OnDisk_magic _
  unfold foldRecords
  rw [hl.file_eq]
  split
  · simp only [hd, walDataOffsetOnDisk_logFile hl.fits,
      foldReaderV2_logFile fun r hr => (hl.fits r hr).toInRange]
    rw [filter_map_foldRecord (q := fun r => afterLsn < r.lsn) fun _ => rfl]
    generalize rs.filter (afterLsn < ·.lsn) = late
    rw [filter_map_foldRecord (q := fun r => r.op = .kTxnCommit) fun r => by
        simp only [foldRecord, code_eq_iff],
      map_txnId_foldRecord, filter_map_foldRecord (q := WalRecord.isData) foldRecord_isData]
    exact filter_map_foldRecord (fun _ => rfl) _
  · rename_i hv
    obtain rfl := hl.v2.resolve_left hv
    simp only [foldReaderV1_magic]
    rfl

theorem mem_foldable {rs : List WalRecord} {r : WalRecord} :
    r ∈ foldable rs ↔ r ∈ rs ∧ r.isData = true ∧
      (r.txnId = 0 ∨ ∃ c ∈ rs, c.op = .kTxnCommit ∧ c.txnId = r.txnId) := by
  simp only [foldable, committedIn, List.mem_filter, List.mem_map, decide_eq_true_eq, and_assoc]

/-- **What every accepted version keeps, the fold keeps.** -/
theorem foldInto_induction {P : VersionChainStore → Prop} {rs : List FoldRecord}
    (hstep : ∀ v v' r prevLsn st, r ∈ rs → P v → v.append r.key r.lsn prevLsn = (v', st) → P v')
    {v : VersionChainStore} (hp : P v) : P (foldInto v rs).1 := by
  induction rs generalizing v with
  | nil => exact hp
  | cons r rs ih =>
    have ih := @ih fun v v' r' prev st hm => hstep v v' r' prev st (List.mem_cons_of_mem _ hm)
    rw [foldInto]
    split
    · exact ih hp
    split
    · exact ih hp
    cases ha : v.append r.key r.lsn (v.head r.key) with
    | mk v' st =>
      have hp' := hstep v v' r _ st List.mem_cons_self hp ha
      cases st with
      | error e => exact hp'
      | ok u => exact ih hp'

theorem foldWalToVcs_eq (s : ShardEngine) :
    ∃ vcs, s.foldWalToVcs.1 = { s with vcs := vcs } ∧
      (vcs = s.vcs ∨ vcs = (foldInto s.vcs (foldRecords s.wal s.sb.walLsn)).1) := by
  unfold foldWalToVcs
  split
  · exact ⟨s.vcs, rfl, .inl rfl⟩
  · exact ⟨_, rfl, .inr rfl⟩

end ShardEngine
end EBTree.Engine
