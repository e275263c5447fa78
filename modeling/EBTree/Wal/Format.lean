import EBTree.Common

/-!
# The write-ahead log's record layouts

The two packed headers of `wal.h` and the record a V2 header with its key and value stands for.
A V2 record is `lsn (8) · op (1) · key_len (2) · value_len (2) · txn_id (4) · record_crc (4) ·
key · value`; its checksum covers the first 17 bytes only. A V1 header has no `txn_id`.
-/

set_option autoImplicit false

namespace EBTree.Wal

abbrev Key := Bytes
abbrev Value := Bytes

def kWalMagicV2 : Nat := 0xEB57414C32303031
def kWalSectorSize : Nat := 4096

/-- The eight bytes a V2 log starts with. -/
def magicBytes : Bytes := le 8 kWalMagicV2

@[simp] theorem length_magicBytes : magicBytes.length = 8 := length_le _ _

theorem leNat_magicBytes : leNat magicBytes = kWalMagicV2 := by
  rw [magicBytes, leNat_le]; rfl

inductive WalOp
  | kPut | kDelete | kTxnBegin | kTxnCommit | kTxnAbort
  deriving DecidableEq, Repr

namespace WalOp

def code : WalOp → UInt8
  | kPut => 1
  | kDelete => 2
  | kTxnBegin => 3
  | kTxnCommit => 4
  | kTxnAbort => 5

/-- The operation a header byte names; a byte that names none is no record. -/
def ofCode : UInt8 → Option WalOp
  | 1 => some kPut
  | 2 => some kDelete
  | 3 => some kTxnBegin
  | 4 => some kTxnCommit
  | 5 => some kTxnAbort
  | _ => none

@[simp] theorem ofCode_code (op : WalOp) : ofCode op.code = some op := by cases op <;> rfl

theorem code_toNat_le (op : WalOp) : op.code.toNat ≤ 5 := by cases op <;> decide

theorem code_of_ofCode {b : UInt8} {op : WalOp} (h : ofCode b = some op) : b = op.code := by
  unfold ofCode at h
  split at h <;> cases h <;> rfl

end WalOp

/-! ## Headers -/

structure WalRecordHeader where
  lsn : Nat
  op : UInt8
  keyLen : Nat
  valueLen : Nat
  recordCrc : UInt32
  deriving DecidableEq, Repr

structure WalRecordHeaderV2 where
  lsn : Nat
  op : UInt8
  keyLen : Nat
  valueLen : Nat
  txnId : UInt32
  recordCrc : UInt32
  deriving DecidableEq, Repr

/-- `sizeof(WalRecordHeader)`. -/
def kHeaderSizeV1 : Nat := 17

/-- `sizeof(WalRecordHeaderV2)`. -/
def kHeaderSizeV2 : Nat := 21

namespace WalRecordHeader

def decode (bs : Bytes) : WalRecordHeader where
  lsn := leNat (bs.take 8)
  op := (bs.drop 8).headD 0
  keyLen := leNat ((bs.drop 9).take 2)
  valueLen := leNat ((bs.drop 11).take 2)
  recordCrc := UInt32.ofNat (leNat ((bs.drop 13).take 4))

end WalRecordHeader

namespace WalRecordHeaderV2

/-- The bytes the checksum covers: `sizeof(hdr) - sizeof(hdr.record_crc)` of them. -/
def checked (h : WalRecordHeaderV2) : Bytes :=
  le 8 h.lsn ++ ([h.op] ++ (le 2 h.keyLen ++ (le 2 h.valueLen ++ le 4 h.txnId.toNat)))

def encode (h : WalRecordHeaderV2) : Bytes := h.checked ++ le 4 h.recordCrc.toNat

def decode (bs : Bytes) : WalRecordHeaderV2 where
  lsn := leNat (bs.take 8)
  op := (bs.drop 8).headD 0
  keyLen := leNat ((bs.drop 9).take 2)
  valueLen := leNat ((bs.drop 11).take 2)
  txnId := UInt32.ofNat (leNat ((bs.drop 13).take 4))
  recordCrc := UInt32.ofNat (leNat ((bs.drop 17).take 4))

@[simp] theorem length_checked (h : WalRecordHeaderV2) : h.checked.length = 17 := by
  simp [checked]

@[simp] theorem length_encode (h : WalRecordHeaderV2) : h.encode.length = kHeaderSizeV2 := by
  simp [encode, kHeaderSizeV2]

theorem decode_encode {h : WalRecordHeaderV2} (hl : h.lsn < 2 ^ 64) (hk : h.keyLen < 2 ^ 16)
    (hv : h.valueLen < 2 ^ 16) : decode h.encode = h := by
  have ht := h.txnId.toNat_lt
  have hc := h.recordCrc.toNat_lt
  have e : h.encode = le 8 h.lsn ++ ([h.op] ++ (le 2 h.keyLen ++ (le 2 h.valueLen ++
      (le 4 h.txnId.toNat ++ le 4 h.recordCrc.toNat)))) := by simp [encode, checked]
  -- every field starts where the ones before it end
  have d8 : h.encode.drop 8 = [h.op] ++ (le 2 h.keyLen ++ (le 2 h.valueLen ++
      (le 4 h.txnId.toNat ++ le 4 h.recordCrc.toNat))) := by
    rw [e]; exact List.drop_left' (length_le _ _)
  have d9 : h.encode.drop 9 = le 2 h.keyLen ++ (le 2 h.valueLen ++
      (le 4 h.txnId.toNat ++ le 4 h.recordCrc.toNat)) := by
    rw [show 9 = 8 + 1 by rfl, ← List.drop_drop, d8]; rfl
  have d11 : h.encode.drop 11 = le 2 h.valueLen ++
      (le 4 h.txnId.toNat ++ le 4 h.recordCrc.toNat) := by
    rw [show 11 = 9 + 2 by rfl, ← List.drop_drop, d9]; exact List.drop_left' (length_le _ _)
  have d13 : h.encode.drop 13 = le 4 h.txnId.toNat ++ le 4 h.recordCrc.toNat := by
    rw [show 13 = 11 + 2 by rfl, ← List.drop_drop, d11]; exact List.drop_left' (length_le _ _)
  have d17 : h.encode.drop 17 = le 4 h.recordCrc.toNat := by
    rw [show 17 = 13 + 4 by rfl, ← List.drop_drop, d13]; exact List.drop_left' (length_le _ _)
  have t8 : h.encode.take 8 = le 8 h.lsn := by rw [e]; exact List.take_left' (length_le _ _)
  unfold decode
  rw [d8, d9, d11, d13, d17, t8, List.take_left' (length_le _ _), List.take_left' (length_le _ _),
    List.take_left' (length_le _ _), List.take_of_length_le (by simp)]
  simp only [leNat_le, List.cons_append, List.nil_append, List.headD_cons,
    Nat.mod_eq_of_lt (show h.lsn < 256 ^ 8 from hl),
    Nat.mod_eq_of_lt (show h.keyLen < 256 ^ 2 from hk),
    Nat.mod_eq_of_lt (show h.valueLen < 256 ^ 2 from hv),
    Nat.mod_eq_of_lt (show h.txnId.toNat < 256 ^ 4 from ht),
    Nat.mod_eq_of_lt (show h.recordCrc.toNat < 256 ^ 4 from hc), UInt32.ofNat_toNat]

theorem decode_keyLen_lt (bs : Bytes) : (decode bs).keyLen < 2 ^ 16 := by
  have h := leNat_lt ((bs.drop 9).take 2)
  have hl : ((bs.drop 9).take 2).length ≤ 2 := List.length_take_le _ _
  exact Nat.lt_of_lt_of_le h (Nat.pow_le_pow_right (by decide) hl)

/-- The checksum `AppendRecordV2` stores and `VerifyWalRecordV2Crc` expects. -/
def crc (h : WalRecordHeaderV2) : UInt32 := crc32 h.checked

/-- `VerifyWalRecordV2Crc`. -/
def verifyCrc (h : WalRecordHeaderV2) : Bool := h.recordCrc == h.crc

/-- `WalHeaderV2IsPadding`. -/
def isPadding (h : WalRecordHeaderV2) : Bool :=
  h.lsn == 0 && h.op == WalOp.kPut.code && h.keyLen == 0 && h.valueLen == 0

end WalRecordHeaderV2

/-! ## Records -/

/-- A record of the log: what `on_record` is called with. -/
structure WalRecord where
  lsn : Nat
  op : WalOp
  key : Key
  value : Value
  txnId : UInt32
  deriving DecidableEq, Repr

namespace WalRecord

/-- The header `Append` builds, before its checksum is set. -/
def bareHeader (r : WalRecord) : WalRecordHeaderV2 where
  lsn := r.lsn
  op := r.op.code
  keyLen := r.key.length
  valueLen := r.value.length
  txnId := r.txnId
  recordCrc := 0

def header (r : WalRecord) : WalRecordHeaderV2 :=
  { r.bareHeader with recordCrc := r.bareHeader.crc }

/-- The bytes `AppendRecordV2` writes. -/
def encode (r : WalRecord) : Bytes := r.header.encode ++ (r.key ++ r.value)

def size (r : WalRecord) : Nat := kHeaderSizeV2 + r.key.length + r.value.length

@[simp] theorem length_encode (r : WalRecord) : r.encode.length = r.size := by
  simp [encode, size]; omega

/-- A record starts with its LSN and its operation. -/
theorem encode_eq_lsn (r : WalRecord) : ∃ post, r.encode = le 8 r.lsn ++ (r.op.code :: post) :=
  ⟨_, by
    rw [encode, WalRecordHeaderV2.encode, WalRecordHeaderV2.checked, List.append_assoc,
      List.append_assoc]
    rfl⟩

theorem size_pos (r : WalRecord) : 0 < r.size := by simp [size, kHeaderSizeV2]

/-- The fields fit their widths: what `Append` checks, and the counter's range. -/
structure InRange (r : WalRecord) : Prop where
  lsn_lt : r.lsn < 2 ^ 64
  key_le : r.key.length ≤ 65535
  value_le : r.value.length ≤ 65535

/-- A record the scanner can tell from padding and from the file's magic. -/
structure Fits (r : WalRecord) : Prop extends InRange r where
  lsn_pos : 0 < r.lsn
  lsn_ne : r.lsn ≠ kWalMagicV2

instance (r : WalRecord) : Decidable r.Fits :=
  decidable_of_iff (r.lsn < 2 ^ 64 ∧ r.key.length ≤ 65535 ∧ r.value.length ≤ 65535 ∧ 0 < r.lsn ∧
      r.lsn ≠ kWalMagicV2)
    ⟨fun ⟨a, b, c, d, e⟩ => ⟨⟨a, b, c⟩, d, e⟩, fun ⟨⟨a, b, c⟩, d, e⟩ => ⟨a, b, c, d, e⟩⟩

@[simp] theorem header_crc (r : WalRecord) : r.header.crc = r.bareHeader.crc := rfl

theorem header_verifyCrc (r : WalRecord) : r.header.verifyCrc = true := by
  show (r.bareHeader.crc == r.bareHeader.crc) = true
  exact beq_self_eq_true _

theorem InRange.decode_header {r : WalRecord} (h : r.InRange) :
    WalRecordHeaderV2.decode r.header.encode = r.header := by
  have hk := h.key_le
  have hv := h.value_le
  apply WalRecordHeaderV2.decode_encode h.lsn_lt
  · show r.key.length < 2 ^ 16; omega
  · show r.value.length < 2 ^ 16; omega

end WalRecord

/-- The bytes of a sequence of records. -/
def encodeAll (rs : List WalRecord) : Bytes := (rs.map WalRecord.encode).flatten

@[simp] theorem encodeAll_nil : encodeAll [] = [] := rfl

@[simp] theorem encodeAll_cons (r : WalRecord) (rs : List WalRecord) :
    encodeAll (r :: rs) = r.encode ++ encodeAll rs := rfl

@[simp] theorem encodeAll_append (rs rs' : List WalRecord) :
    encodeAll (rs ++ rs') = encodeAll rs ++ encodeAll rs' := by
  simp [encodeAll]

theorem length_encodeAll (rs : List WalRecord) :
    (encodeAll rs).length = (rs.map WalRecord.size).sum := by
  induction rs with
  | nil => rfl
  | cons r rs ih => simp [ih]

end EBTree.Wal
