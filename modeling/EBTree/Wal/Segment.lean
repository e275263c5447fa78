import EBTree.Lib.Scan
import EBTree.Wal.Format

/-!
# Reading a log segment

The readers of `wal_segment.cc` over the bytes of one log file: format detection, the record
reader, the offset the data starts at, and the resynchronising scanner `scanWalV2Sparse`. The
scanner's loop is `Lib.Reader.scan` of `walReader`.
-/

set_option autoImplicit false

namespace EBTree.Wal

open Lib

/-- `AlignUpWalSector`: the next sector, also when `offset` is on one. -/
def alignUpWalSector (offset : Nat) : Nat := (offset / kWalSectorSize + 1) * kWalSectorSize

/-- `WalMagicAt`: the eight bytes at `offset` are the magic. -/
def walMagicAt (f : Bytes) (offset : Nat) : Bool :=
  match readAt? f offset 8 with
  | some bs => leNat bs == kWalMagicV2
  | none => false

def detectFormatV2OnDisk (f : Bytes) : Bool := walMagicAt f 0

/-- `ReadWalRecordV2At`, with the checksum verified. -/
def readWalRecordV2At (f : Bytes) (offset : Nat) : Option (WalRecord × Nat) := do
  let hdr := WalRecordHeaderV2.decode (← readAt? f offset kHeaderSizeV2)
  if hdr.isPadding then none else
  -- `WalHeaderV2LooksValid`: its two length tests cannot fail on 16-bit fields
  let op ← WalOp.ofCode hdr.op
  let key ← readAt? f (offset + kHeaderSizeV2) hdr.keyLen
  let value ← readAt? f (offset + kHeaderSizeV2 + hdr.keyLen) hdr.valueLen
  if hdr.verifyCrc then
    some (⟨hdr.lsn, op, key, value, hdr.txnId⟩,
      offset + kHeaderSizeV2 + hdr.keyLen + hdr.valueLen)
  else none

def hasValidWalRecordV2At (f : Bytes) (offset : Nat) : Bool := (readWalRecordV2At f offset).isSome

/-- Where `WalDataOffsetOnDisk` looks for a first record in one sector. -/
def probeSector (f : Bytes) (sector : Nat) : Option Nat :=
  if hasValidWalRecordV2At f sector then some sector
  else if sector + 8 < f.length ∧ hasValidWalRecordV2At f (sector + 8) then some (sector + 8)
  else none

/-- The sectors after the first that start within a file of `size` bytes. -/
def sectorsOf (size : Nat) : List Nat :=
  (List.range ((size - 1) / kWalSectorSize)).map fun i => (i + 1) * kWalSectorSize

/-- `WalDataOffsetOnDisk`. -/
def walDataOffsetOnDisk (f : Bytes) (formatV2 : Bool) : Nat :=
  if !formatV2 then 0
  else if f.length ≤ 8 then 8
  else if hasValidWalRecordV2At f 8 then 8
  else if 16 < f.length ∧ hasValidWalRecordV2At f 16 then 16
  else ((sectorsOf f.length).findSome? (probeSector f)).getD 8

/-- `TryReadWalRecordV2Sparse`. -/
def tryReadWalRecordV2Sparse (f : Bytes) (offset : Nat) : Option (WalRecord × Nat) :=
  (if 8 ≤ offset ∧ walMagicAt f offset then readWalRecordV2At f (offset + 8) else none)
    <|> readWalRecordV2At f offset
    <|> (if kWalSectorSize ≤ offset ∧ walMagicAt f offset then readWalRecordV2At f (offset + 8)
          else none)

/-! ## What a record reader accepts -/

theorem readWalRecordV2At_some {f : Bytes} {o n : Nat} {r : WalRecord}
    (h : readWalRecordV2At f o = some (r, n)) :
    n = o + r.size ∧ n ≤ f.length ∧ r.key.length < 2 ^ 16 := by
  simp only [readWalRecordV2At, Option.bind_eq_bind, Option.bind_eq_some_iff] at h
  obtain ⟨bs, hb, h⟩ := h
  split at h
  · cases h
  simp only [Option.bind_eq_some_iff] at h
  obtain ⟨op, ho, key, hk, value, hv, h⟩ := h
  split at h
  · cases h
    obtain ⟨hle, -, hvl⟩ := readAt?_some hv
    obtain ⟨-, -, hkl⟩ := readAt?_some hk
    have := WalRecordHeaderV2.decode_keyLen_lt bs
    refine ⟨?_, by omega, by simpa [hkl] using this⟩
    simp only [WalRecord.size, hkl, hvl]; omega
  · cases h

theorem readWalRecordV2At_gt {f : Bytes} {o n : Nat} {r : WalRecord}
    (h : readWalRecordV2At f o = some (r, n)) : o < n := by
  have := (readWalRecordV2At_some h).1
  have := r.size_pos
  omega

/-- A record the sparse reader accepts lies at the offset, or eight bytes on, behind a magic. -/
theorem tryReadWalRecordV2Sparse_some {f : Bytes} {o n : Nat} {r : WalRecord}
    (h : tryReadWalRecordV2Sparse f o = some (r, n)) :
    readWalRecordV2At f o = some (r, n) ∨
      (walMagicAt f o = true ∧ readWalRecordV2At f (o + 8) = some (r, n)) := by
  simp only [tryReadWalRecordV2Sparse, Option.orElse_eq_orElse, Option.orElse_eq_or,
    Option.or_eq_some_iff] at h
  rcases h with h | ⟨-, h | ⟨-, h⟩⟩
  · split at h
    · rename_i hm
      exact .inr ⟨hm.2, h⟩
    · cases h
  · exact .inl h
  · split at h
    · rename_i hm
      exact .inr ⟨hm.2, h⟩
    · cases h

theorem tryReadWalRecordV2Sparse_size {f : Bytes} {o n : Nat} {r : WalRecord}
    (h : tryReadWalRecordV2Sparse f o = some (r, n)) : o + r.size ≤ n ∧ n ≤ f.length := by
  rcases tryReadWalRecordV2Sparse_some h with h | ⟨-, h⟩ <;>
    have := readWalRecordV2At_some h <;> omega

/-- At the end of the file there is nothing to read. -/
theorem tryReadWalRecordV2Sparse_of_ge {f : Bytes} {o : Nat} (h : f.length ≤ o) :
    tryReadWalRecordV2Sparse f o = none := by
  cases hr : tryReadWalRecordV2Sparse f o with
  | none => rfl
  | some p =>
    have := tryReadWalRecordV2Sparse_size (r := p.1) (n := p.2) hr
    have := p.1.size_pos
    omega

/-- Away from a magic the sparse reader is the plain one. -/
theorem tryReadWalRecordV2Sparse_of_no_magic {f : Bytes} {o : Nat} (h : walMagicAt f o = false) :
    tryReadWalRecordV2Sparse f o = readWalRecordV2At f o := by
  simp [tryReadWalRecordV2Sparse, h]

/-- Behind a magic the sparse reader takes a record there before one at the magic itself. -/
theorem tryReadWalRecordV2Sparse_of_magic {f : Bytes} {o : Nat} (ho : 8 ≤ o)
    (h : walMagicAt f o = true) :
    tryReadWalRecordV2Sparse f o = (readWalRecordV2At f (o + 8)).or (readWalRecordV2At f o) := by
  simp only [tryReadWalRecordV2Sparse, ho, h, and_self, if_true, Option.orElse_eq_orElse,
    Option.orElse_eq_or, and_true]
  cases readWalRecordV2At f (o + 8) with
  | some p => rfl
  | none => simp

/-! ## Reading what was laid out -/

/-- The header, the key and the value of a record laid out at an offset, as reads of the file. -/
theorem readAt?_encode (pre rest : Bytes) (r : WalRecord) :
    readAt? (pre ++ (r.encode ++ rest)) pre.length kHeaderSizeV2 = some r.header.encode ∧
      readAt? (pre ++ (r.encode ++ rest)) (pre.length + kHeaderSizeV2) r.header.keyLen
        = some r.key ∧
      readAt? (pre ++ (r.encode ++ rest)) (pre.length + kHeaderSizeV2 + r.header.keyLen)
        r.header.valueLen = some r.value := by
  have e : pre ++ (r.encode ++ rest) = pre ++ (r.header.encode ++ (r.key ++ (r.value ++ rest))) := by
    simp [WalRecord.encode]
  refine ⟨readAt?_of_append _ _ e rfl (by simp), ?_, ?_⟩
  · exact readAt?_of_append (pre ++ r.header.encode) (r.value ++ rest) (by simp [e])
      (by simp) rfl
  · exact readAt?_of_append (pre ++ r.header.encode ++ r.key) rest (by simp [e])
      (by simp [Nat.add_assoc]; rfl) rfl

theorem WalRecord.header_isPadding {r : WalRecord} (hl : 0 < r.lsn) :
    r.header.isPadding = false := by
  have : r.header.lsn ≠ 0 := by show r.lsn ≠ 0; omega
  simp [WalRecordHeaderV2.isPadding, this]

/-- **A record laid out at an offset reads back**, whatever follows it. -/
theorem readWalRecordV2At_encode (pre rest : Bytes) {r : WalRecord} (h : r.InRange)
    (hl : 0 < r.lsn) :
    readWalRecordV2At (pre ++ (r.encode ++ rest)) pre.length = some (r, pre.length + r.size) := by
  obtain ⟨hh, hk, hv⟩ := readAt?_encode pre rest r
  have ho : WalOp.ofCode r.header.op = some r.op := WalOp.ofCode_code r.op
  simp only [readWalRecordV2At, hh, Option.bind_eq_bind, Option.bind_some, h.decode_header,
    WalRecord.header_isPadding hl, ho, hk, hv, r.header_verifyCrc, if_true]
  have hs : pre.length + kHeaderSizeV2 + r.header.keyLen + r.header.valueLen
      = pre.length + r.size := by
    simp [WalRecord.size, Nat.add_assoc]; rfl
  rw [hs]
  rfl

/-- Of a record cut short a reader finds no whole header, or the record's own header and not all of
its key and value. -/
theorem readAt?_torn (pre : Bytes) {torn : Bytes} {r : WalRecord} (ht : torn <+: r.encode)
    (hl : torn.length < r.size) :
    readAt? (pre ++ torn) pre.length kHeaderSizeV2 = none ∨
      (readAt? (pre ++ torn) pre.length kHeaderSizeV2 = some r.header.encode ∧
        readAt? (pre ++ torn) (pre.length + kHeaderSizeV2 + r.header.keyLen) r.header.valueLen
          = none) := by
  by_cases hc : kHeaderSizeV2 ≤ torn.length
  · obtain ⟨body, rfl⟩ : ∃ body, torn = r.header.encode ++ body := by
      have hp : r.header.encode <+: torn :=
        List.prefix_of_prefix_length_le (List.prefix_append _ _) ht (by simpa using hc)
      exact hp.imp fun _ h => h.symm
    refine .inr ⟨readAt?_of_append _ _ rfl rfl (by simp), readAt?_eq_none_iff.2 ?_⟩
    have hs : r.size = kHeaderSizeV2 + r.header.keyLen + r.header.valueLen := rfl
    simp only [List.length_append] at hl ⊢
    omega
  · exact .inl (readAt?_eq_none_iff.2 (by simp; omega))

/-- **A record cut short is not read**, whatever its content. -/
theorem readWalRecordV2At_torn {pre torn : Bytes} {r : WalRecord} (h : r.InRange)
    (ht : torn <+: r.encode) (hl : torn.length < r.size) :
    readWalRecordV2At (pre ++ torn) pre.length = none := by
  obtain hh | ⟨hh, hv⟩ := readAt?_torn pre ht hl
  · simp [readWalRecordV2At, hh]
  · simp [readWalRecordV2At, hh, h.decode_header, hv]

theorem walMagicAt_encode (pre rest : Bytes) {r : WalRecord} (h : r.InRange) :
    walMagicAt (pre ++ (r.encode ++ rest)) pre.length = decide (r.lsn = kWalMagicV2) := by
  obtain ⟨post, hp⟩ := r.encode_eq_lsn
  have hl : readAt? (pre ++ (r.encode ++ rest)) pre.length 8 = some (le 8 r.lsn) :=
    readAt?_of_append _ (r.op.code :: post ++ rest) (by rw [hp]; simp) rfl (by simp)
  have : leNat (le 8 r.lsn) = r.lsn := by
    rw [leNat_le]; exact Nat.mod_eq_of_lt h.lsn_lt
  rw [walMagicAt, hl]
  simp only [this]
  rfl

theorem walMagicAt_append_left {f : Bytes} {o : Nat} (h : walMagicAt f o = true) (g : Bytes) :
    walMagicAt (f ++ g) o = true := by
  unfold walMagicAt at h ⊢
  split at h
  · rename_i bs hb
    rw [readAt?_append_left g (readAt?_some hb).1, hb]
    exact h
  · cases h

/-- A record read eight bytes into another has the other's operation as its LSN's low byte. -/
theorem readWalRecordV2At_inside {pre rest : Bytes} {r r' : WalRecord} {n : Nat}
    (h : readWalRecordV2At (pre ++ (r.encode ++ rest)) (pre.length + 8) = some (r', n)) :
    r'.lsn % 256 = r.op.code.toNat := by
  obtain ⟨post, hp⟩ := r.encode_eq_lsn
  simp only [readWalRecordV2At, Option.bind_eq_bind, Option.bind_eq_some_iff] at h
  obtain ⟨bs, hb, h⟩ := h
  obtain ⟨-, hbs, -⟩ := readAt?_some hb
  have hd : (pre ++ (r.encode ++ rest)).drop (pre.length + 8) = r.op.code :: (post ++ rest) := by
    rw [hp, List.drop_append, List.drop_eq_nil_of_le (by omega), Nat.add_sub_cancel_left,
      List.nil_append, List.append_assoc]
    exact List.drop_left' (length_le _ _)
  have hlsn : (WalRecordHeaderV2.decode bs).lsn % 256 = r.op.code.toNat := by
    have := r.op.code.toNat_lt
    rw [hbs, hd]
    simp only [WalRecordHeaderV2.decode, kHeaderSizeV2, List.take_succ_cons, leNat]
    omega
  split at h
  · cases h
  simp only [Option.bind_eq_some_iff] at h
  obtain ⟨op, -, key, -, value, -, h⟩ := h
  split at h
  · cases h; exact hlsn
  · cases h

/-- The sparse reader reads a record laid out, when its LSN is not the magic. -/
theorem tryReadWalRecordV2Sparse_encode (pre rest : Bytes) {r : WalRecord} (h : r.Fits) :
    tryReadWalRecordV2Sparse (pre ++ (r.encode ++ rest)) pre.length
      = some (r, pre.length + r.size) := by
  have hm : walMagicAt (pre ++ (r.encode ++ rest)) pre.length = false := by
    rw [walMagicAt_encode _ _ h.toInRange]; simpa using h.lsn_ne
  rw [tryReadWalRecordV2Sparse_of_no_magic hm, readWalRecordV2At_encode _ _ h.toInRange h.lsn_pos]

theorem tryReadWalRecordV2Sparse_torn {pre torn : Bytes} {r : WalRecord} (h : r.Fits)
    (ht : torn <+: r.encode) (hl : torn.length < r.size) :
    tryReadWalRecordV2Sparse (pre ++ torn) pre.length = none := by
  have hm : walMagicAt (pre ++ torn) pre.length = false := by
    obtain ⟨rest, hr⟩ := ht
    by_contra hc
    have := walMagicAt_append_left (Bool.eq_true_of_not_eq_false hc) rest
    rw [List.append_assoc, hr, ← List.append_nil r.encode, walMagicAt_encode _ _ h.toInRange] at this
    exact h.lsn_ne (by simpa using this)
  rw [tryReadWalRecordV2Sparse_of_no_magic hm, readWalRecordV2At_torn h.toInRange ht hl]

/-! ## Locality -/

section Congr

variable {f g : Bytes} {o o' : Nat} (hl : f.length = g.length) (hd : f.drop o = g.drop o)
  (ho : o ≤ o')
include hl hd ho

theorem walMagicAt_congr : walMagicAt f o' = walMagicAt g o' := by
  simp only [walMagicAt, readAt?_congr hl hd ho]

theorem readWalRecordV2At_congr : readWalRecordV2At f o' = readWalRecordV2At g o' := by
  have hr : ∀ k n, readAt? f (o' + k) n = readAt? g (o' + k) n :=
    fun k n => readAt?_congr hl hd (by omega)
  simp only [readWalRecordV2At, readAt?_congr hl hd ho, Nat.add_assoc, hr]

/-- The sparse reader sees only the bytes from its offset on. -/
theorem tryReadWalRecordV2Sparse_congr :
    tryReadWalRecordV2Sparse f o' = tryReadWalRecordV2Sparse g o' := by
  simp only [tryReadWalRecordV2Sparse, walMagicAt_congr hl hd ho,
    readWalRecordV2At_congr hl hd ho, readWalRecordV2At_congr hl hd (show o ≤ o' + 8 by omega)]

end Congr

/-! ## The scanner -/

/-- The reader `ScanWalV2Sparse` loops over. -/
def walReader (f : Bytes) : Reader WalRecord where
  read := tryReadWalRecordV2Sparse f
  skip := alignUpWalSector
  read_gt h := by
    have := tryReadWalRecordV2Sparse_size h
    have := WalRecord.size_pos (r := by assumption)
    omega
  skip_gt o := by
    simp only [alignUpWalSector, kWalSectorSize]; omega

theorem alignUpWalSector_iterate (o k : Nat) :
    alignUpWalSector^[k + 1] o = (o / kWalSectorSize + (k + 1)) * kWalSectorSize := by
  induction k with
  | zero => rfl
  | succ k ih =>
    rw [Function.iterate_succ_apply', ih, alignUpWalSector, kWalSectorSize,
      Nat.mul_div_cancel _ (by decide)]
    omega

/-- The scanner finds nothing from an unreadable offset on exactly when no later sector reads. -/
theorem walReader_scan_eq_nil_iff {f : Bytes} {o : Nat}
    (h : tryReadWalRecordV2Sparse f o = none) :
    (walReader f).scan f.length o = [] ↔ ∀ q, o < q → q < f.length → kWalSectorSize ∣ q →
      tryReadWalRecordV2Sparse f q = none := by
  rw [Reader.scan_eq_nil_iff]
  constructor
  · rintro hs q hq hlt ⟨j, rfl⟩
    -- the sector `j` is reached after as many skips as lie between
    obtain ⟨k, rfl⟩ : ∃ k, j = o / kWalSectorSize + (k + 1) :=
      ⟨j - o / kWalSectorSize - 1, by simp only [kWalSectorSize] at hq ⊢; omega⟩
    have := hs (k + 1)
    rw [show (walReader f).skip = alignUpWalSector from rfl, alignUpWalSector_iterate,
      Nat.mul_comm] at this
    exact this hlt
  · intro hs k hk
    cases k with
    | zero => exact h
    | succ k =>
      rw [show (walReader f).skip = alignUpWalSector from rfl, alignUpWalSector_iterate] at hk ⊢
      exact hs _ (by simp only [kWalSectorSize]; omega) hk (Dvd.intro_left _ rfl)

/-- The records the scanner stops at, with their offsets. -/
def acceptedV2 (f : Bytes) : List (Nat × WalRecord) :=
  (walReader f).scan f.length (walDataOffsetOnDisk f true)

theorem probeSector_some {f : Bytes} {s o : Nat} (h : probeSector f s = some o) :
    s ≤ o ∧ (readWalRecordV2At f o).isSome := by
  unfold probeSector at h
  by_cases h1 : hasValidWalRecordV2At f s = true
  · simp only [h1, if_true, Option.some.injEq] at h
    exact h ▸ ⟨le_rfl, h1⟩
  · simp only [h1] at h
    by_cases h2 : s + 8 < f.length ∧ hasValidWalRecordV2At f (s + 8) = true
    · simp only [h2, and_self, if_true, if_false, Option.some.injEq, Bool.false_eq_true] at h
      exact h ▸ ⟨by omega, h2.2⟩
    · simp [h2] at h

theorem walDataOffsetOnDisk_cases (f : Bytes) :
    walDataOffsetOnDisk f true = 8 ∨ ((readWalRecordV2At f (walDataOffsetOnDisk f true)).isSome) := by
  unfold walDataOffsetOnDisk
  simp only [Bool.not_true, Bool.false_eq_true, if_false]
  split
  · exact .inl rfl
  split
  · exact .inl rfl
  split
  · rename_i h
    exact .inr h.2
  · cases hs : (sectorsOf f.length).findSome? (probeSector f) with
    | none => exact .inl rfl
    | some o =>
      obtain ⟨s, -, h⟩ := List.exists_of_findSome?_eq_some hs
      exact .inr (probeSector_some h).2

theorem walDataOffsetOnDisk_ge (f : Bytes) : 8 ≤ walDataOffsetOnDisk f true := by
  unfold walDataOffsetOnDisk
  simp only [Bool.not_true, Bool.false_eq_true, if_false]
  split
  · exact le_rfl
  split
  · exact le_rfl
  split
  · decide
  cases hs : (sectorsOf f.length).findSome? (probeSector f) with
  | none => exact le_rfl
  | some o =>
    obtain ⟨s, hm, h⟩ := List.exists_of_findSome?_eq_some hs
    obtain ⟨i, -, rfl⟩ := List.mem_map.1 hm
    have := (probeSector_some h).1
    simp only [kWalSectorSize] at this
    rw [Option.getD_some]
    omega

/-- `ScanWalV2Sparse`: the records `on_record` is called with. -/
def scanWalV2Sparse (f : Bytes) (afterLsn : Nat) : List WalRecord :=
  ((acceptedV2 f).map (·.2)).filter (afterLsn < ·.lsn)

end EBTree.Wal
