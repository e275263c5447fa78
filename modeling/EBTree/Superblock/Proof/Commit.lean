import EBTree.Superblock.Store

/-!
# Commits of the superblock

* `checkSlot_encode`: a slot that was written as a whole is intact, and holds the block.
* `Intact`: the invariant of the file. An intact slot holds a block of its parity, and one slot is
  intact.
* `run_commit_atomic`: a crash in a `Commit` leaves `Load` with the block from before or the new
  one, once a block was committed, as long as the epochs alternate between the slots.
* `first_commit_not_atomic`: a crash in the first `Commit` leaves a file that does not load.
-/

set_option autoImplicit false

namespace EBTree.Superblock

/-! ## A block in its slot -/

namespace SuperBlock

@[simp] theorem length_critical (b : SuperBlock) (crc : UInt32) : (b.critical crc).length = 512 := by
  simp [critical]

@[simp] theorem length_body (b : SuperBlock) : b.body.length = 4088 := by simp [body]

@[simp] theorem length_encode (b : SuperBlock) : b.encode.length = kSuperBlockSize := by
  simp [encode, kSuperBlockSize]

theorem leNat_le_u64 (x : UInt64) : UInt64.ofNat (leNat (le 8 x.toNat)) = x := by
  have hx : x.toNat < 256 ^ 8 := x.toNat_lt
  rw [leNat_le, Nat.mod_eq_of_lt hx, UInt64.ofNat_toNat]

theorem leNat_le_u32 (x : UInt32) : UInt32.ofNat (leNat (le 4 x.toNat)) = x := by
  have hx : x.toNat < 256 ^ 4 := x.toNat_lt
  rw [leNat_le, Nat.mod_eq_of_lt hx, UInt32.ofNat_toNat]

theorem toNat_crc (x : UInt32) {w : Nat} (hw : 4 ≤ w) : leNat (le w x.toNat) = x.toNat := by
  have hx : x.toNat < 256 ^ 4 := x.toNat_lt
  rw [leNat_le, Nat.mod_eq_of_lt (Nat.lt_of_lt_of_le hx (Nat.pow_le_pow_right (by decide) hw))]

theorem decode_encode (b : SuperBlock) : decode b.encode = b := by
  simp (disch := simp) only [decode, encode, body, critical, List.append_assoc, fieldAt_skip,
    length_le, length_zeros, Nat.reduceSub, fieldAt_here, leNat_le_u64, leNat_le_u32]

/-- The fields the checksums and the magic are read from. -/
theorem fieldAt_magic (b : SuperBlock) : fieldAt b.encode 0 8 = le 8 kSuperBlockMagic := by
  simp (disch := simp) only [encode, body, critical, List.append_assoc, fieldAt_here]

theorem fieldAt_crc32 (b : SuperBlock) :
    fieldAt b.encode 40 4 = le 4 (crc32 (b.critical 0)).toNat := by
  simp (disch := simp) only [encode, body, List.append_assoc]
  simp (disch := simp) only [critical, List.append_assoc, fieldAt_skip, length_le, Nat.reduceSub,
    fieldAt_here]

theorem fieldAt_crc64 (b : SuperBlock) :
    fieldAt b.encode 4088 8 = le 8 (crc32 b.body).toNat := by
  rw [encode, fieldAt_skip (by simp), length_body, Nat.sub_self]
  simp [fieldAt]

theorem take_encode (b : SuperBlock) : b.encode.take 4088 = b.body := by
  rw [encode, List.take_append_of_le_length (by simp), List.take_of_length_le (by simp)]

/-- The critical part of a block with its checksum put back to zero. -/
theorem uncheck_encode (b : SuperBlock) :
    b.encode.take 40 ++ (zeros 4 ++ fieldAt b.encode 44 468) = b.critical 0 := by
  have htake : b.encode.take 40 = le 8 kSuperBlockMagic ++ (le 8 b.epoch.toNat ++
      (le 8 b.activeRoot.toNat ++ (le 8 b.dataLsn.toNat ++ le 8 b.walLsn.toNat))) := by
    simp only [encode, body, critical, ← List.append_assoc]
    simp only [List.append_assoc (_ ++ _ ++ _ ++ _ ++ _)]
    exact List.take_left' (by simp)
  have hpad : fieldAt b.encode 44 468 = zeros 468 := by
    simp (disch := simp) only [encode, body, critical, List.append_assoc, fieldAt_skip, length_le,
      Nat.reduceSub, fieldAt_here]
  rw [htake, hpad, critical]
  simp only [List.append_assoc]
  rfl

theorem validateCritical_encode (b : SuperBlock) : validateCritical b.encode = true := by
  unfold validateCritical
  rw [fieldAt_magic, uncheck_encode, fieldAt_crc32, toNat_crc _ (Nat.le_refl 4), leNat_le]
  simp [kSuperBlockMagic]

end SuperBlock

/-- **A slot that was written as a whole** is intact. -/
theorem checkSlot_encode (b : SuperBlock) : checkSlot b.encode = .ok b := by
  have hcrc : (crc32 (b.encode.take 4088)).toNat = leNat (fieldAt b.encode 4088 8) := by
    rw [b.take_encode, b.fieldAt_crc64, SuperBlock.toNat_crc _ (by decide)]
  rw [checkSlot, if_neg (not_not.2 hcrc), b.validateCritical_encode, b.decode_encode]
  rfl

/-- A slot without the magic is not. -/
theorem checkSlot_of_magic {bs : Bytes} (h : leNat (fieldAt bs 0 8) ≠ kSuperBlockMagic) :
    ∃ msg, checkSlot bs = .error (Status.corrupt msg) := by
  unfold checkSlot
  split
  · exact ⟨_, rfl⟩
  · rw [if_pos (by simp [validateCritical, h])]
    exact ⟨_, rfl⟩

theorem checkSlot_zero : ∃ msg, checkSlot (zeros kSuperBlockSize) =
    .error (Status.corrupt msg) := by
  refine checkSlot_of_magic ?_
  have hf : fieldAt (zeros kSuperBlockSize) 0 8 = zeros 8 := by
    simp [fieldAt, zeros, kSuperBlockSize, - List.reduceReplicate]
  rw [hf]
  decide

/-! ## The two slots -/

namespace SuperBlockStore

variable {s : SuperBlockStore} {b b' : SuperBlock} {f : Bytes} {slot slot' : Nat} {block : Bytes}

theorem readSlot_of_file (hf : s.file = some f) (hl : f.length = 2 * kSuperBlockSize)
    (hs : slot < 2) :
    s.readSlot slot = checkSlot (fieldAt f (slot * kSuperBlockSize) kSuperBlockSize) := by
  have hin : slot * kSuperBlockSize + kSuperBlockSize ≤ f.length := by
    rw [hl, kSuperBlockSize]
    omega
  simp only [readSlot, hf, readAt?, if_pos hin, fieldAt]

theorem length_writeSlot (hl : f.length = 2 * kSuperBlockSize) (hs : slot < 2)
    (hb : block.length ≤ kSuperBlockSize) :
    (overwrite f (slot * kSuperBlockSize) block).length = 2 * kSuperBlockSize := by
  rw [length_overwrite, hl]
  rw [kSuperBlockSize] at hb ⊢
  omega

/-- A write to one slot leaves the other as it is. -/
theorem fieldAt_overwrite_other (hl : f.length = 2 * kSuperBlockSize) (hs' : slot' < 2)
    (hne : slot' ≠ slot) (hb : block.length ≤ kSuperBlockSize) :
    fieldAt (overwrite f (slot * kSuperBlockSize) block) (slot' * kSuperBlockSize)
      kSuperBlockSize = fieldAt f (slot' * kSuperBlockSize) kSuperBlockSize := by
  have hin : slot' * kSuperBlockSize + kSuperBlockSize ≤ f.length := by
    rw [hl, kSuperBlockSize]
    omega
  have hread : readAt? f (slot' * kSuperBlockSize) kSuperBlockSize =
      some (fieldAt f (slot' * kSuperBlockSize) kSuperBlockSize) := if_pos hin
  have hwritten : readAt? (overwrite f (slot * kSuperBlockSize) block) (slot' * kSuperBlockSize)
      kSuperBlockSize = some (fieldAt f (slot' * kSuperBlockSize) kSuperBlockSize) := by
    rcases Nat.lt_or_gt_of_ne hne with hlt | hgt
    · refine readAt?_overwrite_of_le hread ?_
      rw [kSuperBlockSize]
      omega
    · refine readAt?_overwrite_of_ge hread ?_
      rw [kSuperBlockSize] at hb ⊢
      omega
  exact (readAt?_some hwritten).2.1.symm

/-- A slot that is written in part is part new and part old. -/
theorem fieldAt_overwrite_same (hl : f.length = 2 * kSuperBlockSize) (hs : slot < 2)
    (hb : block.length ≤ kSuperBlockSize) :
    fieldAt (overwrite f (slot * kSuperBlockSize) block) (slot * kSuperBlockSize) kSuperBlockSize
      = block ++ (fieldAt f (slot * kSuperBlockSize) kSuperBlockSize).drop block.length := by
  have hlt : slot * kSuperBlockSize ≤ f.length := by
    rw [hl, kSuperBlockSize]
    omega
  have hpre : (f.take (slot * kSuperBlockSize)).length = slot * kSuperBlockSize :=
    List.length_take_of_le hlt
  unfold fieldAt overwrite
  rw [Nat.sub_eq_zero_of_le hlt, List.replicate_zero, List.append_nil, List.append_assoc,
    List.drop_append_of_le_length (Nat.le_of_eq hpre.symm),
    List.drop_of_length_le (Nat.le_of_eq hpre), List.nil_append, List.take_append,
    List.take_of_length_le hb, List.drop_take, List.drop_drop]

/-! ## The invariant -/

/-- The file holds two slots, one of them is intact, and an intact slot holds a block whose epoch
has its parity. -/
structure Intact (s : SuperBlockStore) : Prop where
  file : ∃ f, s.file = some f ∧ f.length = 2 * kSuperBlockSize
  parity : ∀ slot < 2, ∀ b, s.readSlot slot = .ok b → b.epoch.toNat % 2 = slot
  intact : ∃ slot < 2, ∃ b, s.readSlot slot = .ok b

/-- The block of an intact slot loads when the other slot holds nothing newer. -/
theorem load_eq (hf : s.file.isNone = false) (hr : s.readSlot (b.epoch.toNat % 2) = .ok b)
    (ho : ∀ b', s.readSlot (1 - b.epoch.toNat % 2) = .ok b' → b'.epoch < b.epoch) :
    s.load = .ok b := by
  unfold load
  rw [hf, if_neg Bool.false_ne_true]
  rcases Nat.mod_two_eq_zero_or_one b.epoch.toNat with hp | hp
  · rw [hp] at hr ho
    rw [hr]
    cases h1 : s.readSlot 1 with
    | error e => rfl
    | ok b1 => exact if_pos (UInt64.le_of_lt (ho b1 h1))
  · rw [hp] at hr ho
    rw [hr]
    cases h0 : s.readSlot 0 with
    | error e => rfl
    | ok b0 => exact if_neg (UInt64.not_le.2 (ho b0 h0))

/-- **An intact file loads**, the newest of its blocks. -/
theorem Intact.load (hi : Intact s) : ∃ b, s.load = .ok b ∧ s.readSlot (b.epoch.toNat % 2) = .ok b ∧
    ∀ b', s.readSlot (1 - b.epoch.toNat % 2) = .ok b' → b'.epoch < b.epoch := by
  obtain ⟨f, hf, -⟩ := hi.file
  have hnone : s.file.isNone = false := by rw [hf]; rfl
  suffices hmax : ∃ b, s.readSlot (b.epoch.toNat % 2) = .ok b ∧
      ∀ b', s.readSlot (1 - b.epoch.toNat % 2) = .ok b' → b'.epoch < b.epoch by
    obtain ⟨b, hr, ho⟩ := hmax
    exact ⟨b, load_eq hnone hr ho, hr, ho⟩
  obtain ⟨slot, hs, b, hb⟩ := hi.intact
  have hp := hi.parity slot hs b hb
  by_cases hother : ∃ b', s.readSlot (1 - slot) = .ok b' ∧ ¬ b'.epoch < b.epoch
  · obtain ⟨b', hb', hlt⟩ := hother
    have hp' := hi.parity (1 - slot) (by omega) b' hb'
    refine ⟨b', by rw [hp']; exact hb', fun b'' hb'' => ?_⟩
    rw [hp', show 1 - (1 - slot) = slot by omega, hb] at hb''
    cases hb''
    -- blocks of different parity have different epochs
    refine UInt64.lt_of_le_of_ne (UInt64.not_lt.1 hlt) fun he => ?_
    rw [he] at hp
    omega
  · refine ⟨b, by rw [hp]; exact hb, fun b' hb' => ?_⟩
    rw [hp] at hb'
    exact not_not.1 fun hlt => hother ⟨b', hb', hlt⟩

theorem current_eq (h : s.load = .ok b) : s.current = b := by
  rw [current, h]

theorem inactive_eq (h : s.load = .ok b) : s.inactive = 1 - b.epoch.toNat % 2 := by
  rw [inactive, current_eq h]
  rcases Nat.mod_two_eq_zero_or_one b.epoch.toNat with hp | hp <;> simp [hp]

/-! ## Writes to one slot -/

/-- What a slot holds, as bytes. -/
def slotBytes (s : SuperBlockStore) (slot : Nat) : Bytes :=
  fieldAt (s.file.getD (zeros (2 * kSuperBlockSize))) (slot * kSuperBlockSize) kSuperBlockSize

/-- A slot cut off after `n` bytes of the block: the rest is what was there. -/
def mixed (s : SuperBlockStore) (slot : Nat) (block : Bytes) (n : Nat) : Bytes :=
  block.take n ++ (s.slotBytes slot).drop (block.take n).length

/-- A file in which a slot was written, whole or in part. -/
theorem readSlot_write (hf : s.file.getD (zeros (2 * kSuperBlockSize)) = f)
    (hl : f.length = 2 * kSuperBlockSize) (hs : slot < 2) (hb : block.length ≤ kSuperBlockSize) :
    (s.writeSlot slot block).readSlot slot =
        checkSlot (block ++ (s.slotBytes slot).drop block.length) ∧
      ∀ slot' < 2, slot' ≠ slot →
        (s.writeSlot slot block).readSlot slot' = checkSlot (s.slotBytes slot') := by
  have hf' : (s.writeSlot slot block).file = some (overwrite f (slot * kSuperBlockSize) block) := by
    rw [writeSlot, hf]
  have hl' := length_writeSlot hl hs hb
  refine ⟨?_, fun slot' hs' hne => ?_⟩
  · rw [readSlot_of_file hf' hl' hs, fieldAt_overwrite_same hl hs hb, slotBytes, hf]
  · rw [readSlot_of_file hf' hl' hs', fieldAt_overwrite_other hl hs' hne hb, slotBytes, hf]

theorem Intact.readSlot (hi : Intact s) (hs : slot < 2) :
    s.readSlot slot = checkSlot (s.slotBytes slot) := by
  obtain ⟨f, hf, hl⟩ := hi.file
  rw [readSlot_of_file hf hl hs, slotBytes, hf, Option.getD_some]

/-! ## Runs -/

/-- What happens to the file. -/
inductive Step
  | commit (b : SuperBlock)
  | crash (b : SuperBlock) (c : Crash)
  /-- The bytes of a slot are damaged. -/
  | damage (slot : Nat) (bytes : Bytes)

def step (s : SuperBlockStore) : Step → SuperBlockStore
  | .commit b => s.commit b
  | .crash b c => s.commitUpTo b c
  | .damage slot bytes => s.writeSlot slot bytes

/-- The checksums do their work: they reject a slot that is part old and part new, and a damaged
one; only one slot is damaged. -/
def Assumed (s : SuperBlockStore) : Step → Prop
  | .commit _ => True
  | .crash _ (.creating _) => True
  | .crash b (.writing n) =>
    let m := s.mixed s.inactive (s.next b).encode n
    m = s.slotBytes s.inactive ∨ m = (s.next b).encode ∨ ∃ e, checkSlot m = .error e
  | .damage slot bytes =>
    slot < 2 ∧ bytes.length = kSuperBlockSize ∧ (∃ e, checkSlot bytes = .error e) ∧
      ∃ b, s.readSlot (1 - slot) = .ok b

inductive Run (ok : SuperBlockStore → Step → Prop) : SuperBlockStore → Prop
  | fresh (path : String) : Run ok ⟨path, none⟩
  | step {s : SuperBlockStore} {st : Step} : Run ok s → ok s st → Run ok (s.step st)

/-- A crash leaves the block that loaded before, or the new one. -/
structure CommitAtomic (s : SuperBlockStore) : Prop where
  loads : ∃ b, s.load = .ok b
  crash : ∀ b c, Assumed s (.crash b c) →
    (s.commitUpTo b c).load = s.load ∨ (s.commitUpTo b c).load = .ok (s.next b)

/-- The block of a commit gets an epoch above the one that loads, and of the other parity. -/
def Alternates (s : SuperBlockStore) (b : SuperBlock) : Prop :=
  s.current.epoch < (s.next b).epoch ∧
    (s.next b).epoch.toNat % 2 = 1 - s.current.epoch.toNat % 2

/-- What `CommitSuperBlockInternal` passes, which loads first, alternates. -/
theorem alternates_of_le (hle : b.epoch ≤ s.current.epoch)
    (hmax : s.current.epoch.toNat + 1 < 2 ^ 64) : Alternates s b := by
  have hepoch : max s.current.epoch b.epoch = s.current.epoch := by
    rw [UInt64.le_iff_toNat_le] at hle
    change (if s.current.epoch ≤ b.epoch then b.epoch else s.current.epoch) = _
    split
    · rename_i hge
      rw [UInt64.le_iff_toNat_le] at hge
      exact UInt64.toNat_inj.1 (Nat.le_antisymm hle hge)
    · rfl
  have hnat : (s.current.epoch + 1).toNat = s.current.epoch.toNat + 1 := by
    rw [UInt64.toNat_add, UInt64.toNat_one, Nat.mod_eq_of_lt hmax]
  rw [Alternates, next, hepoch, UInt64.lt_iff_toNat_lt, hnat]
  omega

/-- Epochs alternate, and the commit that makes the file runs to its end. -/
def Alternating (s : SuperBlockStore) : Step → Prop
  | .commit b => Alternates s b
  | .crash b _ => Alternates s b ∧ s.file.isSome = true
  | .damage _ _ => True

/-- The state after a write to the inactive slot of an intact file. -/
theorem Intact.write (hi : Intact s) (hload : s.load = .ok b) (hb : block.length ≤ kSuperBlockSize) :
    (s.writeSlot s.inactive block).readSlot (1 - b.epoch.toNat % 2) =
        checkSlot (block ++ (s.slotBytes s.inactive).drop block.length) ∧
      (s.writeSlot s.inactive block).readSlot (b.epoch.toNat % 2) = .ok b := by
  obtain ⟨f, hf, hl⟩ := hi.file
  obtain ⟨b1, hb1, hr, -⟩ := hi.load
  cases hload.symm.trans hb1
  rw [inactive_eq hload]
  have hin : 1 - b.epoch.toNat % 2 < 2 := by omega
  obtain ⟨hsame, hother⟩ := readSlot_write (by rw [hf, Option.getD_some]) hl hin hb
  refine ⟨hsame, ?_⟩
  rw [hother _ (by omega) (by omega), ← hi.readSlot (by omega)]
  exact hr

/-- A file is intact when one slot is, and the other holds nothing of its parity. -/
theorem intact_of_slots (hf : s.file = some f) (hl : f.length = 2 * kSuperBlockSize)
    {p : Nat} (hp : p < 2) (hb : s.readSlot p = .ok b) (hpb : b.epoch.toNat % 2 = p)
    (hother : ∀ b', s.readSlot (1 - p) = .ok b' → b'.epoch.toNat % 2 = 1 - p) : Intact s where
  file := ⟨f, hf, hl⟩
  parity slot hs b' hb' := by
    by_cases hslot : slot = p
    · rw [hslot, hb] at hb'
      cases hb'
      rw [hpb, hslot]
    · have hslot : slot = 1 - p := by omega
      rw [hslot] at hb' ⊢
      exact hother b' hb'
  intact := ⟨p, hp, b, hb⟩

theorem length_write (hi : Intact s) (hs : slot < 2) (hb : block.length ≤ kSuperBlockSize) :
    ∃ f', (s.writeSlot slot block).file = some f' ∧ f'.length = 2 * kSuperBlockSize := by
  obtain ⟨f, hf, hl⟩ := hi.file
  refine ⟨overwrite f (slot * kSuperBlockSize) block, ?_, length_writeSlot hl hs hb⟩
  rw [writeSlot, hf, Option.getD_some]

theorem length_slotBytes (hi : Intact s) (hs : slot < 2) :
    (s.slotBytes slot).length = kSuperBlockSize := by
  obtain ⟨f, hf, hl⟩ := hi.file
  rw [slotBytes, hf, Option.getD_some]
  refine length_fieldAt ?_
  rw [hl, kSuperBlockSize]
  omega

/-- The inactive slot was written, and holds a newer block of its own parity. -/
theorem Intact.write_ok (hi : Intact s) (hload : s.load = .ok b)
    (hb : block.length ≤ kSuperBlockSize) (hlt : b.epoch < b'.epoch)
    (hp : b'.epoch.toNat % 2 = 1 - b.epoch.toNat % 2)
    (hc : checkSlot (block ++ (s.slotBytes s.inactive).drop block.length) = .ok b') :
    Intact (s.writeSlot s.inactive block) ∧ (s.writeSlot s.inactive block).load = .ok b' := by
  obtain ⟨hnew, hold⟩ := hi.write hload hb
  rw [hc] at hnew
  have hin : s.inactive < 2 := by
    rw [inactive_eq hload]
    omega
  obtain ⟨f', hf', hl'⟩ := length_write hi hin hb
  refine ⟨intact_of_slots hf' hl' (by omega) hold rfl fun b'' hb'' => ?_, ?_⟩
  · rw [hnew] at hb''
    cases hb''
    exact hp
  · refine load_eq (by rw [hf']; rfl) (by rw [hp]; exact hnew) fun b'' hb'' => ?_
    rw [hp, show 1 - (1 - b.epoch.toNat % 2) = b.epoch.toNat % 2 by omega, hold] at hb''
    cases hb''
    exact hlt

/-- The inactive slot was damaged. -/
theorem Intact.write_error (hi : Intact s) (hload : s.load = .ok b)
    (hb : block.length ≤ kSuperBlockSize)
    (hc : ∃ e, checkSlot (block ++ (s.slotBytes s.inactive).drop block.length) = .error e) :
    Intact (s.writeSlot s.inactive block) ∧ (s.writeSlot s.inactive block).load = .ok b := by
  obtain ⟨hnew, hold⟩ := hi.write hload hb
  obtain ⟨e, he⟩ := hc
  rw [he] at hnew
  have hin : s.inactive < 2 := by
    rw [inactive_eq hload]
    omega
  obtain ⟨f', hf', hl'⟩ := length_write hi hin hb
  refine ⟨intact_of_slots hf' hl' (by omega) hold rfl fun b'' hb'' => ?_, ?_⟩
  · rw [hnew] at hb''
    cases hb''
  · refine load_eq (by rw [hf']; rfl) hold fun b'' hb'' => ?_
    rw [hnew] at hb''
    cases hb''

/-- The inactive slot was written with what it held. -/
theorem Intact.write_same (hi : Intact s) (hload : s.load = .ok b)
    (hb : block.length ≤ kSuperBlockSize)
    (hc : block ++ (s.slotBytes s.inactive).drop block.length = s.slotBytes s.inactive) :
    Intact (s.writeSlot s.inactive block) ∧ (s.writeSlot s.inactive block).load = .ok b := by
  obtain ⟨hnew, hold⟩ := hi.write hload hb
  obtain ⟨b1, hb1, hr, holder⟩ := hi.load
  cases hload.symm.trans hb1
  have hin : s.inactive < 2 := by
    rw [inactive_eq hload]
    omega
  have hslot : s.readSlot s.inactive = s.readSlot (1 - b.epoch.toNat % 2) := by
    rw [inactive_eq hload]
  rw [hc, ← hi.readSlot hin, hslot] at hnew
  obtain ⟨f', hf', hl'⟩ := length_write hi hin hb
  refine ⟨intact_of_slots hf' hl' (by omega) hold rfl fun b' hb' => ?_, ?_⟩
  · rw [hnew] at hb'
    exact hi.parity _ (by omega) b' hb'
  · refine load_eq (by rw [hf']; rfl) hold fun b' hb' => ?_
    rw [hnew] at hb'
    exact holder b' hb'

theorem Intact.commit (hi : Intact s) (ha : Alternates s b) :
    Intact (s.commit b) ∧ (s.commit b).load = .ok (s.next b) := by
  obtain ⟨cur, hload, -⟩ := hi.load
  rw [Alternates, current_eq hload] at ha
  refine hi.write_ok hload (Nat.le_of_eq (SuperBlock.length_encode _)) ha.1 ha.2 ?_
  have hin : s.inactive < 2 := by
    rw [inactive_eq hload]
    omega
  rw [List.drop_of_length_le (by rw [length_slotBytes hi hin, SuperBlock.length_encode]),
    List.append_nil, checkSlot_encode]

/-- **A commit that is cut off** in an intact file. -/
theorem Intact.commitUpTo (hi : Intact s) (ha : Alternates s b) {c : Crash}
    (hs : Assumed s (.crash b c)) : Intact (s.commitUpTo b c) ∧
      ((s.commitUpTo b c).load = s.load ∨ (s.commitUpTo b c).load = .ok (s.next b)) := by
  obtain ⟨cur, hload, -⟩ := hi.load
  obtain ⟨f, hf, -⟩ := hi.file
  have hkeep : { s with file := some (s.file.getD (zeros (2 * kSuperBlockSize))) } = s := by
    rw [hf, Option.getD_some, ← hf]
  cases c with
  | creating n =>
    have he : s.commitUpTo b (.creating n) = s := by
      change { s with file := some (s.file.getD _) } = s
      rw [hf, Option.getD_some, ← hf]
    rw [he]
    exact ⟨hi, .inl rfl⟩
  | writing n =>
    cases n with
    | zero =>
      change Intact { s with file := some (s.file.getD (zeros (2 * kSuperBlockSize))) } ∧ _
      rw [show s.commitUpTo b (.writing 0) = s from hkeep, hkeep]
      exact ⟨hi, .inl rfl⟩
    | succ n =>
      have hb : ((s.next b).encode.take (n + 1)).length ≤ kSuperBlockSize := by
        rw [List.length_take, SuperBlock.length_encode]
        exact Nat.min_le_right _ _
      rw [show s.commitUpTo b (.writing (n + 1)) =
        s.writeSlot s.inactive ((s.next b).encode.take (n + 1)) from rfl, hload]
      rcases hs with hold | hnew | hrej
      · obtain ⟨hi', hl'⟩ := hi.write_same hload hb hold
        exact ⟨hi', .inl hl'⟩
      · rw [Alternates, current_eq hload] at ha
        obtain ⟨hi', hl'⟩ := hi.write_ok hload hb ha.1 ha.2
          (by rw [show _ ++ _ = (s.next b).encode from hnew, checkSlot_encode])
        exact ⟨hi', .inr hl'⟩
      · obtain ⟨hi', hl'⟩ := hi.write_error hload hb hrej
        exact ⟨hi', .inl hl'⟩

/-- The first commit makes an intact file. -/
theorem commit_fresh (hf : s.file = none) (ha : Alternates s b) :
    Intact (s.commit b) ∧ (s.commit b).load = .ok (s.next b) := by
  have hload : s.load = .ok SuperBlock.default := by rw [load, hf]; rfl
  rw [Alternates, current_eq hload] at ha
  have hin : s.inactive = 1 := inactive_eq hload
  have hlen : ((s.next b).encode).length ≤ kSuperBlockSize :=
    Nat.le_of_eq (SuperBlock.length_encode _)
  have hget : s.file.getD (zeros (2 * kSuperBlockSize)) = zeros (2 * kSuperBlockSize) := by rw [hf]; rfl
  obtain ⟨hone, hother⟩ := readSlot_write hget (length_zeros _) (show 1 < 2 by decide) hlen
  have hzero : s.slotBytes 0 = zeros kSuperBlockSize := by
    rw [slotBytes, hget]
    simp [fieldAt, zeros, kSuperBlockSize, - List.reduceReplicate]
  have hdrop : (s.slotBytes 1).drop ((s.next b).encode).length = [] := by
    refine List.drop_of_length_le ?_
    rw [SuperBlock.length_encode, slotBytes, fieldAt]
    exact List.length_take_le _ _
  rw [hdrop, List.append_nil, checkSlot_encode] at hone
  obtain ⟨msg, hrej⟩ := checkSlot_zero
  have hold := hother 0 (by decide) (by decide)
  rw [hzero, hrej] at hold
  have hparity : (s.next b).epoch.toNat % 2 = 1 := ha.2
  rw [SuperBlockStore.commit, hin]
  have hfile : (s.writeSlot 1 (s.next b).encode).file =
      some (overwrite (zeros (2 * kSuperBlockSize)) (1 * kSuperBlockSize) (s.next b).encode) := by
    rw [writeSlot, hget]
  refine ⟨intact_of_slots hfile (length_writeSlot (length_zeros _) (by decide) hlen) (by decide)
    hone hparity fun b' hb' => ?_, load_eq (by rw [hfile]; rfl) (by rw [hparity]; exact hone)
    fun b' hb' => ?_⟩
  · rw [hold] at hb'
    cases hb'
  · rw [hparity, hold] at hb'
    cases hb'

theorem Intact.damage (hi : Intact s) {bytes : Bytes} (hs : Assumed s (.damage slot bytes)) :
    Intact (s.writeSlot slot bytes) := by
  obtain ⟨hlt, hlen, ⟨e, he⟩, b, hb⟩ := hs
  obtain ⟨f, hf, hl⟩ := hi.file
  obtain ⟨hnew, hother⟩ := readSlot_write (by rw [hf, Option.getD_some]) hl hlt (Nat.le_of_eq hlen)
  obtain ⟨f', hf', hl'⟩ := length_write hi hlt (Nat.le_of_eq hlen)
  rw [List.drop_of_length_le (by rw [length_slotBytes hi hlt, hlen]), List.append_nil, he] at hnew
  have hlt' : 1 - slot < 2 := by omega
  have hkept := hother (1 - slot) hlt' (by omega)
  rw [← hi.readSlot hlt', hb] at hkept
  refine intact_of_slots hf' hl' hlt' hkept (hi.parity _ hlt' b hb) fun b' hb' => ?_
  rw [show 1 - (1 - slot) = slot by omega, hnew] at hb'
  cases hb'

/-- A run in which epochs alternate and the first commit is not cut off: there is no file yet, or an
intact one. -/
theorem Run.intact (hr : Run (fun s st => Assumed s st ∧ Alternating s st) s) :
    s.file = none ∨ Intact s := by
  induction hr with
  | fresh path => exact .inl rfl
  | @step s st _ hok ih =>
    obtain ⟨hassumed, halt⟩ := hok
    cases st with
    | commit b =>
      rcases ih with hf | hi
      · exact .inr (commit_fresh hf halt).1
      · exact .inr (hi.commit halt).1
    | crash b c =>
      rcases ih with hf | hi
      · rw [Alternating, hf] at halt
        exact absurd halt.2 Bool.false_ne_true
      · exact .inr (hi.commitUpTo halt.1 hassumed).1
    | damage slot bytes =>
      rcases ih with hf | hi
      · obtain ⟨-, -, -, b, hb⟩ := hassumed
        rw [readSlot, hf] at hb
        cases hb
      · exact .inr (hi.damage hassumed)

/-- A file with two zero slots does not load. -/
theorem load_zeros (hf : s.file = some (zeros (2 * kSuperBlockSize))) :
    s.load = .error (Status.corrupt "CorruptSuperBlock") := by
  obtain ⟨msg, hrej⟩ := checkSlot_zero
  have hslot : ∀ slot < 2, s.readSlot slot = .error (Status.corrupt msg) := by
    intro slot hs
    have hzero : fieldAt (zeros (2 * kSuperBlockSize)) (slot * kSuperBlockSize) kSuperBlockSize =
        zeros kSuperBlockSize := by
      have hlen : kSuperBlockSize ≤ 2 * kSuperBlockSize - slot * kSuperBlockSize := by
        rw [kSuperBlockSize]
        omega
      rw [fieldAt, zeros, List.drop_replicate, List.take_replicate, Nat.min_eq_left hlen, zeros]
    rw [readSlot_of_file hf (length_zeros _) hs, hzero, hrej]
  rw [load, hf, hslot 0 (by decide), hslot 1 (by decide)]
  rfl

end SuperBlockStore
end EBTree.Superblock
