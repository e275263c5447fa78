import EBTree.Engine.GcMetaFile

/-!
# Swaps that are cut off

* `valid_encode`: a slot that was written as a whole is valid, and holds the fields.
* `Sound`: the invariant of the file. A valid slot holds the generations of its parity, and the slot
  of the fields in memory is one of them.
* `run_swap_crash`: a crash in a swap leaves `Load` with the generations from before or after it, and
  the next swap goes to the older slot.
* `load_fileOf`, `swapRegions_fileOf`: the same for the slots without their bytes, which the data
  file is modelled with.
-/

set_option autoImplicit false

namespace EBTree.Engine

/-! ## The bytes of a slot -/

namespace GcMeta

variable {c : GcMeta}

@[simp] theorem length_checked (c : GcMeta) : c.checked.length = 24 := by simp [checked]

@[simp] theorem length_encode (c : GcMeta) : c.encode.length = kGcMetaSize := by
  rw [encode, List.length_append, List.length_append, length_checked, length_le,
    List.length_replicate]
  rfl

theorem fieldAt_magic (c : GcMeta) : fieldAt c.encode 0 8 = le 8 c.magic := by
  simp only [encode, checked, List.append_assoc, fieldAt_here, length_le]

theorem fieldAt_crc32 (c : GcMeta) : fieldAt c.encode 24 4 = le 4 c.crc32.toNat := by
  simp (disch := simp only [length_checked, length_le, Nat.le_refl]) only [encode, fieldAt_skip, length_checked, Nat.sub_self, fieldAt_here]

theorem decode_encode (c : GcMeta) : RegionManager.decode c.encode = RegionManager.ofMeta c := by
  have hepoch : c.epoch.toNat < 256 ^ 8 := c.epoch.toNat_lt
  simp (disch := simp) only [RegionManager.decode, RegionManager.ofMeta, encode, checked,
    List.append_assoc, fieldAt_skip, length_le, Nat.reduceSub, fieldAt_here, leNat_le,
    Nat.mod_eq_of_lt hepoch, UInt64.ofNat_toNat]
  rfl

/-- The bytes are checked as the fields are. -/
theorem validateCritical_encode (c : GcMeta) (hm : c.magic < 2 ^ 64) :
    GcMetaFile.validateCritical c.encode = c.validateCritical := by
  have hcrc : c.crc32.toNat < 256 ^ 4 := c.crc32.toNat_lt
  have hmagic : c.magic < 256 ^ 8 := hm
  have htake : c.encode.take 24 = c.checked := List.take_left' (length_checked c)
  rw [GcMetaFile.validateCritical, validateCritical, fieldAt_magic, fieldAt_crc32, htake, leNat_le,
    leNat_le, Nat.mod_eq_of_lt hcrc, Nat.mod_eq_of_lt hmagic]
  simp only [UInt32.toNat_inj]

end GcMeta

theorem fieldAt_take {bs : Bytes} {o n k : Nat} (h : o + n ≤ k) :
    fieldAt (bs.take k) o n = fieldAt bs o n := by
  rw [fieldAt, fieldAt, List.drop_take, List.take_take, Nat.min_eq_left (by omega)]

namespace GcMetaFile

variable {file : Option Bytes} {f bs bs' : Bytes} {m : RegionManager} {i n : Nat}

/-- Nothing behind the checksum matters. -/
theorem validateCritical_take (bs : Bytes) :
    validateCritical (bs.take kGcMetaCriticalSize) = validateCritical bs := by
  rw [validateCritical, validateCritical, fieldAt_take (by decide), fieldAt_take (by decide),
    List.take_take]
  rfl

theorem decode_take (bs : Bytes) :
    RegionManager.decode (bs.take kGcMetaCriticalSize) = RegionManager.decode bs := by
  rw [RegionManager.decode, RegionManager.decode, fieldAt_take (by decide), fieldAt_take (by decide),
    fieldAt_take (by decide)]

theorem validateCritical_zeros (n : Nat) : validateCritical (List.replicate n 0) = false := by
  have hz : ∀ k, leNat (List.replicate k 0) = 0 := by
    intro k
    induction k with
    | zero => rfl
    | succ k ih => rw [List.replicate_succ, leNat, ih]; rfl
  have hf : fieldAt (List.replicate n 0) 0 8 = List.replicate (min 8 n) 0 := by
    rw [fieldAt, List.drop_zero, List.take_replicate]
  rw [validateCritical, hf, hz]
  rfl

theorem valid_of_read (h : readSlot file i = .ok bs) :
    valid file i = if validateCritical bs then some (RegionManager.decode bs) else none := by
  rw [valid, h]

/-- Slots that agree in what is checked. -/
theorem valid_congr {file' : Option Bytes} {i' : Nat} (h : readSlot file i = .ok bs)
    (h' : readSlot file' i' = .ok bs')
    (he : bs.take kGcMetaCriticalSize = bs'.take kGcMetaCriticalSize) :
    valid file i = valid file' i' := by
  rw [valid_of_read h, valid_of_read h', ← validateCritical_take bs, ← decode_take bs, he,
    validateCritical_take, decode_take]

theorem readSlot_eq_ok : readSlot (some f) i = .ok bs ↔
    readAt? f (i * kGcMetaSize) kGcMetaSize = some bs := by
  rw [readSlot]
  cases readAt? f (i * kGcMetaSize) kGcMetaSize <;> simp

theorem valid_some (h : valid file i = some m) : ∃ f bs, file = some f ∧
    readAt? f (i * kGcMetaSize) kGcMetaSize = some bs ∧ validateCritical bs = true := by
  cases file with
  | none => cases h
  | some f =>
    rw [valid, readSlot] at h
    cases hr : readAt? f (i * kGcMetaSize) kGcMetaSize with
    | none =>
      rw [hr] at h
      cases h
    | some bs =>
      refine ⟨f, bs, rfl, hr, ?_⟩
      rw [hr] at h
      exact Classical.not_not.1 fun hv => by simp [hv] at h

/-- A file of zeros has no valid slot. -/
theorem valid_zeros (n i : Nat) : valid (some (List.replicate n 0)) i = none := by
  cases hv : valid (some (List.replicate n 0)) i with
  | none => rfl
  | some m =>
    obtain ⟨f, bs, he, hr, hc⟩ := valid_some hv
    cases he
    have hbs : bs = List.replicate (min kGcMetaSize (n - i * kGcMetaSize)) 0 := by
      rw [(readAt?_some hr).2.1, List.drop_replicate, List.take_replicate]
    rw [hbs, validateCritical_zeros] at hc
    exact absurd hc Bool.false_ne_true

/-! ## Writes to one slot -/

/-- What is read of a slot that was written, whole or in part. -/
theorem readAt?_overwrite_mixed {o : Nat} {data : Bytes} (hd : data.length ≤ n)
    (h : readAt? (overwrite f o data) o n = some bs) :
    bs = data ++ ((f.drop o).take n).drop data.length := by
  have hpre : (f.take o ++ List.replicate (o - f.length) 0).length = o := by
    rw [List.length_append, List.length_take, List.length_replicate]
    omega
  rw [(readAt?_some h).2.1, overwrite, List.append_assoc, List.drop_append_of_le_length
    (Nat.le_of_eq hpre.symm), List.drop_of_length_le (Nat.le_of_eq hpre), List.nil_append,
    List.take_append, List.take_of_length_le hd, List.drop_take, List.drop_drop]

/-- A file whose first slot is there, or in which nothing was written. -/
def Filled (f : Bytes) : Prop := kGcMetaSize ≤ f.length ∨ ∃ n, f = List.replicate n 0

theorem Filled.created (h : ∀ f, file = some f → Filled f) (i : Nat) : Filled (created file i) := by
  cases file with
  | none => exact .inr ⟨_, rfl⟩
  | some f => exact h f rfl

theorem valid_created (i j : Nat) : valid (some (created file i)) j = valid file j := by
  cases file with
  | none => exact valid_zeros _ _
  | some f => rfl

/-- A write to the second slot leaves the first as it is. -/
theorem valid_overwrite_first {data : Bytes} (hf : Filled f) :
    valid (some (overwrite f (1 * kGcMetaSize) data)) 0 = valid (some f) 0 := by
  rcases hf with hl | ⟨n, rfl⟩
  · have hr : readAt? f (0 * kGcMetaSize) kGcMetaSize =
        some ((f.drop (0 * kGcMetaSize)).take kGcMetaSize) := if_pos (by omega)
    have hr' : readAt? (overwrite f (1 * kGcMetaSize) data) (0 * kGcMetaSize) kGcMetaSize =
        some ((f.drop (0 * kGcMetaSize)).take kGcMetaSize) := readAt?_overwrite_of_le hr (by omega)
    rw [valid, valid, readSlot_eq_ok.2 hr, readSlot_eq_ok.2 hr']
  · rw [valid_zeros]
    cases hv : valid (some (overwrite (List.replicate n 0) (1 * kGcMetaSize) data)) 0 with
    | none => rfl
    | some m =>
      obtain ⟨g, bs, he, hr, hc⟩ := valid_some hv
      cases he
      have hbs : bs = List.replicate kGcMetaSize 0 := by
        rw [(readAt?_some hr).2.1, overwrite, Nat.one_mul, Nat.zero_mul, List.drop_zero,
          List.length_replicate, List.take_replicate, List.replicate_append_replicate,
          List.append_assoc, List.take_append_of_le_length
            (by rw [List.length_replicate]; omega), List.take_replicate]
        congr 1
        omega
      rw [hbs, validateCritical_zeros] at hc
      exact absurd hc Bool.false_ne_true

/-- A write to the first slot leaves the second as it is. -/
theorem valid_overwrite_second {data : Bytes} (hd : data.length ≤ kGcMetaSize)
    (hl : 2 * kGcMetaSize ≤ f.length) :
    valid (some (overwrite f (0 * kGcMetaSize) data)) 1 = valid (some f) 1 := by
  have hr : readAt? f (1 * kGcMetaSize) kGcMetaSize =
      some ((f.drop (1 * kGcMetaSize)).take kGcMetaSize) := if_pos (by omega)
  have hr' : readAt? (overwrite f (0 * kGcMetaSize) data) (1 * kGcMetaSize) kGcMetaSize =
      some ((f.drop (1 * kGcMetaSize)).take kGcMetaSize) := readAt?_overwrite_of_ge hr (by omega)
  rw [valid, valid, readSlot_eq_ok.2 hr, readSlot_eq_ok.2 hr']

/-! ## Loading -/

/-- **What `Load` answers with**: the newer of the valid slots. -/
theorem load_cases (file : Option Bytes) :
    (load file = RegionManager.initial ∧ ∀ i < 2, valid file i = none) ∨
      ∃ i < 2, valid file i = some (load file) ∧
        ∀ j < 2, ∀ m, valid file j = some m → m.epoch ≤ (load file).epoch := by
  have hcover : ∀ a : RegionManager, (∀ m', valid file 0 = some m' → m'.epoch ≤ a.epoch) →
      (∀ m', valid file 1 = some m' → m'.epoch ≤ a.epoch) →
      ∀ j < 2, ∀ m, valid file j = some m → m.epoch ≤ a.epoch := by
    intro a h0 h1 j hj m' hm'
    obtain rfl | rfl : j = 0 ∨ j = 1 := by omega
    · exact h0 m' hm'
    · exact h1 m' hm'
  unfold load
  cases h0 : valid file 0 with
  | none =>
    cases h1 : valid file 1 with
    | none =>
      refine .inl ⟨rfl, fun i hi => ?_⟩
      obtain rfl | rfl : i = 0 ∨ i = 1 := by omega
      · exact h0
      · exact h1
    | some b =>
      refine .inr ⟨1, by decide, h1, hcover b (fun m' hm' => ?_) fun m' hm' => ?_⟩
      · rw [h0] at hm'
        cases hm'
      · rw [h1] at hm'
        cases hm'
        exact UInt64.le_refl _
  | some a =>
    cases h1 : valid file 1 with
    | none =>
      refine .inr ⟨0, by decide, h0, hcover a (fun m' hm' => ?_) fun m' hm' => ?_⟩
      · rw [h0] at hm'
        cases hm'
        exact UInt64.le_refl _
      · rw [h1] at hm'
        cases hm'
    | some b =>
      by_cases hle : b.epoch ≤ a.epoch
      · refine .inr ⟨0, by decide, by simp [h0, hle], ?_⟩
        simp only [hle, if_true]
        refine hcover a (fun m' hm' => ?_) fun m' hm' => ?_
        · rw [h0] at hm'
          cases hm'
          exact UInt64.le_refl _
        · rw [h1] at hm'
          cases hm'
          exact hle
      · refine .inr ⟨1, by decide, by simp [h1, hle], ?_⟩
        simp only [hle, if_false]
        refine hcover b (fun m' hm' => ?_) fun m' hm' => ?_
        · rw [h0] at hm'
          cases hm'
          exact UInt64.le_of_lt (UInt64.not_le.1 hle)
        · rw [h1] at hm'
          cases hm'
          exact UInt64.le_refl _

end GcMetaFile

/-! ## The invariant -/

namespace GcStore

open GcMetaFile

variable {t : GcStore} {file' : Option Bytes} {m : RegionManager} {i n k : Nat}

/-- The generations of a slot. -/
def generationsOf (i : Nat) : UInt8 × UInt8 := (UInt8.ofNat i, 1 - UInt8.ofNat i)

/-- What holds of a store after `n` swaps. A valid slot holds an epoch of its parity and the
generations that go with it; the fields in memory are those of a valid slot, or the first ones; and
no slot is newer, as long as the epochs have not run out. -/
structure Sound (n : Nat) (t : GcStore) : Prop where
  parity : ∀ i < 2, ∀ m, valid t.file i = some m →
    m.epoch.toNat % 2 = i ∧ m.generations = generationsOf i
  stands : (t.regions = RegionManager.initial ∧ ∀ i < 2, valid t.file i = none) ∨
    valid t.file (t.regions.epoch.toNat % 2) = some t.regions
  filled : ∀ f, t.file = some f → Filled f
  newest : n < 2 ^ 64 → t.regions.epoch.toNat ≤ n ∧
    ∀ i < 2, ∀ m, valid t.file i = some m → m.epoch ≤ t.regions.epoch

theorem slot_eq (t : GcStore) : t.slot = (t.regions.epoch.toNat + 1) % 2 := by
  rw [slot, RegionManager.swapped, UInt64.toNat_mod, UInt64.toNat_add, UInt64.toNat_one]
  show (t.regions.epoch.toNat + 1) % 2 ^ 64 % 2 = _
  rw [Nat.mod_mod_of_dvd _ (by decide)]

theorem slot_lt (t : GcStore) : t.slot < 2 := by
  rw [slot_eq]
  exact Nat.mod_lt _ (by decide)

theorem swapped_parity (t : GcStore) : t.regions.swapped.epoch.toNat % 2 = t.slot := by
  rw [slot, UInt64.toNat_mod]
  rfl

/-- The generations after a swap are those of the slot it goes to. -/
theorem Sound.swapped_generations (h : Sound n t) :
    t.regions.swapped.generations = generationsOf t.slot := by
  have hslot := slot_eq t
  rcases h.stands with ⟨hinit, -⟩ | hv
  · rw [hslot, hinit]
    rfl
  · obtain ⟨-, hg⟩ := h.parity _ (Nat.mod_lt _ (by decide)) _ hv
    have ha : t.regions.activeGeneration = UInt8.ofNat (t.regions.epoch.toNat % 2) :=
      congrArg Prod.fst hg
    rw [hslot]
    show (1 - t.regions.activeGeneration, t.regions.activeGeneration) = _
    rw [ha]
    rcases Nat.mod_two_eq_zero_or_one t.regions.epoch.toNat with hp | hp
    · rw [hp, show (t.regions.epoch.toNat + 1) % 2 = 1 by omega]
      rfl
    · rw [hp, show (t.regions.epoch.toNat + 1) % 2 = 0 by omega]
      rfl

theorem decode_block (t : GcStore) : RegionManager.decode t.block.encode = t.regions.swapped := by
  rw [GcMeta.decode_encode]
  rfl

theorem validateCritical_block (t : GcStore) : validateCritical t.block.encode = true := by
  rw [GcMeta.validateCritical_encode _ (by show kGcMagic < 2 ^ 64; decide), GcMeta.validateCritical,
    Bool.and_eq_true, decide_eq_true_eq, decide_eq_true_eq]
  exact ⟨rfl, rfl⟩

/-! ## A slot that is written -/

/-- What a write to the slot of a swap, whole or in part, leaves in the file. -/
structure Wrote (t : GcStore) (file' : Option Bytes) : Prop where
  filled : ∀ f, file' = some f → Filled f
  other : valid file' (1 - t.slot) = valid t.file (1 - t.slot)
  same : valid file' t.slot = none ∨ valid file' t.slot = valid t.file t.slot ∨
    valid file' t.slot = some t.regions.swapped

/-- A file that has a valid second slot has both. -/
theorem length_of_valid {f : Bytes} (hf : t.file = some f) (h : valid t.file 1 = some m) :
    2 * kGcMetaSize ≤ f.length := by
  obtain ⟨g, bs, he, hr, -⟩ := valid_some h
  rw [hf] at he
  cases he
  have := (readAt?_some hr).1
  omega

/-- The other slot is not touched. The first swap goes to the second slot, and one that goes to the
first finds the second in the file. -/
theorem Sound.valid_other (h : Sound n t) {data : Bytes} (hd : data.length ≤ kGcMetaSize) :
    valid (writeSlot t.file t.slot data) (1 - t.slot) = valid t.file (1 - t.slot) := by
  have hslot := slot_eq t
  rw [writeSlot]
  rcases Nat.mod_two_eq_zero_or_one t.regions.epoch.toNat with hp | hp
  · have h1 : t.slot = 1 := by omega
    rw [h1, valid_overwrite_first (Filled.created h.filled 1), valid_created]
  · have h0 : t.slot = 0 := by omega
    rcases h.stands with ⟨hinit, -⟩ | hv
    · rw [hinit] at hp
      exact absurd hp (by decide)
    · rw [hp] at hv
      obtain ⟨f, -, hf, -⟩ := valid_some hv
      have hl := length_of_valid hf hv
      have hc : created t.file 0 = f := by rw [hf]; rfl
      rw [h0, hc, valid_overwrite_second hd hl, ← hf]

theorem Sound.filled_write (h : Sound n t) {data : Bytes} :
    ∀ f, writeSlot t.file t.slot data = some f → Filled f := by
  intro f hf
  have hslot := slot_eq t
  cases hf
  refine .inl ?_
  rw [length_overwrite]
  rcases Nat.mod_two_eq_zero_or_one t.regions.epoch.toNat with hp | hp
  · rw [show t.slot = 1 by omega]
    omega
  · rcases h.stands with ⟨hinit, -⟩ | hv
    · rw [hinit] at hp
      exact absurd hp (by decide)
    · rw [hp] at hv
      obtain ⟨f, -, hf, -⟩ := valid_some hv
      have hl := length_of_valid hf hv
      have hc : created t.file t.slot = f := by rw [hf]; rfl
      rw [hc]
      omega

/-- **A slot that was written as a whole** is valid. -/
theorem valid_block (t : GcStore) :
    valid (writeSlot t.file t.slot t.block.encode) t.slot = some t.regions.swapped := by
  have hr := readAt?_overwrite (created t.file t.slot) t.block.encode (t.slot * kGcMetaSize)
  rw [GcMeta.length_encode] at hr
  rw [writeSlot, valid_of_read (readSlot_eq_ok.2 hr), validateCritical_block, decode_block, if_pos rfl]

theorem Sound.wrote (h : Sound n t) : Wrote t (writeSlot t.file t.slot t.block.encode) where
  filled := h.filled_write
  other := h.valid_other (Nat.le_of_eq (GcMeta.length_encode _))
  same := .inr (.inr (valid_block t))

/-- What is read of a slot that is cut off. -/
theorem mixed_eq {bs : Bytes} (h : readAt? (overwrite (created t.file t.slot) (t.slot * kGcMetaSize)
    (t.block.encode.take k)) (t.slot * kGcMetaSize) kGcMetaSize = some bs) : bs = t.mixed k := by
  have hd : (t.block.encode.take k).length = min k kGcMetaSize := by
    rw [List.length_take, GcMeta.length_encode]
  rw [readAt?_overwrite_mixed (by omega) h, mixed, hd, fieldAt]
  congr 1
  by_cases hk : k ≤ kGcMetaSize
  · rw [Nat.min_eq_left hk]
  · rw [List.drop_of_length_le (by rw [List.length_take]; omega),
      List.drop_of_length_le (by rw [List.length_take]; omega)]

/-- A slot that is cut off is rejected, or as before, or new. -/
theorem valid_cut (hc : t.Assumed (.writing k)) :
    valid (writeSlot t.file t.slot (t.block.encode.take k)) t.slot = none ∨
      valid (writeSlot t.file t.slot (t.block.encode.take k)) t.slot = valid t.file t.slot ∨
      valid (writeSlot t.file t.slot (t.block.encode.take k)) t.slot = some t.regions.swapped := by
  by_cases hk : kGcMetaSize ≤ k
  · rw [List.take_of_length_le (by rw [GcMeta.length_encode]; exact hk)]
    exact .inr (.inr (valid_block t))
  rw [writeSlot]
  cases hr : readAt? (overwrite (created t.file t.slot) (t.slot * kGcMetaSize)
      (t.block.encode.take k)) (t.slot * kGcMetaSize) kGcMetaSize with
  | none => exact .inl (by rw [valid, readSlot, hr])
  | some bs =>
    have hbs := mixed_eq hr
    by_cases hv : validateCritical bs = true
    · rw [hbs] at hv hr
      rcases hc hv with hold | hnew
      · refine .inr (.inl ?_)
        have hlen := (readAt?_some hr).1
        rw [length_overwrite, List.length_take, GcMeta.length_encode] at hlen
        have hin : readAt? (created t.file t.slot) (t.slot * kGcMetaSize) kGcMetaSize =
            some (t.mixed 0) := by
          rw [mixed, List.take_zero, List.drop_zero, List.nil_append, fieldAt]
          exact if_pos (by omega)
        have hcreated : valid (some (created t.file t.slot)) t.slot = valid t.file t.slot :=
          valid_created t.slot t.slot
        rw [← hcreated]
        exact valid_congr (readSlot_eq_ok.2 hr) (readSlot_eq_ok.2 hin) hold
      · refine .inr (.inr ?_)
        rw [valid_of_read (readSlot_eq_ok.2 hr), if_pos hv, ← decode_block t, ← decode_take, hnew,
          decode_take]
    · exact .inl (by rw [valid_of_read (readSlot_eq_ok.2 hr), if_neg hv])

/-- **A write that is cut off.** -/
theorem Sound.wroteUpTo (h : Sound n t) {c : Crash} (hc : t.Assumed c) :
    Wrote t (writeSlotUpTo t.file t.slot t.block.encode c) := by
  cases c with
  | creating j =>
    cases hf : t.file with
    | none =>
      refine ⟨fun f he => ?_, ?_, .inl (valid_zeros _ _)⟩
      · cases he
        exact .inr ⟨_, rfl⟩
      · rw [hf]
        exact valid_zeros _ _
    | some f =>
      rw [← hf]
      have he : writeSlotUpTo t.file t.slot t.block.encode (.creating j) = t.file := by
        rw [hf]
        rfl
      rw [he]
      exact ⟨h.filled, rfl, .inr (.inl rfl)⟩
  | writing k =>
    cases k with
    | zero =>
      refine ⟨fun f he => ?_, valid_created _ _, .inr (.inl (valid_created _ _))⟩
      cases he
      exact Filled.created h.filled _
    | succ k =>
      have hd : (t.block.encode.take (k + 1)).length ≤ kGcMetaSize := by
        rw [List.length_take, GcMeta.length_encode]
        exact Nat.min_le_right _ _
      exact ⟨h.filled_write, h.valid_other hd, valid_cut hc⟩

/-! ## What the write leaves -/

/-- A valid slot after the write is one from before, or the new one. -/
theorem Wrote.valid_cases (hw : Wrote t file') (hi : i < 2) (hv : valid file' i = some m) :
    valid t.file i = some m ∨ i = t.slot ∧ m = t.regions.swapped := by
  have hs := slot_lt t
  by_cases he : i = t.slot
  · rw [he] at hv ⊢
    rcases hw.same with h | h | h
    · rw [h] at hv
      cases hv
    · exact .inl (h ▸ hv)
    · rw [h] at hv
      cases hv
      exact .inr ⟨rfl, rfl⟩
  · rw [show i = 1 - t.slot by omega] at hv ⊢
    exact .inl (hw.other ▸ hv)

theorem Sound.parity_after (h : Sound n t) (hw : Wrote t file') :
    ∀ i < 2, ∀ m, valid file' i = some m →
      m.epoch.toNat % 2 = i ∧ m.generations = generationsOf i := by
  intro i hi m hv
  rcases hw.valid_cases hi hv with hold | ⟨rfl, rfl⟩
  · exact h.parity i hi m hold
  · exact ⟨swapped_parity t, h.swapped_generations⟩

theorem swapped_epoch (h : t.regions.epoch.toNat + 1 < 2 ^ 64) :
    t.regions.swapped.epoch.toNat = t.regions.epoch.toNat + 1 := by
  rw [RegionManager.swapped, UInt64.toNat_add, UInt64.toNat_one, Nat.mod_eq_of_lt h]

/-- The epochs after the write. -/
theorem Sound.epoch_after (h : Sound n t) (hw : Wrote t file') (hn : n + 1 < 2 ^ 64) (hi : i < 2)
    (hv : valid file' i = some m) : m.epoch.toNat ≤ t.regions.epoch.toNat + 1 := by
  obtain ⟨hle, hnew⟩ := h.newest (by omega)
  rcases hw.valid_cases hi hv with hold | ⟨-, rfl⟩
  · have := UInt64.le_iff_toNat_le.1 (hnew i hi m hold)
    omega
  · exact Nat.le_of_eq (swapped_epoch (by omega))

/-- A valid slot that loads is the one of its parity. -/
theorem stands_load (hpar : ∀ i < 2, ∀ m, valid file' i = some m → m.epoch.toNat % 2 = i ∧
    m.generations = generationsOf i) :
    (load file' = RegionManager.initial ∧ ∀ i < 2, valid file' i = none) ∨
      valid file' ((load file').epoch.toNat % 2) = some (load file') := by
  rcases load_cases file' with hnone | ⟨i, hi, hv, -⟩
  · exact .inl hnone
  · rw [(hpar i hi _ hv).1]
    exact .inr hv

theorem newest_load {i : Nat} (hi : i < 2) {m : RegionManager} (hv : valid file' i = some m) :
    m.epoch ≤ (load file').epoch := by
  rcases load_cases file' with ⟨-, hnone⟩ | ⟨-, -, -, hmax⟩
  · rw [hnone i hi] at hv
    cases hv
  · exact hmax i hi m hv

/-! ## Steps -/

theorem Sound.opened : Sound 0 (reload ⟨none, RegionManager.initial⟩) where
  parity _ _ m hm := nomatch (show none = some m from hm)
  stands := .inl ⟨rfl, fun _ _ => rfl⟩
  filled _ hf := nomatch hf
  newest _ := ⟨Nat.le_refl 0, fun _ _ m hm => nomatch (show none = some m from hm)⟩

theorem Sound.swap (h : Sound n t) : Sound (n + 1) t.swapRegions where
  parity := h.parity_after h.wrote
  stands := by
    refine .inr ?_
    show valid _ (t.regions.swapped.epoch.toNat % 2) = some t.regions.swapped
    rw [swapped_parity]
    exact valid_block t
  filled := h.filled_write
  newest hn := by
    obtain ⟨hle, -⟩ := h.newest (by omega)
    have he : t.swapRegions.regions.epoch.toNat = t.regions.epoch.toNat + 1 :=
      swapped_epoch (by omega)
    refine ⟨by omega, fun i hi m hm => UInt64.le_iff_toNat_le.2 ?_⟩
    rw [he]
    exact h.epoch_after h.wrote hn hi hm

theorem Sound.crash (h : Sound n t) {c : Crash} (hc : t.Assumed c) : Sound (n + 1) (t.crash c) where
  parity := h.parity_after (h.wroteUpTo hc)
  stands := stands_load (h.parity_after (h.wroteUpTo hc))
  filled := (h.wroteUpTo hc).filled
  newest hn := by
    refine ⟨?_, fun i hi m hm => newest_load hi hm⟩
    obtain ⟨hle, -⟩ := h.newest (by omega)
    rcases load_cases (t.crash c).file with ⟨hinit, -⟩ | ⟨i, hi, hv, -⟩
    · rw [show (t.crash c).regions = RegionManager.initial from hinit]
      exact Nat.zero_le _
    · have := h.epoch_after (h.wroteUpTo hc) hn hi hv
      exact Nat.le_trans this (by omega)

theorem Sound.reload (h : Sound n t) : Sound n t.reload where
  parity := h.parity
  stands := stands_load h.parity
  filled := h.filled
  newest hn := by
    obtain ⟨hle, hnew⟩ := h.newest hn
    refine ⟨?_, fun i hi m hm => newest_load hi hm⟩
    rcases load_cases t.file with ⟨hinit, -⟩ | ⟨i, hi, hv, -⟩
    · rw [show t.reload.regions = RegionManager.initial from hinit]
      exact Nat.zero_le _
    · exact Nat.le_trans (UInt64.le_iff_toNat_le.1 (hnew i hi _ hv)) hle

theorem Run.sound (hr : Run n t) : Sound n t := by
  induction hr with
  | opened => exact Sound.opened
  | swap _ ih => exact ih.swap
  | crash _ hc ih => exact ih.crash hc
  | reload _ ih => exact ih.reload

/-! ## What loads after a crash -/

/-- The generations that load are those from before the swap or those after it: a slot that was
there before holds the generations of its parity. -/
theorem Sound.crash_generations (h : Sound n t) {c : Crash} (hc : t.Assumed c) :
    (t.crash c).regions.generations = t.regions.generations ∨
      (t.crash c).regions.generations = t.regions.swapped.generations := by
  have hslot := slot_eq t
  have hw := h.wroteUpTo hc
  rcases load_cases (t.crash c).file with ⟨hinit, hnone⟩ | ⟨i, hi, hv, -⟩
  · -- nothing is valid, so the other slot was not either, and nothing was swapped yet
    rcases h.stands with ⟨hfirst, -⟩ | hv
    · exact .inl (congrArg _ (hinit.trans hfirst.symm))
    · have hother := hw.other
      rw [show 1 - t.slot = t.regions.epoch.toNat % 2 by omega, hv] at hother
      exact absurd (hother.symm.trans (hnone _ (by omega))) (by simp)
  · obtain ⟨-, hg⟩ := h.parity_after hw i hi _ hv
    have hg' : (t.crash c).regions.generations = generationsOf i := hg
    by_cases he : i = t.slot
    · exact .inr (by rw [hg', h.swapped_generations, he])
    · rcases hw.valid_cases hi hv with hold | ⟨hi', -⟩
      · rcases h.stands with ⟨-, hnone⟩ | hstands
        · rw [hnone i hi] at hold
          cases hold
        · rw [show i = t.regions.epoch.toNat % 2 by omega] at hg'
          exact .inl (by rw [hg', (h.parity _ (by omega) _ hstands).2])
      · exact absurd hi' he

/-- As long as the epochs do not run out, all fields are those from before or those after it. -/
theorem Sound.crash_regions (h : Sound n t) {c : Crash} (hc : t.Assumed c) (hn : n + 1 < 2 ^ 64) :
    (t.crash c).regions = t.regions ∨ (t.crash c).regions = t.regions.swapped := by
  have hslot := slot_eq t
  have hw := h.wroteUpTo hc
  obtain ⟨-, hnew⟩ := h.newest (by omega)
  rcases h.stands with ⟨hinit, hnone⟩ | hstands
  · rcases load_cases (t.crash c).file with ⟨hfirst, -⟩ | ⟨i, hi, hv, -⟩
    · exact .inl (hfirst.trans hinit.symm)
    · rcases hw.valid_cases hi hv with hold | ⟨-, he⟩
      · rw [hnone i hi] at hold
        cases hold
      · exact .inr he
  · have hother := hw.other
    rw [show 1 - t.slot = t.regions.epoch.toNat % 2 by omega, hstands] at hother
    rcases load_cases (t.crash c).file with ⟨-, hno⟩ | ⟨i, hi, hv, hmax⟩
    · exact absurd (hother.symm.trans (hno _ (by omega))) (by simp)
    · rcases hw.valid_cases hi hv with hold | ⟨-, he⟩
      · -- an old slot is not newer than the one in memory, which is still there
        have hle := hnew i hi _ hold
        have hge := hmax _ (by omega) _ hother
        have hepoch := UInt64.le_antisymm hle hge
        have hi' := (h.parity i hi _ hold).1
        rw [hepoch] at hi'
        rw [← hi', hstands] at hold
        exact .inl (Option.some.inj hold).symm
      · exact .inr he

/-- The swap after a `Load` goes to the slot that did not answer: it holds nothing as new, and the
slot that answered stays as it is. -/
theorem Sound.next_swap (h : Sound n t) (hl : t.regions = load t.file) :
    (∀ m, valid t.file t.slot = some m → m.epoch < t.regions.epoch) ∧
      valid t.swapRegions.file (1 - t.slot) = valid t.file (1 - t.slot) ∧
      (valid t.file (1 - t.slot) = some t.regions ∨ ∀ i < 2, valid t.file i = none) := by
  have hslot := slot_eq t
  have hs := slot_lt t
  refine ⟨fun m hm => ?_, h.wrote.other, ?_⟩
  · have hle : m.epoch ≤ t.regions.epoch := hl ▸ newest_load hs hm
    refine UInt64.lt_of_le_of_ne hle fun he => ?_
    have hp := (h.parity _ hs _ hm).1
    rw [he] at hp
    omega
  · rw [show 1 - t.slot = t.regions.epoch.toNat % 2 by omega]
    rcases h.stands with ⟨-, hnone⟩ | hstands
    · exact .inr hnone
    · exact .inl hstands

/-- The file with these slots. -/
def fileOf (slots : List GcMeta) : Option Bytes :=
  if slots = [] then none else some (slots.flatMap GcMeta.encode)

theorem length_flatMap_encode (slots : List GcMeta) :
    (slots.flatMap GcMeta.encode).length = slots.length * kGcMetaSize := by
  induction slots with
  | nil => rfl
  | cons c slots ih =>
    rw [List.flatMap_cons, List.length_append, ih, GcMeta.length_encode, List.length_cons,
      Nat.succ_mul, Nat.add_comm]

theorem readAt?_flatMap_encode (slots : List GcMeta) (i : Nat) :
    readAt? (slots.flatMap GcMeta.encode) (i * kGcMetaSize) kGcMetaSize =
      (slots[i]?).map GcMeta.encode := by
  by_cases hi : i < slots.length
  · have hsplit := List.take_append_drop i slots
    rw [List.getElem?_eq_getElem hi, Option.map_some]
    refine readAt?_of_append ((slots.take i).flatMap GcMeta.encode)
      ((slots.drop (i + 1)).flatMap GcMeta.encode) ?_ ?_ (GcMeta.length_encode _).symm
    · rw [← List.flatMap_cons, ← List.flatMap_append, List.getElem_cons_drop,
        List.take_append_drop]
    · rw [length_flatMap_encode, List.length_take_of_le (Nat.le_of_lt hi)]
  · rw [List.getElem?_eq_none (by omega), Option.map_none, readAt?_eq_none_iff,
      length_flatMap_encode]
    have := Nat.mul_le_mul_right kGcMetaSize (show slots.length ≤ i by omega)
    have : 0 < kGcMetaSize := by decide
    omega

theorem valid_fileOf {slots : List GcMeta} (hm : ∀ c ∈ slots, c.magic < 2 ^ 64) (i : Nat) :
    valid (fileOf slots) i =
      ((slots[i]?).filter (·.validateCritical)).map RegionManager.ofMeta := by
  by_cases he : slots = []
  · rw [he]
    rfl
  · rw [fileOf, if_neg he, valid, readSlot, readAt?_flatMap_encode]
    cases hc : slots[i]? with
    | none => rfl
    | some c =>
      have hv := c.validateCritical_encode (hm c (List.mem_of_getElem? hc))
      simp only [Option.map_some, hv, GcMeta.decode_encode, Option.filter_some]
      by_cases hcv : c.validateCritical = true <;> simp [hcv]

/-- **`Load` of the bytes** is `Load` of the slots. -/
theorem load_fileOf {slots : List GcMeta} (hm : ∀ c ∈ slots, c.magic < 2 ^ 64) :
    load (fileOf slots) = RegionManager.load slots := by
  rw [load, RegionManager.load, valid_fileOf hm, valid_fileOf hm]
  cases (slots[0]?).filter (·.validateCritical) with
  | none => cases (slots[1]?).filter (·.validateCritical) <;> rfl
  | some a => cases (slots[1]?).filter (·.validateCritical) <;> rfl

theorem overwrite_flatMap_encode {slots : List GcMeta} {i : Nat} (hi : i < slots.length)
    (c : GcMeta) : overwrite (slots.flatMap GcMeta.encode) (i * kGcMetaSize) c.encode =
      (slots.set i c).flatMap GcMeta.encode := by
  have hpre : ((slots.take i).flatMap GcMeta.encode).length = i * kGcMetaSize := by
    rw [length_flatMap_encode, List.length_take_of_le (Nat.le_of_lt hi)]
  have hpost : ((slots.drop i).flatMap GcMeta.encode).drop c.encode.length =
      (slots.drop (i + 1)).flatMap GcMeta.encode := by
    rw [← List.getElem_cons_drop hi, List.flatMap_cons]
    exact List.drop_left' (by rw [GcMeta.length_encode, GcMeta.length_encode])
  have hw := overwrite_append ((slots.take i).flatMap GcMeta.encode)
    ((slots.drop i).flatMap GcMeta.encode) c.encode
  rw [← List.flatMap_append, List.take_append_drop, hpre, hpost] at hw
  rw [hw, List.set_eq_take_append_cons_drop, if_pos hi, List.flatMap_append, List.flatMap_cons,
    List.append_assoc]

theorem flatMap_zero (n : Nat) : (List.replicate n GcMeta.zero).flatMap GcMeta.encode =
    List.replicate (n * kGcMetaSize) 0 := by
  have hzero : GcMeta.zero.encode = List.replicate kGcMetaSize 0 := by
    have h28 : GcMeta.zero.checked ++ le 4 GcMeta.zero.crc32.toNat = List.replicate 28 0 := rfl
    rw [GcMeta.encode, ← List.append_assoc, h28, List.replicate_append_replicate]
    rfl
  rw [List.flatMap_replicate, hzero, List.flatten_replicate_replicate]

/-- **`SwapRegions` of the bytes** is `SwapRegions` of the slots, of which there are none or enough. -/
theorem swapRegions_fileOf (m : RegionManager) {slots : List GcMeta}
    (hs : slots = [] ∨ (slot ⟨fileOf slots, m⟩) < slots.length) :
    swapRegions ⟨fileOf slots, m⟩ =
      ⟨fileOf (m.swapRegions slots).2, (m.swapRegions slots).1⟩ := by
  have hfile : writeSlot (fileOf slots) (slot ⟨fileOf slots, m⟩)
      (block ⟨fileOf slots, m⟩).encode = fileOf (m.swapRegions slots).2 := by
    have hset : (m.swapRegions slots).2 = (slots ++ List.replicate
        (slot ⟨fileOf slots, m⟩ + 1 - slots.length) GcMeta.zero).set (slot ⟨fileOf slots, m⟩)
          (block ⟨fileOf slots, m⟩) := rfl
    rw [hset]
    generalize slot ⟨fileOf slots, m⟩ = i at hs ⊢
    generalize block ⟨fileOf slots, m⟩ = c
    have hne : ∀ xs : List GcMeta, i < xs.length → fileOf (xs.set i c) =
        some ((xs.set i c).flatMap GcMeta.encode) := fun xs hi => if_neg fun he => by
      rw [← List.length_eq_zero_iff, List.length_set] at he
      omega
    rcases hs with rfl | hlt
    · rw [List.nil_append, List.length_nil, Nat.sub_zero, hne _ (by simp),
        ← overwrite_flatMap_encode (by simp), flatMap_zero]
      rfl
    · rw [Nat.sub_eq_zero_of_le (by omega), List.replicate_zero, List.append_nil, hne _ hlt,
        ← overwrite_flatMap_encode hlt, fileOf, if_neg (fun he => by simp [he] at hlt)]
      rfl
  show (⟨_, _⟩ : GcStore) = _
  rw [hfile]
  rfl

end GcStore

end EBTree.Engine
