import Mathlib

/-!
# Byte strings

Little-endian integers of a fixed width, and the two file operations every format of the store
is built from: `readAt?` (a read of `n` bytes at an offset, `none` when the file is too short,
as an input stream that hits the end) and `overwrite` (a write at an offset, extending the file).
-/

set_option autoImplicit false

namespace EBTree

/-- Bytes compare as unsigned numbers (`std::char_traits<char>::compare`). -/
instance byteLinearOrder : LinearOrder UInt8 where
  le_refl := UInt8.le_refl
  le_trans _ _ _ := UInt8.le_trans
  le_antisymm _ _ := UInt8.le_antisymm
  le_total := UInt8.le_total
  lt_iff_le_not_ge a b := by
    simp only [UInt8.lt_iff_toNat_lt, UInt8.le_iff_toNat_le]; omega
  toDecidableLE := inferInstance
  toDecidableLT := inferInstance

abbrev Bytes := List UInt8

/-! ## Little-endian integers -/

/-- The `w` low bytes of `x`, least significant first. -/
def le : Nat → Nat → Bytes
  | 0, _ => []
  | w + 1, x => UInt8.ofNat (x % 256) :: le w (x / 256)

/-- The number a little-endian byte string stands for. -/
def leNat : Bytes → Nat
  | [] => 0
  | b :: bs => b.toNat + 256 * leNat bs

@[simp] theorem length_le (w x : Nat) : (le w x).length = w := by
  induction w generalizing x with
  | zero => rfl
  | succ w ih => simp [le, ih]

@[simp] theorem leNat_le (w x : Nat) : leNat (le w x) = x % 256 ^ w := by
  induction w generalizing x with
  | zero => simp [le, leNat, Nat.mod_one]
  | succ w ih =>
    have hb : (UInt8.ofNat (x % 256)).toNat = x % 256 := by
      rw [UInt8.toNat_ofNat']; omega
    rw [le, leNat, ih, hb, pow_succ, Nat.mul_comm (256 ^ w), Nat.mod_mul]

theorem leNat_lt (bs : Bytes) : leNat bs < 256 ^ bs.length := by
  induction bs with
  | nil => simp [leNat]
  | cons b bs ih =>
    have hb := b.toNat_lt
    simp only [leNat, List.length_cons, pow_succ]
    omega

/-- Encoding what was decoded gives the bytes back. -/
theorem le_leNat (bs : Bytes) : le bs.length (leNat bs) = bs := by
  induction bs with
  | nil => rfl
  | cons b bs ih =>
    have hb := b.toNat_lt
    have hm : (b.toNat + 256 * leNat bs) % 256 = b.toNat := by omega
    have hd : (b.toNat + 256 * leNat bs) / 256 = leNat bs := by omega
    simp [le, leNat, hm, hd, ih]

/-! ## Reading -/

/-- `n` bytes at offset `o`; `none` when the file ends before them. -/
def readAt? (f : Bytes) (o n : Nat) : Option Bytes :=
  if o + n ≤ f.length then some ((f.drop o).take n) else none

theorem readAt?_some {f : Bytes} {o n : Nat} {bs : Bytes} (h : readAt? f o n = some bs) :
    o + n ≤ f.length ∧ bs = (f.drop o).take n ∧ bs.length = n := by
  unfold readAt? at h
  split at h
  · cases h
    exact ⟨‹_›, rfl, by simp; omega⟩
  · cases h

theorem readAt?_eq_none_iff {f : Bytes} {o n : Nat} :
    readAt? f o n = none ↔ f.length < o + n := by
  simp [readAt?]

/-- A field laid out after `pre` reads back, whatever follows it. -/
theorem readAt?_mid (pre mid post : Bytes) :
    readAt? (pre ++ (mid ++ post)) pre.length mid.length = some mid := by
  simp [readAt?]

theorem readAt?_of_append (pre post : Bytes) {f mid : Bytes} {o n : Nat} (hf : f = pre ++ (mid ++ post))
    (ho : o = pre.length) (hn : n = mid.length) : readAt? f o n = some mid := by
  subst hf ho hn; exact readAt?_mid pre mid post

/-- A read sees only the bytes from its offset on. -/
theorem readAt?_append_add (pre f : Bytes) (o n : Nat) :
    readAt? (pre ++ f) (pre.length + o) n = readAt? f o n := by
  unfold readAt?
  have h : (pre ++ f).drop (pre.length + o) = f.drop o := by
    rw [List.drop_append]; simp
  simp only [List.length_append, h, Nat.add_assoc, Nat.add_le_add_iff_left]

/-- Reads at or after `o` agree on files of one length that agree from `o` on. -/
theorem readAt?_congr {f g : Bytes} {o o' n : Nat} (hl : f.length = g.length)
    (hd : f.drop o = g.drop o) (ho : o ≤ o') : readAt? f o' n = readAt? g o' n := by
  have h : f.drop o' = g.drop o' := by
    have := congrArg (List.drop (o' - o)) hd
    simpa [List.drop_drop, Nat.add_sub_cancel' ho] using this
  simp [readAt?, hl, h]

/-- Bytes beyond the end of a read do not matter to it. -/
theorem readAt?_append_left {f : Bytes} {o n : Nat} (g : Bytes) (h : o + n ≤ f.length) :
    readAt? (f ++ g) o n = readAt? f o n := by
  have hd : ((f ++ g).drop o).take n = (f.drop o).take n := by
    rw [List.drop_append_of_le_length (by omega), List.take_append_of_le_length (by simp; omega)]
  simp only [readAt?, hd, List.length_append, h, if_true, show o + n ≤ f.length + g.length by omega]

/-! ## Fields of a fixed layout -/

/-- The `n` bytes at offset `o` of a buffer that holds them. -/
def fieldAt (bs : Bytes) (o n : Nat) : Bytes := (bs.drop o).take n

theorem fieldAt_of_append (pre post : Bytes) {bs mid : Bytes} {o n : Nat}
    (h : bs = pre ++ (mid ++ post)) (ho : o = pre.length) (hn : n = mid.length) :
    fieldAt bs o n = mid := by
  subst h ho hn; simp [fieldAt]

/-- A field at the front. -/
theorem fieldAt_here {mid post : Bytes} {n : Nat} (hn : mid.length = n) :
    fieldAt (mid ++ post) 0 n = mid := by
  subst hn; simp [fieldAt]

/-- A field behind others. -/
theorem fieldAt_skip {pre post : Bytes} {o n : Nat} (ho : pre.length ≤ o) :
    fieldAt (pre ++ post) o n = fieldAt post (o - pre.length) n := by
  unfold fieldAt
  rw [List.drop_append, List.drop_eq_nil_of_le ho, List.nil_append]

theorem length_fieldAt {bs : Bytes} {o n : Nat} (h : o + n ≤ bs.length) :
    (fieldAt bs o n).length = n := by
  simp [fieldAt]; omega

/-- `bs` in a buffer of `n` bytes, the rest zero. -/
def padTo (n : Nat) (bs : Bytes) : Bytes := bs.take n ++ List.replicate (n - bs.length) 0

@[simp] theorem length_padTo (n : Nat) (bs : Bytes) : (padTo n bs).length = n := by
  simp [padTo]; omega

theorem padTo_of_le {n : Nat} {bs : Bytes} (h : bs.length ≤ n) :
    padTo n bs = bs ++ List.replicate (n - bs.length) 0 := by
  rw [padTo, List.take_of_length_le h]

theorem take_padTo {n : Nat} {bs : Bytes} (h : bs.length ≤ n) :
    (padTo n bs).take bs.length = bs := by
  rw [padTo_of_le h, List.take_left]

/-! ## Writing -/

/-- A write of `data` at offset `o`: what lies before stays (zero-filled up to `o`), what lies
beyond the written bytes stays too. -/
def overwrite (f : Bytes) (o : Nat) (data : Bytes) : Bytes :=
  f.take o ++ List.replicate (o - f.length) 0 ++ data ++ f.drop (o + data.length)

@[simp] theorem length_overwrite (f : Bytes) (o : Nat) (data : Bytes) :
    (overwrite f o data).length = max f.length (o + data.length) := by
  simp [overwrite]; omega

theorem overwrite_append (pre post data : Bytes) :
    overwrite (pre ++ post) pre.length data = pre ++ data ++ post.drop data.length := by
  have h : (pre ++ post).drop (pre.length + data.length) = post.drop data.length := by
    rw [List.drop_append]; simp
  simp [overwrite, h]

theorem overwrite_end (f data : Bytes) : overwrite f f.length data = f ++ data := by
  have := overwrite_append f [] data
  simpa using this

/-- What a write leaves beyond the bytes written. -/
theorem drop_overwrite {f data : Bytes} {o q : Nat} (hq : o + data.length ≤ q) :
    (overwrite f o data).drop q = f.drop q := by
  unfold overwrite
  rw [List.drop_append, List.drop_eq_nil_of_le (by simp; omega), List.nil_append, List.drop_drop]
  by_cases h : o ≤ f.length
  · congr 1; simp; omega
  · rw [List.drop_eq_nil_of_le (by simp; omega), List.drop_eq_nil_of_le (by omega)]

/-- A write behind a read leaves it as it is. -/
theorem readAt?_overwrite_of_le {f data bs : Bytes} {o o' n : Nat} (h : readAt? f o' n = some bs)
    (ho : o' + n ≤ o) : readAt? (overwrite f o data) o' n = some bs := by
  obtain ⟨hlen, rfl, -⟩ := readAt?_some h
  have htake : ((overwrite f o data).drop o').take n = (f.drop o').take n := by
    rw [overwrite, List.append_assoc, List.append_assoc, List.drop_append_of_le_length
      (by rw [List.length_take]; omega), List.take_append_of_le_length
      (by rw [List.length_drop, List.length_take]; omega), List.drop_take, List.take_take,
      Nat.min_eq_left (by omega)]
  rw [readAt?, if_pos (by rw [length_overwrite]; omega), htake]

/-- A write in front of a read leaves it as it is. -/
theorem readAt?_overwrite_of_ge {f data bs : Bytes} {o o' n : Nat} (h : readAt? f o' n = some bs)
    (ho : o + data.length ≤ o') : readAt? (overwrite f o data) o' n = some bs := by
  obtain ⟨hlen, rfl, -⟩ := readAt?_some h
  rw [readAt?, if_pos (by rw [length_overwrite]; omega), drop_overwrite ho]

/-- What was written reads back, also in parts. -/
theorem readAt?_overwrite_part {f data mid : Bytes} {o o' n : Nat} (pre post : Bytes)
    (hd : data = pre ++ (mid ++ post)) (ho : o' = o + pre.length) (hn : n = mid.length) :
    readAt? (overwrite f o data) o' n = some mid := by
  have hpre : (f.take o ++ List.replicate (o - f.length) 0).length = o := by simp; omega
  refine readAt?_of_append (f.take o ++ List.replicate (o - f.length) 0 ++ pre)
    (post ++ f.drop (o + data.length)) ?_ ?_ hn
  · rw [overwrite, hd]
    simp only [List.append_assoc]
  · rw [List.length_append, hpre, ho]

theorem readAt?_overwrite (f data : Bytes) (o : Nat) :
    readAt? (overwrite f o data) o data.length = some data :=
  readAt?_overwrite_part [] [] (by simp) (by simp) rfl

end EBTree
