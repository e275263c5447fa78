import EBTree.Lib.Decimal
import EBTree.Lib.Find

/-!
# Lines of JSON that are read by searching

Programs without a JSON reader write an object as one line, field by field, and read a field back
by searching the line for its key. What such a search finds in a line written so is said here,
for any keys and any values.

* `behind?_key`: the search for a key finds it where it stands first.
* `behind?_skip`, `behind?_skip_key`, `behind?_skip_body`: it goes over text without quotes, over
  other keys, and over escaped strings, whatever they hold. `behind?_skip_rest` is for a search
  that starts in the middle of one.
* `strtoull_decimal`, `strtoll_signed`: the number that stands behind a key.
-/

set_option autoImplicit false

namespace EBTree

/-- The text behind the first `needle`. -/
def behind? (needle s : Bytes) : Option Bytes :=
  (indexOf? needle s).map fun i => s.drop (i + needle.length)

/-- A key in its quotes, with its colon. -/
def jsonKey (key : Bytes) : Bytes := 34 :: (key ++ [34, 58])

/-- A body of a string as it stands between quotes: every quote in it comes behind a backslash,
and so does every backslash that does not begin such a pair. -/
inductive Escaped : Bytes → Prop
  | nil : Escaped []
  | plain {c : UInt8} {s : Bytes} : c ≠ 34 → c ≠ 92 → Escaped s → Escaped (c :: s)
  | pair {c : UInt8} {s : Bytes} : Escaped s → Escaped (92 :: c :: s)

theorem Escaped.append {a b : Bytes} (ha : Escaped a) (hb : Escaped b) : Escaped (a ++ b) := by
  induction ha with
  | nil => exact hb
  | plain h h' _ ih => exact .plain h h' ih
  | pair _ ih => exact .pair ih

theorem Escaped.of_plain {a : Bytes} (h : ∀ c ∈ a, c ≠ 34 ∧ c ≠ 92) : Escaped a := by
  induction a with
  | nil => exact .nil
  | cons c a ih =>
    have hc := h c List.mem_cons_self
    exact .plain hc.1 hc.2 (ih fun x hx => h x (List.mem_cons_of_mem _ hx))

/-! ## Searching for a key -/

section Keys

variable {k r s t : Bytes}

theorem behind?_append {needle a : Bytes}
    (h : indexOf? needle (a ++ s) = (indexOf? needle s).map (a.length + ·)) :
    behind? needle (a ++ s) = behind? needle s := by
  unfold behind?
  rw [h, Option.map_map]
  congr 1
  funext i
  simp only [Function.comp, Nat.add_assoc]
  rw [List.drop_append, List.drop_of_length_le (Nat.le_add_right _ _), Nat.add_sub_cancel_left]
  rfl

/-- A needle at the front. -/
@[simp] theorem behind?_self (needle s : Bytes) : behind? needle (needle ++ s) = some s := by
  simp [behind?, indexOf?_self_append]

theorem behind?_key (k : Bytes) (s : Bytes) : behind? (jsonKey k) (jsonKey k ++ s) = some s :=
  behind?_self _ _

theorem behind?_key_string (k s : Bytes) :
    behind? (jsonKey k ++ [34]) (jsonKey k ++ 34 :: s) = some s := by
  have h := behind?_self (jsonKey k ++ [34]) s
  rwa [List.append_assoc] at h

/-- Text without quotes. -/
theorem behind?_skip {a : Bytes} (h : 34 ∉ a) :
    behind? (jsonKey k ++ r) (a ++ s) = behind? (jsonKey k ++ r) s := by
  apply behind?_append
  exact indexOf?_skip h

theorem behind?_skip_one {c : UInt8} (h : c ≠ 34) :
    behind? (jsonKey k ++ r) (c :: s) = behind? (jsonKey k ++ r) s :=
  @behind?_skip k r s [c] (by simpa using h.symm)

/-- Another key. -/
theorem behind?_skip_key {w : Bytes} (hk : 34 ∉ k) (hw : 34 ∉ w) (hkw : k ≠ w)
    (hc : ¬ [58] <+: k ++ [34]) :
    behind? (jsonKey k ++ r) (jsonKey w ++ s) = behind? (jsonKey k ++ r) s := by
  have hc' : ¬ [(58 : UInt8)] <+: k ++ 34 :: (58 :: r) := by
    intro h
    apply hc
    cases k with
    | nil => simp [List.cons_prefix_cons] at h
    | cons x k =>
      rw [List.cons_append, List.cons_prefix_cons] at h ⊢
      exact ⟨h.1, List.nil_prefix⟩
  have hstr := @indexOf?_skip_string _ _ 34 58 k (58 :: r) w s hk hw hc' fun h => hkw h.1
  have hkey : jsonKey k ++ r = 34 :: (k ++ 34 :: 58 :: r) := by simp [jsonKey]
  have hcolon : indexOf? (34 :: (k ++ 34 :: 58 :: r)) (58 :: s) =
      (indexOf? (34 :: (k ++ 34 :: 58 :: r)) s).map (1 + ·) := by
    exact @indexOf?_skip _ _ 34 (k ++ 34 :: 58 :: r) [58] s (by decide)
  rw [hkey]
  have hsplit : jsonKey w ++ s = 34 :: (w ++ 34 :: 58 :: s) := by simp [jsonKey]
  apply behind?_append
  rw [hsplit, hstr, hcolon, Option.map_map]
  congr 1
  funext i
  simp only [Function.comp, jsonKey, List.length_cons, List.length_append, List.length_nil]
  omega

/-- No key starts at a quote in an escaped body or at one of the two around it. -/
theorem Escaped.not_key {e : Bytes} (he : Escaped e) (hk : 34 ∉ k) (hk' : 92 ∉ k) {x : UInt8}
    (hx : x ≠ 58) : ¬ k ++ 34 :: 58 :: r <+: e ++ 34 :: x :: t := by
  induction he generalizing k with
  | nil =>
    intro h
    cases k with
    | nil =>
      rw [List.nil_append, List.nil_append, List.cons_prefix_cons, List.cons_prefix_cons] at h
      exact hx h.2.1.symm
    | cons y k =>
      rw [List.nil_append, List.cons_append, List.cons_prefix_cons] at h
      exact hk (h.1 ▸ List.mem_cons_self)
  | plain h1 h2 _ ih =>
    intro h
    cases k with
    | nil =>
      rw [List.nil_append, List.cons_append, List.cons_prefix_cons] at h
      exact h1 h.1.symm
    | cons y k =>
      rw [List.cons_append, List.cons_append, List.cons_prefix_cons] at h
      exact ih (fun hm => hk (List.mem_cons_of_mem _ hm))
        (fun hm => hk' (List.mem_cons_of_mem _ hm)) h.2
  | pair _ _ =>
    intro h
    cases k with
    | nil =>
      rw [List.nil_append, List.cons_append, List.cons_prefix_cons] at h
      exact absurd h.1 (by decide)
    | cons y k =>
      rw [List.cons_append, List.cons_append, List.cons_prefix_cons] at h
      exact hk' (h.1 ▸ List.mem_cons_self)

/-- An escaped body with the quote that ends it, and something other than a colon behind that. -/
theorem Escaped.indexOf?_skip {e : Bytes} (he : Escaped e) (hk : 34 ∉ k) (hk' : 92 ∉ k)
    {x : UInt8} (hx : x ≠ 58) (hkx : ¬ [x] <+: k ++ [34]) :
    indexOf? (34 :: (k ++ 34 :: 58 :: r)) (e ++ 34 :: x :: t) =
      (indexOf? (34 :: (k ++ 34 :: 58 :: r)) (x :: t)).map (e.length + 1 + ·) := by
  have hne : ∀ {y : UInt8} {l : Bytes}, y ≠ 34 →
      indexOf? (34 :: (k ++ 34 :: 58 :: r)) (y :: l) =
        (indexOf? (34 :: (k ++ 34 :: 58 :: r)) l).map (1 + ·) := by
    intro y l hy
    exact @EBTree.indexOf?_skip _ _ 34 (k ++ 34 :: 58 :: r) [y] l (by simpa using hy.symm)
  induction he with
  | nil =>
    have hno : ¬ (34 :: (k ++ 34 :: 58 :: r)) <+: 34 :: x :: t := by
      rw [List.cons_prefix_cons]
      rintro ⟨-, h⟩
      apply hkx
      cases k with
      | nil =>
        rw [List.nil_append, List.cons_prefix_cons] at h
        exact List.cons_prefix_cons.2 ⟨h.1.symm, List.nil_prefix⟩
      | cons y k =>
        rw [List.cons_append, List.cons_prefix_cons] at h
        exact List.cons_prefix_cons.2 ⟨h.1.symm, List.nil_prefix⟩
    rw [List.nil_append, indexOf?, if_neg hno]
    congr 1
    funext i
    simp only [List.length_nil]
    omega
  | plain h1 _ _ ih =>
    rw [List.cons_append, hne h1, ih, Option.map_map]
    congr 1
    funext i
    simp only [Function.comp, List.length_cons]
    omega
  | @pair c s hs ih =>
    have hback : indexOf? (34 :: (k ++ 34 :: 58 :: r)) (c :: (s ++ 34 :: x :: t)) =
        (indexOf? (34 :: (k ++ 34 :: 58 :: r)) (s ++ 34 :: x :: t)).map (1 + ·) := by
      by_cases hc : c = 34
      · -- the quote is inside: what follows it is escaped text again
        subst hc
        have hno : ¬ (34 :: (k ++ 34 :: 58 :: r)) <+: 34 :: (s ++ 34 :: x :: t) := by
          rw [List.cons_prefix_cons]
          exact fun h => hs.not_key hk hk' hx h.2
        rw [indexOf?, if_neg hno]
        congr 1
        funext i
        omega
      · exact hne hc
    rw [List.cons_append, List.cons_append, hne (by decide), hback, ih, Option.map_map,
      Option.map_map]
    congr 1
    funext i
    simp only [Function.comp, List.length_cons]
    omega

/-- A string: both its quotes and what stands between them. -/
theorem behind?_skip_body {e : Bytes} (he : Escaped e) (hk : 34 ∉ k) (hk' : 92 ∉ k)
    {x : UInt8} (hx : x ≠ 58) (hkx : ¬ [x] <+: k ++ [34]) :
    behind? (jsonKey k ++ r) (34 :: (e ++ 34 :: x :: t)) =
      behind? (jsonKey k ++ r) (x :: t) := by
  have hkey : jsonKey k ++ r = 34 :: (k ++ 34 :: 58 :: r) := by simp [jsonKey]
  have hno : ¬ (34 :: (k ++ 34 :: 58 :: r)) <+: 34 :: (e ++ 34 :: x :: t) := by
    rw [List.cons_prefix_cons]
    exact fun h => he.not_key hk hk' hx h.2
  have hsplit : 34 :: (e ++ 34 :: x :: t) = (34 :: (e ++ [34])) ++ x :: t := by simp
  rw [hkey, hsplit]
  apply behind?_append
  rw [← hsplit, indexOf?, if_neg hno, he.indexOf?_skip hk hk' hx hkx, Option.map_map]
  congr 1
  funext i
  simp only [Function.comp, List.length_cons, List.length_append, List.length_nil]
  omega

/-- The rest of a string: what it holds and the quote that ends it. -/
theorem Escaped.behind?_skip_rest {e : Bytes} (he : Escaped e) (hk : 34 ∉ k) (hk' : 92 ∉ k)
    {x : UInt8} (hx : x ≠ 58) (hkx : ¬ [x] <+: k ++ [34]) :
    behind? (jsonKey k ++ r) (e ++ 34 :: x :: t) = behind? (jsonKey k ++ r) (x :: t) := by
  have hkey : jsonKey k ++ r = 34 :: (k ++ 34 :: 58 :: r) := by simp [jsonKey]
  have hsplit : e ++ 34 :: x :: t = (e ++ [34]) ++ x :: t := by simp
  rw [hkey, hsplit]
  apply behind?_append
  rw [← hsplit, he.indexOf?_skip hk hk' hx hkx, List.length_append, List.length_singleton]

/-- What does not stand in a text does not stand in its front. -/
theorem behind?_eq_none_of_append {needle a : Bytes} (h : behind? needle (a ++ s) = none) :
    behind? needle a = none := by
  rw [behind?, Option.map_eq_none_iff] at h ⊢
  cases hi : indexOf? needle a with
  | none => rfl
  | some i =>
    refine absurd ?_ (indexOf?_eq_none h i)
    rw [List.drop_append]
    exact (indexOf?_some hi).1.trans (List.prefix_append _ _)

theorem behind?_eq_none_of_not_mem {needle a : Bytes} {c : UInt8} (hc : c ∈ needle)
    (ha : c ∉ a) : behind? needle a = none := by
  rw [behind?, indexOf?_eq_none_of_not_mem hc ha]
  rfl

end Keys

/-! ## Numbers -/

/-- `isspace` in the C locale. -/
def isWhite (b : UInt8) : Bool := b = 32 ∨ (9 ≤ b ∧ b ≤ 13)

/-- A sign, and what stands behind it. -/
def signOf : Bytes → Bool × Bytes
  | [] => (false, [])
  | c :: s => if c = 45 then (true, s) else if c = 43 then (false, s) else (false, c :: s)

/-- The digits a text begins with, as a number: zero where there are none. -/
def leadingNumber (s : Bytes) : Nat := ofDecimal (s.takeWhile fun b => decide (IsDigit b))

/-- `strtoull(s, nullptr, 10)`: a number past the range gives the largest one, a minus negates
modulo `2 ^ 64`. -/
def strtoull (s : Bytes) : UInt64 :=
  let (neg, ds) := signOf (s.dropWhile isWhite)
  let n := leadingNumber ds
  if 2 ^ 64 ≤ n then UInt64.ofNat (2 ^ 64 - 1)
  else if neg then - UInt64.ofNat n else UInt64.ofNat n

/-- `strtoll(s, nullptr, 10)`: a number past the range gives the nearest end of it. -/
def strtoll (s : Bytes) : Int64 :=
  let (neg, ds) := signOf (s.dropWhile isWhite)
  let n := leadingNumber ds
  if neg then (if 2 ^ 63 ≤ n then Int64.ofInt (-2 ^ 63) else Int64.ofInt (-n))
  else if 2 ^ 63 ≤ n then Int64.ofInt (2 ^ 63 - 1) else Int64.ofInt n

/-- A signed number as it is streamed out. -/
def signedDecimal (v : Int64) : Bytes :=
  if v.toInt < 0 then 45 :: decimal v.toInt.natAbs else decimal v.toInt.natAbs

theorem leadingNumber_decimal {n : Nat} {c : UInt8} {s : Bytes} (hc : ¬ IsDigit c) :
    leadingNumber (decimal n ++ c :: s) = n := by
  have htake : (decimal n ++ c :: s).takeWhile (fun b => decide (IsDigit b)) = decimal n := by
    rw [List.takeWhile_append_of_pos fun b hb => decide_eq_true (isDigit_of_mem_decimal hb)]
    simp [hc]
  rw [leadingNumber, htake, ofDecimal_decimal]

/-- A number has a digit in front, neither white space nor a sign. -/
theorem decimal_eq_cons (n : Nat) : ∃ d ds, decimal n = d :: ds ∧ IsDigit d := by
  cases h : decimal n with
  | nil => exact absurd h (decimal_ne_nil n)
  | cons d ds =>
    have hd : d ∈ decimal n := h ▸ List.mem_cons_self
    exact ⟨d, ds, rfl, isDigit_of_mem_decimal hd⟩

theorem IsDigit.not_white {d : UInt8} (h : IsDigit d) : isWhite d = false := by
  unfold IsDigit at h
  have h1 : d ≠ 32 := by
    rintro rfl
    exact absurd h.1 (by decide)
  have h2 : ¬ d ≤ 13 := by
    rw [UInt8.le_iff_toNat_le]
    change ¬ d.toNat ≤ 13
    omega
  simp [isWhite, h1, h2]

theorem signOf_decimal (n : Nat) (s : Bytes) :
    signOf ((decimal n ++ s).dropWhile isWhite) = (false, decimal n ++ s) := by
  obtain ⟨d, ds, hd, hdig⟩ := decimal_eq_cons n
  have h45 : d ≠ 45 := by
    rintro rfl
    exact absurd hdig.1 (by decide)
  have h43 : d ≠ 43 := by
    rintro rfl
    exact absurd hdig.1 (by decide)
  rw [hd, List.cons_append, List.dropWhile_cons, hdig.not_white]
  simp [signOf, h45, h43]

/-- An unsigned number reads back. -/
theorem strtoull_decimal {n : UInt64} {c : UInt8} {s : Bytes} (hc : ¬ IsDigit c) :
    strtoull (decimal n.toNat ++ c :: s) = n := by
  have hlt := n.toNat_lt
  have hn : ¬ 2 ^ 64 ≤ n.toNat := by omega
  simp only [strtoull, signOf_decimal, leadingNumber_decimal hc, if_neg hn]
  simp

/-- A signed number reads back. -/
theorem strtoll_signed {v : Int64} {c : UInt8} {s : Bytes} (hc : ¬ IsDigit c) :
    strtoll (signedDecimal v ++ c :: s) = v := by
  have hlo := v.le_toInt
  have hhi := v.toInt_lt
  unfold signedDecimal
  split
  · rename_i hneg
    have hsign : signOf ((45 :: decimal v.toInt.natAbs ++ c :: s).dropWhile isWhite) =
        (true, decimal v.toInt.natAbs ++ c :: s) := by
      rw [List.cons_append, List.dropWhile_cons, show isWhite 45 = false by decide]
      simp [signOf]
    simp only [strtoll, hsign, leadingNumber_decimal hc, if_true]
    split
    · have hmin : v.toInt = -2 ^ 63 := by omega
      rw [← hmin, Int64.ofInt_toInt]
    · have habs : -(v.toInt.natAbs : Int) = v.toInt := by omega
      rw [habs, Int64.ofInt_toInt]
  · have hn : ¬ 2 ^ 63 ≤ v.toInt.natAbs := by omega
    have habs : (v.toInt.natAbs : Int) = v.toInt := by omega
    simp only [strtoll, signOf_decimal, leadingNumber_decimal hc, if_neg hn, habs,
      Int64.ofInt_toInt]
    simp

theorem quote_not_mem_decimal (n : Nat) : 34 ∉ decimal n := fun h =>
  absurd (isDigit_of_mem_decimal h).1 (by decide)

theorem quote_not_mem_signedDecimal (v : Int64) : 34 ∉ signedDecimal v := by
  unfold signedDecimal
  split
  · simpa using quote_not_mem_decimal _
  · exact quote_not_mem_decimal _

end EBTree
