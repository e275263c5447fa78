import EBTree.Lib.Bytes

/-!
# Decimal numbers as text

`decimal n` is `std::to_string(n)`. Texts compare byte by byte, so decimals of different lengths
do not compare as their numbers do:

* `decimal_succ`: how the text of a number and of the next one differ.
* `decimal_between_iff`: which numbers, followed by a byte above the digits, lie between the text
  of `n` and that of `n + 1`.
-/

set_option autoImplicit false

namespace EBTree

/-- The byte of a decimal digit. -/
def digit (d : Nat) : UInt8 := UInt8.ofNat (48 + d)

/-- `std::to_string`. -/
def decimal (n : Nat) : Bytes := (Nat.toDigits 10 n).map fun c => UInt8.ofNat c.toNat

def IsDigit (b : UInt8) : Prop := 48 ≤ b.toNat ∧ b.toNat ≤ 57

instance (b : UInt8) : Decidable (IsDigit b) := inferInstanceAs (Decidable (_ ∧ _))

theorem digit_toNat {d : Nat} (h : d < 10) : (digit d).toNat = 48 + d := by
  rw [digit, UInt8.toNat_ofNat']
  omega

theorem isDigit_digit {d : Nat} (h : d < 10) : IsDigit (digit d) := by
  rw [IsDigit, digit_toNat h]
  omega

theorem digit_inj {d e : Nat} (hd : d < 10) (he : e < 10) (h : digit d = digit e) : d = e := by
  have := congrArg UInt8.toNat h
  rw [digit_toNat hd, digit_toNat he] at this
  omega

theorem digit_lt_digit {d e : Nat} (hd : d < 10) (he : e < 10) : digit d < digit e ↔ d < e := by
  rw [UInt8.lt_iff_toNat_lt, digit_toNat hd, digit_toNat he]
  omega

/-! ## The digits of a number -/

theorem decimal_of_lt {n : Nat} (h : n < 10) : decimal n = [digit n] := by
  rw [decimal, Nat.toDigits_of_lt_base h, List.map_singleton, Nat.toNat_digitChar_of_lt_ten h]
  rfl

theorem decimal_of_ge {n : Nat} (h : 10 ≤ n) :
    decimal n = decimal (n / 10) ++ [digit (n % 10)] := by
  have hm : n % 10 < 10 := Nat.mod_lt _ (by decide)
  rw [decimal, Nat.toDigits_of_base_le (by decide) h, List.map_append, List.map_singleton,
    Nat.toNat_digitChar_of_lt_ten hm]
  rfl

theorem decimal_ne_nil (n : Nat) : decimal n ≠ [] := by
  simp [decimal, Nat.toDigits_ne_nil]

theorem isDigit_of_mem_decimal {n : Nat} {b : UInt8} (hb : b ∈ decimal n) : IsDigit b := by
  induction n using Nat.strong_induction_on with
  | _ n ih =>
    by_cases h : n < 10
    · rw [decimal_of_lt h, List.mem_singleton] at hb
      exact hb ▸ isDigit_digit h
    · rw [decimal_of_ge (by omega), List.mem_append, List.mem_singleton] at hb
      rcases hb with hb | hb
      · exact ih (n / 10) (by omega) hb
      · exact hb ▸ isDigit_digit (Nat.mod_lt _ (by decide))

/-- The number a text of digits stands for. -/
def ofDecimal (bs : Bytes) : Nat := bs.foldl (fun n b => 10 * n + (b.toNat - 48)) 0

theorem ofDecimal_append_digit (bs : Bytes) {d : Nat} (h : d < 10) :
    ofDecimal (bs ++ [digit d]) = 10 * ofDecimal bs + d := by
  rw [ofDecimal, List.foldl_append, List.foldl_cons, List.foldl_nil, digit_toNat h]
  simp [ofDecimal]

@[simp] theorem ofDecimal_decimal (n : Nat) : ofDecimal (decimal n) = n := by
  induction n using Nat.strong_induction_on with
  | _ n ih =>
    by_cases h : n < 10
    · rw [decimal_of_lt h]
      exact (ofDecimal_append_digit [] h).trans (by simp [ofDecimal])
    · rw [decimal_of_ge (by omega), ofDecimal_append_digit _ (Nat.mod_lt _ (by decide)),
        ih (n / 10) (by omega)]
      omega

theorem decimal_injective {m n : Nat} (h : decimal m = decimal n) : m = n := by
  rw [← ofDecimal_decimal m, h, ofDecimal_decimal]

/-- **Counting on**: the last digit below nine goes up by one and the nines behind it become
zeros; a text of nines only gets one digit longer. -/
theorem decimal_succ (n : Nat) :
    (∃ q d k, d < 9 ∧ decimal n = q ++ digit d :: List.replicate k (digit 9) ∧
      decimal (n + 1) = q ++ digit (d + 1) :: List.replicate k (digit 0)) ∨
    (∃ k, decimal n = List.replicate (k + 1) (digit 9) ∧
      decimal (n + 1) = digit 1 :: List.replicate (k + 1) (digit 0)) := by
  induction n using Nat.strong_induction_on with
  | _ n ih =>
    rcases Nat.lt_trichotomy n 9 with h | rfl | h
    · refine .inl ⟨[], n, 0, h, ?_, ?_⟩
      · rw [decimal_of_lt (by omega)]; rfl
      · rw [decimal_of_lt (by omega)]; rfl
    · exact .inr ⟨0, by decide, by decide⟩
    · have hn := decimal_of_ge (n := n) (by omega)
      have hs := decimal_of_ge (n := n + 1) (by omega)
      by_cases hd : n % 10 = 9
      · -- the carry goes into the digits in front
        have hdiv : (n + 1) / 10 = n / 10 + 1 := by omega
        have hmod : (n + 1) % 10 = 0 := by omega
        rw [hdiv, hmod] at hs
        rw [hd] at hn
        rcases ih (n / 10) (by omega) with ⟨q, d, k, hlt, h1, h2⟩ | ⟨k, h1, h2⟩
        · refine .inl ⟨q, d, k + 1, hlt, ?_, ?_⟩
          · rw [hn, h1, List.replicate_succ']
            simp
          · rw [hs, h2, List.replicate_succ']
            simp
        · refine .inr ⟨k + 1, ?_, ?_⟩
          · rw [hn, h1, ← List.replicate_succ']
          · rw [hs, h2, List.replicate_succ' (n := k + 1)]
            simp
      · have hdiv : (n + 1) / 10 = n / 10 := by omega
        have hmod : (n + 1) % 10 = n % 10 + 1 := by omega
        rw [hdiv, hmod] at hs
        exact .inl ⟨decimal (n / 10), n % 10, 0, by omega, hn, hs⟩

/-- Every digit is a nine. -/
def Nines (n : Nat) : Prop := ∃ k, decimal n = List.replicate (k + 1) (digit 9)

/-! ## The order of texts -/

theorem bytes_cons_le_cons {a b : UInt8} {l m : Bytes} :
    a :: l ≤ b :: m ↔ a < b ∨ a = b ∧ l ≤ m := by
  rw [← not_lt, List.cons_lt_cons_iff, ← not_lt]
  constructor
  · intro h
    rcases lt_trichotomy a b with hab | rfl | hab
    · exact .inl hab
    · exact .inr ⟨rfl, fun hlt => h (.inr ⟨rfl, hlt⟩)⟩
    · exact absurd (.inl hab) h
  · rintro (hab | ⟨rfl, hlm⟩) (hba | ⟨hba, hml⟩)
    · exact lt_asymm hab hba
    · exact absurd hba (ne_of_gt hab)
    · exact lt_irrefl _ hba
    · exact hlm hml

theorem not_bytes_cons_le_nil {a : UInt8} {l : Bytes} : ¬ a :: l ≤ ([] : Bytes) :=
  not_le.2 (by simp)

/-- A text between two texts with a common front has that front. `sep` stands above the digits
and behind them. -/
theorem between_append_iff {sep : UInt8} (hsep : 57 < sep.toNat) {q c lo hi rest : Bytes}
    (hq : ∀ b ∈ q, IsDigit b) :
    (q ++ lo ≤ c ++ sep :: rest ∧ c ++ sep :: rest ≤ q ++ hi) ↔
      ∃ c', c = q ++ c' ∧ lo ≤ c' ++ sep :: rest ∧ c' ++ sep :: rest ≤ hi := by
  induction q generalizing c with
  | nil =>
    constructor
    · exact fun h => ⟨c, rfl, h⟩
    · rintro ⟨c', rfl, h⟩
      exact h
  | cons x q ih =>
    have hx : x < sep := by
      have := (hq x List.mem_cons_self).2
      rw [UInt8.lt_iff_toNat_lt]
      omega
    cases c with
    | nil =>
      simp only [List.cons_append, List.nil_append, bytes_cons_le_cons]
      constructor
      · rintro ⟨-, h | ⟨h, -⟩⟩
        · exact absurd h (lt_asymm hx)
        · exact absurd h (ne_of_gt hx)
      · rintro ⟨c', h, -⟩
        cases h
    | cons y c =>
      have ih := ih (c := c) fun b hb => hq b (List.mem_cons_of_mem _ hb)
      simp only [List.cons_append, bytes_cons_le_cons]
      constructor
      · rintro ⟨h1 | ⟨rfl, h1⟩, h2 | ⟨h2', h2⟩⟩
        · exact absurd h2 (lt_asymm h1)
        · exact absurd h2' (ne_of_gt h1)
        · exact absurd h2 (lt_irrefl _)
        · obtain ⟨c', rfl, h⟩ := ih.1 ⟨h1, h2⟩
          exact ⟨c', rfl, h⟩
      · rintro ⟨c', h, h'⟩
        rw [List.cons.injEq] at h
        obtain ⟨rfl, rfl⟩ := h
        obtain ⟨h1, h2⟩ := ih.2 ⟨c', rfl, h'⟩
        exact ⟨.inr ⟨rfl, h1⟩, .inr ⟨rfl, h2⟩⟩

theorem nines_le_iff {sep : UInt8} (hsep : 57 < sep.toNat) {k : Nat} {c rest : Bytes}
    (hc : ∀ b ∈ c, IsDigit b) :
    List.replicate k (digit 9) ++ [sep] ≤ c ++ sep :: rest ↔
      ∃ j ≤ k, c = List.replicate j (digit 9) := by
  have h9 : (digit 9).toNat = 57 := digit_toNat (by decide)
  induction k generalizing c with
  | zero =>
    cases c with
    | nil =>
      refine iff_of_true ?_ ⟨0, le_refl _, rfl⟩
      exact bytes_cons_le_cons.2 (.inr ⟨rfl, not_lt.1 (by simp)⟩)
    | cons y c =>
      have hy := hc y List.mem_cons_self
      refine iff_of_false ?_ ?_
      · intro h
        rcases bytes_cons_le_cons.1 h with h | ⟨h, -⟩
        · rw [UInt8.lt_iff_toNat_lt] at h
          exact absurd hy.2 (by omega)
        · exact absurd (h ▸ hy.2) (by omega)
      · rintro ⟨j, hj, h⟩
        obtain rfl : j = 0 := by omega
        cases h
  | succ k ih =>
    rw [List.replicate_succ, List.cons_append]
    cases c with
    | nil =>
      refine iff_of_true (bytes_cons_le_cons.2 (.inl ?_)) ⟨0, Nat.zero_le _, rfl⟩
      rw [UInt8.lt_iff_toNat_lt]
      omega
    | cons y c =>
      have hy := hc y List.mem_cons_self
      have ih := ih (c := c) fun b hb => hc b (List.mem_cons_of_mem _ hb)
      rw [List.cons_append, bytes_cons_le_cons]
      constructor
      · rintro (h | ⟨rfl, h⟩)
        · rw [UInt8.lt_iff_toNat_lt] at h
          exact absurd hy.2 (by omega)
        · obtain ⟨j, hj, rfl⟩ := ih.1 h
          exact ⟨j + 1, by omega, rfl⟩
      · rintro ⟨j, hj, h⟩
        obtain _ | j := j
        · cases h
        · rw [List.replicate_succ, List.cons.injEq] at h
          obtain ⟨rfl, rfl⟩ := h
          exact .inr ⟨rfl, ih.2 ⟨j, by omega, rfl⟩⟩

theorem le_zeros_iff {sep : UInt8} (hsep : 57 < sep.toNat) {k : Nat} {c rest : Bytes}
    (hc : ∀ b ∈ c, IsDigit b) :
    c ++ sep :: rest ≤ List.replicate k (digit 0) ++ [sep] ↔
      (∃ c', c' ≠ [] ∧ c = List.replicate k (digit 0) ++ c') ∨
      (c = List.replicate k (digit 0) ∧ rest = []) := by
  have h0 : (digit 0).toNat = 48 := digit_toNat (by decide)
  induction k generalizing c with
  | zero =>
    cases c with
    | nil =>
      simp only [List.nil_append, List.replicate_zero, bytes_cons_le_cons]
      constructor
      · rintro (h | ⟨-, h⟩)
        · exact absurd h (lt_irrefl _)
        · cases rest with
          | nil => exact .inr ⟨trivial, rfl⟩
          | cons x rest => exact absurd h not_bytes_cons_le_nil
      · rintro (⟨c', hne, h⟩ | ⟨-, rfl⟩)
        · exact absurd h.symm hne
        · exact .inr ⟨trivial, le_refl _⟩
    | cons y c =>
      have hy := hc y List.mem_cons_self
      refine iff_of_true (bytes_cons_le_cons.2 (.inl ?_)) (.inl ⟨y :: c, by simp, rfl⟩)
      rw [UInt8.lt_iff_toNat_lt]
      have := hy.2
      omega
  | succ k ih =>
    rw [List.replicate_succ, List.cons_append]
    cases c with
    | nil =>
      refine iff_of_false ?_ ?_
      · intro h
        rcases bytes_cons_le_cons.1 h with h | ⟨h, -⟩
        · rw [UInt8.lt_iff_toNat_lt] at h
          omega
        · have := congrArg UInt8.toNat h
          omega
      · rintro (⟨c', -, h⟩ | ⟨h, -⟩) <;> cases h
    | cons y c =>
      have hy := hc y List.mem_cons_self
      have ih := ih (c := c) fun b hb => hc b (List.mem_cons_of_mem _ hb)
      rw [List.cons_append, bytes_cons_le_cons]
      constructor
      · rintro (h | ⟨rfl, h⟩)
        · rw [UInt8.lt_iff_toNat_lt] at h
          exact absurd hy.1 (by omega)
        · rcases ih.1 h with ⟨c', hne, rfl⟩ | ⟨rfl, rfl⟩
          · exact .inl ⟨c', hne, rfl⟩
          · exact .inr ⟨rfl, rfl⟩
      · rintro (⟨c', hne, h⟩ | ⟨h, rfl⟩)
        · rw [List.cons_append, List.cons.injEq] at h
          obtain ⟨rfl, rfl⟩ := h
          exact .inr ⟨rfl, ih.2 (.inl ⟨c', hne, rfl⟩)⟩
        · rw [List.cons.injEq] at h
          obtain ⟨rfl, rfl⟩ := h
          exact .inr ⟨rfl, ih.2 (.inr ⟨rfl, rfl⟩)⟩

/-! ## Numbers between two consecutive texts -/

/-- `m`'s text continues that of `n + 1`, or becomes that of `n` by nines put behind it. -/
def Straddles (n m : Nat) : Prop :=
  (∃ c, c ≠ [] ∧ decimal m = decimal (n + 1) ++ c) ∨
  (∃ k, decimal n = decimal m ++ List.replicate (k + 1) (digit 9))

theorem append_replicate_inj {q p : Bytes} {x y : UInt8} (hxy : x ≠ y) {k i : Nat}
    (h : q ++ x :: List.replicate k y = p ++ List.replicate i y) :
    i ≤ k ∧ p = q ++ x :: List.replicate (k - i) y := by
  induction i generalizing k with
  | zero =>
    simp only [List.replicate_zero, List.append_nil] at h
    exact ⟨Nat.zero_le _, h.symm⟩
  | succ i ih =>
    cases k with
    | zero =>
      rw [List.replicate_succ', ← List.append_assoc] at h
      have hlast := congrArg List.getLast? h
      simp only [List.replicate_zero, List.getLast?_append, List.getLast?_singleton,
        Option.some_or, Option.some.injEq] at hlast
      exact absurd hlast hxy
    | succ k =>
      rw [List.replicate_succ', List.replicate_succ', ← List.append_assoc, ← List.cons_append,
        ← List.append_assoc] at h
      obtain ⟨hi, hp⟩ := ih (List.append_cancel_right h)
      exact ⟨by omega, by rw [hp, Nat.succ_sub_succ]⟩

/-- **The numbers whose text, with `sep` behind it, lies between those of `n` and `n + 1`**: `n`
itself, `n + 1` with nothing behind it, and those that straddle. -/
theorem decimal_between_iff {sep : UInt8} (hsep : 57 < sep.toNat) {n m : Nat} {r : Bytes}
    (hn : ¬ Nines n) :
    (decimal n ++ [sep] ≤ decimal m ++ sep :: r ∧
      decimal m ++ sep :: r ≤ decimal (n + 1) ++ [sep]) ↔
      m = n ∨ Straddles n m ∨ (m = n + 1 ∧ r = []) := by
  obtain ⟨q, d, k, hd, h1, h2⟩ | ⟨k, h1, -⟩ := decimal_succ n
  case inr => exact absurd ⟨k, h1⟩ hn
  have hq : ∀ b ∈ q, IsDigit b := fun b hb =>
    isDigit_of_mem_decimal (n := n) (h1 ▸ List.mem_append_left _ hb)
  have hm : ∀ b ∈ decimal m, IsDigit b := fun b => isDigit_of_mem_decimal
  have hlo : decimal n ++ [sep] = q ++ (digit d :: (List.replicate k (digit 9) ++ [sep])) := by
    rw [h1]; simp
  have hhi : decimal (n + 1) ++ [sep] =
      q ++ (digit (d + 1) :: (List.replicate k (digit 0) ++ [sep])) := by
    rw [h2]; simp
  have hne : digit d ≠ digit 9 := fun h => by
    have := digit_inj (by omega) (by decide) h
    omega
  rw [hlo, hhi, between_append_iff hsep hq]
  constructor
  · rintro ⟨c, hc, hlo, hhi⟩
    cases c with
    | nil =>
      rcases bytes_cons_le_cons.1 hhi with h | ⟨h, -⟩
      · rw [UInt8.lt_iff_toNat_lt, digit_toNat (by omega)] at h
        omega
      · have := congrArg UInt8.toNat h
        rw [digit_toNat (by omega)] at this
        omega
    | cons y c =>
      have hdig : ∀ b ∈ c, IsDigit b := fun b hb => hm b (by rw [hc]; simp [hb])
      rw [List.cons_append, bytes_cons_le_cons] at hlo hhi
      have hd1 := digit_toNat (d := d) (by omega)
      have hd2 := digit_toNat (d := d + 1) (by omega)
      rw [UInt8.lt_iff_toNat_lt, hd1] at hlo
      rw [UInt8.lt_iff_toNat_lt, hd2] at hhi
      rcases hlo with hlo | ⟨rfl, hlo⟩
      · rcases hhi with hhi | ⟨rfl, hhi⟩
        · omega
        · -- behind `n + 1`
          rcases (le_zeros_iff hsep hdig).1 hhi with ⟨c', hne', rfl⟩ | ⟨rfl, rfl⟩
          · exact .inr (.inl (.inl ⟨c', hne', by rw [hc, h2]; simp⟩))
          · exact .inr (.inr ⟨decimal_injective (by rw [hc, h2]), rfl⟩)
      · -- `n` with some of its nines left out
        obtain ⟨j, hj, rfl⟩ := (nines_le_iff hsep hdig).1 hlo
        rcases Nat.eq_or_lt_of_le hj with rfl | hj
        · exact .inl (decimal_injective (by rw [hc, h1]))
        · refine .inr (.inl (.inr ⟨k - j - 1, ?_⟩))
          have hk : k = j + (k - j - 1 + 1) := by omega
          rw [hc, h1]
          conv_lhs => rw [hk, List.replicate_add]
          simp
  · intro h
    have hlt : digit d < digit (d + 1) := (digit_lt_digit (by omega) (by omega)).2 (by omega)
    have hnines : ∀ j ≤ k, decimal m = q ++ digit d :: List.replicate j (digit 9) →
        ∃ c', decimal m = q ++ c' ∧
          digit d :: (List.replicate k (digit 9) ++ [sep]) ≤ c' ++ sep :: r ∧
          c' ++ sep :: r ≤ digit (d + 1) :: (List.replicate k (digit 0) ++ [sep]) := by
      intro j hj hc
      refine ⟨_, hc, bytes_cons_le_cons.2 (.inr ⟨rfl, ?_⟩), bytes_cons_le_cons.2 (.inl hlt)⟩
      refine (nines_le_iff hsep fun b hb => ?_).2 ⟨j, hj, rfl⟩
      rw [List.eq_of_mem_replicate hb]
      exact isDigit_digit (by decide)
    rcases h with rfl | (⟨c, hne', hc⟩ | ⟨i, hi⟩) | ⟨rfl, rfl⟩
    · exact hnines k (le_refl _) h1
    · rw [h2] at hc
      refine ⟨digit (d + 1) :: (List.replicate k (digit 0) ++ c), by rw [hc]; simp,
        bytes_cons_le_cons.2 (.inl hlt), bytes_cons_le_cons.2 (.inr ⟨rfl, ?_⟩)⟩
      refine (le_zeros_iff hsep fun b hb => hm b ?_).2 (.inl ⟨c, hne', rfl⟩)
      rw [hc]
      simp only [List.append_assoc, List.cons_append, List.mem_append, List.mem_cons] at hb ⊢
      tauto
    · rw [h1] at hi
      obtain ⟨hik, hp⟩ := append_replicate_inj hne hi
      exact hnines _ (by omega) hp
    · refine ⟨_, h2, bytes_cons_le_cons.2 (.inl hlt), bytes_cons_le_cons.2 (.inr ⟨rfl, le_refl _⟩)⟩

theorem Straddles.irrefl (n : Nat) : ¬ Straddles n n := by
  rintro (⟨c, hc, h⟩ | ⟨k, h⟩)
  · obtain ⟨q, d, k, hd, h1, h2⟩ | ⟨k, h1, h2⟩ := decimal_succ n
    · have := congrArg List.length h
      rw [h1, h2] at this
      simp only [List.length_append, List.length_cons, List.length_replicate] at this
      exact hc (List.length_eq_zero_iff.1 (by omega))
    · have := congrArg List.length h
      rw [h1, h2] at this
      simp only [List.length_append, List.length_cons, List.length_replicate] at this
      omega
  · have := congrArg List.length h
    simp only [List.length_append, List.length_replicate] at this
    omega

/-- The text of nines comes after the next number's. -/
theorem decimal_succ_lt_of_nines {n : Nat} (hn : Nines n) (rest rest' : Bytes) :
    decimal (n + 1) ++ rest < decimal n ++ rest' := by
  obtain ⟨k, hk⟩ := hn
  obtain ⟨q, d, k', hd, h1, -⟩ | ⟨k', h1, h2⟩ := decimal_succ n
  · have hmem : digit d ∈ List.replicate (k + 1) (digit 9) := by
      rw [← hk, h1]
      simp
    have := digit_inj (by omega) (by decide) (List.eq_of_mem_replicate hmem)
    omega
  · rw [h1, h2, @List.replicate_succ _ (digit 9) k', List.cons_append, List.cons_append,
      List.cons_lt_cons_iff]
    exact .inl (by decide)

end EBTree
