import EBTree.Audit.Digest

/-!
# The digest is SHA-256

`Fips` is the standard (FIPS 180-4) for messages of bytes: constants from the roots of the first
primes, the functions of section 4.1.2, padding (5.1.1), parsing (5.2.1) and the hash computation
(6.2.2). It is written apart from `digest.cc` and compared with it:

* `transform_eq`: a block goes through the same schedule and the same rounds.
* `Fed`, `fed_update`: what the context holds after any bytes, in any portions.
* `digest_is_fips`: **both entry points give the digest of the standard**.
-/

set_option autoImplicit false

namespace EBTree.Audit

namespace Fips

/-! ## The standard -/

/-- The primes below 312, the first 64; a composite number below 18 ^ 2 has a divisor below 18. -/
def primes : List Nat :=
  (List.range 312).filter fun n =>
    2 ≤ n && (List.range 18).all fun d => d < 2 || n ≤ d || n % d != 0

/-- The greatest `r` below `2 ^ bits` more than `r₀` with `r ^ k ≤ x`, bit by bit. -/
def rootFrom (k x : Nat) : Nat → Nat → Nat
  | 0, r => r
  | bits + 1, r => rootFrom k x bits (if (r + 2 ^ bits) ^ k ≤ x then r + 2 ^ bits else r)

/-- The first 32 bits of the fractional part of the `k`-th root of `p`. -/
def rootWord (k p : Nat) : UInt32 := UInt32.ofNat (rootFrom k (p * 2 ^ (32 * k)) 40 0)

def K (t : Nat) : UInt32 := rootWord 3 (primes.getD t 0)

def rotr (n x : UInt32) : UInt32 := (x >>> n) ||| (x <<< (32 - n))
def Ch (x y z : UInt32) : UInt32 := (x &&& y) ^^^ (~~~x &&& z)
def Maj (x y z : UInt32) : UInt32 := (x &&& y) ^^^ (x &&& z) ^^^ (y &&& z)
def Sum0 (x : UInt32) : UInt32 := rotr 2 x ^^^ rotr 13 x ^^^ rotr 22 x
def Sum1 (x : UInt32) : UInt32 := rotr 6 x ^^^ rotr 11 x ^^^ rotr 25 x
def sigma0 (x : UInt32) : UInt32 := rotr 7 x ^^^ rotr 18 x ^^^ (x >>> 3)
def sigma1 (x : UInt32) : UInt32 := rotr 17 x ^^^ rotr 19 x ^^^ (x >>> 10)

/-- `W t`, for a block of words. -/
def W (M : Nat → UInt32) (t : Nat) : UInt32 :=
  if t < 16 then M t
  else sigma1 (W M (t - 2)) + W M (t - 7) + sigma0 (W M (t - 15)) + W M (t - 16)

/-- The working variables after `t` rounds. -/
def rounds (M : Nat → UInt32) (H : Words) : Nat → Words
  | 0 => H
  | t + 1 =>
    let v := rounds M H t
    let T1 := v.h + Sum1 v.e + Ch v.e v.f v.g + K t + W M t
    let T2 := Sum0 v.a + Maj v.a v.b v.c
    { h := v.g, g := v.f, f := v.e, e := v.d + T1, d := v.c, c := v.b, b := v.a, a := T1 + T2 }

/-- The next hash value. -/
def next (M : Nat → UInt32) (H : Words) : Words :=
  let v := rounds M H 64
  ⟨v.a + H.a, v.b + H.b, v.c + H.c, v.d + H.d, v.e + H.e, v.f + H.f, v.g + H.g, v.h + H.h⟩

/-- The initial hash value: square roots. -/
def H0 : Words :=
  let h := fun i => rootWord 2 (primes.getD i 0)
  ⟨h 0, h 1, h 2, h 3, h 4, h 5, h 6, h 7⟩

/-- `x` in `n` bytes, most significant first. -/
def bigEndian (n x : Nat) : Bytes :=
  (List.range n).map fun i => UInt8.ofNat (x / 256 ^ (n - 1 - i) % 256)

/-- The bit 1, the fewest zeros that leave eight bytes of the last block, and the length in bits. -/
def padded (message : Bytes) : Bytes :=
  let len := message.length
  let zeros := (119 - len % 64) % 64
  message ++ [0x80] ++ List.replicate zeros 0 ++ bigEndian 8 (8 * len)

/-- Word `t` of block `i`. -/
def word (text : Bytes) (i t : Nat) : UInt32 :=
  let b := fun j => (text.getD (64 * i + 4 * t + j) 0).toNat
  UInt32.ofNat (b 0 * 2 ^ 24 + b 1 * 2 ^ 16 + b 2 * 2 ^ 8 + b 3)

/-- The hash value after `n` blocks. -/
def hashBlocks (text : Bytes) : Nat → Words
  | 0 => H0
  | i + 1 => next (word text i) (hashBlocks text i)

/-- The lower-case digit of `d`. -/
def hexChar (d : Nat) : UInt8 := (ascii "0123456789abcdef").getD d 0

/-- A word in eight digits. -/
def hexWord (w : UInt32) : Bytes :=
  (List.range 8).map fun j => hexChar (w.toNat / 16 ^ (7 - j) % 16)

/-- The digest. -/
def sha256 (message : Bytes) : Bytes :=
  let text := padded message
  let H := hashBlocks text (text.length / 64)
  hexWord H.a ++ hexWord H.b ++ hexWord H.c ++ hexWord H.d ++
    hexWord H.e ++ hexWord H.f ++ hexWord H.g ++ hexWord H.h

end Fips

open Fips

/-! ## Constants -/

theorem kSha256K_eq : kSha256K = (List.range 64).map K := by decide +kernel

theorem init_eq : sha256Init.state = H0 := by decide +kernel

/-! ## One block -/

theorem W_of_lt (M : Nat → UInt32) {t : Nat} (h : t < 16) : W M t = M t := by
  rw [W, if_pos h]

theorem W_of_le (M : Nat → UInt32) {t : Nat} (h : 16 ≤ t) :
    W M t = sigma1 (W M (t - 2)) + W M (t - 7) + sigma0 (W M (t - 15)) + W M (t - 16) := by
  rw [W, if_neg (by omega)]

/-- The schedule depends on the sixteen words of the block alone. -/
theorem W_congr {M M' : Nat → UInt32} (h : ∀ t < 16, M t = M' t) (t : Nat) : W M t = W M' t := by
  induction t using Nat.strong_induction_on with
  | _ t ih =>
    by_cases ht : t < 16
    · rw [W_of_lt M ht, W_of_lt M' ht, h t ht]
    · rw [W_of_le M (by omega), W_of_le M' (by omega), ih (t - 2) (by omega),
        ih (t - 7) (by omega), ih (t - 15) (by omega), ih (t - 16) (by omega)]

theorem rounds_congr {M M' : Nat → UInt32} (h : ∀ t < 16, M t = M' t) (H : Words) (t : Nat) :
    rounds M H t = rounds M' H t := by
  induction t with
  | zero => rfl
  | succ t ih => rw [rounds, rounds, ih, W_congr h]

theorem next_congr {M M' : Nat → UInt32} (h : ∀ t < 16, M t = M' t) (H : Words) :
    next M H = next M' H := by
  rw [next, next, rounds_congr h]

/-- The array of the schedule, while it is filled. -/
theorem extend_eq (M : Nat → UInt32) (n : Nat) {l : Nat} (hl : 16 ≤ l) :
    extend ((List.range l).map (W M)) n = (List.range (l + n)).map (W M) := by
  induction n generalizing l with
  | zero => rfl
  | succ n ih =>
    have hget : ∀ i < l, ((List.range l).map (W M)).getD i 0 = W M i := by
      intro i hi
      rw [List.getD_eq_getElem _ _ (by simpa using hi), List.getElem_map, List.getElem_range]
    have hstep : (List.range (l + 1)).map (W M) = (List.range l).map (W M) ++ [W M l] := by
      rw [List.range_succ, List.map_append, List.map_singleton]
    rw [extend, List.length_map, List.length_range, hget _ (by omega), hget _ (by omega),
      hget _ (by omega), hget _ (by omega)]
    change extend ((List.range l).map (W M) ++ [sigma1 (W M (l - 2)) + W M (l - 7) +
      sigma0 (W M (l - 15)) + W M (l - 16)]) n = _
    rw [← W_of_le M hl, ← hstep, ih (by omega), Nat.add_assoc, Nat.add_comm 1 n]

/-- A byte that is shifted within the word. -/
theorem toNat_shifted (b : UInt8) {k : UInt32} (hk : k.toNat ≤ 24) :
    (b.toUInt32 <<< k).toNat = b.toNat <<< k.toNat := by
  have hfit : b.toNat * 2 ^ k.toNat < 2 ^ 32 :=
    calc b.toNat * 2 ^ k.toNat < 2 ^ 8 * 2 ^ k.toNat :=
          Nat.mul_lt_mul_of_pos_right b.toNat_lt (Nat.two_pow_pos _)
      _ ≤ 2 ^ 8 * 2 ^ 24 := Nat.mul_le_mul_left _ (Nat.pow_le_pow_right (by decide) hk)
      _ = 2 ^ 32 := by decide
  have hmod : k.toNat % 32 = k.toNat := Nat.mod_eq_of_lt (by omega)
  rw [UInt32.toNat_shiftLeft, UInt8.toNat_toUInt32, hmod, Nat.shiftLeft_eq,
    Nat.mod_eq_of_lt hfit]

/-- Four bytes as a word. -/
theorem word_of_bytes (b0 b1 b2 b3 : UInt8) :
    ((b0.toUInt32 <<< 24) ||| (b1.toUInt32 <<< 16) ||| (b2.toUInt32 <<< 8) ||| b3.toUInt32) =
      UInt32.ofNat (b0.toNat * 2 ^ 24 + b1.toNat * 2 ^ 16 + b2.toNat * 2 ^ 8 + b3.toNat) := by
  have h0 := b0.toNat_lt
  have h1 := b1.toNat_lt
  have h2 := b2.toNat_lt
  have h3 := b3.toNat_lt
  apply UInt32.toNat_inj.1
  -- the shifted bytes do not overlap: each or is a sum
  have ho : b0.toNat <<< 24 ||| b1.toNat <<< 16 ||| b2.toNat <<< 8 ||| b3.toNat =
      b0.toNat * 2 ^ 24 + b1.toNat * 2 ^ 16 + b2.toNat * 2 ^ 8 + b3.toNat := by
    have h1' : b1.toNat <<< 16 < 2 ^ 24 := by rw [Nat.shiftLeft_eq]; omega
    have h2' : b2.toNat <<< 8 < 2 ^ 16 := by rw [Nat.shiftLeft_eq]; omega
    rw [← Nat.shiftLeft_add_eq_or_of_lt h1']
    have e1 : b0.toNat <<< 24 + b1.toNat <<< 16 = (b0.toNat * 2 ^ 8 + b1.toNat) <<< 16 := by
      simp only [Nat.shiftLeft_eq]
      omega
    rw [e1, ← Nat.shiftLeft_add_eq_or_of_lt h2']
    have e2 : (b0.toNat * 2 ^ 8 + b1.toNat) <<< 16 + b2.toNat <<< 8 =
        ((b0.toNat * 2 ^ 8 + b1.toNat) * 2 ^ 8 + b2.toNat) <<< 8 := by
      simp only [Nat.shiftLeft_eq]
      omega
    rw [e2, ← Nat.shiftLeft_add_eq_or_of_lt h3, Nat.shiftLeft_eq]
    omega
  have hs0 := toNat_shifted b0 (k := 24) (by decide)
  have hs1 := toNat_shifted b1 (k := 16) (by decide)
  have hs2 := toNat_shifted b2 (k := 8) (by decide)
  rw [UInt32.toNat_or, UInt32.toNat_or, UInt32.toNat_or, hs0, hs1, hs2, UInt8.toNat_toUInt32]
  refine ho.trans ?_
  rw [UInt32.toNat_ofNat', Nat.mod_eq_of_lt (by omega)]

theorem blockWords_eq (data : Bytes) :
    blockWords data = (List.range (data.length / 4)).map (word data 0) := by
  induction data using blockWords.induct with
  | case1 b0 b1 b2 b3 rest ih =>
    have hlen : (b0 :: b1 :: b2 :: b3 :: rest).length / 4 = rest.length / 4 + 1 := by
      simp only [List.length_cons]
      omega
    rw [blockWords, ih, hlen, List.range_succ_eq_map, List.map_cons, List.map_map, word_of_bytes]
    rfl
  | case2 data h =>
    have hlen : data.length / 4 = 0 := by
      rcases data with _ | ⟨b0, _ | ⟨b1, _ | ⟨b2, _ | ⟨b3, rest⟩⟩⟩⟩
      · simp
      · simp
      · simp
      · simp
      · exact absurd rfl (h b0 b1 b2 b3 rest)
    rw [hlen, blockWords]
    · rfl
    · exact h

/-- **A block goes through the rounds of the standard.** -/
theorem transform_eq (state : Words) {block : Bytes} (h : block.length = 64) :
    sha256Transform state block = next (word block 0) state := by
  have hm : extend (blockWords block) 48 = (List.range 64).map (W (word block 0)) := by
    have h16 : blockWords block = (List.range 16).map (W (word block 0)) := by
      rw [blockWords_eq, h]
      exact List.map_congr_left fun t ht => (W_of_lt _ (List.mem_range.1 ht)).symm
    rw [h16, extend_eq _ 48 (Nat.le_refl 16)]
  have hrounds : ∀ n, (List.range n).foldl
      (fun s t => s.round (K t) (W (word block 0) t)) state = rounds (word block 0) state n := by
    intro n
    induction n with
    | zero => rfl
    | succ n ih =>
      rw [List.range_succ, List.foldl_append, ih]
      rfl
  rw [sha256Transform, hm, kSha256K_eq, List.zip_map', List.foldl_map]
  dsimp only
  rw [hrounds, next]
  simp only [Words.add, UInt32.add_comm]

/-! ## The context -/

/-- A block of a text. -/
theorem transform_block {text block rest : Bytes} {n : Nat} (hlen : block.length = 64)
    (hdrop : text.drop (64 * n) = block ++ rest) :
    sha256Transform (hashBlocks text n) block = hashBlocks text (n + 1) := by
  have hbyte : ∀ i < 64, block.getD i 0 = text.getD (64 * n + i) 0 := by
    intro i hi
    have h : (text.drop (64 * n)).getD i 0 = text.getD (64 * n + i) 0 := by
      simp [List.getD_eq_getElem?_getD, List.getElem?_drop]
    rw [← h, hdrop, List.getD_append _ _ _ _ (by omega)]
  rw [transform_eq _ hlen, hashBlocks]
  refine next_congr (fun t ht => ?_) _
  simp only [word, Nat.mul_zero, Nat.zero_add, Nat.add_assoc]
  rw [hbyte _ (by omega), hbyte _ (by omega), hbyte _ (by omega), hbyte _ (by omega)]

/-- Blocks that are full are hashed whatever is behind them. -/
theorem hashBlocks_append (text more : Bytes) {n : Nat} (h : 64 * n ≤ text.length) :
    hashBlocks (text ++ more) n = hashBlocks text n := by
  induction n with
  | zero => rfl
  | succ n ih =>
    rw [hashBlocks, hashBlocks, ih (by omega)]
    refine next_congr (fun t ht => ?_) _
    have hbyte : ∀ i, 64 * n + 4 * t + i < text.length →
        (text ++ more).getD (64 * n + 4 * t + i) 0 = text.getD (64 * n + 4 * t + i) 0 :=
      fun i hi => List.getD_append _ _ _ _ hi
    simp only [word]
    rw [hbyte 0 (by omega), hbyte 1 (by omega), hbyte 2 (by omega), hbyte 3 (by omega)]

/-- What the context holds when it was fed a text: the hash of its `n` full blocks, and the rest
of it. -/
structure Fed (text : Bytes) (n : Nat) (ctx : Sha256Ctx) : Prop where
  length : text.length = 64 * n + ctx.data.length
  room : ctx.data.length < 64
  data : text.drop (64 * n) = ctx.data
  state : ctx.state = hashBlocks text n
  bitlen : ctx.bitlen = UInt64.ofNat (512 * n)

theorem fed_init : Fed [] 0 sha256Init := ⟨rfl, by decide, rfl, init_eq, rfl⟩

/-- One byte more. -/
theorem fed_push {text : Bytes} {n : Nat} {ctx : Sha256Ctx} (h : Fed text n ctx) (b : UInt8) :
    ∃ m, Fed (text ++ [b]) m (ctx.push b) := by
  have hlen := h.length
  have hroom := h.room
  have hdrop : (text ++ [b]).drop (64 * n) = ctx.data ++ [b] := by
    rw [List.drop_append_of_le_length (by omega), h.data]
  have hbefore : hashBlocks (text ++ [b]) n = ctx.state := by
    rw [hashBlocks_append _ _ (by omega), h.state]
  unfold Sha256Ctx.push
  dsimp only
  by_cases hfull : (ctx.data ++ [b]).length = 64
  · rw [if_pos hfull]
    rw [List.length_append, List.length_singleton] at hfull
    refine ⟨n + 1, ?_, by simp, ?_, ?_, ?_⟩
    · simp only [List.length_append, List.length_singleton, List.length_nil]
      omega
    · rw [List.drop_eq_nil_of_le]
      simp only [List.length_append, List.length_singleton]
      omega
    · rw [← hbefore]
      exact transform_block (by simpa using hfull) (by rw [hdrop, List.append_nil])
    · rw [h.bitlen, Nat.mul_add, UInt64.ofNat_add]
      rfl
  · rw [if_neg hfull]
    rw [List.length_append, List.length_singleton] at hfull
    refine ⟨n, ?_, ?_, hdrop, hbefore.symm, h.bitlen⟩
    · simp only [List.length_append, List.length_singleton]
      omega
    · simp only [List.length_append, List.length_singleton]
      omega

/-- Any bytes more, in a portion. -/
theorem fed_update {text : Bytes} {n : Nat} {ctx : Sha256Ctx} (h : Fed text n ctx) (more : Bytes) :
    ∃ m, Fed (text ++ more) m (sha256Update ctx more) := by
  induction more generalizing text n ctx with
  | nil => exact ⟨n, by rw [List.append_nil]; exact h⟩
  | cons b more ih =>
    obtain ⟨m, hm⟩ := fed_push h b
    obtain ⟨m', hm'⟩ := ih hm
    exact ⟨m', by rw [List.append_assoc] at hm'; exact hm'⟩

/-! ## Padding -/

theorem length_bigEndian (n x : Nat) : (bigEndian n x).length = n := by
  rw [bigEndian, List.length_map, List.length_range]

theorem le_reverse_eq (x : Nat) : (le 8 x).reverse = bigEndian 8 x := by
  simp [le, bigEndian, List.range_succ, Nat.div_div_eq_div_mul]

/-- The number of bits that ends the padding. -/
theorem bigEndian64_eq {text : Bytes} {n : Nat} {ctx : Sha256Ctx} (h : Fed text n ctx)
    (hshort : text.length < 2 ^ 61) :
    bigEndian64 (ctx.bitlen + UInt64.ofNat (ctx.data.length * 8)) =
      bigEndian 8 (8 * text.length) := by
  have hlen := h.length
  have hbits : 512 * n + ctx.data.length * 8 = 8 * text.length := by omega
  rw [bigEndian64, h.bitlen, ← UInt64.ofNat_add, hbits, UInt64.toNat_ofNat',
    Nat.mod_eq_of_lt (by omega), le_reverse_eq]

/-- **The last blocks**: one where the length still fits behind the bit 1, and two otherwise. -/
theorem final_eq {text : Bytes} {n : Nat} {ctx : Sha256Ctx} (h : Fed text n ctx)
    (hshort : text.length < 2 ^ 61) :
    sha256Final ctx =
      (hashBlocks (padded text) ((padded text).length / 64)).toList.flatMap bigEndian32 := by
  have hlen := h.length
  have hroom := h.room
  have hbits := bigEndian64_eq h hshort
  have hmod : text.length % 64 = ctx.data.length := by omega
  have hbig := length_bigEndian 8 (8 * text.length)
  have hdrop : (padded text).drop (64 * n) = ctx.data ++ [0x80] ++
      List.replicate ((119 - ctx.data.length) % 64) 0 ++ bigEndian 8 (8 * text.length) := by
    rw [padded, hmod, List.append_assoc, List.append_assoc,
      List.drop_append_of_le_length (by omega), h.data]
    simp only [List.append_assoc]
  have hstate : ctx.state = hashBlocks (padded text) n := by
    rw [padded, List.append_assoc, List.append_assoc, hashBlocks_append _ _ (by omega), h.state]
  have hpadded : (padded text).length =
      text.length + 1 + (119 - ctx.data.length) % 64 + 8 := by
    simp only [padded, hmod, List.length_append, List.length_singleton, List.length_replicate, hbig]
  unfold sha256Final
  dsimp only
  rw [hbits]
  by_cases hone : ctx.data.length < 56
  · have hzeros : (119 - ctx.data.length) % 64 = 56 - (ctx.data.length + 1) := by omega
    have hcount : (padded text).length / 64 = n + 1 := by omega
    rw [if_pos hone, hcount]
    dsimp only
    rw [hstate, @transform_block _ _ [] _ ?_ (by rw [hdrop, hzeros, List.append_nil])]
    simp only [List.length_append, List.length_singleton, List.length_replicate, hbig]
    omega
  · have hzeros : (119 - ctx.data.length) % 64 = 64 - (ctx.data.length + 1) + 56 := by omega
    have hcount : (padded text).length / 64 = n + 1 + 1 := by omega
    have hsplit : (padded text).drop (64 * n) =
        (ctx.data ++ [0x80] ++ List.replicate (64 - (ctx.data.length + 1)) 0) ++
          (List.replicate 56 0 ++ bigEndian 8 (8 * text.length)) := by
      rw [hdrop, hzeros, List.replicate_add]
      simp only [List.append_assoc]
    have hfirst : (ctx.data ++ [0x80] ++
        List.replicate (64 - (ctx.data.length + 1)) (0 : UInt8)).length = 64 := by
      simp only [List.length_append, List.length_singleton, List.length_replicate]
      omega
    have hsecond : (padded text).drop (64 * (n + 1)) =
        List.replicate 56 0 ++ bigEndian 8 (8 * text.length) := by
      rw [Nat.mul_add, Nat.mul_one, ← List.drop_drop, hsplit, List.drop_left' hfirst]
    rw [if_neg hone, hcount]
    dsimp only
    rw [hstate, transform_block hfirst hsplit,
      @transform_block _ _ [] _ ?_ (by rw [hsecond, List.append_nil])]
    simp only [List.length_append, List.length_replicate, hbig]

/-! ## Digits -/

theorem hexDigit_eq (b : UInt8) :
    [hexDigit ((b >>> 4) &&& 0xF), hexDigit (b &&& 0xF)] =
      [hexChar (b.toNat / 16), hexChar (b.toNat % 16)] := by
  have hall : ∀ n : Fin 256, [hexDigit ((UInt8.ofNat n >>> 4) &&& 0xF),
      hexDigit (UInt8.ofNat n &&& 0xF)] = [hexChar (n.val / 16), hexChar (n.val % 16)] := by
    decide +kernel
  simpa using hall ⟨b.toNat, b.toNat_lt⟩

/-- A word is written in eight digits. -/
theorem bytesToHex_bigEndian32 (w : UInt32) : bytesToHex (bigEndian32 w) = hexWord w := by
  have hbyte : ∀ x : Nat, (UInt8.ofNat (x % 256)).toNat = x % 256 := by
    intro x
    rw [UInt8.toNat_ofNat', Nat.mod_mod_of_dvd _ (by decide)]
  simp only [bytesToHex, bigEndian32, le, List.reverse_cons, List.reverse_nil, List.nil_append,
    List.cons_append, List.flatMap_cons, List.flatMap_nil, hexDigit_eq, hbyte, hexWord,
    List.range_succ, List.range_zero, List.map_cons, List.map_nil, List.cons.injEq, and_true]
  norm_num only
  refine ⟨?_, ?_, ?_, ?_, ?_, ?_, ?_, ?_⟩ <;> congr 1 <;> omega

theorem bytesToHex_append (s t : Bytes) : bytesToHex (s ++ t) = bytesToHex s ++ bytesToHex t :=
  List.flatMap_append

theorem bytesToHex_words (H : Words) : bytesToHex (H.toList.flatMap bigEndian32) =
    hexWord H.a ++ hexWord H.b ++ hexWord H.c ++ hexWord H.d ++
      hexWord H.e ++ hexWord H.f ++ hexWord H.g ++ hexWord H.h := by
  simp only [Words.toList, List.flatMap_cons, List.flatMap_nil, List.append_nil,
    bytesToHex_append, bytesToHex_bigEndian32, List.append_assoc]

/-- What a fed context is finished to. -/
theorem digest_of_fed {text : Bytes} {n : Nat} {ctx : Sha256Ctx} (h : Fed text n ctx)
    (hshort : text.length < 2 ^ 61) : bytesToHex (sha256Final ctx) = sha256 text := by
  rw [final_eq h hshort, bytesToHex_words, sha256]

/-! ## Files -/

/-- A file's reads deliver its bytes: every read gets some, until one ends the stream, with what
is left or with nothing. -/
inductive Delivers : List FileRead → Bytes → Prop
  | last (got : Bytes) : Delivers [⟨got, false⟩] got
  | more {got rest : Bytes} {reads : List FileRead} : got ≠ [] →
      Delivers reads rest → Delivers (⟨got, true⟩ :: reads) (got ++ rest)

/-- The loop feeds all that is delivered. -/
theorem fed_reads {reads : List FileRead} {bytes : Bytes} (hd : Delivers reads bytes)
    {text : Bytes} {n : Nat} {ctx : Sha256Ctx} (h : Fed text n ctx) :
    ∃ m, Fed (text ++ bytes) m (updateReads ctx reads) := by
  induction hd generalizing text n ctx with
  | last got =>
    rw [updateReads]
    split
    · rename_i hnil
      dsimp only at hnil
      exact ⟨n, by rw [hnil, List.append_nil]; exact h⟩
    · rw [if_neg Bool.false_ne_true]
      exact fed_update h got
  | more hne hrest ih =>
    rw [updateReads, if_neg hne, if_pos rfl]
    obtain ⟨m, hm⟩ := fed_update h _
    obtain ⟨m', hm'⟩ := ih hm
    exact ⟨m', by rw [List.append_assoc] at hm'; exact hm'⟩

/-- **The audit digest is SHA-256**: of every text shorter than 2^61 bytes, and of every file
however its bytes are delivered. -/
theorem digest_is_fips {message : Bytes} (hshort : message.length < 2 ^ 61) :
    sha256HexString message = sha256 message ∧
    ∀ reads, Delivers reads message → sha256HexFile (some reads) = sha256 message := by
  constructor
  · obtain ⟨n, h⟩ := fed_update fed_init message
    rw [sha256HexString]
    exact digest_of_fed h hshort
  · intro reads hd
    obtain ⟨n, h⟩ := fed_reads hd fed_init
    rw [sha256HexFile]
    exact digest_of_fed h hshort

/-- A file of 56 bytes in two reads: its length does not fit into the first block. -/
theorem digest_is_fips_two_reads :
    sha256HexFile (some [⟨List.replicate 50 97, true⟩, ⟨List.replicate 6 97, false⟩]) =
      sha256 (List.replicate 56 97) :=
  (@digest_is_fips (List.replicate 56 97) (by decide)).2 _
    (Delivers.more (by decide) (.last (List.replicate 6 97)))

end EBTree.Audit
