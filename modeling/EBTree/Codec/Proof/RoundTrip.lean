import EBTree.Codec.Registry

/-!
# What survives value compression

`DecompressValue` after `CompressValue`, for every value, policy and codec the registry picks.

* `lz4FastDecompress_compress_iff`: the fast codec keeps the byte of the longest run only, so it
  gives a value back exactly when the value is that byte throughout.
* `lzmaDecompressPayload_tryLzmaFast_iff`: the LZMA path gives every value back whose size its
  32-bit size field holds.
* `decompressValue_compressValue_iff`: the two together with the registry's choice between them.
-/

set_option autoImplicit false

namespace EBTree.Codec

/-! ## The condition -/

/-- One byte throughout. -/
def Uniform (input : Bytes) : Prop := ∃ b, input = List.replicate input.length b

/-- Sixteen equal bytes stand next to each other. -/
def HasRun (input : Bytes) : Prop := ∃ b, List.replicate 16 b <:+: input

/-- LZMA, with the parameters of the value preset, makes the payload smaller than the value. -/
def LzmaLib.Shrinks (L : LzmaLib) (input : Bytes) : Prop :=
  ∃ dest props, L.lzmaCompress input (input.length + input.length / 3 + 128) 1 (2 ^ 18) 3 0 2 32 1 =
    some (dest, props) ∧ 4 + kLzmaPropsSize + dest.length < input.length

/-- The values the registry gives to the fast codec. -/
def FastCoded (policy : CompressPolicy) (enable : Bool) (input : Bytes) : Prop :=
  enable = true ∧ policy.triesFast = true ∧ 64 ≤ input.length ∧ HasRun input

/-- The values the registry gives to LZMA. -/
def LzmaCoded (L : LzmaLib) (policy : CompressPolicy) (enable : Bool) (input : Bytes) : Prop :=
  enable = true ∧ policy.triesLzma = true ∧ 64 ≤ input.length ∧
    ¬ FastCoded policy enable input ∧ L.Shrinks input

/-- **When compression loses nothing**: what the fast codec gets is one byte throughout, and what
any codec gets has a size that 32 bits hold. -/
def Kept (L : LzmaLib) (policy : CompressPolicy) (enable : Bool) (input : Bytes) : Prop :=
  (FastCoded policy enable input → Uniform input ∧ input.length < 2 ^ 32) ∧
  (LzmaCoded L policy enable input → input.length < 2 ^ 32)

/-! ## Size fields -/

theorem u32_lt (n : Nat) : u32 n < 2 ^ 32 := Nat.mod_lt _ (by decide)

theorem u32_of_lt {n : Nat} (h : n < 2 ^ 32) : u32 n = n := Nat.mod_eq_of_lt h

theorem u32_eq_iff {n : Nat} : u32 n = n ↔ n < 2 ^ 32 :=
  ⟨fun h => h ▸ u32_lt n, u32_of_lt⟩

@[simp] theorem leNat_le_u32 (n : Nat) : leNat (le 4 (u32 n)) = u32 n := by
  rw [leNat_le]
  exact Nat.mod_eq_of_lt (u32_lt n)

/-! ## The fast codec -/

@[simp] theorem length_lz4FastBody (input : Bytes) (run start : Nat) :
    (lz4FastBody input run start).length = 6 := by
  simp [lz4FastBody]

theorem hasRun_iff (input : Bytes) : HasRun input ↔ 16 ≤ (bestRun input 0 (1, 0)).1 :=
  (le_bestRun_iff input 0 15 (1, 0) (by decide)).symm

/-- A long value with a long run is compressed to ten bytes. -/
theorem lz4FastCompress_of_run {input : Bytes} (hsize : 64 ≤ input.length) (hrun : HasRun input) :
    lz4FastCompress input =
      ⟨true, packWire (u32 input.length) (lz4FastBody input (bestRun input 0 (1, 0)).1
        (bestRun input 0 (1, 0)).2), u32 input.length⟩ := by
  rw [hasRun_iff] at hrun
  unfold lz4FastCompress
  rw [if_neg (by omega), if_neg (by omega), if_neg (by simp [packWire]; omega)]

/-- Without a long run the fast codec passes. -/
theorem lz4FastCompress_of_not_run {input : Bytes} (hrun : ¬ HasRun input) :
    (lz4FastCompress input).compressed = false := by
  rw [hasRun_iff] at hrun
  unfold lz4FastCompress
  split
  · rfl
  · rw [if_pos (by omega)]

/-- What the decoder makes of a wire with a run that it accepts: one byte throughout. -/
theorem lz4FastDecompress_packWire (input : Bytes) (size run start : Nat) :
    lz4FastDecompress (packWire (u32 size) (lz4FastBody input run start)) (u32 size) =
      if u32 run = 0 ∨ u32 size < u32 run then .error (.corruptPage "lz4fast bad run")
      else .ok (List.replicate (u32 size) (input.getD start 0)) := by
  have htake : (packWire (u32 size) (lz4FastBody input run start)).take 4 = le 4 (u32 size) :=
    List.take_left' (length_le _ _)
  have hdrop : (packWire (u32 size) (lz4FastBody input run start)).drop 4 =
      lz4FastBody input run start := List.drop_left' (length_le _ _)
  have hrun : leNat (((lz4FastBody input run start).drop 2).take 4) = u32 run := by
    simp [lz4FastBody, List.take_of_length_le, u32]
  unfold lz4FastDecompress
  rw [if_neg (by simp [packWire])]
  simp only [htake, hdrop, hrun, leNat_le_u32]
  rw [if_neg (by simp), if_neg (by simp [lz4FastBody])]
  rfl

/-- **The fast codec gives a value back exactly when it is one byte throughout** (and 32 bits hold
its size): bytes outside the longest run are lost. -/
theorem lz4FastDecompress_compress_iff {input : Bytes} (hsize : 64 ≤ input.length)
    (hrun : HasRun input) :
    lz4FastDecompress (lz4FastCompress input).payload (lz4FastCompress input).uncompressedSize =
      .ok input ↔ Uniform input ∧ input.length < 2 ^ 32 := by
  rw [lz4FastCompress_of_run hsize hrun]
  simp only [lz4FastDecompress_packWire]
  rw [hasRun_iff] at hrun
  obtain ⟨hstart, hlen⟩ := bestRun_bounds input 0 input.length (1, 0) (by omega)
    (by simp only; omega) (by simp only; omega)
  constructor
  · intro h
    split at h
    · cases h
    · injection h with h
      have hl : input.length < 2 ^ 32 := by
        apply u32_eq_iff.1
        simpa using congrArg List.length h
      exact ⟨⟨_, by rw [u32_of_lt hl] at h; exact h.symm⟩, hl⟩
  · rintro ⟨⟨b, hb⟩, hl⟩
    have hfill : input.getD (bestRun input 0 (1, 0)).2 0 = b := by
      rw [List.getD_eq_getElem _ _ hstart]
      have hall : ∀ x ∈ input, x = b := by
        rw [hb]
        exact fun x hx => List.eq_of_mem_replicate hx
      exact hall _ (List.getElem_mem hstart)
    rw [u32_of_lt hl, u32_of_lt (by omega), if_neg (by omega), hfill, ← hb]

/-! ## LZMA -/

section
variable {L : LzmaLib}

/-- The value preset compresses exactly when the library makes the payload smaller, and to a
payload that decompresses to the value when 32 bits hold its size. -/
theorem tryLzmaFast_of_shrinks (hL : L.Lossless) {input : Bytes} (hs : L.Shrinks input) :
    ∃ payload, tryLzmaFast L input = .ok ⟨.kLzma7z, payload, u32 input.length⟩ ∧
      payload.length < input.length ∧
      (lzmaDecompressPayload L payload (u32 input.length) = .ok input ↔
        input.length < 2 ^ 32) := by
  obtain ⟨dest, props, hc, hlen⟩ := hs
  obtain ⟨hprops, hun⟩ := hL _ _ _ _ _ _ _ _ _ _ _ hc
  have hwire : (packLzmaPayload dest (u32 input.length) props).length < input.length := by
    simp only [packLzmaPayload, List.length_append, length_le]
    omega
  refine ⟨packLzmaPayload dest (u32 input.length) props, ?_, hwire, ?_⟩
  · have hne : input ≠ [] := by
      rintro rfl
      simp at hlen
    unfold tryLzmaFast lzmaCompressPreset
    simp only [getPresetParams, hne, if_false, hc]
    rw [if_neg (by omega)]
    rfl
  · have htake : (packLzmaPayload dest (u32 input.length) props).take 4 =
        le 4 (u32 input.length) := List.take_left' (length_le _ _)
    have hdrop : (packLzmaPayload dest (u32 input.length) props).drop 4 = props ++ dest :=
      List.drop_left' (length_le _ _)
    have hsrc : (packLzmaPayload dest (u32 input.length) props).drop (4 + kLzmaPropsSize) =
        dest := by
      rw [← List.drop_drop, hdrop]
      exact List.drop_left' hprops
    unfold lzmaDecompressPayload
    rw [if_neg (by simp [packLzmaPayload, hprops])]
    simp only [htake, hdrop, hsrc, leNat_le_u32, List.take_left' hprops]
    rw [if_neg (by simp)]
    constructor
    · intro h
      -- the library's own output has the wrapped length
      cases hd : L.lzmaUncompress dest props (u32 input.length) with
      | none => simp [hd] at h
      | some out =>
        simp only [hd] at h
        split at h
        · cases h
        · injection h with h
          subst h
          exact u32_eq_iff.1 (by omega)
    · intro h
      simp only [u32_of_lt h, hun]
      rw [if_neg (by simp)]

theorem tryLzmaFast_of_not_shrinks (hL : L.Lossless) {input : Bytes} (hs : ¬ L.Shrinks input)
    {lz : ValueCodecResult} (h : tryLzmaFast L input = .ok lz) : lz.codec = .kRaw := by
  unfold tryLzmaFast lzmaCompressPreset at h
  simp only [getPresetParams] at h
  by_cases hne : input = []
  · simp only [hne, if_true] at h
    injection h with h
    rw [← h]
  · simp only [hne, if_false] at h
    cases hc : L.lzmaCompress input (input.length + input.length / 3 + 128) 1 (2 ^ 18) 3 0 2 32 1
      with
    | none =>
      rw [hc] at h
      cases h
    | some r =>
      obtain ⟨dest, props⟩ := r
      obtain ⟨hprops, -⟩ := hL _ _ _ _ _ _ _ _ _ _ _ hc
      have hbig : input.length ≤ (packLzmaPayload dest (u32 input.length) props).length := by
        by_contra hlt
        refine hs ⟨dest, props, hc, ?_⟩
        simp only [packLzmaPayload, List.length_append, length_le] at hlt
        omega
      rw [hc] at h
      simp only [hbig, if_true] at h
      injection h with h
      rw [← h]

/-! ## The registry -/

theorem compressSlow_of_not_coded (hL : L.Lossless) {policy : CompressPolicy} {input : Bytes}
    (h : policy.triesLzma = false ∨ ¬ L.Shrinks input) :
    compressSlow L policy input = ⟨.kRaw, input, u32 input.length⟩ := by
  have hdense : compressDense L policy input = ⟨.kRaw, input, u32 input.length⟩ := by
    unfold compressDense
    by_cases hp : policy = .kDense
    · rw [if_pos hp]
      cases ht : tryLzmaFast L input with
      | error e => rfl
      | ok lz =>
        rcases h with h | h
        · rw [hp] at h
          cases h
        · have := tryLzmaFast_of_not_shrinks hL h ht
          simp [this]
    · rw [if_neg hp]
  unfold compressSlow
  split
  · rename_i hl
    cases ht : tryLzmaFast L input with
    | error e => exact hdense
    | ok lz =>
      rcases h with h | h
      · rw [h] at hl
        cases hl
      · have := tryLzmaFast_of_not_shrinks hL h ht
        simp [this, hdense]
  · exact hdense

/-- What the LZMA path produced is read back through LZMA, under either of its two wire ids. -/
theorem decompressValue_compressSlow_iff (hL : L.Lossless) {policy : CompressPolicy}
    {input : Bytes} (hp : policy.triesLzma = true) (hs : L.Shrinks input) :
    decompressValue L (compressSlow L policy input).codec (compressSlow L policy input).payload
      (compressSlow L policy input).uncompressedSize = .ok input ↔ input.length < 2 ^ 32 := by
  obtain ⟨payload, ht, hlt, hiff⟩ := tryLzmaFast_of_shrinks hL hs
  unfold compressSlow
  rw [if_pos hp]
  simp only [ht]
  rw [if_pos ⟨trivial, hlt⟩]
  by_cases hb : policy = .kBalanced
  · rw [if_pos hb]
    simpa [decompressValue, registryDecompressValue] using hiff
  · rw [if_neg hb]
    simpa [decompressValue, registryDecompressValue] using hiff

theorem decompressValue_raw (input : Bytes) (n : Nat) :
    decompressValue L .kRaw input n = .ok input := rfl

/-- **Value compression gives a value back exactly when `Kept`.** -/
theorem decompressValue_compressValue_iff (L : LzmaLib) (hL : L.Lossless) (input : Bytes)
    (policy : CompressPolicy) (enable : Bool) :
    decompressValue L (compressValue L input policy enable).codec
        (compressValue L input policy enable).payload
        (compressValue L input policy enable).uncompressedSize = .ok input ↔
      Kept L policy enable input := by
  unfold compressValue
  by_cases hraw : enable = false ∨ policy = .kOff ∨ input.length < 64
  · -- neither codec is tried
    have hfast : ¬ FastCoded policy enable input := by
      rintro ⟨he, hp, hl, -⟩
      rcases hraw with h | h | h
      · rw [h] at he; cases he
      · rw [h] at hp; cases hp
      · omega
    have hlzma : ¬ LzmaCoded L policy enable input := by
      rintro ⟨he, hp, hl, -⟩
      rcases hraw with h | h | h
      · rw [h] at he; cases he
      · rw [h] at hp; cases hp
      · omega
    rw [if_pos hraw]
    exact iff_of_true (decompressValue_raw _ _) ⟨fun h => absurd h hfast, fun h => absurd h hlzma⟩
  · rw [if_neg hraw]
    simp only [not_or, Bool.not_eq_false, not_lt] at hraw
    obtain ⟨he, -, hl⟩ := hraw
    by_cases hf : policy.triesFast = true ∧ HasRun input
    · -- the fast codec takes it
      have hfast : FastCoded policy enable input := ⟨he, hf.1, hl, hf.2⟩
      have hlzma : ¬ LzmaCoded L policy enable input := fun h => h.2.2.2.1 hfast
      have hc := lz4FastCompress_of_run hl hf.2
      have hlt : (lz4FastCompress input).payload.length < input.length := by
        rw [hc]
        simp [packWire]
        omega
      rw [if_pos ⟨hf.1, by rw [hc], hlt⟩]
      have hiff := lz4FastDecompress_compress_iff hl hf.2
      constructor
      · intro h
        exact ⟨fun _ => hiff.1 h, fun h => absurd h hlzma⟩
      · intro h
        exact hiff.2 (h.1 hfast)
    · have hfast : ¬ FastCoded policy enable input := fun h => hf ⟨h.2.1, h.2.2.2⟩
      have hpass : ¬ (policy.triesFast = true ∧ (lz4FastCompress input).compressed = true ∧
          (lz4FastCompress input).payload.length < input.length) := by
        rintro ⟨hp, hc, -⟩
        rw [lz4FastCompress_of_not_run fun hr => hf ⟨hp, hr⟩] at hc
        cases hc
      rw [if_neg hpass]
      by_cases hs : policy.triesLzma = true ∧ L.Shrinks input
      · -- LZMA takes it
        rw [decompressValue_compressSlow_iff hL hs.1 hs.2]
        constructor
        · intro h
          exact ⟨fun hc => absurd hc hfast, fun _ => h⟩
        · intro h
          exact h.2 ⟨he, hs.1, hl, hfast, hs.2⟩
      · rw [compressSlow_of_not_coded hL (by
          rcases not_and_or.1 hs with h | h
          · exact .inl (by simpa using h)
          · exact .inr h)]
        exact iff_of_true (decompressValue_raw _ _)
          ⟨fun h => absurd h hfast, fun h => absurd ⟨h.2.1, h.2.2.2.2⟩ hs⟩

/-- A library that stores what it is given. -/
def storedLzma : LzmaLib where
  lzmaCompress src _ _ _ _ _ _ _ _ := some (src, [0x5D, 0, 0, 4, 0])
  lzmaUncompress src _ destLen := some (src.take destLen)

theorem storedLzma_lossless : storedLzma.Lossless := by
  intro src _ _ _ _ _ _ _ _ dest props h
  cases h
  exact ⟨rfl, by simp [storedLzma]⟩

/-- A run of sixty-three bytes and another byte behind it. -/
def runThenByte : Bytes := List.replicate 63 97 ++ [98]

theorem decompressValue_compressValue_iff_runThenByte :
    decompressValue storedLzma (compressValue storedLzma runThenByte .kBalanced true).codec
        (compressValue storedLzma runThenByte .kBalanced true).payload
        (compressValue storedLzma runThenByte .kBalanced true).uncompressedSize = .ok runThenByte ↔
      Kept storedLzma .kBalanced true runThenByte :=
  decompressValue_compressValue_iff storedLzma storedLzma_lossless runThenByte .kBalanced true

theorem runThenByte_hasRun : HasRun runThenByte :=
  ⟨97, List.replicate 47 97, [98], by decide⟩

theorem runThenByte_not_uniform : ¬ Uniform runThenByte := by
  rintro ⟨b, h⟩
  have ha : (97 : UInt8) = b := List.eq_of_mem_replicate (n := runThenByte.length) (h ▸ by decide)
  have hb : (98 : UInt8) = b := List.eq_of_mem_replicate (n := runThenByte.length) (h ▸ by decide)
  exact absurd (ha.trans hb.symm) (by decide)

/-- The byte behind the run comes back as one more byte of the run. -/
theorem compressValue_loses_byte :
    ¬ ∀ (L : LzmaLib), L.Lossless → ∀ (input : Bytes) (policy : CompressPolicy) (enable : Bool),
      decompressValue L (compressValue L input policy enable).codec
        (compressValue L input policy enable).payload
        (compressValue L input policy enable).uncompressedSize = .ok input := by
  intro h
  have hw := h storedLzma storedLzma_lossless runThenByte .kBalanced true
  have hc := @lz4FastCompress_of_run runThenByte (by decide) runThenByte_hasRun
  have hv : compressValue storedLzma runThenByte .kBalanced true =
      ⟨.kLz4Fast, (lz4FastCompress runThenByte).payload,
        (lz4FastCompress runThenByte).uncompressedSize⟩ := by
    unfold compressValue
    rw [if_neg (by decide)]
    simp only
    rw [if_pos ⟨rfl, by rw [hc], by rw [hc]; decide +kernel⟩]
  rw [hv] at hw
  exact runThenByte_not_uniform ((lz4FastDecompress_compress_iff (by decide)
    runThenByte_hasRun).1 hw).1

end

end EBTree.Codec
