import EBTree.Common
import EBTree.Lib.Runs

/-!
# Value compression

`Lz4FastCompress` and `Lz4FastDecompress` (`codec/lz4_fast_codec.cc`), the LZMA wrapper
(`codec/lzma_codec.cc`), `CodecRegistry` (`codec/codec_registry.cc`) and the value codec over it
(`codec/value_codec.cc`).

The LZMA library is a parameter: `LzmaLib` has its two entry points (`LzmaLib.h`), and
`LzmaLib.Lossless` says that what it compressed it gives back. Sizes on the wire are `uint32_t`.
-/

set_option autoImplicit false

namespace EBTree.Codec

/-- The value a `size_t` has after a cast to `uint32_t`. -/
def u32 (n : Nat) : Nat := n % 2 ^ 32

inductive CompressPolicy
  | kOff | kFastOnly | kBalanced | kDense | kAuto
  deriving DecidableEq, Repr

inductive ValueCodec
  | kRaw | kLegacyRle | kLz4Fast | kLzma7z | kZstdFast
  deriving DecidableEq, Repr

/-! ## The fast codec -/

def kLz4FastMagic : UInt8 := 0xF4

structure Lz4FastResult where
  compressed : Bool
  payload : Bytes
  uncompressedSize : Nat
  deriving DecidableEq, Repr

def packWire (uncompressedSize : Nat) (body : Bytes) : Bytes := le 4 uncompressedSize ++ body

/-- The magic byte, the byte of the longest run and that run's length. -/
def lz4FastBody (input : Bytes) (bestRun bestStart : Nat) : Bytes :=
  kLz4FastMagic :: input.getD bestStart 0 :: le 4 bestRun

def lz4FastCompress (input : Bytes) : Lz4FastResult :=
  let raw : Lz4FastResult := ⟨false, input, u32 input.length⟩
  if input.length < 16 then raw
  else
    let best := bestRun input 0 (1, 0)
    if best.1 < 16 then raw
    else
      let wire := packWire (u32 input.length) (lz4FastBody input best.1 best.2)
      if input.length ≤ wire.length then raw
      else ⟨true, wire, u32 input.length⟩

def lz4FastDecompress (payload : Bytes) (uncompressedSize : Nat) : Except Status Bytes :=
  if payload.length < 4 then .error (.corruptPage "lz4fast trunc")
  else
    let usize := leNat (payload.take 4)
    if usize ≠ uncompressedSize then .error (.corruptPage "lz4fast size mismatch")
    else
      let body := payload.drop 4
      if body.length < 6 ∨ body.getD 0 0 ≠ kLz4FastMagic then
        .error (.corruptPage "lz4fast bad magic")
      else
        let fill := body.getD 1 0
        let runLen := leNat ((body.drop 2).take 4)
        if runLen = 0 ∨ usize < runLen then .error (.corruptPage "lz4fast bad run")
        -- the whole output is the run's byte: what stood outside the run is not on the wire
        else .ok (List.replicate usize fill)

/-! ## LZMA -/

/-- The entry points of the LZMA library: what `LzmaCompress` writes to its destination and its
property buffer, and what `LzmaUncompress` writes to a destination of a given size; `none` is
any result code but `SZ_OK`. -/
structure LzmaLib where
  lzmaCompress : (src : Bytes) → (destCap level dictSize lc lp pb fb numThreads : Nat) →
    Option (Bytes × Bytes)
  lzmaUncompress : (src props : Bytes) → (destLen : Nat) → Option Bytes

def kLzmaPropsSize : Nat := 5

/-- The library decompresses what it compressed, and its properties fill their buffer. -/
def LzmaLib.Lossless (L : LzmaLib) : Prop :=
  ∀ src destCap level dictSize lc lp pb fb numThreads dest props,
    L.lzmaCompress src destCap level dictSize lc lp pb fb numThreads = some (dest, props) →
    props.length = kLzmaPropsSize ∧ L.lzmaUncompress dest props src.length = some src

inductive LzmaPreset
  | kFastValue | kPageBlock
  deriving DecidableEq, Repr

structure LzmaCodecResult where
  compressed : Bool
  payload : Bytes
  uncompressedSize : Nat
  deriving DecidableEq, Repr

/-- Level and dictionary size. -/
def getPresetParams : LzmaPreset → Nat × Nat
  | .kPageBlock => (5, 2 ^ 20)
  | .kFastValue => (1, 2 ^ 18)

def packLzmaPayload (compressed : Bytes) (uncompressedSize : Nat) (props : Bytes) : Bytes :=
  le 4 uncompressedSize ++ (props ++ compressed)

section
variable (L : LzmaLib)

def lzmaCompressPreset (preset : LzmaPreset) (input : Bytes) : Except Status LzmaCodecResult :=
  let raw : LzmaCodecResult := ⟨false, input, u32 input.length⟩
  if input = [] then .ok raw
  else
    let (level, dictSize) := getPresetParams preset
    let destCap := input.length + input.length / 3 + 128
    match L.lzmaCompress input destCap level dictSize 3 0 2 32 1 with
    | none => .error (.internal "LzmaCompress failed")
    | some (dest, props) =>
      let wire := packLzmaPayload dest (u32 input.length) props
      if input.length ≤ wire.length then .ok raw
      else .ok ⟨true, wire, u32 input.length⟩

def lzmaDecompressPayload (payload : Bytes) (uncompressedSize : Nat) : Except Status Bytes :=
  if payload.length < 4 + kLzmaPropsSize then .error (.corruptPage "lzma payload trunc")
  else if leNat (payload.take 4) ≠ uncompressedSize then
    .error (.corruptPage "lzma size mismatch")
  else
    let props := (payload.drop 4).take kLzmaPropsSize
    let src := payload.drop (4 + kLzmaPropsSize)
    match L.lzmaUncompress src props uncompressedSize with
    | none => .error (.corruptPage "lzma decompress failed")
    | some dest =>
      if dest.length ≠ uncompressedSize then .error (.corruptPage "lzma decompress failed")
      else .ok dest

/-! ## The registry -/

structure ValueCodecResult where
  codec : ValueCodec
  payload : Bytes
  uncompressedSize : Nat
  deriving DecidableEq, Repr

/-- An untouched result has codec `kRaw` and an empty payload. -/
def tryLzmaFast (input : Bytes) : Except Status ValueCodecResult :=
  match lzmaCompressPreset L .kFastValue input with
  | .error e => .error e
  | .ok lz =>
    if lz.compressed then .ok ⟨.kLzma7z, lz.payload, lz.uncompressedSize⟩
    else .ok ⟨.kRaw, [], 0⟩

/-- The policies that try the fast codec. -/
def CompressPolicy.triesFast : CompressPolicy → Bool
  | .kFastOnly | .kBalanced | .kAuto => true
  | _ => false

/-- The policies that try LZMA. -/
def CompressPolicy.triesLzma : CompressPolicy → Bool
  | .kBalanced | .kDense | .kAuto => true
  | _ => false

/-- The last attempt: LZMA again for `kDense`, whatever the size of its payload. -/
def compressDense (policy : CompressPolicy) (input : Bytes) : ValueCodecResult :=
  let raw : ValueCodecResult := ⟨.kRaw, input, u32 input.length⟩
  if policy = .kDense then
    match tryLzmaFast L input with
    | .ok lz => if lz.codec = .kLzma7z then lz else raw
    | .error _ => raw
  else raw

/-- `CodecRegistry::CompressValue` after the fast codec was passed over. -/
def compressSlow (policy : CompressPolicy) (input : Bytes) : ValueCodecResult :=
  if policy.triesLzma then
    match tryLzmaFast L input with
    | .ok lz =>
      if lz.codec = .kLzma7z ∧ lz.payload.length < input.length then
        if policy = .kBalanced then { lz with codec := .kZstdFast } else lz
      else compressDense L policy input
    | .error _ => compressDense L policy input
  else compressDense L policy input

/-- `CodecRegistry::CompressValue`; it returns no error. -/
def compressValue (input : Bytes) (policy : CompressPolicy) (enable : Bool) : ValueCodecResult :=
  if enable = false ∨ policy = .kOff ∨ input.length < 64 then
    ⟨.kRaw, input, u32 input.length⟩
  else
    let fast := lz4FastCompress input
    if policy.triesFast = true ∧ fast.compressed = true ∧ fast.payload.length < input.length then
      ⟨.kLz4Fast, fast.payload, fast.uncompressedSize⟩
    else compressSlow L policy input

/-- `CodecRegistry::DecompressValue`. -/
def registryDecompressValue (codec : ValueCodec) (payload : Bytes) (uncompressedSize : Nat) :
    Except Status Bytes :=
  match codec with
  | .kRaw => .ok payload
  | .kLz4Fast => lz4FastDecompress payload uncompressedSize
  | .kZstdFast => lzmaDecompressPayload L payload uncompressedSize
  | .kLzma7z => lzmaDecompressPayload L payload uncompressedSize
  | .kLegacyRle => .error (.invalidArgument "legacy rle via registry")

end

/-! ## The value codec -/

def kEsc : UInt8 := 0xFF

/-- The loop of `SimpleDecompress`: `out` is what was decoded so far. -/
def simpleDecompressLoop (expected : Nat) : Bytes → Bytes → Except Status Bytes
  | [], out => .ok out
  | esc :: rest, out =>
    if expected ≤ out.length then .ok out
    else if esc ≠ kEsc then .error (.corruptPage "value codec corrupt")
    else
      match rest with
      | [] => .error (.corruptPage "value codec trunc")
      | tag :: body =>
        if 4 ≤ tag.toNat ∧ body ≠ [] then
          simpleDecompressLoop expected body.tail (out ++ List.replicate tag.toNat (body.headD 0))
        else if body.length < tag.toNat then
          .error (.corruptPage "value codec literal trunc")
        else simpleDecompressLoop expected (body.drop tag.toNat) (out ++ body.take tag.toNat)
termination_by payload => payload.length
decreasing_by
  all_goals simp only [List.length_cons, List.length_tail, List.length_drop]; omega

def simpleDecompress (payload : Bytes) (expected : Nat) : Except Status Bytes :=
  match simpleDecompressLoop expected payload [] with
  | .error e => .error e
  | .ok out =>
    if out.length ≠ expected then .error (.corruptPage "value codec size mismatch") else .ok out

/-- `DecompressValue` (`value_codec.cc`): the old run-length codec is read here, every other one
through the registry. -/
def decompressValue (L : LzmaLib) (codec : ValueCodec) (payload : Bytes)
    (uncompressedSize : Nat) : Except Status Bytes :=
  if codec = .kLegacyRle then simpleDecompress payload uncompressedSize
  else registryDecompressValue L codec payload uncompressedSize

end EBTree.Codec
