import EBTree.Lib.Bytes
import EBTree.Lib.Find

/-!
# The digest

`Sha256Hex`, `Sha256HexString` and `Sha256HexFile` (`tools/ebtree_audit/digest.cc`). The context holds the eight
words of state, the bits of the blocks gone through, and the bytes of the block that is being
filled; `Sha256Update` fills it byte by byte, `Sha256Final` pads it and writes the state out.

The buffer is modelled by the bytes that are in it: `datalen` is their number, and what the array
holds behind them is written before it is read.

* `length_sha256HexString`: a digest is 64 hex digits.
-/

set_option autoImplicit false

namespace EBTree.Audit

/-! ## One block -/

/-- `kSha256K`. -/
def kSha256K : List UInt32 := [
  0x428a2f98, 0x71374491, 0xb5c0fbcf, 0xe9b5dba5, 0x3956c25b, 0x59f111f1,
  0x923f82a4, 0xab1c5ed5, 0xd807aa98, 0x12835b01, 0x243185be, 0x550c7dc3,
  0x72be5d74, 0x80deb1fe, 0x9bdc06a7, 0xc19bf174, 0xe49b69c1, 0xefbe4786,
  0x0fc19dc6, 0x240ca1cc, 0x2de92c6f, 0x4a7484aa, 0x5cb0a9dc, 0x76f988da,
  0x983e5152, 0xa831c66d, 0xb00327c8, 0xbf597fc7, 0xc6e00bf3, 0xd5a79147,
  0x06ca6351, 0x14292967, 0x27b70a85, 0x2e1b2138, 0x4d2c6dfc, 0x53380d13,
  0x650a7354, 0x766a0abb, 0x81c2c92e, 0x92722c85, 0xa2bfe8a1, 0xa81a664b,
  0xc24b8b70, 0xc76c51a3, 0xd192e819, 0xd6990624, 0xf40e3585, 0x106aa070,
  0x19a4c116, 0x1e376c08, 0x2748774c, 0x34b0bcb5, 0x391c0cb3, 0x4ed8aa4a,
  0x5b9cca4f, 0x682e6ff3, 0x748f82ee, 0x78a5636f, 0x84c87814, 0x8cc70208,
  0x90befffa, 0xa4506ceb, 0xbef9a3f7, 0xc67178f2]

def roR (x n : UInt32) : UInt32 := (x >>> n) ||| (x <<< (32 - n))
def ch (x y z : UInt32) : UInt32 := (x &&& y) ^^^ (~~~x &&& z)
def maj (x y z : UInt32) : UInt32 := (x &&& y) ^^^ (x &&& z) ^^^ (y &&& z)

/-- `Sig0` and `Sig1`, of the rounds. -/
def bigSig0 (x : UInt32) : UInt32 := roR x 2 ^^^ roR x 13 ^^^ roR x 22
def bigSig1 (x : UInt32) : UInt32 := roR x 6 ^^^ roR x 11 ^^^ roR x 25

/-- `sig0` and `sig1`, of the message schedule. -/
def sig0 (x : UInt32) : UInt32 := roR x 7 ^^^ roR x 18 ^^^ (x >>> 3)
def sig1 (x : UInt32) : UInt32 := roR x 17 ^^^ roR x 19 ^^^ (x >>> 10)

/-- The eight words of the state, and of the variables of the rounds. -/
structure Words where
  a : UInt32
  b : UInt32
  c : UInt32
  d : UInt32
  e : UInt32
  f : UInt32
  g : UInt32
  h : UInt32
  deriving DecidableEq, Repr

namespace Words

def add (s t : Words) : Words :=
  ⟨s.a + t.a, s.b + t.b, s.c + t.c, s.d + t.d, s.e + t.e, s.f + t.f, s.g + t.g, s.h + t.h⟩

def toList (s : Words) : List UInt32 := [s.a, s.b, s.c, s.d, s.e, s.f, s.g, s.h]

/-- One round, with the word of the table and the word of the schedule it takes. -/
def round (s : Words) (k m : UInt32) : Words :=
  let t1 := s.h + bigSig1 s.e + ch s.e s.f s.g + k + m
  let t2 := bigSig0 s.a + maj s.a s.b s.c
  ⟨t1 + t2, s.a, s.b, s.c, s.d + t1, s.e, s.f, s.g⟩

end Words

/-- The words of a block, most significant byte first. -/
def blockWords : Bytes → List UInt32
  | b0 :: b1 :: b2 :: b3 :: rest =>
    ((b0.toUInt32 <<< 24) ||| (b1.toUInt32 <<< 16) ||| (b2.toUInt32 <<< 8) ||| b3.toUInt32) ::
      blockWords rest
  | _ => []

/-- `n` more words of the schedule, behind `m`. -/
def extend (m : List UInt32) : Nat → List UInt32
  | 0 => m
  | n + 1 =>
    let i := m.length
    extend (m ++ [sig1 (m.getD (i - 2) 0) + m.getD (i - 7) 0 + sig0 (m.getD (i - 15) 0) +
      m.getD (i - 16) 0]) n

/-- `Sha256Transform`. -/
def sha256Transform (state : Words) (data : Bytes) : Words :=
  let m := extend (blockWords data) 48
  state.add ((kSha256K.zip m).foldl (fun s km => s.round km.1 km.2) state)

/-! ## The context -/

structure Sha256Ctx where
  state : Words
  bitlen : UInt64
  data : Bytes
  deriving Repr

/-- `Sha256Init`. -/
def sha256Init : Sha256Ctx :=
  ⟨⟨0x6a09e667, 0xbb67ae85, 0x3c6ef372, 0xa54ff53a, 0x510e527f, 0x9b05688c, 0x1f83d9ab,
    0x5be0cd19⟩, 0, []⟩

/-- One byte of `Sha256Update`. -/
def Sha256Ctx.push (ctx : Sha256Ctx) (b : UInt8) : Sha256Ctx :=
  let data := ctx.data ++ [b]
  if data.length = 64 then ⟨sha256Transform ctx.state data, ctx.bitlen + 512, []⟩
  else { ctx with data := data }

def sha256Update (ctx : Sha256Ctx) (data : Bytes) : Sha256Ctx := data.foldl Sha256Ctx.push ctx

/-- `x` as eight bytes, most significant first. -/
def bigEndian64 (x : UInt64) : Bytes := (le 8 x.toNat).reverse

/-- `x` as four bytes, most significant first. -/
def bigEndian32 (x : UInt32) : Bytes := (le 4 x.toNat).reverse

/-- `Sha256Final`. -/
def sha256Final (ctx : Sha256Ctx) : Bytes :=
  let i := ctx.data.length
  let filled := ctx.data ++ [0x80]
  let (state, front) :=
    if i < 56 then (ctx.state, filled ++ List.replicate (56 - (i + 1)) 0)
    else (sha256Transform ctx.state (filled ++ List.replicate (64 - (i + 1)) 0),
      List.replicate 56 0)
  let bitlen := ctx.bitlen + UInt64.ofNat (i * 8)
  let final := sha256Transform state (front ++ bigEndian64 bitlen)
  final.toList.flatMap bigEndian32

/-! ## Text -/

/-- `kHex[d]`. -/
def hexDigit (d : UInt8) : UInt8 := if d < 10 then 48 + d else 87 + d

/-- `BytesToHex`. -/
def bytesToHex (data : Bytes) : Bytes :=
  data.flatMap fun (b : UInt8) => [hexDigit ((b >>> 4) &&& 0xF), hexDigit (b &&& 0xF)]

/-- `Sha256Hex`, and `Sha256HexString` on the bytes of a string. -/
def sha256HexString (data : Bytes) : Bytes :=
  bytesToHex (sha256Final (sha256Update sha256Init data))

/-- One `read` of a file into the buffer: the bytes it got, and whether the stream is good for
another one. -/
structure FileRead where
  got : Bytes
  good : Bool
  deriving Repr

/-- The loop of `Sha256HexFile`. -/
def updateReads (ctx : Sha256Ctx) : List FileRead → Sha256Ctx
  | [] => ctx
  | read :: rest =>
    if read.got = [] then ctx
    else if read.good then updateReads (sha256Update ctx read.got) rest
    else sha256Update ctx read.got

/-- `Sha256HexFile`, with the reads of the file; `none` for a file that does not open. -/
def sha256HexFile : Option (List FileRead) → Bytes
  | none => []
  | some reads => bytesToHex (sha256Final (updateReads sha256Init reads))

/-- The digest of the empty text. -/
example : sha256HexString [] =
    ascii "e3b0c44298fc1c149afbf4c8996fb92427ae41e4649b934ca495991b7852b855" := by decide +kernel

theorem length_bytesToHex (data : Bytes) : (bytesToHex data).length = 2 * data.length := by
  induction data with
  | nil => rfl
  | cons b data ih =>
    rw [bytesToHex, List.flatMap_cons] at *
    simp only [List.length_append, List.length_cons, List.length_nil, ih]
    omega

/-- **A digest has 64 digits**, whatever is hashed. -/
theorem length_sha256HexString (data : Bytes) : (sha256HexString data).length = 64 := by
  have h : (sha256Final (sha256Update sha256Init data)).length = 32 := by
    simp [sha256Final, Words.toList, bigEndian32]
  rw [sha256HexString, length_bytesToHex, h]

theorem sha256HexString_ne_nil (data : Bytes) : sha256HexString data ≠ [] := fun h => by
  have := length_sha256HexString data
  rw [h] at this
  cases this

theorem hexDigit_isHex {d : UInt8} (h : d < 16) :
    (48 ≤ hexDigit d ∧ hexDigit d ≤ 57) ∨ (97 ≤ hexDigit d ∧ hexDigit d ≤ 102) := by
  have hall : ∀ n : Fin 16, (48 ≤ hexDigit (UInt8.ofNat n.val) ∧ hexDigit (UInt8.ofNat n.val) ≤ 57) ∨
      (97 ≤ hexDigit (UInt8.ofNat n.val) ∧ hexDigit (UInt8.ofNat n.val) ≤ 102) := by decide
  have hd := hall ⟨d.toNat, by rw [UInt8.lt_iff_toNat_lt] at h; exact h⟩
  simpa using hd

/-- The digits hold neither a quote nor a backslash, and stand on one line. -/
theorem plain_of_mem_sha256HexString {data : Bytes} {c : UInt8}
    (h : c ∈ sha256HexString data) : (c ≠ 34 ∧ c ≠ 92) ∧ c ≠ 10 ∧ c ≠ 13 := by
  obtain ⟨b, -, hc⟩ := List.mem_flatMap.1 h
  have hlow : ∀ x : UInt8, x &&& 0xF < 16 := by
    intro x
    rw [UInt8.lt_iff_toNat_lt, UInt8.toNat_and]
    exact Nat.lt_of_le_of_lt Nat.and_le_right (by decide)
  have hex : (48 ≤ c ∧ c ≤ 57) ∨ (97 ≤ c ∧ c ≤ 102) := by
    simp only [List.mem_cons, List.not_mem_nil, or_false] at hc
    rcases hc with rfl | rfl
    · exact hexDigit_isHex (hlow _)
    · exact hexDigit_isHex (hlow _)
  have hne : ∀ x : UInt8, ¬ ((48 ≤ x ∧ x ≤ 57) ∨ (97 ≤ x ∧ x ≤ 102)) → c ≠ x := by
    rintro x hx rfl
    exact hx hex
  exact ⟨⟨hne 34 (by decide), hne 92 (by decide)⟩, hne 10 (by decide), hne 13 (by decide)⟩

-- what is hashed matters to the proofs, the rounds do not
attribute [irreducible] sha256HexString

end EBTree.Audit
