import EBTree.Audit.Digest
import EBTree.Common
import EBTree.Lib.JsonLine

/-!
# The chain of audit records

`rar_chain.cc` and `rar_chain_anchor.cc` (`tools/ebtree_audit`). A chain is a file of lines, one
JSON object each; a file that is not there is `none`. An entry is read by searching its line for
the keys. `VerifyRarChain` goes over all entries, an anchor (a signed tree head) holds the number
and the hash of the last entry.

Left out: the `kernel_json` of an entry, which is neither written nor read back; streams that
fail while they are written; the file of published anchors with its signatures (a published anchor
is returned by `PublishCarlAnchor` and handed to the verification).
-/

set_option autoImplicit false

namespace EBTree.Audit

@[ext]
structure RarChainEntry where
  sequence : UInt64 := 0
  checkpointLsn : UInt64 := 0
  bodyJson : Bytes := []
  rarSha256 : Bytes := []
  prevRarSha256 : Bytes := []
  opLogHeadSha256 : Bytes := []
  generatedAtUnix : Int64 := 0
  signature : Bytes := []
  deriving DecidableEq, Repr, Inhabited

/-! ## Lines -/

def escapeByte (c : UInt8) : Bytes :=
  if c = 92 then [92, 92]
  else if c = 34 then [92, 34]
  else if c = 10 then [92, 110]
  else if c = 13 then [92, 114]
  else [c]

/-- `JsonEscape`. -/
def jsonEscape (s : Bytes) : Bytes := s.flatMap escapeByte

/-- The value that stands behind an opening quote, up to the quote that ends it. A backslash
before any other character stands for itself. -/
def stringValue : Bytes → Bytes
  | [] => []
  | [c] => if c = 34 then [] else [c]
  | c :: next :: rest =>
    if c = 34 then []
    else if c = 92 then
      if next = 92 ∨ next = 34 then next :: stringValue rest
      else if next = 110 then 10 :: stringValue rest
      else if next = 114 then 13 :: stringValue rest
      else c :: stringValue (next :: rest)
    else c :: stringValue (next :: rest)

def extractJsonStringField (line key : Bytes) : Option Bytes :=
  (behind? (jsonKey key ++ [34]) line).map stringValue

def extractJsonUint64Field (line key : Bytes) : Option UInt64 :=
  (behind? (jsonKey key) line).map strtoull

def extractJsonInt64Field (line key : Bytes) : Option Int64 :=
  (behind? (jsonKey key) line).map strtoll

/-- `ParseChainLine`: a line without a body is its own body. -/
def parseChainLine (line : Bytes) : RarChainEntry :=
  let body := (extractJsonStringField line (ascii "body_json")).getD []
  { sequence := (extractJsonUint64Field line (ascii "sequence")).getD 0
    checkpointLsn := (extractJsonUint64Field line (ascii "checkpoint_lsn")).getD 0
    rarSha256 := (extractJsonStringField line (ascii "rar_sha256")).getD []
    prevRarSha256 := (extractJsonStringField line (ascii "prev_rar_sha256")).getD []
    opLogHeadSha256 := (extractJsonStringField line (ascii "op_log_head_sha256")).getD []
    generatedAtUnix := (extractJsonInt64Field line (ascii "generated_at_unix")).getD 0
    bodyJson := if body = [] then line else body }

/-- A key with the string that belongs to it. -/
def stringField (key value : Bytes) : Bytes := jsonKey key ++ 34 :: (jsonEscape value ++ [34])

/-- The line that `AppendRarChainEntry` writes, without its newline. -/
def chainLine (entry : RarChainEntry) : Bytes :=
  [123] ++ jsonKey (ascii "sequence") ++ decimal entry.sequence.toNat ++ [44] ++
  jsonKey (ascii "checkpoint_lsn") ++ decimal entry.checkpointLsn.toNat ++ [44] ++
  stringField (ascii "rar_sha256") entry.rarSha256 ++ [44] ++
  stringField (ascii "prev_rar_sha256") entry.prevRarSha256 ++ [44] ++
  stringField (ascii "op_log_head_sha256") entry.opLogHeadSha256 ++ [44] ++
  jsonKey (ascii "generated_at_unix") ++ signedDecimal entry.generatedAtUnix ++ [44] ++
  stringField (ascii "body_json") entry.bodyJson ++
  (if entry.signature = [] then [] else
    [44] ++ stringField (ascii "signature") entry.signature) ++ [125]

/-- `AppendRarChainEntry`. -/
def appendRarChainEntry (chain : Option Bytes) (entry : RarChainEntry) : Option Bytes :=
  some (chain.getD [] ++ chainLine entry ++ [10])

/-! ## Reading -/

/-- The lines that `std::getline` reads, `line` being what it has read of the current one. -/
def getlines (line : Bytes) : Bytes → List Bytes
  | [] => if line = [] then [] else [line]
  | c :: rest => if c = 10 then line :: getlines [] rest else getlines (line ++ [c]) rest

/-- `ReadRarChainEntries`. -/
def readRarChainEntries : Option Bytes → Except Status (List RarChainEntry)
  | none => .error (.notFound "rar chain not found")
  | some text => .ok (((getlines [] text).filter (· ≠ [])).map parseChainLine)

/-- The scan of `ReadLastRarChainEntry` from the end of the file, on the text in reverse: `line` is
what it has gathered. It leaves out carriage returns. -/
def lastLine (line : Bytes) : Bytes → Bytes
  | [] => line
  | c :: rest =>
    if c = 10 then (if line = [] then lastLine [] rest else line)
    else if c = 13 then lastLine line rest
    else lastLine (c :: line) rest

/-- `ReadLastRarChainEntry`: `none` where it finds no entry. -/
def readLastRarChainEntry (chain : Option Bytes) : Option RarChainEntry :=
  let line := lastLine [] (chain.getD []).reverse
  if line = [] then none else some (parseChainLine line)

/-! ## Verifying -/

structure RarChainVerifyReport where
  entryCount : UInt64 := 0
  lastSequence : UInt64 := 0
  consistent : Bool := true
  lastRarSha256 : Bytes := []
  errors : List Bytes := []
  deriving DecidableEq, Repr

/-- An error is put down. -/
def RarChainVerifyReport.fail (r : RarChainVerifyReport) (message : Bytes) :
    RarChainVerifyReport :=
  { r with consistent := false, errors := r.errors ++ [message] }

/-- The checks of one entry, against the hash of the one before and the number it should have. -/
def checkEntry (prev : Bytes) (expectSeq : UInt64) (r : RarChainVerifyReport)
    (entry : RarChainEntry) : RarChainVerifyReport :=
  let seq := decimal entry.sequence.toNat
  let r := { r with entryCount := r.entryCount + 1 }
  let r := if entry.sequence ≠ expectSeq then r.fail (ascii "sequence gap at " ++ seq) else r
  let r := if prev ≠ [] ∧ entry.prevRarSha256 ≠ prev then
    r.fail (ascii "prev_rar_sha256 mismatch at seq " ++ seq) else r
  let r := if entry.bodyJson ≠ [] ∧ entry.rarSha256 ≠ [] ∧
      sha256HexString entry.bodyJson ≠ entry.rarSha256 then
    r.fail (ascii "rar_sha256 mismatch at seq " ++ seq) else r
  { r with lastSequence := entry.sequence, lastRarSha256 := entry.rarSha256 }

/-- The loop of `VerifyRarChain`. -/
def checkEntries (prev : Bytes) (expectSeq : UInt64) (r : RarChainVerifyReport) :
    List RarChainEntry → RarChainVerifyReport
  | [] => r
  | entry :: rest =>
    checkEntries entry.rarSha256 (expectSeq + 1) (checkEntry prev expectSeq r entry) rest

/-- `VerifyRarChain`. -/
def verifyRarChain (chain : Option Bytes) : Except Status RarChainVerifyReport := do
  let entries ← readRarChainEntries chain
  return checkEntries [] 1 {} entries

/-! ## Anchors -/

structure CarlSignedTreeHead where
  chainSequence : UInt64 := 0
  rootHash : Bytes := []
  publishedAtUnix : Int64 := 0
  chainPath : Bytes := []
  signature : Bytes := []
  deriving DecidableEq, Repr

/-- `PublishCarlAnchor`, with the time it is published at, the path of the chain and what the
signing key makes of the head (nothing where there is none). -/
def publishCarlAnchor (chain : Option Bytes) (path : Bytes) (now : Int64)
    (sign : CarlSignedTreeHead → Bytes) : Except Status CarlSignedTreeHead :=
  match readLastRarChainEntry chain with
  | none => .error (.notFound "empty chain")
  | some last =>
    let sth : CarlSignedTreeHead :=
      { chainSequence := last.sequence, rootHash := last.rarSha256, publishedAtUnix := now,
        chainPath := path }
    .ok { sth with signature := sign sth }

/-- `VerifyCarlAnchorAgainstChain`. -/
def verifyCarlAnchorAgainstChain (chain : Option Bytes) (anchor : CarlSignedTreeHead) :
    Except Status Unit :=
  match readLastRarChainEntry chain with
  | none => .error (.corrupt "empty chain")
  | some last =>
    if last.sequence < anchor.chainSequence then .error (.corrupt "chain behind anchor")
    else if last.rarSha256 ≠ anchor.rootHash then .error (.corrupt "anchor root_hash mismatch")
    else .ok ()

end EBTree.Audit
