import EBTree.Audit.RarChain

/-!
# What a recovered engine is expected to hold

`op_log_expect.cc` and `contract_attestor.cc` (`tools/ebtree_audit`). The operation log is read
into a list of expected keys and a list of all keys it mentions; the latter are looked up in the
engine, and `ContractAttest` compares what was found with what is expected.

Left out: the shard and the read tier of a probe, which the comparison does not read.
-/

set_option autoImplicit false

namespace EBTree.Audit

inductive ContractMode
  | kVisibility | kDurable
  deriving DecidableEq, Repr

structure ExpectedKeyEntry where
  shard : UInt32 := 0
  key : Bytes := []
  value : Bytes := []
  expectedValueHash : Bytes := []
  inDurableSet : Bool := true
  inVisibilitySet : Bool := true
  deriving DecidableEq, Repr

structure ExpectSnapshot where
  mode : ContractMode := .kVisibility
  keySetSource : String := ""
  entries : List ExpectedKeyEntry := []
  touchedKeys : List Bytes := []
  deriving DecidableEq, Repr

/-! ## Reading the log -/

/-- What stands between the next two quotes behind the key. Escapes are not undone, and a quote
that is escaped ends the string as well. -/
def extractJsonString (line key : Bytes) : Option Bytes :=
  ((behind? (jsonKey key) line).bind (behind? [34])).bind fun rest =>
    (indexOf? [34] rest).map fun q => rest.take q

def extractJsonBool (line key : Bytes) : Option Bool :=
  (behind? (jsonKey key) line).bind fun val =>
    if ascii "true" <+: val then some true
    else if ascii "false" <+: val then some false
    else none

/-- One line of the log. -/
def expectLine (out : ExpectSnapshot) (line : Bytes) : ExpectSnapshot :=
  if line = [] then out
  else match extractJsonString line (ascii "op"), extractJsonString line (ascii "key") with
    | some op, some key =>
      let valueSha256 := (extractJsonString line (ascii "value_sha256")).getD []
      let durable := (extractJsonBool line (ascii "durable_at_return")).getD false
      let out := { out with touchedKeys := out.touchedKeys ++ [key] }
      if op = ascii "delete" then out
      else
        { out with
          entries := out.entries ++
            [{ key := key, inDurableSet := durable, inVisibilitySet := true,
               expectedValueHash := valueSha256 }] }
    | _, _ => out

/-- `LoadOpLogExpectSnapshot`. -/
def loadOpLogExpectSnapshot (log : Option Bytes) (mode : ContractMode) :
    Except Status ExpectSnapshot :=
  match log with
  | none => .error (.notFound "op_log not found")
  | some text =>
    .ok ((getlines [] text).foldl expectLine { mode := mode, keySetSource := "op_log" })

/-- `CollectProbeKeysFromExpect`. -/
def collectProbeKeysFromExpect (expect : ExpectSnapshot) : List Bytes := expect.touchedKeys

/-! ## Comparing with the engine -/

structure KeyProbeResult where
  key : Bytes
  found : Bool
  valueSha256 : Bytes
  deriving DecidableEq, Repr

/-- The probes that `AttestExport` makes, with what `Get` answers. -/
def attestProbes (get : Bytes → Option Bytes) (keys : List Bytes) : List KeyProbeResult :=
  keys.map fun key => ⟨key, (get key).isSome, ((get key).map sha256HexString).getD []⟩

structure ContractKeyIssue where
  shard : UInt32 := 0
  key : Bytes := []
  expectedHash : Bytes := []
  actualHash : Bytes := []
  deriving DecidableEq, Repr

structure ContractReport where
  mode : ContractMode := .kVisibility
  keySetSource : String := ""
  durableExpectedCount : UInt64 := 0
  recoveredCount : UInt64 := 0
  missing : List ContractKeyIssue := []
  unexpected : List ContractKeyIssue := []
  pendingUncommitted : List ContractKeyIssue := []
  deriving DecidableEq, Repr

def findProbe (probes : List KeyProbeResult) (key : Bytes) : Option KeyProbeResult :=
  probes.find? fun probe => probe.key = key

/-- `expected_map`: of several entries of a key the last one. -/
def expectedMap (entries : List ExpectedKeyEntry) (key : Bytes) : Option ExpectedKeyEntry :=
  entries.reverse.find? fun entry => entry.key = key

def ExpectedKeyEntry.expectedHash (entry : ExpectedKeyEntry) : Bytes :=
  if entry.expectedValueHash ≠ [] then entry.expectedValueHash else sha256HexString entry.value

def ExpectedKeyEntry.shouldExpect (mode : ContractMode) (entry : ExpectedKeyEntry) : Bool :=
  if mode = .kDurable then entry.inDurableSet else entry.inVisibilitySet

/-- The first loop: an entry that is expected. -/
def attestEntry (mode : ContractMode) (probes : List KeyProbeResult) (out : ContractReport)
    (entry : ExpectedKeyEntry) : ContractReport :=
  if entry.shouldExpect mode then
    let out := { out with durableExpectedCount := out.durableExpectedCount + 1 }
    let issue : ContractKeyIssue :=
      { shard := entry.shard, key := entry.key, expectedHash := entry.expectedHash }
    match (findProbe probes entry.key).filter fun probe => probe.found with
    | none => { out with missing := out.missing ++ [issue] }
    | some probe =>
      let out := { out with recoveredCount := out.recoveredCount + 1 }
      if probe.valueSha256 ≠ entry.expectedHash then
        { out with missing := out.missing ++ [{ issue with actualHash := probe.valueSha256 }] }
      else out
  else out

/-- The second loop: a key that was touched, found, and should not be there. -/
def attestTouched (expect : ExpectSnapshot) (probes : List KeyProbeResult) (out : ContractReport)
    (key : Bytes) : ContractReport :=
  let expected := expectedMap expect.entries key
  let shouldBeAbsent := expected.any fun entry =>
    (expect.mode = .kDurable && !entry.inDurableSet && !entry.inVisibilitySet) ||
      (expect.mode = .kVisibility && !entry.inVisibilitySet)
  match (findProbe probes key).filter fun probe => probe.found with
  | some probe =>
    if shouldBeAbsent || expected.isNone then
      { out with
        unexpected := out.unexpected ++ [{ key := key, actualHash := probe.valueSha256 }] }
    else out
  | none => out

/-- The third loop: an entry that was not durable and is there. -/
def attestPending (mode : ContractMode) (probes : List KeyProbeResult) (out : ContractReport)
    (entry : ExpectedKeyEntry) : ContractReport :=
  if entry.inDurableSet then out
  else if !entry.inVisibilitySet && mode = .kVisibility then out
  else match (findProbe probes entry.key).filter fun probe => probe.found with
    | some probe =>
      { out with
        pendingUncommitted := out.pendingUncommitted ++
          [{ shard := entry.shard, key := entry.key, actualHash := probe.valueSha256 }] }
    | none => out

/-- `ContractAttest`. -/
def contractAttest (expect : ExpectSnapshot) (probes : List KeyProbeResult) : ContractReport :=
  let source := if expect.keySetSource = "" then "oracle" else expect.keySetSource
  let out : ContractReport := { mode := expect.mode, keySetSource := source }
  let out := expect.entries.foldl (attestEntry expect.mode probes) out
  let out := expect.touchedKeys.foldl (attestTouched expect probes) out
  expect.entries.foldl (attestPending expect.mode probes) out

end EBTree.Audit
