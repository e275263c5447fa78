import EBTree.Audit.RarChain

/-!
# Merkle batches and the chain worker

`rar_merkle.cc`, `rar_chain_worker.cc` and `rar_chain_rotate.cc` (`tools/ebtree_audit`). The worker
appends an entry to the chain for every checkpoint, hashes it into the batch it is gathering and,
when the batch is full, appends the batch's root to a sidecar file. A proof is generated from the
two files alone.

The batch that is being gathered is in memory: a restart begins a new one. A chain that has grown
to its limit is renamed; the sidecar is not.

Files are a function from paths. Left out: anchors that the worker publishes on its own (they go
to a directory of their own), the queue of jobs (a job is processed when it is taken from it) and
streams that fail while they are written.
-/

set_option autoImplicit false

namespace EBTree.Audit

/-! ## Hashes -/

/-- `CarlMerkleHashLeaf`. -/
def carlMerkleHashLeaf (rarSha256 : Bytes) : Bytes :=
  sha256HexString (ascii "carl:leaf:" ++ rarSha256)

/-- `CarlMerkleHashNode`. -/
def carlMerkleHashNode (left right : Bytes) : Bytes :=
  sha256HexString (ascii "carl:node:" ++ left ++ right)

/-- The level above: a last node without a partner is paired with itself. -/
def nextLevel : List Bytes → List Bytes
  | [] => []
  | [x] => [carlMerkleHashNode x x]
  | x :: y :: rest => carlMerkleHashNode x y :: nextLevel rest

/-- The loop of `MerkleRootFromLeaves`; a level halves the number of nodes, so that as many rounds
as there are leaves are enough. -/
def climbLevels : Nat → List Bytes → Bytes
  | 0, level => level.headD []
  | rounds + 1, level =>
    if 1 < level.length then climbLevels rounds (nextLevel level) else level.headD []

/-- `MerkleRootFromLeaves`. -/
def merkleRootFromLeaves (leaves : List Bytes) : Bytes := climbLevels leaves.length leaves

/-! ## Batches -/

structure CarlMerkleBatch where
  batchId : UInt64 := 0
  startSequence : UInt64 := 0
  endSequence : UInt64 := 0
  rootHash : Bytes := []
  leafCount : UInt64 := 0
  deriving DecidableEq, Repr

/-- The value behind an opening quote, as `rar_merkle.cc` reads it: a backslash is dropped before
any character. -/
def plainStringValue : Bytes → Bytes
  | [] => []
  | [c] => if c = 34 then [] else [c]
  | c :: next :: rest =>
    if c = 34 then []
    else if c = 92 then next :: plainStringValue rest
    else c :: plainStringValue (next :: rest)

/-- `ParseBatchLine`. -/
def parseBatchLine (line : Bytes) : CarlMerkleBatch :=
  { batchId := (extractJsonUint64Field line (ascii "batch_id")).getD 0
    startSequence := (extractJsonUint64Field line (ascii "start_sequence")).getD 0
    endSequence := (extractJsonUint64Field line (ascii "end_sequence")).getD 0
    leafCount := (extractJsonUint64Field line (ascii "leaf_count")).getD 0
    rootHash := ((behind? (jsonKey (ascii "root_hash") ++ [34]) line).map
      plainStringValue).getD [] }

/-- `BatchToJsonLine`. -/
def batchToJsonLine (b : CarlMerkleBatch) : Bytes :=
  [123] ++ jsonKey (ascii "batch_id") ++ decimal b.batchId.toNat ++ [44] ++
  jsonKey (ascii "start_sequence") ++ decimal b.startSequence.toNat ++ [44] ++
  jsonKey (ascii "end_sequence") ++ decimal b.endSequence.toNat ++ [44] ++
  jsonKey (ascii "leaf_count") ++ decimal b.leafCount.toNat ++ [44] ++
  jsonKey (ascii "root_hash") ++ [34] ++ b.rootHash ++ [34, 125]

/-- The batch that is being gathered. -/
structure CarlMerkleAccumulator where
  batchSize : UInt64
  nextBatchId : UInt64 := 1
  batchStartSequence : UInt64 := 0
  pendingLeaves : List Bytes := []
  pendingSequences : List UInt64 := []
  deriving Repr

namespace CarlMerkleAccumulator

/-- The constructor. -/
def new (batchSize : UInt64) : CarlMerkleAccumulator :=
  { batchSize := if 0 < batchSize then batchSize else 8 }

def appendLeaf (acc : CarlMerkleAccumulator) (sequence : UInt64) (rarSha256 : Bytes) :
    CarlMerkleAccumulator :=
  { acc with
    batchStartSequence := if acc.pendingLeaves = [] then sequence else acc.batchStartSequence
    pendingSequences := acc.pendingSequences ++ [sequence]
    pendingLeaves := acc.pendingLeaves ++ [carlMerkleHashLeaf rarSha256] }

def shouldFlush (acc : CarlMerkleAccumulator) : Bool :=
  acc.batchSize.toNat ≤ acc.pendingLeaves.length

/-- `FlushBatch`. -/
def flushBatch (acc : CarlMerkleAccumulator) : CarlMerkleAccumulator × CarlMerkleBatch :=
  if acc.pendingLeaves = [] then (acc, {})
  else
    ({ acc with
        nextBatchId := acc.nextBatchId + 1
        batchStartSequence := 0
        pendingLeaves := []
        pendingSequences := [] },
      { batchId := acc.nextBatchId
        startSequence := acc.batchStartSequence
        endSequence := acc.pendingSequences.getLastD 0
        leafCount := UInt64.ofNat acc.pendingLeaves.length
        rootHash := merkleRootFromLeaves acc.pendingLeaves })

end CarlMerkleAccumulator

/-! ## Files -/

/-- What the paths hold. -/
abbrev Files := Bytes → Option Bytes

/-- `CarlMerkleSidecarPath`. -/
def carlMerkleSidecarPath (chainPath : Bytes) : Bytes := chainPath ++ ascii ".merkle.jsonl"

/-- `PersistCarlMerkleBatch`. -/
def persistCarlMerkleBatch (files : Files) (merklePath : Bytes) (b : CarlMerkleBatch) : Files :=
  Function.update files merklePath
    (some ((files merklePath).getD [] ++ batchToJsonLine b ++ [10]))

/-- `LoadCarlMerkleBatches`. -/
def loadCarlMerkleBatches (sidecar : Option Bytes) : List CarlMerkleBatch :=
  ((getlines [] (sidecar.getD [])).filter (· ≠ [])).map parseBatchLine

/-! ## Proofs -/

/-- The leaves of a batch among the entries, and the last place where `sequence` stands. -/
def batchLeaves (b : CarlMerkleBatch) (sequence : UInt64) (leaves : List Bytes)
    (target : Option Nat) : List RarChainEntry → List Bytes × Option Nat
  | [] => (leaves, target)
  | e :: es =>
    if e.sequence < b.startSequence ∨ b.endSequence < e.sequence then
      batchLeaves b sequence leaves target es
    else
      batchLeaves b sequence (leaves ++ [carlMerkleHashLeaf e.rarSha256])
        (if e.sequence = sequence then some leaves.length else target) es

/-- The siblings on the way from a place in a level up, each with the side it stands on. -/
def siblings : Nat → List Bytes → Nat → List Bytes
  | 0, _, _ => []
  | rounds + 1, level, pos =>
    if 1 < level.length then
      let sibling := if pos % 2 = 0 then pos + 1 else pos - 1
      let side := if pos % 2 = 0 then [82, 58] else [76, 58]
      let node := if sibling < level.length then level.getD sibling [] else level.getD pos []
      (side ++ node) :: siblings rounds (nextLevel level) (pos / 2)
    else []

/-- The chain that a sidecar belongs to. -/
def chainPathOf (merklePath : Bytes) : Option Bytes :=
  if merklePath.length ≤ 13 ∨ ¬ ascii ".merkle.jsonl" <:+ merklePath then none
  else some (merklePath.take (merklePath.length - 13))

/-- `GenerateCarlMerkleProof`: the siblings and the root. -/
def generateCarlMerkleProof (files : Files) (merklePath : Bytes) (sequence : UInt64) :
    Except Status (List Bytes × Bytes) :=
  match chainPathOf merklePath with
  | none => .error (.invalidArgument "invalid merkle sidecar path")
  | some chainPath => do
    let entries ← readRarChainEntries (files chainPath)
    let batches := loadCarlMerkleBatches (files merklePath)
    if batches = [] then throw (.notFound "no merkle batches")
    match batches.find? fun b => decide (b.startSequence ≤ sequence ∧ sequence ≤ b.endSequence) with
    | none => throw (.notFound "sequence not in any batch")
    | some b =>
      match batchLeaves b sequence [] none entries with
      | (_, none) => throw (.notFound "sequence not found in batch leaves")
      | (leaves, some target) => return (siblings leaves.length leaves target, b.rootHash)

/-- The steps of a proof, from the leaf up. -/
def climbProof (current : Bytes) : List Bytes → Except Status Bytes
  | [] => .ok current
  | step :: rest =>
    if step.length < 3 ∨ (step.getD 0 0 ≠ 76 ∧ step.getD 0 0 ≠ 82) ∨ step.getD 1 0 ≠ 58 then
      .error (.invalidArgument "invalid merkle proof step")
    else if step.getD 0 0 = 76 then
      climbProof (carlMerkleHashNode (step.drop 2) current) rest
    else climbProof (carlMerkleHashNode current (step.drop 2)) rest

/-- `VerifyCarlMerkleInclusion`. -/
def verifyCarlMerkleInclusion (leafHash : Bytes) (proof : List Bytes) (rootHash : Bytes) :
    Except Status Unit := do
  let current ← climbProof leafHash proof
  if current ≠ rootHash then throw (.corrupt "merkle inclusion proof failed")

/-! ## Rotation -/

/-- A path up to its last separator, which it keeps. -/
def directoryOf (path : Bytes) : Bytes := (path.reverse.dropWhile (· ≠ 47)).reverse

/-- The name a path ends with, less what stands behind its last dot; a name with a dot only in
front keeps it. -/
def stemOf (path : Bytes) : Bytes :=
  let name := (path.reverse.takeWhile (· ≠ 47)).reverse
  let front := (name.reverse.dropWhile (· ≠ 46)).reverse.dropLast
  if front = [] ∨ name = [46, 46] then name else front

/-- Where `RotateRarChainIfNeeded` moves a chain at a time. -/
def backupPath (chainPath : Bytes) (now : Int64) : Bytes :=
  directoryOf chainPath ++ stemOf chainPath ++ ascii "." ++ signedDecimal now ++
    ascii ".bak.jsonl"

/-- `RotateRarChainIfNeeded`: the chain is renamed when its last number has reached the limit. A
rename that fails changes nothing. -/
def rotateRarChainIfNeeded (files : Files) (chainPath : Bytes) (maxEntries : UInt64) (now : Int64)
    (renames : Bool) : Files :=
  if maxEntries = 0 ∨ chainPath = [] then files
  else
    match readLastRarChainEntry (files chainPath) with
    | none => files
    | some last =>
      if last.sequence < maxEntries ∨ renames = false then files
      else Function.update (Function.update files (backupPath chainPath now) (files chainPath))
        chainPath none

/-! ## The worker -/

structure RarChainWorkerOptions where
  chainPath : Bytes
  rotateMaxEntries : UInt64
  batchSize : UInt64

/-- What a job finds when it is processed: the checkpoint's snapshot with its text, or the failure
to export one; the hash of the operation log, the time, the signature of the entry's body and
whether the file system lets a chain be renamed. -/
structure Job where
  snapshot : Option (UInt64 × Bytes)
  opLogHash : Bytes
  now : Int64
  signature : Bytes → Bytes
  renames : Bool

/-- The worker and its files; `appended` are the entries that were ever appended, in order. -/
structure RarChainWorker where
  files : Files
  merkle : CarlMerkleAccumulator
  appended : List RarChainEntry

/-- A quoted string, as `rar_snapshot_builder.cc` writes one. -/
def snapshotString (s : Bytes) : Bytes :=
  34 :: (s.flatMap fun c => if c = 34 then [92, 34] else if c = 92 then [92, 92] else [c]) ++ [34]

/-- `BuildChainBodyJson`, the kernel's own text given. -/
def buildChainBodyJson (sequence checkpointLsn : UInt64) (prev opLogHead : Bytes) (now : Int64)
    (kernel : Bytes) : Bytes :=
  [123] ++ jsonKey (ascii "sequence") ++ decimal sequence.toNat ++ [44] ++
  jsonKey (ascii "checkpoint_lsn") ++ decimal checkpointLsn.toNat ++ [44] ++
  jsonKey (ascii "prev_rar_sha256") ++ snapshotString prev ++ [44] ++
  jsonKey (ascii "op_log_head_sha256") ++ snapshotString opLogHead ++ [44] ++
  jsonKey (ascii "generated_at_unix") ++ signedDecimal now ++ [44] ++
  jsonKey (ascii "kernel") ++ kernel ++ [125]

/-- The entry of a job, behind `tail`. -/
def Job.entry (job : Job) (tail : Option RarChainEntry) (checkpointLsn : UInt64)
    (kernel : Bytes) : RarChainEntry :=
  let sequence := match tail with | some t => t.sequence + 1 | none => 1
  let prev := match tail with | some t => t.rarSha256 | none => []
  let body := buildChainBodyJson sequence checkpointLsn prev job.opLogHash job.now kernel
  { sequence := sequence, checkpointLsn := checkpointLsn, prevRarSha256 := prev,
    opLogHeadSha256 := job.opLogHash, generatedAtUnix := job.now, bodyJson := body,
    rarSha256 := sha256HexString body, signature := job.signature body }

namespace RarChainWorker

variable (opts : RarChainWorkerOptions)

/-- A worker is started: nothing is gathered yet. -/
def start (files : Files) (appended : List RarChainEntry) : RarChainWorker :=
  ⟨files, .new opts.batchSize, appended⟩

/-- An entry goes to the chain and to the batch, and a full batch to the sidecar. No file opens
under an empty path. -/
def append (w : RarChainWorker) (entry : RarChainEntry) : RarChainWorker :=
  if opts.chainPath = [] then w else
  let files := Function.update w.files opts.chainPath
    (appendRarChainEntry (w.files opts.chainPath) entry)
  let merkle := w.merkle.appendLeaf entry.sequence entry.rarSha256
  let appended := w.appended ++ [entry]
  if merkle.shouldFlush then
    ⟨persistCarlMerkleBatch files (carlMerkleSidecarPath opts.chainPath) merkle.flushBatch.2,
      merkle.flushBatch.1, appended⟩
  else ⟨files, merkle, appended⟩

/-- The chain has reached its limit: the next job rotates it. -/
def Full (w : RarChainWorker) : Prop :=
  ∃ t, readLastRarChainEntry (w.files opts.chainPath) = some t ∧
    opts.rotateMaxEntries ≤ t.sequence

instance (w : RarChainWorker) : Decidable (w.Full opts) :=
  match h : readLastRarChainEntry (w.files opts.chainPath) with
  | none => .isFalse fun ⟨_, ht, _⟩ => by rw [h] at ht; cases ht
  | some t =>
    decidable_of_iff (opts.rotateMaxEntries ≤ t.sequence)
      ⟨fun hle => ⟨t, h, hle⟩, fun ⟨u, hu, hle⟩ => by rw [h] at hu; cases hu; exact hle⟩

/-- `ProcessJob`. -/
def processJob (w : RarChainWorker) (job : Job) : RarChainWorker :=
  let tail := readLastRarChainEntry (w.files opts.chainPath)
  let rotated :=
    rotateRarChainIfNeeded w.files opts.chainPath opts.rotateMaxEntries job.now job.renames
  let (w, tail) := if w.Full opts then ({ w with files := rotated }, none) else (w, tail)
  match job.snapshot with
  | none => w
  | some (lsn, kernel) => w.append opts (job.entry tail lsn kernel)

end RarChainWorker

/-- What happens to a worker: it processes a job, or its process is started anew on the same
files. -/
inductive WorkerEvent
  | job (job : Job)
  | restart

/-- One event. -/
def RarChainWorker.step (opts : RarChainWorkerOptions) (w : RarChainWorker) :
    WorkerEvent → RarChainWorker
  | .job job => w.processJob opts job
  | .restart => .start opts w.files w.appended

/-- A worker that starts with no files. -/
def RarChainWorker.init (opts : RarChainWorkerOptions) : RarChainWorker :=
  .start opts (fun _ => none) []

end EBTree.Audit
