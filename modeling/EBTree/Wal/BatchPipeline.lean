import EBTree.Wal.Writer

/-!
# The batch pipeline of the log

`WalBatchPipeline` (`wal_batch_pipeline.cc`): writers queue jobs and wait; a drain pops some of
them, appends them with one `AppendMany`, runs one `Fsync` and one commit hook, and gives each job
its status. `DrainIo` is what the system calls and the hook answer during one drain.
-/

set_option autoImplicit false

namespace EBTree.Wal

open Lib

/-- A queued put or delete. -/
structure Job where
  op : WalOp
  key : Key
  value : Value
  txnId : UInt32
  deriving DecidableEq, Repr

namespace Job

/-- The job `Put` queues. -/
def put (key : Key) (value : Value) (txnId : UInt32) : Job := ⟨.kPut, key, value, txnId⟩

/-- The job `Delete` queues. -/
def delete (key : Key) (txnId : UInt32) : Job := ⟨.kDelete, key, [], txnId⟩

def item (j : Job) : WalWriter.Item := ⟨j.op, j.key, j.value, j.txnId⟩

end Job

structure WalBatchCommitItem where
  op : WalOp
  key : Key
  value : Value
  lsn : Nat
  txnId : UInt32
  deriving DecidableEq, Repr

def Job.commitItem (j : Job) (lsn : Nat) : WalBatchCommitItem := ⟨j.op, j.key, j.value, lsn, j.txnId⟩

/-- How an `Fsync` ends: the stream does not take the bytes, or the system call fails. -/
inductive FsyncOutcome
  | ok | flushFailed | fdatasyncFailed
  deriving DecidableEq, Repr

/-- What one drain meets outside the pipeline. -/
structure DrainIo where
  /-- Writing the magic and taking in the external tail, with which `AppendMany` starts. -/
  prepare : Except Status Unit
  /-- For each item, the number of bytes a failing stream took of its record. -/
  write : Nat → Option Nat
  fsync : FsyncOutcome
  hook : Except Status Unit

namespace WalWriter

/-- `Fsync`. -/
def fsyncIo (w : WalWriter) : FsyncOutcome → WalWriter × Except Status Unit
  | .ok => (w.fsync, .ok ())
  | .flushFailed => (w, .error (Status.ioError "wal flush failed"))
  | .fdatasyncFailed => (w.fsync, .error (Status.ioError "fdatasync failed"))

/-- One round of the loop of `AppendMany`. A failing stream may leave the start of the record behind
the data. -/
def appendItemIo (w : WalWriter) (it : Item) (failed : Option Nat) :
    WalWriter × Except Status Nat :=
  match failed with
  | none => w.appendItem it
  | some n =>
    let lsn := nextLsn w.maxLsn
    let w := { w with maxLsn := lsn }
    if it.InBounds then
      ({ w with file := overwrite w.file w.fileOffset ((it.record lsn).encode.take n) },
        .error (Status.ioError "wal append failed"))
    else (w, .error (Status.invalidArgument "wal record too large"))

/-- The loop of `AppendMany` from the item numbered `i` on. -/
def appendItemsIo (w : WalWriter) (write : Nat → Option Nat) :
    Nat → List Item → WalWriter × List (Except Status Nat)
  | _, [] => (w, [])
  | i, it :: its =>
    let (w, st) := w.appendItemIo it (write i)
    let (w, sts) := w.appendItemsIo write (i + 1) its
    (w, st :: sts)

/-- `AppendMany` as `DrainAndFlush` calls it, its own status unread: where it returns before its
loop, every item keeps the status and the LSN it was built with. -/
def appendManyIo (w : WalWriter) (io : DrainIo) (items : List Item) :
    WalWriter × List (Except Status Nat) :=
  match io.prepare with
  | .error _ => (w, items.map fun _ => .ok 0)
  | .ok () => w.ensureWalMagicLocked.syncExternalTailLocked.appendItemsIo io.write 0 items

end WalWriter

/-- What a drain did. -/
structure Drained where
  wal : WalWriter
  /-- The log when the drain's `Fsync` had succeeded. -/
  fsynced : Option Bytes
  /-- What the commit hook was called with, when it then succeeded. -/
  applied : Option (List WalBatchCommitItem)
  /-- What `Put` and `Delete` return for each job. -/
  results : List (Except Status Nat)

/-- `CompleteJobs` for one job. -/
def completeJob (completion : Except Status Unit) (append : Except Status Nat) : Except Status Nat :=
  match completion with
  | .ok () => append
  | .error e => .error e

/-- The items the hook is called with; `job->assigned_lsn` of an appended job is its LSN. -/
def commitItems : List Job → List (Except Status Nat) → List WalBatchCommitItem
  | j :: js, .ok lsn :: sts => j.commitItem lsn :: commitItems js sts
  | _ :: js, .error _ :: sts => commitItems js sts
  | _, _ => []

/-- `DrainAndFlush` of the jobs popped. -/
def drainAndFlush (w : WalWriter) (jobs : List Job) (io : DrainIo) : Drained :=
  if jobs.isEmpty then ⟨w, none, none, []⟩
  else
    let (w, append) := w.appendManyIo io (jobs.map Job.item)
    if append.all (·.isOk) then
      match w.fsyncIo io.fsync with
      | (w, .error e) => ⟨w, none, none, append.map (completeJob (.error e))⟩
      | (w, .ok ()) =>
        { wal := w
          fsynced := some w.file
          applied := match io.hook with
            | .ok () => some (commitItems jobs append)
            | .error _ => none
          results := append.map (completeJob io.hook) }
    else ⟨w, none, none, append⟩

structure WalBatchPipeline where
  wal : WalWriter
  queue : List Job

namespace WalBatchPipeline

inductive Step
  /-- A writer queues a job. -/
  | submit (job : Job)
  /-- The worker, or `FlushPending`, drains at most `n` jobs. -/
  | drain (n : Nat) (io : DrainIo)

/-- A drain of a run: the jobs it popped, what it met and what it did. -/
structure Batch where
  jobs : List Job
  io : DrainIo
  drained : Drained

/-- A run of the pipeline: the state it ends in and its drains. -/
def run (p : WalBatchPipeline) : List Step → WalBatchPipeline × List Batch
  | [] => (p, [])
  | .submit job :: steps => run { p with queue := p.queue ++ [job] } steps
  | .drain n io :: steps =>
    let jobs := p.queue.take n
    let d := drainAndFlush p.wal jobs io
    let (p', batches) := run ⟨d.wal, p.queue.drop n⟩ steps
    (p', ⟨jobs, io, d⟩ :: batches)

end WalBatchPipeline
end EBTree.Wal
