import EBTree.Engine.DataFile
import EBTree.Lib.SortedMap
import EBTree.Wal.FsyncCoordinator

/-!
# Writers that set the stable LSN

`PutSyncFast`, `DeleteSyncFast`, `Put` and `Delete` (`shard_engine.cc`) of several threads: each
appends under the lock, awaits the group fsync (`FsyncSystem`) and then stores its own LSN in
`stats_.stable_lsn`. `ApplyWalBatchUnlocked` and `Flusher::Flush` raise it instead. `Get` takes it for
the bound of its snapshot (`read_resolver.cc`).
-/

set_option autoImplicit false

namespace EBTree.Engine

open Lib Wal

/-- Where a writer is. -/
inductive WriterPc
  | idle
  /-- Behind its first lock: the record is appended and in the memtable. -/
  | appended (key : Key) (lsn : Nat)
  /-- In `Await`, or behind it. -/
  | awaiting (key : Key) (lsn : Nat)

/-- The shard, its coordinator and its writers. -/
structure StableSystem (τ : Type) where
  fsync : FsyncSystem τ
  pc : τ → WriterPc
  /-- The LSN of the entry of a key. A deletion is an entry, too. -/
  memtable : SortedMap Key Nat
  /-- The records that were flushed, tombstones among them. -/
  flushed : List (Key × Nat)
  stableLsn : Nat
  /-- The writes that were appended. -/
  written : List (Key × Nat)
  /-- Those whose call returned success. -/
  acked : List (Key × Nat)

inductive StableStep (τ : Type)
  /-- A put or a deletion, up to the end of its first lock. -/
  | append (t : τ) (key : Key) (lsn : Nat)
  /-- The writer calls `Await`. -/
  | await (t : τ) (r : Readings)
  /-- A step of the coordinator. -/
  | coordinator (st : FsyncStep τ)
  /-- `Await` of the writer has returned, and the writer goes on. -/
  | wake (t : τ)
  /-- A batch commit, which is appended, synced and applied. -/
  | batch (items : List (Key × Nat))
  | flush

namespace StableSystem

variable {τ : Type} [DecidableEq τ]

def new (config : WalFsyncConfig) : StableSystem τ :=
  ⟨.new config, fun _ => .idle, SortedMap.empty, [], 0, [], []⟩

/-- The entries of a batch in the memtable. -/
def putAll (mt : SortedMap Key Nat) (items : List (Key × Nat)) : SortedMap Key Nat :=
  items.foldl (fun mt w => mt.insert w.1 w.2) mt

/-- The records of a batch get LSNs above those in the log. -/
def fitsLog (log : List Nat) (items : List (Key × Nat)) : Prop :=
  items.Pairwise (·.2 < ·.2) ∧ ∀ w ∈ items, 0 < w.2 ∧ ∀ n ∈ log, n < w.2

instance (log : List Nat) (items : List (Key × Nat)) : Decidable (fitsLog log items) :=
  inferInstanceAs (Decidable (_ ∧ _))

/-- The state after a step; `none` where there is none to take. -/
def step (s : StableSystem τ) : StableStep τ → Option (StableSystem τ)
  | .append t key lsn =>
    match s.pc t with
    | .idle =>
      (s.fsync.step (.append lsn)).map fun f =>
        { s with
          fsync := f
          pc := Function.update s.pc t (.appended key lsn)
          memtable := s.memtable.insert key lsn
          written := s.written ++ [(key, lsn)] }
    | _ => none
  | .await t r =>
    match s.pc t with
    | .appended key lsn =>
      (s.fsync.step (.await t lsn r)).map fun f =>
        { s with fsync := f, pc := Function.update s.pc t (.awaiting key lsn) }
    | _ => none
  | .coordinator st =>
    match st with
    | .append _ => none
    | .await _ _ _ => none
    | st => (s.fsync.step st).map fun f => { s with fsync := f }
  | .wake t =>
    match s.pc t, s.fsync.pc t with
    | .awaiting key lsn, .idle =>
      let s := { s with pc := Function.update s.pc t .idle }
      if s.fsync.returns.any fun x => x.1 = lsn && x.2.isOk then
        some { s with stableLsn := lsn, acked := s.acked ++ [(key, lsn)] }
      else some s
    | _, _ => none
  | .batch items =>
    if fitsLog s.fsync.log items then
      some
        { s with
          fsync := { s.fsync with log := s.fsync.log ++ items.map (·.2) }
          memtable := putAll s.memtable items
          stableLsn := (items.map (·.2)).foldl max s.stableLsn
          written := s.written ++ items
          acked := s.acked ++ items }
    else none
  | .flush =>
    some
      { s with
        memtable := SortedMap.empty
        flushed := s.flushed ++ s.memtable.entries
        stableLsn := (s.memtable.entries.map (·.2)).foldl max s.stableLsn }

/-- The LSN of the version `Get` finds: that of the memtable, whose entries are durable, or the newest
flushed one up to the stable LSN, where zero is no bound. -/
def getLsn (s : StableSystem τ) (key : Key) : Nat :=
  match s.memtable.find? key with
  | some lsn => lsn
  | none => ((s.flushed.filter fun w => w.1 = key ∧ (s.stableLsn = 0 ∨ w.2 ≤ s.stableLsn)).map
      (·.2)).foldl max 0

/-- The states that steps satisfying `ok` reach. -/
inductive Run (config : WalFsyncConfig) (ok : StableSystem τ → StableStep τ → Prop) :
    StableSystem τ → Prop
  | new : Run config ok (new config)
  | step {s s' : StableSystem τ} {st : StableStep τ} :
      Run config ok s → ok s st → s.step st = some s' → Run config ok s'

end StableSystem

end EBTree.Engine
