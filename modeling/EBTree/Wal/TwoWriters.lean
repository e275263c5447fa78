import EBTree.Wal.Writer
import Mathlib.Logic.Function.Basic

/-!
# Two writers of one log

Two `WalWriter` objects on one path (`wal.cc`), each with a stream of its own. Of a record that is
appended the stream hands as many bytes to the file at once as its buffer does not hold; it writes
the rest when it is moved (`seekp`) or flushed. `SyncExternalTailLocked` reads the file, not what
the stream of the other writer holds.
-/

set_option autoImplicit false

namespace EBTree.Wal

open Lib

inductive Side
  | first | second
  deriving DecidableEq, Repr

def Side.other : Side → Side
  | .first => .second
  | .second => .first

/-- The bytes a stream holds, and where they go. -/
structure Unwritten where
  offset : Nat
  bytes : Bytes
  deriving DecidableEq, Repr

/-- The file, and of each side what the writer knows and what its stream holds. -/
structure WriterPair where
  file : Bytes
  writer : Side → WalWriter
  unwritten : Side → Option Unwritten

namespace WriterPair

/-- Both constructors, one behind the other. -/
def «open» (f : Bytes) : WriterPair :=
  let w := WalWriter.open f
  { file := w.file
    writer := fun i =>
      match i with
      | .first => w
      | .second => WalWriter.open w.file
    unwritten := fun _ => none }

/-- The stream of a side writes what it holds. -/
def writeOut (p : WriterPair) (i : Side) : WriterPair :=
  match p.unwritten i with
  | none => p
  | some u =>
    { p with
      file := overwrite p.file u.offset u.bytes
      unwritten := Function.update p.unwritten i none }

/-- `EnsureWalMagicLocked`: the stream is moved to the start, and flushed behind the magic. -/
def ensureWalMagicLocked (p : WriterPair) (i : Side) : WriterPair :=
  if (p.writer i).formatV2 then p
  else
    let p := p.writeOut i
    let w := { p.writer i with file := p.file }.ensureWalMagicLocked
    { p with file := w.file, writer := Function.update p.writer i w }

/-- `SyncExternalTailLocked`: the stream is moved where the end of the data is taken to be further
on. -/
def syncExternalTailLocked (p : WriterPair) (i : Side) : WriterPair :=
  let w := { p.writer i with file := p.file }.syncExternalTailLocked
  let p := if w.fileOffset = (p.writer i).fileOffset then p else p.writeOut i
  { p with writer := Function.update p.writer i w }

/-- `AppendRecordV2`, `n` being the bytes of the record that are written at once. -/
def appendRecordV2 (p : WriterPair) (i : Side) (r : WalRecord) (n : Nat) : WriterPair :=
  let p := p.writeOut i
  let offset := (p.writer i).fileOffset
  { file := overwrite p.file offset (r.encode.take n)
    writer := Function.update p.writer i ((p.writer i).appendRecordV2 r)
    unwritten := Function.update p.unwritten i
      (if r.size ≤ n then none else some ⟨offset + n, r.encode.drop n⟩) }

/-- `Append`. -/
def append (p : WriterPair) (i : Side) (it : WalWriter.Item) (n : Nat) :
    WriterPair × Except Status Nat :=
  let p := (p.ensureWalMagicLocked i).syncExternalTailLocked i
  let lsn := WalWriter.nextLsn (p.writer i).maxLsn
  let p := { p with writer := Function.update p.writer i { p.writer i with maxLsn := lsn } }
  if it.InBounds then (p.appendRecordV2 i (it.record lsn) n, .ok lsn)
  else (p, .error (Status.invalidArgument "wal record too large"))

/-- `Fsync`. -/
def fsync (p : WriterPair) (i : Side) : WriterPair :=
  let p := p.writeOut i
  { p with writer := Function.update p.writer i (p.writer i).fsync }

/-- One call of either side, and the bytes the platform lets through at once. -/
inductive Call
  | append (i : Side) (it : WalWriter.Item) (n : Nat)
  | fsync (i : Side)

/-- A call, and the record it acknowledged. -/
def step (p : WriterPair) : Call → WriterPair × Option WalRecord
  | .append i it n =>
    match p.append i it n with
    | (p, .ok lsn) => (p, some (it.record lsn))
    | (p, .error _) => (p, none)
  | .fsync i => (p.fsync i, none)

/-- A run of calls, and the records acknowledged, in order. -/
def run (p : WriterPair) : List Call → WriterPair × List WalRecord
  | [] => (p, [])
  | c :: cs =>
    let (p, r) := p.step c
    let (p, rs) := p.run cs
    (p, r.toList ++ rs)

end WriterPair
end EBTree.Wal
