import EBTree.Common

/-!
# The superblock file

`SuperBlockStore` (`superblock.cc`): two slots that are written in turn, each with an epoch and two
checksums; `Load` answers with the newer of the slots that are intact. `commitUpTo` is a `Commit`
that is cut off in the middle of what it writes.
-/

set_option autoImplicit false

namespace EBTree.Superblock

def kSuperBlockMagic : Nat := 0xEBE5BEEF
def kSuperBlockSize : Nat := 4096
def kSuperBlockCriticalSize : Nat := 512

/-- Padding. -/
def zeros (n : Nat) : Bytes := List.replicate n 0

@[simp] theorem length_zeros (n : Nat) : (zeros n).length = n := List.length_replicate

/-- `SuperBlock` without its magic, its checksums and its padding. -/
structure SuperBlock where
  epoch : UInt64
  activeRoot : UInt64
  dataLsn : UInt64
  walLsn : UInt64
  tlogTail : UInt64
  shardId : UInt32
  formatVersion : UInt32
  deriving DecidableEq, Repr

namespace SuperBlock

/-- `SuperBlock{}`. -/
def default : SuperBlock := ⟨0, 0, 0, 0, 0, 0, 1⟩

/-- `SuperBlockCritical`, with what its `crc32` is set to. -/
def critical (b : SuperBlock) (crc : UInt32) : Bytes :=
  le 8 kSuperBlockMagic ++ (le 8 b.epoch.toNat ++ (le 8 b.activeRoot.toNat ++
    (le 8 b.dataLsn.toNat ++ (le 8 b.walLsn.toNat ++ (le 4 crc.toNat ++ zeros 468)))))

/-- The block up to `crc64`, its padding zeroed. -/
def body (b : SuperBlock) : Bytes :=
  b.critical (crc32 (b.critical 0)) ++ (le 8 b.tlogTail.toNat ++ (le 4 b.shardId.toNat ++
    (le 4 b.formatVersion.toNat ++ zeros 3560)))

/-- The block as `FinalizeCritical` leaves it. -/
def encode (b : SuperBlock) : Bytes := b.body ++ le 8 (crc32 b.body).toNat

def decode (bs : Bytes) : SuperBlock where
  epoch := UInt64.ofNat (leNat (fieldAt bs 8 8))
  activeRoot := UInt64.ofNat (leNat (fieldAt bs 16 8))
  dataLsn := UInt64.ofNat (leNat (fieldAt bs 24 8))
  walLsn := UInt64.ofNat (leNat (fieldAt bs 32 8))
  tlogTail := UInt64.ofNat (leNat (fieldAt bs 512 8))
  shardId := UInt32.ofNat (leNat (fieldAt bs 520 4))
  formatVersion := UInt32.ofNat (leNat (fieldAt bs 524 4))

end SuperBlock

/-- `ValidateCritical`. -/
def validateCritical (bs : Bytes) : Bool :=
  leNat (fieldAt bs 0 8) = kSuperBlockMagic &&
    (crc32 (bs.take 40 ++ (zeros 4 ++ fieldAt bs 44 468))).toNat = leNat (fieldAt bs 40 4)

/-- What `ReadSlot` makes of the bytes of a slot. -/
def checkSlot (bs : Bytes) : Except Status SuperBlock :=
  if (crc32 (bs.take 4088)).toNat ≠ leNat (fieldAt bs 4088 8) then
    .error (Status.corrupt "superblock crc64 mismatch")
  else if !validateCritical bs then .error (Status.corrupt "superblock critical crc32 mismatch")
  else .ok (SuperBlock.decode bs)

structure SuperBlockStore where
  path : String
  /-- `none` while there is no file. -/
  file : Option Bytes

/-- Where a crash cuts off a `Commit`: while the file is made, or in the slot. -/
inductive Crash
  | creating (n : Nat)
  | writing (n : Nat)

namespace SuperBlockStore

/-- `ReadSlot`. -/
def readSlot (s : SuperBlockStore) (slot : Nat) : Except Status SuperBlock :=
  match s.file with
  | none => .error (Status.ioError ("cannot open superblock: " ++ s.path))
  | some f =>
    match readAt? f (slot * kSuperBlockSize) kSuperBlockSize with
    | none => .error (Status.ioError "superblock read short")
    | some bs => checkSlot bs

/-- `Load`. -/
def load (s : SuperBlockStore) : Except Status SuperBlock :=
  if s.file.isNone then .ok SuperBlock.default
  else
    match s.readSlot 0, s.readSlot 1 with
    | .error ea, .error _ =>
      if ea.code = .kIoError then .error ea else .error (Status.corrupt "CorruptSuperBlock")
    | .ok a, .ok b => if b.epoch ≤ a.epoch then .ok a else .ok b
    | .ok a, .error _ => .ok a
    | .error _, .ok b => .ok b

/-- What `Commit` starts from: a failing `Load` leaves the default. -/
def current (s : SuperBlockStore) : SuperBlock :=
  match s.load with
  | .ok b => b
  | .error _ => SuperBlock.default

/-- The block `Commit` writes. -/
def next (s : SuperBlockStore) (b : SuperBlock) : SuperBlock :=
  { b with epoch := max s.current.epoch b.epoch + 1 }

def inactive (s : SuperBlockStore) : Nat := if s.current.epoch.toNat % 2 = 0 then 1 else 0

/-- `WriteSlot`. A new file is filled with two zero blocks first. -/
def writeSlot (s : SuperBlockStore) (slot : Nat) (block : Bytes) : SuperBlockStore :=
  { s with
    file := some (overwrite (s.file.getD (zeros (2 * kSuperBlockSize)))
      (slot * kSuperBlockSize) block) }

/-- `WriteSlot`, cut off. -/
def writeSlotUpTo (s : SuperBlockStore) (slot : Nat) (block : Bytes) :
    Crash → SuperBlockStore
  | .creating n =>
    { s with file := some (s.file.getD (zeros (min n (2 * kSuperBlockSize)))) }
  | .writing 0 => { s with file := some (s.file.getD (zeros (2 * kSuperBlockSize))) }
  | .writing (n + 1) => s.writeSlot slot (block.take (n + 1))

/-- `Commit`. -/
def commit (s : SuperBlockStore) (b : SuperBlock) : SuperBlockStore :=
  s.writeSlot s.inactive (s.next b).encode

/-- `Commit`, cut off. -/
def commitUpTo (s : SuperBlockStore) (b : SuperBlock) (crash : Crash) : SuperBlockStore :=
  s.writeSlotUpTo s.inactive (s.next b).encode crash

end SuperBlockStore
end EBTree.Superblock
