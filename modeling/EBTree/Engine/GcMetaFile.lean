import EBTree.Engine.Regions

/-!
# The file of the generations

The two slots of `RegionManager` (`region_manager.cc`) as bytes: what `ReadSlot` accepts, what
`WriteSlot` leaves in the file, and what it leaves when it is cut off.
-/

set_option autoImplicit false

namespace EBTree.Engine

def kGcMetaSize : Nat := 4096

/-- `sizeof(GcMetaCritical)`. -/
def kGcMetaCriticalSize : Nat := 28

/-- A slot: `GcMetaCritical` and the padding. -/
def GcMeta.encode (c : GcMeta) : Bytes :=
  c.checked ++ (le 4 c.crc32.toNat ++ List.replicate 4068 0)

/-- The fields `Load` takes from a slot. -/
def RegionManager.decode (bs : Bytes) : RegionManager where
  activeGeneration := (fieldAt bs 16 1).headD 0
  reclaimGeneration := (fieldAt bs 17 1).headD 0
  epoch := UInt64.ofNat (leNat (fieldAt bs 8 8))

namespace GcMetaFile

/-- `ValidateCritical`. -/
def validateCritical (bs : Bytes) : Bool :=
  leNat (fieldAt bs 0 8) = kGcMagic &&
    leNat (fieldAt bs 24 4) = (crc32 (bs.take 24)).toNat

/-- `ReadSlot`. There is no file as long as it is `none`. -/
def readSlot (file : Option Bytes) (slot : Nat) : Except Status Bytes :=
  match file with
  | none => .error (Status.ioError "gcmeta open failed")
  | some f =>
    match readAt? f (slot * kGcMetaSize) kGcMetaSize with
    | none => .error (Status.ioError "gcmeta read failed")
    | some bs => .ok bs

/-- A slot that `Load` considers. -/
def valid (file : Option Bytes) (slot : Nat) : Option RegionManager :=
  match readSlot file slot with
  | .error _ => none
  | .ok bs => if validateCritical bs then some (RegionManager.decode bs) else none

/-- `Load`. It does not fail. -/
def load (file : Option Bytes) : RegionManager :=
  match valid file 0, valid file 1 with
  | some a, some b => if b.epoch ≤ a.epoch then a else b
  | some a, none => a
  | none, some b => b
  | none, none => RegionManager.initial

/-- The file `WriteSlot` writes to. A new one is filled with zeros up to the end of the slot. -/
def created (file : Option Bytes) (slot : Nat) : Bytes :=
  file.getD (List.replicate ((slot + 1) * kGcMetaSize) 0)

/-- `WriteSlot`. -/
def writeSlot (file : Option Bytes) (slot : Nat) (block : Bytes) : Option Bytes :=
  some (overwrite (created file slot) (slot * kGcMetaSize) block)

/-- Where a crash cuts off a `WriteSlot`: while the file is made, or in the slot. -/
inductive Crash
  | creating (n : Nat)
  | writing (n : Nat)

/-- `WriteSlot`, cut off. -/
def writeSlotUpTo (file : Option Bytes) (slot : Nat) (block : Bytes) : Crash → Option Bytes
  | .creating n => some (file.getD (List.replicate (min n ((slot + 1) * kGcMetaSize)) 0))
  | .writing 0 => some (created file slot)
  | .writing (n + 1) => writeSlot file slot (block.take (n + 1))

end GcMetaFile

/-- What `SwapRegions` makes of the fields. -/
def RegionManager.swapped (m : RegionManager) : RegionManager :=
  ⟨1 - m.activeGeneration, m.activeGeneration, m.epoch + 1⟩

/-- The generations that decide which records are seen. -/
def RegionManager.generations (m : RegionManager) : UInt8 × UInt8 :=
  (m.activeGeneration, m.reclaimGeneration)

/-- A `RegionManager` and its file. -/
structure GcStore where
  file : Option Bytes
  regions : RegionManager

namespace GcStore

open GcMetaFile

/-- The block `SwapRegions` writes. -/
def block (t : GcStore) : GcMeta :=
  GcMeta.finalizeCritical ⟨0, t.regions.swapped.epoch, t.regions.swapped.activeGeneration,
    t.regions.swapped.reclaimGeneration, 0⟩

/-- The slot it goes to. -/
def slot (t : GcStore) : Nat := (t.regions.swapped.epoch % 2).toNat

/-- `SwapRegions`. -/
def swapRegions (t : GcStore) : GcStore :=
  ⟨writeSlot t.file t.slot t.block.encode, t.regions.swapped⟩

/-- The next start of the process. -/
def reload (t : GcStore) : GcStore := { t with regions := load t.file }

/-- `SwapRegions`, cut off by a crash, and the `Load` after it. -/
def crash (t : GcStore) (c : Crash) : GcStore :=
  reload { t with file := writeSlotUpTo t.file t.slot t.block.encode c }

/-- A slot cut off after `n` bytes: the rest is what was there. -/
def mixed (t : GcStore) (n : Nat) : Bytes :=
  t.block.encode.take n ++
    (fieldAt (created t.file t.slot) (t.slot * kGcMetaSize) kGcMetaSize).drop n

/-- The checksum does its work: a slot that is part old and part new is rejected, unless what is
checked is all old or all new. -/
def Assumed (t : GcStore) : Crash → Prop
  | .creating _ => True
  | .writing n => validateCritical (t.mixed n) = true →
    (t.mixed n).take kGcMetaCriticalSize = (t.mixed 0).take kGcMetaCriticalSize ∨
      (t.mixed n).take kGcMetaCriticalSize = t.block.encode.take kGcMetaCriticalSize

/-- The states after `n` swaps, some of them cut off, beginning without a file. -/
inductive Run : Nat → GcStore → Prop
  | opened : Run 0 (reload ⟨none, RegionManager.initial⟩)
  | swap {n : Nat} {t : GcStore} : Run n t → Run (n + 1) t.swapRegions
  | crash {n : Nat} {t : GcStore} {c : Crash} : Run n t → t.Assumed c → Run (n + 1) (t.crash c)
  | reload {n : Nat} {t : GcStore} : Run n t → Run n t.reload

end GcStore

end EBTree.Engine
