import EBTree.Lib.Bytes

/-!
# Status codes and the checksum

`Status` (`common/status.h`) and `crc32` (`common/crc32.h`).
-/

set_option autoImplicit false

namespace EBTree

inductive StatusCode
  | kInvalidArgument | kNotFound | kCorrupt | kStaleSummary | kCorruptPage | kIoError
  | kInternal | kConflict
  deriving DecidableEq, Repr

/-- A failed status; success is `Except.ok`. -/
structure Status where
  code : StatusCode
  message : String
  deriving DecidableEq, Repr

namespace Status

def invalidArgument (msg : String) : Status := ⟨.kInvalidArgument, msg⟩
def notFound (msg : String) : Status := ⟨.kNotFound, msg⟩
def corrupt (msg : String) : Status := ⟨.kCorrupt, msg⟩
def staleSummary (msg : String) : Status := ⟨.kStaleSummary, msg⟩
def corruptPage (msg : String) : Status := ⟨.kCorruptPage, msg⟩
def ioError (msg : String) : Status := ⟨.kIoError, msg⟩
def internal (msg : String) : Status := ⟨.kInternal, msg⟩
def conflict (msg : String) : Status := ⟨.kConflict, msg⟩

end Status

/-- One bit of the checksum's shift register. -/
def crcBit (crc : UInt32) : UInt32 :=
  if crc &&& 1 = 1 then (crc >>> 1) ^^^ 0xEDB88320 else crc >>> 1

def crcByte (crc : UInt32) (b : UInt8) : UInt32 :=
  crcBit (crcBit (crcBit (crcBit (crcBit (crcBit (crcBit (crcBit (crc ^^^ b.toUInt32))))))))

/-- `Crc32`: reflected CRC-32, initial value and final complement of all ones. -/
def crc32 (data : Bytes) : UInt32 := ~~~ (data.foldl crcByte 0xFFFFFFFF)

end EBTree
