import EBTree.Engine.Shard
import EBTree.Lib.JsonLine

/-!
# The operation log

`op_log_writer.cc` (`sql/op_log`): one line of JSON for each put and each delete. The log is the
text of its file, `none` where there is none; a writer opens it to append to it.

Left out: streams that fail, and `MarkDurableThroughLsn`, which rewrites the log so that entries
are marked that were not when they were logged. The time of an entry is handed in.
-/

set_option autoImplicit false

namespace EBTree.Sql.OpLog

open Engine

structure OpLogEntry where
  version : UInt32 := 1
  op : Bytes := []
  key : Bytes := []
  valueSha256 : Bytes := []
  lsn : UInt64 := 0
  durableAtReturn : Bool := false
  tier : DurabilityClass := .kBalanced
  tsUnix : Int64 := 0
  deriving DecidableEq, Repr

/-- One character of `JsonEscape`: quotes and backslashes are escaped, nothing else is. -/
def escapeByte (c : UInt8) : Bytes :=
  if c = 34 then [92, 34]
  else if c = 92 then [92, 92]
  else [c]

/-- What stands between the quotes. -/
def escapeBody (s : Bytes) : Bytes := s.flatMap escapeByte

/-- `JsonEscape`. -/
def jsonEscape (s : Bytes) : Bytes := 34 :: (escapeBody s ++ [34])

def tierName : DurabilityClass → Bytes
  | .kSync => ascii "sync"
  | .kGroup => ascii "group"
  | .kBalanced => ascii "balanced"
  | .kAsync => ascii "balanced"

/-- The line of an entry, without its newline. -/
def opLogLine (entry : OpLogEntry) : Bytes :=
  [123] ++ jsonKey (ascii "v") ++ decimal entry.version.toNat ++ [44] ++
  jsonKey (ascii "op") ++ jsonEscape entry.op ++ [44] ++
  jsonKey (ascii "key") ++ jsonEscape entry.key ++ [44] ++
  jsonKey (ascii "value_sha256") ++ jsonEscape entry.valueSha256 ++ [44] ++
  jsonKey (ascii "lsn") ++ decimal entry.lsn.toNat ++ [44] ++
  jsonKey (ascii "durable_at_return") ++
  (if entry.durableAtReturn then ascii "true" else ascii "false") ++ [44] ++
  jsonKey (ascii "tier") ++ (34 :: (tierName entry.tier ++ [34])) ++ [44] ++
  jsonKey (ascii "ts_unix") ++ signedDecimal entry.tsUnix ++ [125]

/-- The constructor: the file is there from now on. -/
def openLog (log : Option Bytes) : Option Bytes := some (log.getD [])

def appendEntry (log : Option Bytes) (entry : OpLogEntry) : Option Bytes :=
  some (log.getD [] ++ opLogLine entry ++ [10])

def appendPut (log : Option Bytes) (key valueSha256 : Bytes) (lsn : UInt64)
    (durableAtReturn : Bool) (tier : DurabilityClass) (now : Int64) : Option Bytes :=
  appendEntry log
    { op := ascii "put", key := key, valueSha256 := valueSha256, lsn := lsn,
      durableAtReturn := durableAtReturn, tier := tier, tsUnix := now }

def appendDelete (log : Option Bytes) (key : Bytes) (lsn : UInt64) (durableAtReturn : Bool)
    (tier : DurabilityClass) (now : Int64) : Option Bytes :=
  appendEntry log
    { op := ascii "delete", key := key, lsn := lsn, durableAtReturn := durableAtReturn,
      tier := tier, tsUnix := now }

end EBTree.Sql.OpLog
