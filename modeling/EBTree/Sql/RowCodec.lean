import EBTree.Lib.Find
import EBTree.Sql.Executor

/-!
# The bytes of a row

How a row is stored and read back (`row_codec.cc`): a binary record from schema version 3 on, a line
of JSON before. Both are read as far as they go: the fields that come before a damaged one are
there all the same, and the executors that read a row do not look at the status.
-/

set_option autoImplicit false

namespace EBTree.Sql

open Lib

/-- `kBinaryMagic`. -/
def kBinaryMagic : Bytes := [69, 66, 82, 3]

/-- `AppendU32`. -/
def appendU32 (v : UInt32) : Bytes :=
  [v.toUInt8, (v >>> 8).toUInt8, (v >>> 16).toUInt8, (v >>> 24).toUInt8]

/-- `ReadU32`: the number, and what stands behind it. -/
def readU32 : Bytes → Option (Nat × Bytes)
  | a :: b :: c :: d :: s =>
    some (a.toNat + 256 * b.toNat + 65536 * c.toNat + 16777216 * d.toNat, s)
  | _ => none

def isBinaryRow (stored : Bytes) : Bool := kBinaryMagic.isPrefixOf stored

/-- `EncodeRowBinary`: the count is that of the columns, whether they have a value or not. -/
def encodeRowBinary (cols : List ColumnDef) (values : Fields) : Bytes :=
  kBinaryMagic ++ appendU32 (UInt32.ofNat cols.length) ++ cols.flatMap fun col =>
    match values.find? col.name with
    | none => []
    | some val =>
      appendU32 (UInt32.ofNat col.name.length) ++ col.name ++
        (appendU32 (UInt32.ofNat val.length) ++ val)

def jsonEscapeText (s : Bytes) : Bytes :=
  s.flatMap fun c => if c = 34 then [92, 34] else if c = 92 then [92, 92] else [c]

/-- `EncodeRowJson`; a first column without a value is looked for again, and not found. -/
def encodeRowJson (cols : List ColumnDef) (values : Fields) : Bytes :=
  let fields := cols.filterMap fun col => (values.find? col.name).map fun val =>
    34 :: (jsonEscapeText col.name ++ [34, 58, 34] ++ jsonEscapeText val ++ [34])
  123 :: ((fields.intersperse [44]).flatten ++ [125])

def encodeRow (cols : List ColumnDef) (schemaVersion : Nat) (values : Fields) : Bytes :=
  if 3 ≤ schemaVersion then encodeRowBinary cols values else encodeRowJson cols values

/-- The loop of `DecodeRowBinary`. -/
def decodeEntries : Nat → Bytes → Fields → Fields × Except Status Unit
  | 0, _, out => (out, .ok ())
  | n + 1, s, out =>
    match readU32 s with
    | none => (out, .error (.corruptPage "binary row name"))
    | some (nameLen, s) =>
      if s.length < nameLen then (out, .error (.corruptPage "binary row name trunc"))
      else
        match readU32 (s.drop nameLen) with
        | none => (out, .error (.corruptPage "binary row val"))
        | some (valLen, t) =>
          if t.length < valLen then (out, .error (.corruptPage "binary row val trunc"))
          else decodeEntries n (t.drop valLen) (out.insert (s.take nameLen) (t.take valLen))

def decodeRowBinary (stored : Bytes) : Fields × Except Status Unit :=
  match readU32 (stored.drop 4) with
  | none => (SortedMap.empty, .error (.corruptPage "binary row trunc"))
  | some (count, s) => decodeEntries count s SortedMap.empty

/-- The text before the next quote, and what stands from the quote on. -/
def upToQuote (s : Bytes) : Option (Bytes × Bytes) :=
  (indexOf? [34] s).map fun i => (s.take i, s.drop i)

/-- The loop of `DecodeRowJson`: a name and a value at a time, each between two quotes. -/
def decodeJsonFields : Nat → Bytes → Fields → Fields
  | 0, _, out => out
  | n + 1, s, out =>
    let field := do
      let (_, k1) ← upToQuote s
      let (key, k2) ← upToQuote (k1.drop 1)
      let colon ← indexOf? [58] k2
      let (_, v1) ← upToQuote (k2.drop colon)
      let (val, v2) ← upToQuote (v1.drop 1)
      pure (key, val, v2.drop 1)
    match field with
    | none => out
    | some (key, val, rest) => decodeJsonFields n rest (out.insert key val)

/-- `DecodeRowJson`: each turn takes four quotes at least. -/
def decodeRowJson (json : Bytes) : Fields := decodeJsonFields json.length json SortedMap.empty

/-- `DecodeRowFields`. -/
def decodeRowFields (stored : Bytes) : Fields × Except Status Unit :=
  if isBinaryRow stored then decodeRowBinary stored else (decodeRowJson stored, .ok ())

/-- `UpdateRowFields`: in a row that is not binary only the new field is left. -/
def updateRowFields (stored col value : Bytes) : Except Status Bytes :=
  match decodeRowFields stored with
  | (_, .error e) => .error e
  | (fields, .ok _) =>
    let fields := fields.insert col value
    if isBinaryRow stored then
      .ok (encodeRowBinary (fields.entries.map fun e => .plain e.1) fields)
    else .ok (encodeRowJson [.plain col] fields)

end EBTree.Sql
