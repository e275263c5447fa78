import EBTree.Sql.CatalogStore
import EBTree.Sql.IndexScan

/-!
# Reading a stored key

`DecodeRowKey` and `DecodeIndexKeyPrefix` (`catalog.cc`) with all they hand out. The scans ask them
for the key only (`decodeRowKey`, `decodeIndexKeyPrefix`) and then no number is read; with the ids,
`std::stoul` throws where none stands.
-/

set_option autoImplicit false

namespace EBTree.Sql

open Lib Engine CatalogStore

/-- What comes of reading a key: `false`, an exception, or its parts. -/
inductive KeyRead (α : Type)
  | refused
  | thrown
  | parts (a : α)
  deriving DecidableEq, Repr

structure RowKey where
  tableId : UInt32
  key : Bytes
  deriving DecidableEq, Repr

structure IndexKey where
  tableId : UInt32
  indexId : UInt32
  colValue : Bytes
  pk : Bytes
  deriving DecidableEq, Repr

/-- The text before the first `c`, and the text behind it. -/
def cutAt (c : UInt8) (s : Bytes) : Option (Bytes × Bytes) :=
  (indexOf? [c] s).map fun i => (s.take i, s.drop (i + 1))

/-- An id, cast to 32 bits. -/
def stoulId (s : Bytes) : Option UInt32 := (stoul s).map UInt32.ofNat

/-- `DecodeRowKey`. -/
def readRowKey (encoded : Key) : KeyRead RowKey :=
  match cutAt 58 encoded with
  | none => .refused
  | some (front, key) =>
    if front = [] then .refused
    else if front[1]? = some 105 then .refused
    else
      match stoulId front with
      | none => .thrown
      | some tableId => .parts ⟨tableId, key⟩

/-- `DecodeIndexKeyPrefix`. -/
def readIndexKey (encoded : Key) : KeyRead IndexKey :=
  match cutAt 58 encoded with
  | none => .refused
  | some (table, rest) =>
    match cutAt 58 rest with
    | none => .refused
    | some (idxPart, rest) =>
      if idxPart.head? ≠ some 105 then .refused
      else
        match cutAt 58 rest with
        | none => .refused
        | some (colValue, pk) =>
          match stoulId table, stoulId (idxPart.drop 1) with
          | some tableId, some indexId => .parts ⟨tableId, indexId, colValue, pk⟩
          | _, _ => .thrown

end EBTree.Sql
