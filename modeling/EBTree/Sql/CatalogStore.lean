import EBTree.Lib.Find
import EBTree.Sql.Catalog

/-!
# The catalog's file

`CatalogStore` (`catalog_store.cc`): `save` writes the tables and indexes of a catalog as JSON,
`load` reads such a text by searching it. The reader looks for `"name"` and takes what stands
between the brace before it and the first closing brace behind it for the object; it does not
count braces and does not undo escapes.

`std::stoul` throws where no number stands; a load is `none` then. A table's flag for compressed
values is left out: nothing here reads it.
-/

set_option autoImplicit false

namespace EBTree.Sql

open Lib

namespace CatalogStore

/-! ## Writing -/

/-- `JsonEscape`. -/
def jsonEscape (s : Bytes) : Bytes :=
  34 :: (s.flatMap fun c => if c = 34 then [92, 34] else if c = 92 then [92, 92] else [c]) ++ [34]

def jsonBool (b : Bool) : Bytes := if b then ascii "true" else ascii "false"

/-- The key of a field, with its colon. -/
def field (key : Bytes) : Bytes := 34 :: key ++ [34, 58]

def saveColumn (c : ColumnDef) : Bytes :=
  ascii "\x7b" ++ field (ascii "name") ++ jsonEscape c.name ++ ascii "," ++
  field (ascii "type") ++ jsonEscape c.type ++ ascii "," ++
  field (ascii "not_null") ++ jsonBool c.notNull ++
  (if c.checkExpr = [] then [] else ascii "," ++ field (ascii "check_expr") ++
    jsonEscape c.checkExpr) ++ ascii "\x7d"

/-- Items with commas between them. -/
def commas (items : List Bytes) : Bytes := (items.intersperse (ascii ",")).flatten

def saveTable (t : TableSchema) : Bytes :=
  ascii "\x7b" ++ field (ascii "id") ++ decimal t.id.toNat ++ ascii "," ++
  field (ascii "name") ++ jsonEscape t.name ++ ascii "," ++
  field (ascii "key_column") ++ jsonEscape t.keyColumn ++ ascii "," ++
  field (ascii "value_column") ++ jsonEscape t.valueColumn ++ ascii "," ++
  field (ascii "schema_version") ++ decimal t.schemaVersion ++ ascii "," ++
  field (ascii "columns") ++ ascii "[" ++ commas (t.columns.map saveColumn) ++ ascii "]\x7d"

def saveIndex (x : IndexDef) : Bytes :=
  ascii "\x7b" ++ field (ascii "id") ++ decimal x.id.toNat ++ ascii "," ++
  field (ascii "name") ++ jsonEscape x.name ++ ascii "," ++
  field (ascii "table") ++ jsonEscape x.table ++ ascii "," ++
  field (ascii "unique") ++ jsonBool x.unique ++ ascii "," ++
  field (ascii "columns") ++ ascii "[" ++ commas (x.columns.map jsonEscape) ++ ascii "]\x7d"

/-- `CatalogStore::Save`: the text it writes. -/
def save (c : Catalog) : Bytes :=
  ascii "\x7b" ++ field (ascii "v") ++ ascii "3," ++ field (ascii "tables") ++ ascii "[" ++
  commas (c.tableList.map saveTable) ++ ascii "]," ++ field (ascii "indexes") ++ ascii "[" ++
  commas (c.indexList.map saveIndex) ++ ascii "]\x7d\n"

/-! ## Searching -/

/-- A key in its quotes. -/
def quoted (key : Bytes) : Bytes := 34 :: key ++ [34]

/-- The objects that the loops over `"name"` go through: `fuel` bounds the rounds, and every round
goes on behind the closing brace it found. -/
def nameObjectsFrom (s : Bytes) : Nat → Nat → List Bytes
  | 0, _ => []
  | fuel + 1, pos =>
    match find s (quoted (ascii "name")) pos with
    | none => []
    | some p =>
      match rfind s 123 p, find s [125] p with
      | some b, some e => slice s b e :: nameObjectsFrom s fuel (e + 1)
      | _, _ => []

def nameObjects (s : Bytes) : List Bytes := nameObjectsFrom s (s.length + 1) 0

/-- `ExtractJsonString`: what stands between the next two quotes behind the key. -/
def extractJsonString (line key : Bytes) : Option Bytes :=
  match find line (field key) 0 with
  | none => none
  | some pos =>
    match find line [34] (pos + (field key).length) with
    | none => none
    | some q1 =>
      match find line [34] (q1 + 1) with
      | none => none
      | some q2 => some ((line.drop (q1 + 1)).take (q2 - q1 - 1))

def isSpace (b : UInt8) : Bool := b = 32 ∨ (9 ≤ b ∧ b ≤ 13)

/-- The digits `std::stoul` reads, and the number they stand for unless it throws. -/
def stoulDigits (negative : Bool) (s : Bytes) : Option Nat :=
  let ds := s.takeWhile fun b => decide (IsDigit b)
  if ds = [] ∨ 2 ^ 64 ≤ ofDecimal ds then none
  else if negative then some ((2 ^ 64 - ofDecimal ds) % 2 ^ 64)
  else some (ofDecimal ds)

/-- `std::stoul`. -/
def stoul (s : Bytes) : Option Nat :=
  match s.dropWhile isSpace with
  | [] => none
  | b :: rest =>
    if b = 45 then stoulDigits true rest
    else if b = 43 then stoulDigits false rest
    else stoulDigits false (b :: rest)

/-- `ExtractJsonUint`, `0` where the key is missing. -/
def extractJsonUint (line key : Bytes) : Option UInt32 :=
  match find line (field key) 0 with
  | none => some 0
  | some pos => (stoul (line.drop (pos + (field key).length))).map UInt32.ofNat

/-- `ExtractJsonBool`, `false` where it reads neither. -/
def extractJsonBool (line key : Bytes) : Bool :=
  match find line (field key) 0 with
  | none => false
  | some pos => ascii "true" <+: line.drop (pos + (field key).length)

/-- The strings of an array: the text between every two quotes. -/
def quotedStrings (arr : Bytes) : Nat → Nat → List Bytes
  | 0, _ => []
  | fuel + 1, pos =>
    match find arr [34] pos with
    | none => []
    | some q1 =>
      match find arr [34] (q1 + 1) with
      | none => []
      | some q2 => (arr.drop (q1 + 1)).take (q2 - q1 - 1) :: quotedStrings arr fuel (q2 + 1)

/-- From the first `[` behind a key to the first `]` behind that. -/
def arrayOf (obj key : Bytes) : Option Bytes :=
  match find obj (quoted key) 0 with
  | none => none
  | some pos =>
    match find obj [91] pos with
    | none => none
    | some b =>
      match find obj [93] b with
      | none => none
      | some e => some (slice obj b e)

/-- `ExtractJsonStringArray`. -/
def extractJsonStringArray (obj key : Bytes) : List Bytes :=
  match arrayOf obj key with
  | none => []
  | some arr => quotedStrings arr (arr.length + 1) 0

/-! ## Reading -/

def loadColumn (obj : Bytes) : Option ColumnDef :=
  match extractJsonString obj (ascii "name") with
  | none => none
  | some name =>
    let type := (extractJsonString obj (ascii "type")).getD textType
    some {
      name := name
      type := if type = [] then textType else type
      notNull := extractJsonBool obj (ascii "not_null")
      primaryKey := false
      checkExpr := (extractJsonString obj (ascii "check_expr")).getD [] }

/-- The columns an object's table gets: two made up from its key and value column if none is
read. -/
def loadColumns (obj keyCol valueCol : Bytes) : List ColumnDef :=
  let cols := match arrayOf obj (ascii "columns") with
    | none => []
    | some arr => (nameObjects arr).filterMap loadColumn
  if cols = [] then
    [.plain (if keyCol = [] then ascii "key" else keyCol),
      .plain (if valueCol = [] then ascii "value" else valueCol)]
  else cols

/-- An object that names a table and columns but no key column is an index's. -/
def isIndexObject (obj : Bytes) : Bool :=
  (find obj (quoted (ascii "table")) 0).isSome ∧ (find obj (quoted (ascii "columns")) 0).isSome ∧
    (find obj (quoted (ascii "key_column")) 0).isNone

/-- One round of `LoadTablesFromJson`. -/
def loadTable (c : Catalog) (obj : Bytes) : Option Catalog :=
  if isIndexObject obj then some c
  else
    match extractJsonString obj (ascii "name") with
    | none => some c
    | some name =>
      let keyCol := (extractJsonString obj (ascii "key_column")).getD []
      let valueCol := (extractJsonString obj (ascii "value_column")).getD []
      match extractJsonUint obj (ascii "id") with
      | none => none
      | some id =>
        match c.restoreTableV2 id name (loadColumns obj keyCol valueCol) with
        | .ok c' => some c'
        | .error _ => some c

/-- One round of `LoadIndexesFromJson`. -/
def loadIndex (c : Catalog) (obj : Bytes) : Option Catalog :=
  match extractJsonString obj (ascii "name") with
  | none => some c
  | some name =>
    let table := (extractJsonString obj (ascii "table")).getD []
    match extractJsonUint obj (ascii "id") with
    | none => none
    | some id =>
      let columns := extractJsonStringArray obj (ascii "columns")
      if columns = [] then some c
      else
        match c.restoreIndex id name table columns (extractJsonBool obj (ascii "unique")) with
        | .ok c' => some c'
        | .error _ => some c

def loadTables (content : Bytes) (c : Catalog) : Option Catalog :=
  (nameObjects content).foldlM loadTable c

def loadIndexes (content : Bytes) (c : Catalog) : Option Catalog :=
  match arrayOf content (ascii "indexes") with
  | none => some c
  | some arr => (nameObjects arr).foldlM loadIndex c

/-- `CatalogStore::Load` of a file with this text. -/
def load (content : Bytes) : Option Catalog :=
  (loadTables content .empty).bind (loadIndexes content)

end CatalogStore

end EBTree.Sql
