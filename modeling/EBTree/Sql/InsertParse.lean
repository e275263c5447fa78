import EBTree.Common
import EBTree.Sql.Lexer

/-!
# INSERT statements

`ParseInsert` and the lists it reads (`stmt_handlers.cc`). The cursor is what is left of the tokens.
A value is kept as text, and NULL is the empty text.
-/

set_option autoImplicit false

namespace EBTree.Sql.Parse

/-- `Trim`. -/
def trim (s : Bytes) : Bytes := ((s.dropWhile isSpace).reverse.dropWhile isSpace).reverse

/-! ## The cursor -/

/-- `Peek` and `PeekUpper`: the empty text at the end. -/
def peek (tokens : List Bytes) : Bytes := tokens.headD []

def peekUpper (tokens : List Bytes) : Bytes := upper (peek tokens)

/-- `RestSql`. -/
def restSql (tokens : List Bytes) : Bytes := (tokens.intersperse [32]).flatten

/-! ## Lists -/

/-- `ParseSqlValue`. -/
def parseSqlValue (tok : Bytes) : Bytes := if upper tok = ascii "NULL" then [] else unquoteToken tok

/-- The loop of `ParseParenValueList` and `ParseColumnNameList`, with what a token is kept as: a
token is taken whatever it is, and a comma behind it as well. -/
def parenLoop (keep : Bytes → Bytes) (values : List Bytes) : List Bytes → List Bytes × List Bytes
  | [] => (values, [])
  | tok :: rest =>
    if tok = [41] then (values, rest)
    else
      match rest with
      | [] => (values ++ [keep tok], [])
      | next :: after =>
        if next = [44] then parenLoop keep (values ++ [keep tok]) after
        else parenLoop keep (values ++ [keep tok]) (next :: after)

/-- `ParseParenValueList`. -/
def parseParenValueList (tokens : List Bytes) : Except Status (List Bytes × List Bytes) :=
  if peek tokens ≠ [40] then .error (.invalidArgument "expected value list (")
  else .ok (parenLoop parseSqlValue [] tokens.tail)

/-- `ParseColumnNameList`. -/
def parseColumnNameList (tokens : List Bytes) : List Bytes × List Bytes :=
  if peek tokens ≠ [40] then ([], tokens) else parenLoop id [] tokens.tail

/-! ## The statement -/

inductive QueryStmtKind
  | kInsert | kUpsert
  deriving DecidableEq, Repr

structure InsertStmt where
  table : Bytes := []
  columnNames : List Bytes := []
  values : List Bytes := []
  key : Bytes := []
  value : Bytes := []
  selectSql : Bytes := []
  conflictAction : Bytes := []
  deriving DecidableEq, Repr

structure UpsertStmt where
  table : Bytes := []
  key : Bytes := []
  value : Bytes := []
  conflictAction : Bytes := []
  deriving DecidableEq, Repr

structure QueryStatement where
  kind : QueryStmtKind
  insert : InsertStmt := {}
  upsert : UpsertStmt := {}
  deriving DecidableEq, Repr

/-- `FillLegacyInsertKeyValue`. -/
def fillLegacyInsertKeyValue (stmt : InsertStmt) : InsertStmt :=
  { stmt with
    key := stmt.values.getD 0 stmt.key
    value := stmt.values.getD 1 stmt.value }

/-- The conflict clause of `ParseInsert`, behind `INSERT`. -/
def parseConflict (tokens : List Bytes) :
    Except Status (QueryStmtKind × Bytes × List Bytes) :=
  if peekUpper tokens = ascii "OR" then
    let act := upper (peek tokens.tail)
    let rest := tokens.tail.tail
    if act = ascii "REPLACE" then .ok (.kUpsert, [], rest)
    else if act = ascii "IGNORE" ∨ act = ascii "ABORT" ∨ act = ascii "FAIL" then
      .ok (.kInsert, act, rest)
    else .error (.invalidArgument "unsupported INSERT OR")
  else .ok (.kInsert, [], tokens)

/-- `ParseInsert`, from the token `INSERT` on. -/
def parseInsert (tokens : List Bytes) : Except Status QueryStatement :=
  match parseConflict tokens.tail with
  | .error e => .error e
  | .ok (kind, act, tokens) =>
    if peekUpper tokens ≠ ascii "INTO" then .error (.invalidArgument "INSERT missing INTO")
    else
      let table := peek tokens.tail
      let (columns, tokens) := parseColumnNameList tokens.tail.tail
      let stmt : InsertStmt := { table := table, columnNames := columns, conflictAction := act }
      if peekUpper tokens = ascii "SELECT" then
        .ok { kind := kind, insert := { stmt with selectSql := trim (restSql tokens) } }
      else if peekUpper tokens ≠ ascii "VALUES" then
        .error (.invalidArgument "INSERT missing VALUES or SELECT")
      else
        match parseParenValueList tokens.tail with
        | .error e => .error e
        | .ok (values, _) =>
          let stmt := fillLegacyInsertKeyValue { stmt with values := values }
          if kind = .kUpsert then
            .ok { kind := kind, insert := stmt,
                  upsert := ⟨stmt.table, stmt.key, stmt.value, ascii "REPLACE"⟩ }
          else .ok { kind := kind, insert := stmt }

/-- How a kept value is read back (`SqlValue::FromLegacyString`): the empty text is NULL. -/
def readValue (v : Bytes) : Option Bytes := if v = [] then none else some v

end EBTree.Sql.Parse
