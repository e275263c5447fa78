import EBTree.Lib.Recursion
import EBTree.Sql.Expr
import EBTree.Sql.InsertParse
import EBTree.Sql.Select

/-!
# Expressions and SELECT statements

`ExprParse` (`expr_parse.cc`) and `SelectParse` (`select_parse.cc`). The text between two
parentheses is put together from its tokens and tokenized again.

The functions call each other. Each is given the parsers that it calls on what it has made smaller
(`Parsers`); `parsers n` are those that go `n` calls deep, and a loop of theirs goes round at most
two times more. An outcome is `none` where that is not enough.
-/

set_option autoImplicit false

namespace EBTree.Sql.Parse

open Lib

/-! ## Trees -/

structure AggregateSpec where
  func : Bytes
  column : Bytes
  aliasName : Bytes
  distinct : Bool
  separator : Bytes
  deriving DecidableEq, Repr

/-- `SelectQuery`, over the expressions `E`, without the fields that the parser leaves alone. -/
structure SelectQuery (E : Type) where
  projectCols : List Bytes := []
  fromTable : Bytes := []
  joins : List JoinSpec := []
  whereExpr : Option E := none
  groupBy : List Bytes := []
  having : Option E := none
  orderBy : List OrderSpec := []
  limit : Option UInt64 := none
  distinct : Bool := false
  aggregates : List AggregateSpec := []
  scalarProjects : List E := []
  maxPages : Option UInt64 := none

/-- `SubquerySpec`. -/
structure SubquerySpec (E : Type) where
  isExists : Bool := false
  scalar : Bool := false
  notOp : Bool := false
  sql : Bytes := []
  parsedQuery : Option (SelectQuery E) := none
  lhs : Option E := none
  inLiterals : List Bytes := []

/-- `ExprNode`, as it is parsed. -/
inductive ParsedExpr
  | literal (literal : Bytes) (isNot : Bool)
  | column (table column : Bytes) (isNot : Bool)
  | binary (op : BinaryOp) (left right : ParsedExpr) (isNot : Bool)
  | isNull (child : ParsedExpr) (isNullCheck isNot : Bool)
  | function (name : Bytes) (args : List ParsedExpr) (isNot : Bool)
  | subquery (spec : SubquerySpec ParsedExpr) (isNot : Bool)

/-- The node with `is_not` set. -/
def ParsedExpr.withNot : ParsedExpr → ParsedExpr
  | .literal l _ => .literal l true
  | .column t c _ => .column t c true
  | .binary op l r _ => .binary op l r true
  | .isNull c check _ => .isNull c check true
  | .function name args _ => .function name args true
  | .subquery spec _ => .subquery spec true

/-! ## Outcomes -/

/-- What a parser gives, with the tokens that are left; `none` where it did not come to an end. -/
abbrev Parsed (α : Type) := Outcome (List Bytes) Status α

def fail {α : Type} (msg : String) : Parsed α := .error (.invalidArgument msg)

/-- The parsers that are called again. -/
structure Parsers where
  rounds : Nat
  primary : List Bytes → Parsed ParsedExpr
  unary : List Bytes → Parsed ParsedExpr
  add : List Bytes → Parsed ParsedExpr
  predicate : List Bytes → Parsed ParsedExpr
  select : Bytes → List Bytes → Parsed (SelectQuery ParsedExpr)

/-! ## Tokens -/

/-- `IsClauseKeyword`. -/
def isClauseKeyword (u : Bytes) : Bool :=
  [ascii "AND", ascii "OR", ascii "GROUP", ascii "ORDER", ascii "LIMIT", ascii "HAVING",
    ascii "JOIN", ascii "LEFT", ascii "RIGHT", ascii "INNER", ascii "ON"].contains u

/-- `IsQuotedLiteral`. -/
def isQuotedLiteral (tok : Bytes) : Bool := 2 ≤ tok.length && tok.head? = some 39

/-- A blob, by its first two characters. -/
def isBlobLiteral (tok : Bytes) : Bool :=
  (tok.head? = some 120 || tok.head? = some 88) && tok[1]? = some 39

/-- `IsNumericOrRealToken`. -/
def isNumericOrRealToken (rt : Runtime) (tok : Bytes) : Bool :=
  isIntegerText tok || (tok ≠ [] && isRealText rt tok)

/-- `StartsWithSelectKeyword`. -/
def startsWithSelectKeyword (sql : Bytes) : Bool :=
  (ascii "SELECT").isPrefixOf (upper (trim sql))

/-- The loop of `ExtractBalancedParenSql`, `depth` parentheses deeper than the one it began at. -/
def extractLoop (sql : Bytes) (depth : Nat) : List Bytes → Bytes × List Bytes
  | [] => (sql, [])
  | t :: rest =>
    if t = [41] ∧ depth = 0 then (sql, rest)
    else
      extractLoop ((if sql = [] then sql else sql ++ [32]) ++ t)
        (if t = [40] then depth + 1 else if t = [41] then depth - 1 else depth) rest

/-- `ExtractBalancedParenSql`. -/
def extractBalancedParenSql (cur : List Bytes) : Bytes × List Bytes :=
  if peek cur ≠ [40] then ([], cur) else extractLoop [] 0 cur.tail

/-- The literals of a list behind IN. -/
def inLiteralTokens : List Bytes → List Bytes
  | [] => []
  | tok :: rest =>
    match rest with
    | [] => [parseSqlValue tok]
    | next :: after =>
      if next = [44] then parseSqlValue tok :: inLiteralTokens after
      else parseSqlValue tok :: inLiteralTokens (next :: after)

/-! ## Primary expressions -/

section

variable (rt : Runtime) (r : Parsers)

/-- EXISTS: what is between the parentheses need not be a SELECT. -/
def parseExists (notOp : Bool) (cur : List Bytes) : Parsed ParsedExpr :=
  let (sql, rest) := extractBalancedParenSql cur
  (r.select sql (tokenizeSql sql)).attempt fun parsed =>
    let spec : SubquerySpec ParsedExpr :=
      { isExists := true, notOp := notOp, sql := sql, parsedQuery := parsed.toOption.map (·.1) }
    .done (.subquery spec false) rest

/-- What stands between parentheses: a scalar subquery or an expression. -/
def parseParen (cur : List Bytes) : Parsed ParsedExpr :=
  let (inner, rest) := extractBalancedParenSql cur
  if startsWithSelectKeyword inner then
    (r.select inner (tokenizeSql inner)).attempt fun parsed =>
      let spec : SubquerySpec ParsedExpr :=
        { scalar := true, sql := inner, parsedQuery := parsed.toOption.map (·.1) }
      .done (.subquery spec false) rest
  else (r.predicate (tokenizeSql inner)).andThen fun e _ => .done e rest

/-- CAST, behind its parenthesis. -/
def parseCast (cur : List Bytes) : Parsed ParsedExpr :=
  (r.add cur).andThen fun val cur =>
    if peekUpper cur ≠ ascii "AS" then fail "CAST missing AS"
    else
      let rest := cur.tail.tail
      .done (.function (ascii "CAST") [val, .literal (upper (peek cur.tail)) false] false)
        (if peek rest = [41] then rest.tail else rest)

/-- A round over the arguments of a call. -/
def callRound (args : List ParsedExpr) (cur : List Bytes) : Option (Parsed (List ParsedExpr)) :=
  if peek cur = [41] then none
  else
    some ((r.add cur).andThen fun arg cur =>
      if peek cur = [44] then .done (args ++ [arg]) cur.tail
      else if peek cur = [41] then .done (args ++ [arg]) cur
      else fail "expected , or ) in function call")

/-- A call, behind its parenthesis. -/
def parseCall (name : Bytes) (cur : List Bytes) : Parsed ParsedExpr :=
  (Outcome.loop (callRound r) r.rounds [] cur).andThen fun args cur =>
    .done (.function name args false) (if peek cur = [41] then cur.tail else cur)

/-- What begins with any other token. -/
def parseIdent (ident : Bytes) (cur : List Bytes) : Parsed ParsedExpr :=
  if upper ident = ascii "NULL" then .done (.literal [] false) cur
  else if isNumericOrRealToken rt ident then .done (.literal ident false) cur
  else if peek cur = [46] then .done (.column ident (peek cur.tail) false) cur.tail.tail
  else if peek cur = [40] then
    if upper ident = ascii "CAST" then parseCast r cur.tail
    else parseCall r (upper ident) cur.tail
  else .done (.column [] ident false) cur

/-- `ParsePrimary`. -/
def parsePrimary (cur : List Bytes) : Parsed ParsedExpr :=
  let u := peekUpper cur
  if cur = [] then fail "empty expression"
  else if u = ascii "NOT" then
    if peekUpper cur.tail = ascii "EXISTS" then parseExists r true cur.tail.tail
    else (r.primary cur.tail).andThen fun inner cur => .done inner.withNot cur
  else if u = ascii "EXISTS" then parseExists r false cur.tail
  else if u = ascii "NULL" then .done (.literal [] false) cur.tail
  else if peek cur = [40] then parseParen r cur
  else if isQuotedLiteral (peek cur) then
    .done (.literal (unquoteToken (peek cur)) false) cur.tail
  else if isBlobLiteral (peek cur) then .done (.literal (peek cur) false) cur.tail
  else parseIdent rt r (peek cur) cur.tail

/-! ## Operators -/

/-- `ParseInOrExists`. -/
def parseInOrExists (cur : List Bytes) (lhs : ParsedExpr) (notOp : Bool) : Parsed ParsedExpr :=
  let spec : SubquerySpec ParsedExpr := { notOp := notOp, lhs := some lhs }
  if peek cur = [40] then
    let (inner, rest) := extractBalancedParenSql cur
    if startsWithSelectKeyword inner then
      (r.select inner (tokenizeSql inner)).andThen fun q _ =>
        .done (.subquery { spec with sql := inner, parsedQuery := some q } false) rest
    else
      .done (.subquery { spec with inLiterals := inLiteralTokens (tokenizeSql inner) } false) rest
  else if cur ≠ [] ∧ isClauseKeyword (peekUpper cur) = false then
    let sql := ascii "SELECT * FROM " ++ peek cur
    (r.select sql (tokenizeSql sql)).andThen fun q _ =>
      .done (.subquery { spec with sql := sql, parsedQuery := some q } false) cur.tail
  else fail "IN requires parentheses or table"

/-- BETWEEN, behind it. -/
def parseBetween (left : ParsedExpr) (cur : List Bytes) : Parsed ParsedExpr :=
  (parsePrimary rt r cur).andThen fun lo cur =>
    if peekUpper cur ≠ ascii "AND" then fail "BETWEEN missing AND"
    else
      (parsePrimary rt r cur.tail).andThen fun hi cur =>
        .done (.binary .kAnd (.binary .kGe left lo false) (.binary .kLe left hi false) false) cur

def comparisonOp (op : Bytes) : Option BinaryOp :=
  if op = ascii "=" then some .kEq
  else if op = ascii "!=" ∨ op = ascii "<>" then some .kNe
  else if op = ascii "<" then some .kLt
  else if op = ascii "<=" then some .kLe
  else if op = ascii ">" then some .kGt
  else if op = ascii ">=" then some .kGe
  else none

/-- An operator with a primary expression behind it. -/
def parseRight (op : BinaryOp) (left : ParsedExpr) (cur : List Bytes) : Parsed ParsedExpr :=
  (parsePrimary rt r cur).andThen fun right cur => .done (.binary op left right false) cur

/-- `ParseComparison`, behind its left side. -/
def parseCompared (left : ParsedExpr) (cur : List Bytes) : Parsed ParsedExpr :=
  let u := peekUpper cur
  let next := peekUpper cur.tail
  if u = ascii "IS" then
    let rest := if next = ascii "NOT" then cur.tail.tail else cur.tail
    if peekUpper rest ≠ ascii "NULL" then fail "expected NULL"
    else .done (.isNull left (next ≠ ascii "NOT") false) rest.tail
  else if u = ascii "NOT" ∧ next = ascii "IN" then parseInOrExists r cur.tail.tail left true
  else if u = ascii "NOT" ∧ next = ascii "NULL" then
    .done (.isNull left false false) cur.tail.tail
  else if u = ascii "IN" then parseInOrExists r cur.tail left false
  else if u = ascii "LIKE" then parseRight rt r .kLike left cur.tail
  else if u = ascii "GLOB" then parseRight rt r .kGlob left cur.tail
  else if u = ascii "BETWEEN" then parseBetween rt r left cur.tail
  else if cur = [] ∨ isClauseKeyword u = true then .done left cur
  else
    match comparisonOp (peek cur) with
    | none => .done left cur
    | some op => parseRight rt r op left cur.tail

/-- `ParseComparison`. -/
def parseComparison (cur : List Bytes) : Parsed ParsedExpr :=
  (parsePrimary rt r cur).andThen (parseCompared rt r)

/-- `ParseUnary`. -/
def parseUnary (cur : List Bytes) : Parsed ParsedExpr :=
  if peek cur = [45] then
    (r.unary cur.tail).andThen fun inner cur =>
      .done (.binary .kSub (.literal (ascii "0") false) inner false) cur
  else parseComparison rt r cur

/-- Operands with operators between them, from the left. -/
def leftAssoc (op : List Bytes → Option BinaryOp) (operand : List Bytes → Parsed ParsedExpr)
    (rounds : Nat) (cur : List Bytes) : Parsed ParsedExpr :=
  (operand cur).andThen (Outcome.loop (fun left cur => (op cur).map fun bin =>
    (operand cur.tail).andThen fun right cur => .done (.binary bin left right false) cur) rounds)

/-- `ParseMul`. -/
def parseMul : List Bytes → Parsed ParsedExpr :=
  leftAssoc (fun cur =>
    if peek cur = [42] then some .kMul else if peek cur = [47] then some .kDiv else none)
    (parseUnary rt r) r.rounds

/-- `ParseAdd`, and `ParseExpr`. -/
def parseAdd : List Bytes → Parsed ParsedExpr :=
  leftAssoc (fun cur =>
    if peek cur = [43] then some .kAdd else if peek cur = [45] then some .kSub else none)
    (parseMul rt r) r.rounds

/-- `ParseAnd`. -/
def parseAnd : List Bytes → Parsed ParsedExpr :=
  leftAssoc (fun cur => if peekUpper cur = ascii "AND" then some .kAnd else none)
    (parseComparison rt r) r.rounds

/-- `ParseOr`, and `ParsePredicate`. -/
def parsePredicate : List Bytes → Parsed ParsedExpr :=
  leftAssoc (fun cur => if peekUpper cur = ascii "OR" then some .kOr else none)
    (parseAnd rt r) r.rounds

/-! ## Projections -/

def isAggregateFunc (u : Bytes) : Bool :=
  [ascii "COUNT", ascii "SUM", ascii "MIN", ascii "MAX", ascii "AVG", ascii "TOTAL",
    ascii "GROUP_CONCAT"].contains u

/-- `IsProjectionClauseEnd`. -/
def isProjectionClauseEnd (cur : List Bytes) : Bool :=
  cur = [] || peek cur = [44] ||
    [ascii "FROM", ascii "WHERE", ascii "GROUP", ascii "ORDER", ascii "LIMIT",
      ascii "HAVING"].contains (peekUpper cur)

/-- A name, with a part behind a dot. -/
def qualifiedName (cur : List Bytes) : Bytes × List Bytes :=
  if peek cur.tail = [46] then (peek cur ++ 46 :: peek cur.tail.tail, cur.tail.tail.tail)
  else (peek cur, cur.tail)

/-- The name behind AS; `atEnd` where there is no token behind it. -/
def takeAlias (name atEnd : Bytes) (cur : List Bytes) : Bytes × List Bytes :=
  if peekUpper cur = ascii "AS" then (cur.tail.headD atEnd, cur.tail.tail) else (name, cur)

/-- The tokens without a keyword in front. -/
def skipKeyword (keyword : String) (cur : List Bytes) : List Bytes :=
  if peekUpper cur = ascii keyword then cur.tail else cur

/-- The column of an aggregate. -/
def aggregateColumn (cur : List Bytes) : Bytes × List Bytes :=
  if peek cur = [42] then ([42], cur.tail) else qualifiedName cur

/-- The separator of GROUP_CONCAT. -/
def aggregateSeparator (func : Bytes) (cur : List Bytes) : Bytes × List Bytes :=
  if func = ascii "GROUP_CONCAT" ∧ peek cur = [44] then
    (unquoteToken (peek cur.tail), cur.tail.tail)
  else ([44], cur)

/-- An aggregate of `ParseProjectionItem`. -/
def parseAggregate (q : SelectQuery ParsedExpr) (cur : List Bytes) :
    Parsed (SelectQuery ParsedExpr) :=
  let func := peekUpper cur
  if peek cur.tail ≠ [40] then fail "aggregate missing ("
  else
    let distinct : Bool := peekUpper cur.tail.tail = ascii "DISTINCT"
    let (column, cur) := aggregateColumn (skipKeyword "DISTINCT" cur.tail.tail)
    let (separator, cur) := aggregateSeparator func cur
    let name := func ++ 95 :: column
    let (aliasName, cur) := takeAlias name name (if peek cur = [41] then cur.tail else cur)
    .done { q with
      aggregates := q.aggregates ++ [⟨func, column, aliasName, distinct, separator⟩]
      projectCols := q.projectCols ++ [aliasName] } cur

/-- What is projected for an expression. -/
def projectExpr (q : SelectQuery ParsedExpr) (expr : ParsedExpr) (cur : List Bytes) :
    Parsed (SelectQuery ParsedExpr) :=
  let scalar (name : Bytes) : Parsed (SelectQuery ParsedExpr) :=
    let (aliasName, cur) := takeAlias name name cur
    .done { q with
      scalarProjects := q.scalarProjects ++ [expr]
      projectCols := q.projectCols ++ [aliasName] } cur
  match expr with
  | .column table column _ =>
    if isProjectionClauseEnd cur then
      let (name, cur) := takeAlias (if table = [] then column else table ++ 46 :: column) [] cur
      .done { q with projectCols := q.projectCols ++ [name] } cur
    else scalar (ascii "expr")
  | .literal l _ => scalar l
  | _ => scalar (ascii "expr")

/-- What is projected where there is no expression. -/
def projectToken (q : SelectQuery ParsedExpr) (cur : List Bytes) :
    Parsed (SelectQuery ParsedExpr) :=
  let literal (value : Bytes) (cur : List Bytes) : Parsed (SelectQuery ParsedExpr) :=
    let (name, cur) := takeAlias value [] cur
    .done { q with
      scalarProjects := q.scalarProjects ++ [.literal value false]
      projectCols := q.projectCols ++ [name] } cur
  if isQuotedLiteral (peek cur) then literal (unquoteToken (peek cur)) cur.tail
  else
    let (col, cur) := qualifiedName cur
    if isNumericOrRealToken rt col then literal col cur
    else
      let (name, cur) := takeAlias col [] cur
      .done { q with projectCols := q.projectCols ++ [name] } cur

/-- `ParseProjectionItem`: where an expression fails the cursor goes back. -/
def parseProjectionItem (q : SelectQuery ParsedExpr) (cur : List Bytes) :
    Parsed (SelectQuery ParsedExpr) :=
  if peek cur = [42] then .done { q with projectCols := q.projectCols ++ [[42]] } cur.tail
  else if isAggregateFunc (peekUpper cur) then parseAggregate q cur
  else
    (parseAdd rt r cur).attempt fun res =>
      match res with
      | .ok (expr, rest) => projectExpr q expr rest
      | .error _ => projectToken rt q cur

/-- A round over the projections. -/
def projectionRound (q : SelectQuery ParsedExpr) (cur : List Bytes) :
    Option (Parsed (SelectQuery ParsedExpr)) :=
  if cur = [] ∨ peekUpper cur = ascii "FROM" then none
  else
    some ((parseProjectionItem rt r q cur).andThen fun q cur =>
      .done q (if peek cur = [44] then cur.tail else cur))

/-! ## Clauses -/

def isJoinLead (u : Bytes) : Bool :=
  [ascii "JOIN", ascii "LEFT", ascii "RIGHT", ascii "INNER", ascii "CROSS",
    ascii "FULL"].contains u

/-- `ParseJoinType`. -/
def parseJoinType (cur : List Bytes) : JoinType × List Bytes :=
  let u := peekUpper cur
  let outer := skipKeyword "JOIN" (skipKeyword "OUTER" cur.tail)
  if u = ascii "CROSS" then (.kCross, skipKeyword "JOIN" cur.tail)
  else if u = ascii "LEFT" then (.kLeft, outer)
  else if u = ascii "RIGHT" then (.kRight, outer)
  else if u = ascii "FULL" then (.kFull, outer)
  else if u = ascii "INNER" then (.kInner, skipKeyword "JOIN" cur.tail)
  else (.kInner, skipKeyword "JOIN" cur)

/-- The left side of ON: a column without a table is one of `base`. -/
def joinLeft (base : Bytes) (cur : List Bytes) : Bytes × Bytes × List Bytes :=
  let left := peek cur
  if peek cur.tail = [46] then
    if left.contains 46 then
      (left.takeWhile (· ≠ 46), (left.dropWhile (· ≠ 46)).tail, cur.tail.tail.tail)
    else (left, peek cur.tail.tail, cur.tail.tail.tail)
  else (base, left, cur.tail)

/-- The right side of ON. -/
def joinRight (table : Bytes) (cur : List Bytes) : Bytes × Bytes × List Bytes :=
  if peek cur.tail = [46] then (peek cur, peek cur.tail.tail, cur.tail.tail.tail)
  else (table, peek cur, cur.tail)

/-- `ParseJoinOn`: the token between the sides is taken, whatever it is. -/
def parseJoinOn (j : JoinSpec) (cur : List Bytes) : Parsed JoinSpec :=
  if peekUpper cur ≠ ascii "ON" then fail "JOIN missing ON"
  else
    let (leftTable, leftCol, cur) := joinLeft j.leftTable cur.tail
    let (rightTable, rightCol, cur) := joinRight j.table cur.tail
    .done { j with
      leftTable := leftTable, leftCol := leftCol
      rightTable := rightTable, rightCol := rightCol } cur

/-- A round over the joins; `base` is the table of the one before. -/
def joinRound (found : List JoinSpec × Bytes) (cur : List Bytes) :
    Option (Parsed (List JoinSpec × Bytes)) :=
  if isJoinLead (peekUpper cur) then
    let (type, cur) := parseJoinType cur
    let j : JoinSpec := ⟨type, peek cur, found.2, [], [], []⟩
    some (if type = .kCross then .done (found.1 ++ [j], j.table) cur.tail
      else (parseJoinOn j cur.tail).andThen fun j cur => .done (found.1 ++ [j], j.table) cur)
  else none

/-- A clause with a condition, where the keyword stands. -/
def parseClause (keyword : String) (cur : List Bytes) : Parsed (Option ParsedExpr) :=
  if peekUpper cur = ascii keyword then
    (parsePredicate rt r cur.tail).andThen fun e cur => .done (some e) cur
  else .done none cur

/-- A round over the columns of GROUP BY. -/
def groupRound (cols : List Bytes) (cur : List Bytes) : Option (Parsed (List Bytes)) :=
  if cur = [] ∨ peekUpper cur = ascii "HAVING" ∨ peekUpper cur = ascii "ORDER" ∨
      peekUpper cur = ascii "LIMIT" then none
  else
    let (col, cur) := qualifiedName cur
    some (.done (cols ++ [col]) (if peek cur = [44] then cur.tail else cur))

def parseGroupBy (cur : List Bytes) : Parsed (List Bytes) :=
  if peekUpper cur = ascii "GROUP" then
    if peekUpper cur.tail ≠ ascii "BY" then fail "GROUP missing BY"
    else Outcome.loop groupRound r.rounds [] cur.tail.tail
  else .done [] cur

def parseOrderBy (cur : List Bytes) : Parsed (List OrderSpec) :=
  if peekUpper cur = ascii "ORDER" then
    if peekUpper cur.tail ≠ ascii "BY" then fail "ORDER missing BY"
    else
      let column := peek cur.tail.tail
      let cur := cur.tail.tail.tail
      let descending : Bool := peekUpper cur = ascii "DESC"
      .done [⟨column, descending⟩]
        (if peekUpper cur = ascii "DESC" ∨ peekUpper cur = ascii "ASC" then cur.tail else cur)
  else .done [] cur

/-- `std::stoull`; none where it throws. -/
def stoull (s : Bytes) : Option UInt64 :=
  let digits := (signOf (s.dropWhile isWhite)).2
  if ∃ c, digits.head? = some c ∧ IsDigit c then
    if 2 ^ 64 ≤ leadingNumber digits then none else some (strtoull s)
  else none

def parseLimit (cur : List Bytes) : Parsed (Option UInt64) :=
  if peekUpper cur = ascii "LIMIT" then
    match stoull (peek cur.tail) with
    | none => fail "invalid LIMIT"
    | some n => .done (some n) cur.tail.tail
  else .done none cur

/-- `ExtractMaxPagesHint`; the number wraps. -/
def extractMaxPagesHint (sql : Bytes) : Option UInt64 :=
  (find sql (ascii "@max_pages=") 0).bind fun pos =>
    let digits := (sql.drop (pos + 11)).takeWhile fun c => decide (IsDigit c)
    if digits = [] then none else some (UInt64.ofNat (ofDecimal digits))

/-! ## The statement -/

/-- `ParseSelect`, behind FROM. -/
def parseFrom (sql : Bytes) (q : SelectQuery ParsedExpr) (cur : List Bytes) :
    Parsed (SelectQuery ParsedExpr) :=
  (Outcome.loop joinRound r.rounds ([], peek cur) cur.tail).andThen fun found rest =>
  (parseClause rt r "WHERE" rest).andThen fun whereExpr rest =>
  (parseGroupBy r rest).andThen fun groupBy rest =>
  (parseClause rt r "HAVING" rest).andThen fun having rest =>
  (parseOrderBy rest).andThen fun orderBy rest =>
  (parseLimit rest).andThen fun limit rest =>
    .done { q with
      fromTable := peek cur, joins := found.1, whereExpr := whereExpr, groupBy := groupBy
      having := having, orderBy := orderBy, limit := limit
      maxPages := extractMaxPagesHint sql } rest

/-- `ParseSelect`, behind the projections. -/
def parseProjected (sql : Bytes) (q : SelectQuery ParsedExpr) (cur : List Bytes) :
    Parsed (SelectQuery ParsedExpr) :=
  if q.projectCols.isEmpty && q.scalarProjects.isEmpty && q.aggregates.isEmpty then
    fail "SELECT missing projection"
  else if peekUpper cur ≠ ascii "FROM" then
    .done { q with maxPages := extractMaxPagesHint sql } cur
  else parseFrom rt r sql q cur.tail

/-- `ParseSelect`. -/
def parseSelect (sql : Bytes) (cur : List Bytes) : Parsed (SelectQuery ParsedExpr) :=
  if peekUpper cur ≠ ascii "SELECT" then fail "not a SELECT"
  else
    let distinct : Bool := peekUpper cur.tail = ascii "DISTINCT"
    (Outcome.loop (projectionRound rt r) r.rounds { distinct := distinct }
      (if distinct then cur.tail.tail else cur.tail)).andThen (parseProjected rt r sql)

end

/-! ## The recursion -/

/-- The parsers that go `n` calls deep. -/
def parsers (rt : Runtime) : Nat → Parsers
  | 0 => ⟨2, fun _ => none, fun _ => none, fun _ => none, fun _ => none, fun _ _ => none⟩
  | n + 1 =>
    let r := parsers rt n
    ⟨n + 3, parsePrimary rt r, parseUnary rt r, parseAdd rt r, parsePredicate rt r,
      parseSelect rt r⟩

end EBTree.Sql.Parse
