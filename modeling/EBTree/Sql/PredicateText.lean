import EBTree.Sql.ExprParse
import EBTree.Sql.Proof.Lexer

/-!
# Predicates as they are written

The predicates of a WHERE clause, without functions and subqueries (`Predicate`), the tokens they are
written with (`Predicate.tokens`), with parentheses where an operand binds weaker than its place asks
for, and the tree that `ParsePredicate` should make of them (`Predicate.tree`).
-/

set_option autoImplicit false

namespace EBTree.Sql.Parse

/-! ## Syntax -/

inductive Comparison
  | eq | ltgt | lt | le | gt | ge | like | glob
  deriving DecidableEq, Repr

/-- A literal of an IN list. -/
inductive ListItem
  | number (whole : Digits) (fraction : Option Digits)
  | string (content : Bytes)
  | null

inductive Predicate
  | column (table : Option Identifier) (name : Identifier)
  | number (whole : Digits) (fraction : Option Digits)
  | string (content : Bytes)
  | null
  | not (p : Predicate)
  | compare (op : Comparison) (left right : Predicate)
  | isNull (p : Predicate) (notNull : Bool)
  | inList (p : Predicate) (items : List ListItem) (notOp : Bool)
  | between (p lo hi : Predicate)
  | and (left right : Predicate)
  | or (left right : Predicate)

/-! ## Tokens -/

inductive Keyword
  | kNot | kNull | kIs | kIn | kBetween | kAnd | kOr | kLike | kGlob
  deriving DecidableEq, Repr

namespace Keyword

def text : Keyword → Bytes
  | kNot => ascii "NOT"
  | kNull => ascii "NULL"
  | kIs => ascii "IS"
  | kIn => ascii "IN"
  | kBetween => ascii "BETWEEN"
  | kAnd => ascii "AND"
  | kOr => ascii "OR"
  | kLike => ascii "LIKE"
  | kGlob => ascii "GLOB"

def word (k : Keyword) : Identifier where
  text := k.text
  ne_nil := by cases k <;> decide +kernel
  chars := by cases k <;> decide +kernel
  head := by cases k <;> decide +kernel

def token (k : Keyword) : Token := .word k.word

end Keyword

namespace Comparison

def token : Comparison → Token
  | eq => .op .eq
  | ltgt => .op .ltgt
  | lt => .op .lt
  | le => .op .le
  | gt => .op .gt
  | ge => .op .ge
  | like => Keyword.kLike.token
  | glob => Keyword.kGlob.token

def binaryOp : Comparison → BinaryOp
  | eq => .kEq
  | ltgt => .kNe
  | lt => .kLt
  | le => .kLe
  | gt => .kGt
  | ge => .kGe
  | like => .kLike
  | glob => .kGlob

end Comparison

namespace ListItem

def token : ListItem → Token
  | number whole fraction => .number whole fraction
  | string content => .string content
  | null => Keyword.kNull.token

/-- What the item is kept as. -/
def value : ListItem → Bytes
  | number whole fraction => (Token.number whole fraction).text
  | string content => content
  | null => []

/-- The items with commas between them. -/
def tokens : List ListItem → List Token
  | [] => []
  | [i] => [i.token]
  | i :: items => i.token :: .op .comma :: tokens items

end ListItem

namespace Predicate

/-- How tight it binds: OR, AND, the comparisons, and what needs no parentheses. -/
def level : Predicate → Nat
  | or _ _ => 0
  | and _ _ => 1
  | compare _ _ _ | isNull _ _ | inList _ _ _ | between _ _ _ => 2
  | _ => 3

/-- An operand, in parentheses where it binds weaker than its place. -/
def wrap (place lvl : Nat) (ts : List Token) : List Token :=
  if lvl < place then .op .lparen :: (ts ++ [.op .rparen]) else ts

def tokens : Predicate → List Token
  | column none name => [.word name]
  | column (some table) name => [.word table, .op .dot, .word name]
  | number whole fraction => [.number whole fraction]
  | string content => [.string content]
  | null => [Keyword.kNull.token]
  | not p => Keyword.kNot.token :: wrap 3 p.level p.tokens
  | compare op l r => wrap 3 l.level l.tokens ++ op.token :: wrap 3 r.level r.tokens
  | isNull p notNull =>
    wrap 3 p.level p.tokens ++ Keyword.kIs.token ::
      ((if notNull then [Keyword.kNot.token] else []) ++ [Keyword.kNull.token])
  | inList p items notOp =>
    wrap 3 p.level p.tokens ++ ((if notOp then [Keyword.kNot.token] else []) ++
      Keyword.kIn.token :: .op .lparen :: (ListItem.tokens items ++ [.op .rparen]))
  | between p lo hi =>
    wrap 3 p.level p.tokens ++ Keyword.kBetween.token ::
      (wrap 3 lo.level lo.tokens ++ Keyword.kAnd.token :: wrap 3 hi.level hi.tokens)
  | and l r => wrap 1 l.level l.tokens ++ Keyword.kAnd.token :: wrap 2 r.level r.tokens
  | or l r => l.tokens ++ Keyword.kOr.token :: wrap 1 r.level r.tokens

/-- The tree. NOT is noted at its operand, and BETWEEN is two comparisons. -/
def tree : Predicate → ParsedExpr
  | column none name => .column [] name.text false
  | column (some table) name => .column table.text name.text false
  | number whole fraction => .literal (Token.number whole fraction).text false
  | string content => .literal content false
  | null => .literal [] false
  | not p => p.tree.withNot
  | compare op l r => .binary op.binaryOp l.tree r.tree false
  | isNull p notNull => .isNull p.tree (!notNull) false
  | inList p items notOp =>
    .subquery { notOp := notOp, lhs := some p.tree, inLiterals := items.map (·.value) } false
  | between p lo hi =>
    .binary .kAnd (.binary .kGe p.tree lo.tree false) (.binary .kLe p.tree hi.tree false) false
  | and l r => .binary .kAnd l.tree r.tree false
  | or l r => .binary .kOr l.tree r.tree false

end Predicate

/-! ## What can be written -/

/-- No keyword that begins a primary expression, no number, and nothing that a SELECT could begin
with: `ParsePrimary` looks at the first letters of what stands between parentheses. -/
structure Identifier.Plain (rt : Runtime) (w : Identifier) : Prop where
  not_not : upper w.text ≠ ascii "NOT"
  not_exists : upper w.text ≠ ascii "EXISTS"
  not_null : upper w.text ≠ ascii "NULL"
  not_number : isNumericOrRealToken rt w.text = false
  not_select : (ascii "SELECT").isPrefixOf (upper w.text) = false

namespace Predicate

/-- No string has a quote: in parentheses it would be lost when they are tokenized again. -/
def QuoteFree : Predicate → Prop
  | string content => (39 : UInt8) ∉ content
  | not p | isNull p _ | inList p _ _ => p.QuoteFree
  | compare _ l r | and l r | or l r => l.QuoteFree ∧ r.QuoteFree
  | between p lo hi => p.QuoteFree ∧ lo.QuoteFree ∧ hi.QuoteFree
  | _ => True

/-- An operand at a place. -/
def Fits (place : Nat) (p : Predicate) : Prop := p.level < place → p.QuoteFree

/-- The predicate can be written: its names are plain, its numbers are numbers to the runtime, and
what is put in parentheses has no quote. -/
def Writable (rt : Runtime) : Predicate → Prop
  | column table name => name.Plain rt ∧ ∀ t ∈ table, t.Plain rt
  | number whole fraction => isNumericOrRealToken rt (Token.number whole fraction).text = true
  | string _ | null => True
  | not p => p.Writable rt ∧ p.Fits 3
  | compare _ l r => (l.Writable rt ∧ l.Fits 3) ∧ r.Writable rt ∧ r.Fits 3
  | isNull p _ => p.Writable rt ∧ p.Fits 3
  | inList p items _ =>
    (p.Writable rt ∧ p.Fits 3) ∧ ∀ content, .string content ∈ items → (39 : UInt8) ∉ content
  | between p lo hi =>
    (p.Writable rt ∧ p.Fits 3) ∧ (lo.Writable rt ∧ lo.Fits 3) ∧ hi.Writable rt ∧ hi.Fits 3
  | and l r => (l.Writable rt ∧ l.Fits 1) ∧ r.Writable rt ∧ r.Fits 2
  | or l r => l.Writable rt ∧ r.Writable rt ∧ r.Fits 1

end Predicate

/-- What may follow a comparison: nothing that would go on with it. -/
structure EndsComparison (rest : List Bytes) : Prop where
  operand : peek rest ≠ [46] ∧ peek rest ≠ [40]
  words : peekUpper rest ∉ [ascii "IS", ascii "NOT", ascii "IN", ascii "LIKE", ascii "GLOB",
    ascii "BETWEEN"]
  operator : comparisonOp (peek rest) = none

/-- What may follow a predicate. -/
structure EndsPredicate (rest : List Bytes) : Prop extends EndsComparison rest where
  not_and : peekUpper rest ≠ ascii "AND"
  not_or : peekUpper rest ≠ ascii "OR"

end EBTree.Sql.Parse
