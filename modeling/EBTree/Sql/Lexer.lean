import EBTree.Lib.Find
import EBTree.Lib.JsonLine

/-!
# Tokens

`TokenizeSql` (`lex_pipeline.cc`) and the texts of tokens (`parse_shared.cc`). A token is its text; a
string literal keeps its outer quotes, and a quote that was written twice inside stands once.

The loop goes over the text; the inner loops, over a literal and over a blob, are modes of it.
-/

set_option autoImplicit false

namespace EBTree.Sql.Parse

/-! ## Characters -/

/-- `std::isspace` of the C locale. -/
def isSpace (c : UInt8) : Bool := c = 32 || (9 ≤ c && c ≤ 13)

/-- `std::toupper` of the C locale. -/
def upperByte (c : UInt8) : UInt8 := if 97 ≤ c ∧ c ≤ 122 then c - 32 else c

/-- `Upper`. -/
def upper (s : Bytes) : Bytes := s.map upperByte

/-- The characters that are tokens of their own, or begin one of two characters: `!` is not among
them. -/
def isOperatorByte (c : UInt8) : Bool :=
  c = 40 || c = 41 || c = 44 || c = 59 || c = 42 || c = 61 || c = 60 || c = 62 || c = 43 ||
    c = 45 || c = 47

/-! ## Tokenizing -/

/-- What the loop is at: between and in plain tokens, with what it has gathered of one; in a
literal; in a blob. -/
inductive LexMode
  | plain (cur : Bytes)
  | literal (lit : Bytes)
  | blob (blob : Bytes)

/-- `PushToken`. -/
def pushToken (tokens : List Bytes) (cur : Bytes) : List Bytes :=
  if cur = [] then tokens else tokens ++ [cur]

/-- Whether the quote that follows these tokens opens a blob. -/
def opensBlob (tokens : List Bytes) : Bool :=
  tokens.getLast? = some [120] || tokens.getLast? = some [88]

/-- One round, at the character `c` with `next` behind it: the tokens, the mode, and whether `next`
was taken as well. -/
def lexChar (tokens : List Bytes) (mode : LexMode) (c : UInt8) (next : Option UInt8) :
    List Bytes × LexMode × Bool :=
  match mode with
  | .literal lit =>
    if c = 39 then
      if next = some 39 then (tokens, .literal (lit ++ [39]), true)
      else (tokens ++ [lit ++ [39]], .plain [], false)
    else (tokens, .literal (lit ++ [c]), false)
  | .blob blob =>
    if c = 39 then (tokens ++ [blob ++ [39]], .plain [], false)
    else (tokens, .blob (blob ++ [c]), false)
  | .plain cur =>
    if isSpace c then (pushToken tokens cur, .plain [], false)
    else if c = 39 then
      let tokens := pushToken tokens cur
      if opensBlob tokens then (tokens.dropLast, .blob (tokens.getLastD [] ++ [39]), false)
      else (tokens, .literal [39], false)
    else if c = 46 then
      if cur ≠ [] ∧ IsDigit (next.getD 0) then (tokens, .plain (cur ++ [c]), false)
      else (pushToken tokens cur ++ [[46]], .plain [], false)
    else if isOperatorByte c then
      let tokens := pushToken tokens cur
      if (c = 60 ∨ c = 62 ∨ c = 33) ∧ next = some 61 then (tokens ++ [[c, 61]], .plain [], true)
      else if c = 33 ∧ next = some 61 then (tokens ++ [[33, 61]], .plain [], true)
      else if c = 60 ∧ next = some 62 then (tokens ++ [[60, 62]], .plain [], true)
      else (tokens ++ [[c]], .plain [], false)
    else (tokens, .plain (cur ++ [c]), false)

/-- The end of the text: a literal or blob that is not closed is a token as it is. -/
def lexEnd (tokens : List Bytes) : LexMode → List Bytes
  | .plain cur => pushToken tokens cur
  | .literal lit => tokens ++ [lit]
  | .blob blob => tokens ++ [blob]

/-- The loop of `TokenizeSql`. -/
def lexLoop (tokens : List Bytes) (mode : LexMode) : Bytes → List Bytes
  | [] => lexEnd tokens mode
  | c :: rest =>
    let (tokens, mode, took) := lexChar tokens mode c rest.head?
    match rest with
    | [] => lexEnd tokens mode
    | next :: after =>
      if took then lexLoop tokens mode after else lexLoop tokens mode (next :: after)

/-- `TokenizeSql`. -/
def tokenizeSql (sql : Bytes) : List Bytes := lexLoop [] (.plain []) sql

/-- `UnquoteToken`. -/
def unquoteToken (tok : Bytes) : Bytes :=
  if 2 ≤ tok.length ∧ tok.head? = some 39 ∧ tok.getLast? = some 39 then tok.tail.dropLast else tok

example : tokenizeSql (ascii "a!=b") = [ascii "a!", ascii "=", ascii "b"] := by decide +kernel

end EBTree.Sql.Parse
