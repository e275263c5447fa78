import EBTree.Sql.InsertParse
import EBTree.Sql.Proof.Lexer

/-!
# The literals of an INSERT

`insertText` is `INSERT INTO t VALUES (...)` with any literals, written as tokens.

* `parse_insertText`: what the statement keeps of them, one literal after another.
* `insert_literals`: **it keeps exactly the list that was written when every literal is `kept`**: no
  number has a sign, which would be a value of its own, and no string is empty, which is NULL.
-/

set_option autoImplicit false

namespace EBTree.Sql.Parse

/-! ## Literals -/

inductive Literal
  | null
  | string (content : Bytes)
  | number (negative : Bool) (whole : Digits) (fraction : Option Digits)

/-- A word of the statement. -/
def keyword (s : Bytes)
    (h : s ≠ [] ∧ (∀ b ∈ s, isIdentChar b = true) ∧ ¬ IsDigit (s.headD 0)) : Token :=
  .word ⟨s, h.1, h.2.1, h.2.2⟩

namespace Literal

/-- What the literal stands for; NULL is no text. -/
def value : Literal → Option Bytes
  | null => none
  | string content => some content
  | number negative whole fraction =>
    some ((if negative then [45] else []) ++ (Token.number whole fraction).text)

/-- How it is written. -/
def pieces (gap : Bytes) : Literal → List Piece
  | null => [⟨gap, keyword (ascii "NULL") (by decide +kernel)⟩]
  | string content => [⟨gap, .string content⟩]
  | number true whole fraction => [⟨gap, .op .minus⟩, ⟨[], .number whole fraction⟩]
  | number false whole fraction => [⟨gap, .number whole fraction⟩]

/-- What the value list keeps of it. -/
def stored : Literal → List Bytes
  | null => [[]]
  | string content => [content]
  | number true whole fraction => [[45], (Token.number whole fraction).text]
  | number false whole fraction => [(Token.number whole fraction).text]

/-- Neither a number with a sign nor the empty string. -/
def kept : Literal → Bool
  | null => true
  | string content => content ≠ []
  | number negative _ _ => !negative

end Literal

/-- The literals behind the first, each with its comma. -/
def morePieces (lits : List Literal) : List Piece :=
  lits.flatMap fun l => ⟨[], .op .comma⟩ :: l.pieces [32]

def valuePieces : List Literal → List Piece
  | [] => []
  | l :: lits => l.pieces [] ++ morePieces lits

/-- The parenthesis at the end. -/
def closing : List Piece := [⟨[], .op .rparen⟩]

/-- The tokens of the statement. -/
def insertPieces (table : Identifier) (lits : List Literal) : List Piece :=
  ⟨[], keyword (ascii "INSERT") (by decide +kernel)⟩ ::
  ⟨[32], keyword (ascii "INTO") (by decide +kernel)⟩ ::
  ⟨[32], .word table⟩ ::
  ⟨[32], keyword (ascii "VALUES") (by decide +kernel)⟩ ::
  ⟨[32], .op .lparen⟩ :: (valuePieces lits ++ closing)

/-- `INSERT INTO table VALUES (...)`. -/
def insertText (table : Identifier) (lits : List Literal) : Bytes :=
  write [] (insertPieces table lits)

/-! ## Tokens -/

/-- What is written behind a token comes back when it is read on from there. -/
def Follows (t : Token) (ps : List Piece) : Prop :=
  Spaced (some t) ps ∧ survives (some t) ps = true

/-- A comma or a parenthesis may stand right behind the token. -/
structure Calm (t : Token) : Prop where
  comma : t.runsInto 44 = false
  rparen : t.runsInto 41 = false

/-- A literal behind a parenthesis, or behind a comma and a blank. -/
theorem follows_literal {t : Token} {gap : Bytes} {ps : List Piece} (l : Literal)
    (ht : t = .op .lparen ∧ gap = [] ∨ t = .op .comma ∧ gap = [32])
    (hps : ∀ u, Calm u → Follows u ps) : Follows t (l.pieces gap ++ ps) := by
  have hgap : ∀ b ∈ gap, isSpace b = true := by
    rcases ht with ⟨-, rfl⟩ | ⟨-, rfl⟩
    · simp
    · simp [isSpace]
  have hruns : ∀ b, t.runsInto b = false := by
    intro b
    rcases ht with ⟨rfl, -⟩ | ⟨rfl, -⟩ <;> rfl
  have hopens : t.opens = false := by
    rcases ht with ⟨rfl, -⟩ | ⟨rfl, -⟩ <;> rfl
  have hone : ∀ u : Token, u ≠ .op .bangeq → Calm u → Follows t (⟨gap, u⟩ :: ps) := by
    intro u hu hcalm
    obtain ⟨hspaced, hlive⟩ := hps u hcalm
    refine ⟨⟨hgap, fun _ v hv => ?_, hspaced⟩, ?_⟩
    · cases hv
      exact hruns _
    · rw [survives, hlive, Bool.and_true]
      cases u with
      | op o =>
        cases o with
        | bangeq => exact absurd rfl hu
        | _ => rfl
      | string content => simp [hopens]
      | word w => rfl
      | number whole fraction => rfl
  have hnumber : ∀ whole fraction, Calm (.number whole fraction) := fun _ _ => ⟨rfl, rfl⟩
  cases l with
  | null => exact hone _ (fun h => by cases h) ⟨rfl, rfl⟩
  | string content => exact hone _ (fun h => by cases h) ⟨rfl, rfl⟩
  | number negative whole fraction =>
    cases negative with
    | false => exact hone _ (fun h => by cases h) (hnumber whole fraction)
    | true =>
      obtain ⟨hspaced, hlive⟩ := hps _ (hnumber whole fraction)
      refine ⟨⟨hgap, fun _ v hv => ?_, by simp, fun _ v hv => ?_, hspaced⟩, ?_⟩
      · cases hv
        exact hruns _
      · cases hv
        rfl
      · change (true && (true && survives (some (Token.number whole fraction)) ps)) = true
        rw [hlive]
        rfl

theorem follows_more (lits : List Literal) {t : Token} (h : Calm t) :
    Follows t (morePieces lits ++ closing) := by
  induction lits generalizing t with
  | nil =>
    refine ⟨⟨by simp, fun _ v hv => ?_, trivial⟩, rfl⟩
    cases hv
    exact h.rparen
  | cons l lits ih =>
    have hl := @follows_literal (.op .comma) [32] (morePieces lits ++ closing) l
      (.inr ⟨rfl, rfl⟩) (fun u hu => ih hu)
    have happ : morePieces (l :: lits) ++ closing = ⟨[], .op .comma⟩ ::
        (l.pieces [32] ++ (morePieces lits ++ closing)) := by
      simp [morePieces]
    rw [happ]
    refine ⟨⟨by simp, fun _ v hv => ?_, hl.1⟩, ?_⟩
    · cases hv
      exact h.comma
    · rw [survives, hl.2]
      rfl

theorem follows_values (lits : List Literal) :
    Follows (.op .lparen) (valuePieces lits ++ closing) := by
  cases lits with
  | nil =>
    refine ⟨⟨by simp, fun _ v hv => ?_, trivial⟩, rfl⟩
    cases hv
    rfl
  | cons l lits =>
    rw [valuePieces, List.append_assoc]
    exact follows_literal l (.inl ⟨rfl, rfl⟩) fun u hu => follows_more lits hu

/-- The statement's tokens come back. -/
theorem tokenize_insertText (table : Identifier) (lits : List Literal) :
    tokenizeSql (insertText table lits) = (insertPieces table lits).map Piece.text := by
  obtain ⟨hspaced, hlive⟩ := follows_values lits
  have hblank : ∀ b ∈ [(32 : UInt8)], isSpace b = true := by simp [isSpace]
  have hall : Spaced none (insertPieces table lits) :=
    ⟨by simp, by simp, hblank, by simp, hblank, by simp, hblank, by simp, hblank, by simp,
      hspaced⟩
  have hlives : survives none (insertPieces table lits) = true := by
    simp only [insertPieces, survives, hlive]
    rfl
  have hbang : ∀ p ∈ insertPieces table lits, p.token ≠ .op .bangeq := by
    intro p hp heq
    have hdead := not_survives_of_bang ⟨p, hp, heq⟩ none
    exact Bool.false_ne_true (hdead.symm.trans hlives)
  exact (@lexLoop_write [] (by simp) _ hbang none [] [] (fun h => absurd rfl h) rfl hall).1 hlives

/-! ## Values -/

section Loop

variable {keep : Bytes → Bytes} {vals : List Bytes} {tok next : Bytes} {after : List Bytes}

theorem parenLoop_comma (h : tok ≠ [41]) :
    parenLoop keep vals (tok :: [44] :: after) = parenLoop keep (vals ++ [keep tok]) after := by
  rw [parenLoop, if_neg h]
  rfl

theorem parenLoop_next (h : tok ≠ [41]) (hnext : next ≠ [44]) :
    parenLoop keep vals (tok :: next :: after) =
      parenLoop keep (vals ++ [keep tok]) (next :: after) := by
  rw [parenLoop, if_neg h, if_neg hnext]

theorem parenLoop_end : parenLoop keep vals ([41] :: after) = (vals, after) := by
  cases after with
  | nil => rfl
  | cons next after => rfl

end Loop

/-- A number begins with a digit. -/
theorem number_head (whole : Digits) (fraction : Option Digits) :
    ∃ c s, (Token.number whole fraction).text = c :: s ∧ IsDigit c := by
  obtain ⟨c, s, hs⟩ := List.exists_cons_of_ne_nil whole.ne_nil
  have hc := whole.digits c (by rw [hs]; exact List.mem_cons_self)
  cases fraction with
  | none => exact ⟨c, s, hs, hc⟩
  | some fraction => exact ⟨c, s ++ 46 :: fraction.text, by rw [Token.text, hs]; rfl, hc⟩

theorem number_ne {whole : Digits} {fraction : Option Digits} {c : UInt8} {s : Bytes}
    (hc : ¬ IsDigit c) : (Token.number whole fraction).text ≠ c :: s := by
  intro heq
  obtain ⟨d, r, hd, hdigit⟩ := number_head whole fraction
  exact hc ((List.cons.inj (hd.symm.trans heq)).1 ▸ hdigit)

theorem parseSqlValue_null : parseSqlValue (ascii "NULL") = [] := by decide +kernel

theorem parseSqlValue_number (whole : Digits) (fraction : Option Digits) :
    parseSqlValue (Token.number whole fraction).text = (Token.number whole fraction).text := by
  obtain ⟨c, s, hs, hc⟩ := number_head whole fraction
  have hdigits : ∀ n : Fin 256, IsDigit (UInt8.ofNat n) →
      upperByte (UInt8.ofNat n) ≠ 78 ∧ UInt8.ofNat n ≠ 39 := by decide +kernel
  obtain ⟨hN, hq⟩ := hdigits ⟨c.toNat, c.toNat_lt⟩ (by simpa using hc)
  simp only [UInt8.ofNat_toNat] at hN hq
  rw [hs, parseSqlValue, if_neg, unquoteToken, if_neg]
  · intro h
    exact hq (Option.some.inj h.2.1)
  · intro h
    exact hN (List.cons.inj h).1

theorem parseSqlValue_string (content : Bytes) :
    parseSqlValue (39 :: (content ++ [39])) = content := by
  rw [parseSqlValue, if_neg, unquoteToken, if_pos]
  · rw [List.tail_cons, List.dropLast_concat]
  · refine ⟨by simp, rfl, ?_⟩
    rw [← List.cons_append, List.getLast?_concat]
  · intro h
    exact absurd (List.cons.inj h).1 (by decide)

/-- The loop takes a literal and the comma behind it. -/
theorem parenLoop_literal (l : Literal) (gap : Bytes) (vals after : List Bytes) :
    parenLoop parseSqlValue vals ((l.pieces gap).map Piece.text ++ [44] :: after) =
      parenLoop parseSqlValue (vals ++ l.stored) after := by
  cases l with
  | null =>
    have h := @parenLoop_comma parseSqlValue vals (ascii "NULL") after (by decide +kernel)
    rw [parseSqlValue_null] at h
    exact h
  | string content =>
    have h := @parenLoop_comma parseSqlValue vals (39 :: (content ++ [39])) after (by simp)
    rw [parseSqlValue_string] at h
    exact h
  | number negative whole fraction =>
    have h := fun vals => @parenLoop_comma parseSqlValue vals (Token.number whole fraction).text
      after (number_ne (by decide))
    rw [parseSqlValue_number] at h
    cases negative with
    | false => exact h vals
    | true =>
      have hminus := @parenLoop_next parseSqlValue vals [45] (Token.number whole fraction).text
        ([44] :: after) (by decide) (number_ne (by decide))
      exact (hminus.trans (h _)).trans (by rw [List.append_assoc]; rfl)

/-- The last literal, and the parenthesis behind it. -/
theorem parenLoop_last (l : Literal) (gap : Bytes) (vals : List Bytes) :
    parenLoop parseSqlValue vals ((l.pieces gap).map Piece.text ++ [[41]]) =
      (vals ++ l.stored, []) := by
  have hend : ∀ {tok : Bytes} (vals : List Bytes), tok ≠ [41] →
      parenLoop parseSqlValue vals [tok, [41]] = (vals ++ [parseSqlValue tok], []) := by
    intro tok vals htok
    rw [parenLoop_next htok (by decide), parenLoop_end]
  cases l with
  | null =>
    have h := hend vals (show ascii "NULL" ≠ [41] by decide +kernel)
    rw [parseSqlValue_null] at h
    exact h
  | string content =>
    have h := hend vals (show 39 :: (content ++ [39]) ≠ [41] by simp)
    rw [parseSqlValue_string] at h
    exact h
  | number negative whole fraction =>
    have h := fun vals => hend vals (show (Token.number whole fraction).text ≠ [41] from
      number_ne (by decide))
    rw [parseSqlValue_number] at h
    cases negative with
    | false => exact h vals
    | true =>
      have hminus := @parenLoop_next parseSqlValue vals [45] (Token.number whole fraction).text
        [[41]] (by decide) (number_ne (by decide))
      exact (hminus.trans (h _)).trans (by rw [List.append_assoc]; rfl)

/-- **The value list**, by induction on the literals. -/
theorem parenLoop_values (lits : List Literal) :
    parenLoop parseSqlValue [] ((valuePieces lits ++ closing).map Piece.text) =
      (lits.flatMap Literal.stored, []) := by
  have hmore : ∀ (lits : List Literal) (l : Literal) (gap : Bytes) (vals : List Bytes),
      parenLoop parseSqlValue vals
        ((l.pieces gap ++ (morePieces lits ++ closing)).map Piece.text) =
        (vals ++ (l :: lits).flatMap Literal.stored, []) := by
    intro lits
    induction lits with
    | nil =>
      intro l gap vals
      have h := parenLoop_last l gap vals
      rw [List.map_append]
      simp only [List.flatMap_cons, List.flatMap_nil, List.append_nil]
      exact h
    | cons m lits ih =>
      intro l gap vals
      have h := parenLoop_literal l gap vals
        ((m.pieces [32] ++ (morePieces lits ++ closing)).map Piece.text)
      rw [ih m [32], List.append_assoc] at h
      have happ : morePieces (m :: lits) ++ closing = ⟨[], .op .comma⟩ ::
          (m.pieces [32] ++ (morePieces lits ++ closing)) := by
        simp [morePieces]
      rw [happ, List.map_append, List.map_cons]
      exact h
  cases lits with
  | nil => exact parenLoop_end
  | cons l lits =>
    rw [valuePieces, List.append_assoc, hmore lits l [] []]
    rfl

/-- What the statement keeps. -/
theorem parse_insertText (table : Identifier) (lits : List Literal) :
    ∃ s, parseInsert (tokenizeSql (insertText table lits)) = .ok s ∧
      s.insert.values = lits.flatMap Literal.stored := by
  have hvalues : parseParenValueList ([40] :: (valuePieces lits ++ closing).map Piece.text) =
      .ok (lits.flatMap Literal.stored, []) := by
    rw [parseParenValueList, if_neg (by simp [peek]), List.tail_cons, parenLoop_values]
  have htokens : (insertPieces table lits).map Piece.text =
      ascii "INSERT" :: ascii "INTO" :: table.text :: ascii "VALUES" :: [40] ::
        (valuePieces lits ++ closing).map Piece.text := rfl
  generalize (valuePieces lits ++ closing).map Piece.text = values at hvalues htokens
  have hor : peekUpper [ascii "INTO"] ≠ ascii "OR" := by decide +kernel
  have hinto : peekUpper [ascii "INTO"] = ascii "INTO" := by decide +kernel
  have hparen : peek [ascii "VALUES"] ≠ [40] := by decide +kernel
  have hselect : peekUpper [ascii "VALUES"] ≠ ascii "SELECT" := by decide +kernel
  have hwords : peekUpper [ascii "VALUES"] = ascii "VALUES" := by decide +kernel
  have hconflict : ∀ rest, parseConflict (ascii "INTO" :: rest) =
      .ok (.kInsert, [], ascii "INTO" :: rest) := fun rest => if_neg hor
  have hcolumns : ∀ rest, parseColumnNameList (ascii "VALUES" :: rest) =
      ([], ascii "VALUES" :: rest) := fun rest => if_pos hparen
  have hgo : ∀ tok rest, peekUpper (tok :: rest) = peekUpper [tok] := fun _ _ => rfl
  rw [tokenize_insertText, htokens, parseInsert, List.tail_cons, hconflict]
  dsimp only
  rw [hgo (ascii "INTO"), if_neg (not_not.2 hinto), List.tail_cons, List.tail_cons, hcolumns]
  dsimp only
  rw [hgo (ascii "VALUES"), if_neg hselect, if_neg (not_not.2 hwords), List.tail_cons, hvalues]
  exact ⟨_, rfl, rfl⟩

/-! ## What is written is kept -/

theorem stored_of_kept {l : Literal} (h : l.kept = true) :
    l.stored.map readValue = [l.value] := by
  cases l with
  | null => rfl
  | string content =>
    have hne : content ≠ [] := by simpa [Literal.kept] using h
    simp [Literal.stored, Literal.value, readValue, hne]
  | number negative whole fraction =>
    cases negative with
    | true => cases h
    | false =>
      obtain ⟨c, s, hs, -⟩ := number_head whole fraction
      simp [Literal.stored, Literal.value, readValue, hs]

theorem length_stored (l : Literal) : 1 ≤ l.stored.length := by
  cases l with
  | null => exact Nat.le_refl 1
  | string content => exact Nat.le_refl 1
  | number negative whole fraction =>
    cases negative with
    | true => exact Nat.le_succ 1
    | false => exact Nat.le_refl 1

theorem length_stored_list (lits : List Literal) :
    lits.length ≤ (lits.flatMap Literal.stored).length := by
  induction lits with
  | nil => exact Nat.le_refl 0
  | cons l lits ih =>
    have h := length_stored l
    rw [List.flatMap_cons, List.length_append, List.length_cons]
    omega

/-- A list that comes back has kept literals alone: one more value than literals, or NULL for an
empty string, is seen at the first that is not. -/
theorem kept_of_stored {lits : List Literal}
    (h : (lits.flatMap Literal.stored).map readValue = lits.map Literal.value) :
    ∀ l ∈ lits, l.kept = true := by
  have hlen : (lits.flatMap Literal.stored).length = lits.length := by
    have := congrArg List.length h
    rwa [List.length_map, List.length_map] at this
  induction lits with
  | nil => simp
  | cons l lits ih =>
    rw [List.flatMap_cons, List.map_append, List.map_cons] at h
    have hmore := length_stored_list lits
    have hone := length_stored l
    rw [List.flatMap_cons, List.length_append, List.length_cons] at hlen
    have hsingle : l.stored.length = 1 := by omega
    obtain ⟨v, hv⟩ := List.length_eq_one_iff.1 hsingle
    rw [hv] at h
    obtain ⟨hhead, htail⟩ := List.cons.inj h
    refine List.forall_mem_cons.2 ⟨?_, ih htail (by omega)⟩
    cases l with
    | null => rfl
    | string content =>
      have hcontent : v = content := (List.cons.inj hv).1.symm
      subst hcontent
      by_contra hempty
      have hnil : v = [] := by simpa [Literal.kept] using hempty
      rw [hnil] at hhead
      cases hhead
    | number negative whole fraction =>
      cases negative with
      | true => cases hsingle
      | false => rfl

/-- **The literals of an INSERT**: the statement is parsed to exactly the list that was written if
and only if every literal is kept. -/
theorem insert_literals (table : Identifier) (lits : List Literal) :
    (∀ s, parseInsert (tokenizeSql (insertText table lits)) = .ok s →
      s.insert.values.map readValue = lits.map Literal.value) ↔ ∀ l ∈ lits, l.kept = true := by
  obtain ⟨s₀, hparse, hvalues⟩ := parse_insertText table lits
  constructor
  · intro h
    have h₀ := h s₀ hparse
    rw [hvalues] at h₀
    exact kept_of_stored h₀
  · intro h s hs
    rw [hparse] at hs
    cases hs
    rw [hvalues]
    clear hparse hvalues
    induction lits with
    | nil => rfl
    | cons l lits ih =>
      obtain ⟨hl, hlits⟩ := List.forall_mem_cons.1 h
      rw [List.flatMap_cons, List.map_append, stored_of_kept hl, ih hlits]
      rfl

/-- The text of NULL, and NULL. -/
theorem insert_null_text : ∀ s, parseInsert (tokenizeSql (insertText (letter 116 (by decide))
      [.string (ascii "NULL"), .null])) = .ok s →
    s.insert.values.map readValue = [some (ascii "NULL"), none] :=
  (insert_literals (letter 116 (by decide)) [.string (ascii "NULL"), .null]).2 (by decide +kernel)

/-- The digit 5. -/
def five : Digits := ⟨[53], List.cons_ne_nil _ _, fun _ h => List.mem_singleton.1 h ▸ by decide⟩

/-- `INSERT INTO t VALUES (-5)` has two values. -/
theorem insert_minus_five :
    ¬ ∀ table lits s, parseInsert (tokenizeSql (insertText table lits)) = .ok s →
      s.insert.values.map readValue = lits.map Literal.value := by
  intro h
  obtain ⟨s, hparse, hvalues⟩ :=
    parse_insertText (letter 116 (by decide)) [.number true five none]
  have heq := h _ _ s hparse
  rw [hvalues] at heq
  exact absurd (congrArg List.length heq) (by decide)

end EBTree.Sql.Parse
