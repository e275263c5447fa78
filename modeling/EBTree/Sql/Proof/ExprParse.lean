import EBTree.Sql.ExprParse
import EBTree.Sql.Proof.Lexer

/-!
# The parser terminates

The measure of tokens is the number of their characters that are not spaces, and one for a token
without any (`weight`). A parser that takes a token lowers it; the text between two parentheses is
tokenized to less than the parentheses and what is between them.

* `weight_tokenizeSql`: tokenizing adds no character.
* `weight_extract`: what stands between parentheses, and what is left behind them.
* `parsePrimary_below`, `parsePredicate_below`, `parseSelect_ne_none`: each comes to an end if the
  parsers that it calls again do so **on what has a smaller measure**.
* `parser_terminates`: **parsers that go deeper than the measure come to an end.**
-/

set_option autoImplicit false

namespace EBTree.Sql.Parse

open Lib Outcome

/-! ## The measure -/

/-- The characters that are not spaces. -/
def marks (s : Bytes) : Nat := s.countP fun c => !isSpace c

def weight (tokens : List Bytes) : Nat := (tokens.map fun t => max 1 (marks t)).sum

@[simp] theorem marks_nil : marks [] = 0 := rfl

@[simp] theorem marks_append (s t : Bytes) : marks (s ++ t) = marks s + marks t :=
  List.countP_append

theorem marks_cons (c : UInt8) (s : Bytes) :
    marks (c :: s) = marks s + if isSpace c then 0 else 1 := by
  rw [marks, List.countP_cons]
  cases isSpace c <;> rfl

@[simp] theorem weight_nil : weight [] = 0 := rfl

@[simp] theorem weight_append (s t : List Bytes) : weight (s ++ t) = weight s + weight t := by
  rw [weight, List.map_append, List.sum_append]
  rfl

@[simp] theorem weight_cons (t : Bytes) (s : List Bytes) :
    weight (t :: s) = max 1 (marks t) + weight s := by
  rw [weight, List.map_cons, List.sum_cons]
  rfl

theorem weight_tail_le (cur : List Bytes) : weight cur.tail ≤ weight cur := by
  cases cur with
  | nil => exact Nat.le_refl 0
  | cons t cur =>
    rw [List.tail_cons, weight_cons]
    omega

/-- A token that may be taken. -/
theorem weight_skip_le (p : Prop) [Decidable p] (cur : List Bytes) :
    weight (if p then cur.tail else cur) ≤ weight cur := by
  split_ifs
  · exact weight_tail_le cur
  · exact Nat.le_refl _

theorem weight_tail_lt {cur : List Bytes} (h : cur ≠ []) : weight cur.tail < weight cur := by
  cases cur with
  | nil => exact absurd rfl h
  | cons t cur =>
    rw [List.tail_cons, weight_cons]
    omega

theorem marks_peek_le (cur : List Bytes) : marks (peek cur) ≤ weight cur := by
  cases cur with
  | nil => exact Nat.le_refl 0
  | cons t cur =>
    rw [weight_cons]
    change marks t ≤ _
    omega

theorem ne_nil_of_peek {cur : List Bytes} {t : Bytes} (h : peek cur = t) (ht : t ≠ []) :
    cur ≠ [] := by
  rintro rfl
  exact ht h.symm

theorem ne_nil_of_peekUpper {cur : List Bytes} {t : Bytes} (h : peekUpper cur = t)
    (ht : t ≠ []) : cur ≠ [] := by
  rintro rfl
  exact ht h.symm

/-! ## Tokenizing -/

theorem took_none (T : List Bytes) (mode : LexMode) (c : UInt8) :
    (lexChar T mode c none).2.2 = false := by
  cases mode with
  | literal lit =>
    unfold lexChar
    dsimp only
    split_ifs <;> first | rfl | contradiction
  | blob blob =>
    unfold lexChar
    dsimp only
    split_ifs <;> rfl
  | plain cur =>
    unfold lexChar
    dsimp only
    split_ifs <;> first | rfl | simp_all

/-- The induction over the rounds of the loop. -/
theorem lexLoop_rounds {P : Bytes → List Bytes → LexMode → Prop}
    (hnil : ∀ T mode, P [] T mode)
    (hone : ∀ T mode c rest T' mode', lexChar T mode c rest.head? = (T', mode', false) →
      P rest T' mode' → P (c :: rest) T mode)
    (htwo : ∀ T mode c next after T' mode', lexChar T mode c (some next) = (T', mode', true) →
      P after T' mode' → P (c :: next :: after) T mode) (s : Bytes) :
    ∀ T mode, P s T mode := by
  induction hn : s.length using Nat.strong_induction_on generalizing s with
  | _ n ih =>
    intro T mode
    cases s with
    | nil => exact hnil T mode
    | cons c rest =>
      rcases hround : lexChar T mode c rest.head? with ⟨T', mode', took⟩
      rw [List.length_cons] at hn
      cases took with
      | false => exact hone _ _ _ _ _ _ hround (ih rest.length (by omega) rest rfl T' mode')
      | true =>
        cases rest with
        | nil =>
          have hnone := took_none T mode c
          rw [List.head?_nil] at hround
          rw [hround] at hnone
          cases hnone
        | cons next after =>
          rw [List.length_cons] at hn
          exact htwo _ _ _ _ _ _ _ hround (ih after.length (by omega) after rfl T' mode')

theorem lexEnd_eq (T : List Bytes) (mode : LexMode) : lexEnd T mode = T ++ lexEnd [] mode := by
  cases mode with
  | plain cur =>
    change pushToken T cur = T ++ pushToken [] cur
    unfold pushToken
    split
    · rw [List.append_nil]
    · rfl
  | literal lit => rfl
  | blob blob => rfl

theorem weight_pushToken (T : List Bytes) (cur : Bytes) :
    weight (pushToken T cur) = weight T + weight (pushToken [] cur) := by
  have h := lexEnd_eq T (.plain cur)
  change pushToken T cur = T ++ pushToken [] cur at h
  rw [h, weight_append]

theorem weight_lexEnd_literal (T : List Bytes) (lit : Bytes) :
    weight (lexEnd T (.literal lit)) = weight T + max 1 (marks lit) := by
  simp [lexEnd]

theorem weight_lexEnd_blob (T : List Bytes) (blob : Bytes) :
    weight (lexEnd T (.blob blob)) = weight T + max 1 (marks blob) := by
  simp [lexEnd]

theorem weight_lexEnd_plain (T : List Bytes) (cur : Bytes) :
    weight (lexEnd T (.plain cur)) = weight T + weight (pushToken [] cur) :=
  weight_pushToken T cur

/-- A character more in a plain token. -/
theorem weight_pushToken_concat {cur : Bytes} {c : UInt8} (hc : isSpace c = false) :
    weight (pushToken [] (cur ++ [c])) ≤ weight (pushToken [] cur) + 1 := by
  have hne : cur ++ [c] ≠ [] := by simp
  have hmark : marks [c] = 1 := by rw [marks_cons, hc]; rfl
  rw [pushToken, if_neg hne, List.nil_append, weight_cons, weight_nil, marks_append, hmark]
  by_cases hcur : cur = []
  · rw [hcur]
    exact Nat.le_refl 1
  · rw [pushToken, if_neg hcur, List.nil_append, weight_cons, weight_nil]
    omega

theorem marks_singleton {c : UInt8} (hc : isSpace c = false) : marks [c] = 1 := by
  rw [marks_cons, hc]
  rfl

/-- The token that a blob begins with was one already. -/
theorem weight_opens {T : List Bytes} (h : opensBlob T = true) :
    weight T.dropLast + max 1 (marks (T.getLastD [] ++ [39])) ≤ weight T + 1 := by
  have hne : T ≠ [] := by
    rintro rfl
    cases h
  obtain ⟨init, last, rfl⟩ : ∃ init last, T = init ++ [last] :=
    ⟨T.dropLast, T.getLast hne, (List.dropLast_append_getLast hne).symm⟩
  have hmark : marks [39] = 1 := by decide
  rw [List.dropLast_concat, List.getLastD_concat, weight_append, weight_cons, weight_nil,
    marks_append, hmark]
  omega

/-- The round adds the characters that it took to the tokens and to what is being read, at most. -/
def Adds (before : Nat) (c : UInt8) (next : Option UInt8) (out : List Bytes × LexMode × Bool) :
    Prop :=
  weight (lexEnd out.1 out.2.1) ≤ before + marks [c] + bif out.2.2 then marks next.toList else 0

theorem adds_of {before : Nat} {c : UInt8} {next : Option UInt8} {T : List Bytes}
    {mode : LexMode} (h : weight (lexEnd T mode) ≤ before + marks [c]) :
    Adds before c next (T, mode, false) := h

theorem adds_taken {before : Nat} {c next : UInt8} {T : List Bytes} {mode : LexMode}
    (h : weight (lexEnd T mode) ≤ before + marks [c] + marks [next]) :
    Adds before c (some next) (T, mode, true) := h

/-- A token that is put behind the others, with none being read. -/
theorem weight_pushed (T : List Bytes) (t : Bytes) :
    weight (lexEnd (T ++ [t]) (.plain [])) = weight T + max 1 (marks t) := by
  change weight (T ++ [t]) = _
  rw [weight_append, weight_cons, weight_nil, Nat.add_zero]

theorem adds_literal (T : List Bytes) (lit : Bytes) (c : UInt8) (next : Option UInt8) :
    Adds (weight (lexEnd T (.literal lit))) c next (lexChar T (.literal lit) c next) := by
  rw [weight_lexEnd_literal]
  unfold lexChar
  dsimp only
  by_cases hc : c = 39
  · subst hc
    rw [if_pos rfl]
    by_cases hnext : next = some 39
    · -- of two quotes one is kept
      subst hnext
      rw [if_pos rfl]
      apply adds_taken
      rw [weight_lexEnd_literal, marks_append]
      omega
    · rw [if_neg hnext]
      apply adds_of
      rw [weight_pushed, marks_append]
      omega
  · rw [if_neg hc]
    apply adds_of
    rw [weight_lexEnd_literal, marks_append]
    omega

theorem adds_blob (T : List Bytes) (blob : Bytes) (c : UInt8) (next : Option UInt8) :
    Adds (weight (lexEnd T (.blob blob))) c next (lexChar T (.blob blob) c next) := by
  rw [weight_lexEnd_blob]
  unfold lexChar
  dsimp only
  by_cases hc : c = 39
  · subst hc
    rw [if_pos rfl]
    apply adds_of
    rw [weight_pushed, marks_append]
    omega
  · rw [if_neg hc]
    apply adds_of
    rw [weight_lexEnd_blob, marks_append]
    omega

/-- An operator is a token of one character or two. -/
theorem adds_operator {T : List Bytes} {before : Nat} (hT : weight T ≤ before) {c : UInt8}
    (hc : isSpace c = false) (next : Option UInt8) :
    Adds before c next (T ++ [[c]], .plain [], false) ∧
      ∀ a b : UInt8, next = some b → isSpace b = false →
        Adds before c next (T ++ [[a, b]], .plain [], true) := by
  have hmark := marks_singleton hc
  constructor
  · apply adds_of
    rw [weight_pushed, hmark]
    omega
  · intro a b hnext hb
    subst hnext
    have hle : marks [a, b] ≤ 2 := List.countP_le_length
    have hmarkb : marks [b] = 1 := marks_singleton hb
    apply adds_taken
    rw [weight_pushed, hmark, hmarkb]
    omega

theorem adds_plain (T : List Bytes) (cur : Bytes) (c : UInt8) (next : Option UInt8) :
    Adds (weight (lexEnd T (.plain cur))) c next (lexChar T (.plain cur) c next) := by
  have hpush : weight (pushToken T cur) = weight (lexEnd T (.plain cur)) := rfl
  have hcur := weight_lexEnd_plain T cur
  unfold lexChar
  dsimp only
  by_cases hspace : isSpace c = true
  · rw [if_pos hspace]
    apply adds_of
    change weight (pushToken T cur) ≤ _
    omega
  have hmark := marks_singleton (Bool.eq_false_iff.2 hspace)
  -- a character that is gathered
  have hmore : weight (lexEnd T (.plain (cur ++ [c]))) ≤
      weight (lexEnd T (.plain cur)) + marks [c] := by
    have h := @weight_pushToken_concat cur _ (Bool.eq_false_iff.2 hspace)
    rw [weight_lexEnd_plain]
    omega
  rw [if_neg hspace]
  by_cases hc : c = 39
  · rw [if_pos hc]
    by_cases hopens : opensBlob (pushToken T cur) = true
    · have h := weight_opens hopens
      rw [if_pos hopens]
      apply adds_of
      rw [weight_lexEnd_blob]
      omega
    · have hquote : marks [39] = 1 := by decide
      rw [if_neg hopens]
      apply adds_of
      rw [weight_lexEnd_literal]
      omega
  rw [if_neg hc]
  by_cases hpoint : c = 46
  · rw [if_pos hpoint]
    by_cases hnumber : cur ≠ [] ∧ IsDigit (next.getD 0)
    · rw [if_pos hnumber]
      exact adds_of hmore
    · rw [if_neg hnumber]
      apply adds_of
      have hdot : marks [46] = 1 := by decide
      rw [weight_pushed]
      omega
  rw [if_neg hpoint]
  by_cases hop : isOperatorByte c = true
  · rw [if_pos hop]
    obtain ⟨hone, htwo⟩ :=
      adds_operator (Nat.le_of_eq hpush) (Bool.eq_false_iff.2 hspace) next
    split_ifs with h1 h2 h3
    · exact htwo c 61 h1.2 rfl
    · exact htwo 33 61 h2.2 rfl
    · exact htwo 60 62 h3.2 rfl
    · exact hone
  · rw [if_neg hop]
    exact adds_of hmore

theorem adds_lexChar (T : List Bytes) (mode : LexMode) (c : UInt8) (next : Option UInt8) :
    Adds (weight (lexEnd T mode)) c next (lexChar T mode c next) := by
  cases mode with
  | plain cur => exact adds_plain T cur c next
  | literal lit => exact adds_literal T lit c next
  | blob blob => exact adds_blob T blob c next

theorem weight_lexLoop (s : Bytes) : ∀ (T : List Bytes) (mode : LexMode),
    weight (lexLoop T mode s) ≤ weight (lexEnd T mode) + marks s := by
  refine @lexLoop_rounds (fun s T mode => weight (lexLoop T mode s) ≤
    weight (lexEnd T mode) + marks s) (fun T mode => Nat.le_refl _) ?_ ?_ s
  · intro T mode c rest T' mode' hround ih
    have hadds := adds_lexChar T mode c rest.head?
    rw [hround] at hadds
    have hle : weight (lexEnd T' mode') ≤ weight (lexEnd T mode) + marks [c] := hadds
    have hc : marks (c :: rest) = marks [c] + marks rest := marks_append [c] rest
    rw [lexLoop_one hround]
    omega
  · intro T mode c next after T' mode' hround ih
    have hadds := adds_lexChar T mode c (some next)
    rw [hround] at hadds
    have hle : weight (lexEnd T' mode') ≤ weight (lexEnd T mode) + marks [c] + marks [next] :=
      hadds
    have hc : marks (c :: next :: after) = marks [c] + (marks [next] + marks after) := by
      rw [← marks_append, ← marks_append]
      rfl
    rw [lexLoop_two hround]
    omega

/-- **Tokenizing adds no character.** -/
theorem weight_tokenizeSql (s : Bytes) : weight (tokenizeSql s) ≤ marks s := by
  have h := weight_lexLoop s [] (.plain [])
  change _ ≤ 0 + marks s at h
  rw [Nat.zero_add] at h
  exact h

/-! ## A table behind IN -/

theorem pushToken_append (pre T : List Bytes) (cur : Bytes) :
    pushToken (pre ++ T) cur = pre ++ pushToken T cur := by
  unfold pushToken
  split_ifs
  · rfl
  · rw [List.append_assoc]

theorem opensBlob_append {pre : List Bytes} (hpre : opensBlob pre = false) (T : List Bytes) :
    opensBlob (pre ++ T) = opensBlob T := by
  by_cases hT : T = []
  · rw [hT, List.append_nil, hpre]
    rfl
  · have hlast : (pre ++ T).getLast? = T.getLast? := by
      rw [List.getLast?_append_of_ne_nil _ hT]
    rw [opensBlob, hlast]
    rfl

/-- Tokens in front, of which the last does not begin a blob, stay there. -/
theorem lexChar_append {pre : List Bytes} (hpre : opensBlob pre = false) (T : List Bytes)
    (mode : LexMode) (c : UInt8) (next : Option UInt8) :
    lexChar (pre ++ T) mode c next =
      (pre ++ (lexChar T mode c next).1, (lexChar T mode c next).2) := by
  cases mode with
  | literal lit =>
    unfold lexChar
    dsimp only
    split_ifs <;> simp only [List.append_assoc]
  | blob blob =>
    unfold lexChar
    dsimp only
    split_ifs <;> simp only [List.append_assoc]
  | plain cur =>
    unfold lexChar
    dsimp only
    rw [pushToken_append, opensBlob_append hpre]
    have hopen : opensBlob (pushToken T cur) = true →
        (pre ++ pushToken T cur).dropLast = pre ++ (pushToken T cur).dropLast ∧
          (pre ++ pushToken T cur).getLastD [] = (pushToken T cur).getLastD [] := by
      intro h
      have hne : pushToken T cur ≠ [] := by
        intro hnil
        rw [hnil] at h
        cases h
      refine ⟨List.dropLast_append_of_ne_nil hne, ?_⟩
      rw [List.getLastD_eq_getLast?, List.getLastD_eq_getLast?,
        List.getLast?_append_of_ne_nil _ hne]
    split_ifs with _ _ hopens
    all_goals try simp only [List.append_assoc]
    obtain ⟨hinit, hlast⟩ := hopen hopens
    rw [hinit, hlast]

theorem lexLoop_append {pre : List Bytes} (hpre : opensBlob pre = false) (s : Bytes) :
    ∀ (T : List Bytes) (mode : LexMode), lexLoop (pre ++ T) mode s = pre ++ lexLoop T mode s := by
  refine @lexLoop_rounds (fun s T mode => lexLoop (pre ++ T) mode s = pre ++ lexLoop T mode s)
    ?_ ?_ ?_ s
  · intro T mode
    change lexEnd (pre ++ T) mode = pre ++ lexEnd T mode
    rw [lexEnd_eq, lexEnd_eq T, List.append_assoc]
  · intro T mode c rest T' mode' hround ih
    have hround' : lexChar (pre ++ T) mode c rest.head? = (pre ++ T', mode', false) := by
      rw [lexChar_append hpre, hround]
    rw [lexLoop_one hround, lexLoop_one hround', ih]
  · intro T mode c next after T' mode' hround ih
    have hround' : lexChar (pre ++ T) mode c (some next) = (pre ++ T', mode', true) := by
      rw [lexChar_append hpre, hround]
    rw [lexLoop_two hround, lexLoop_two hround', ih]

/-- `SELECT * FROM` is three tokens. -/
theorem tokenizeSql_selectFrom (tok : Bytes) :
    tokenizeSql (ascii "SELECT * FROM " ++ tok) =
      ascii "SELECT" :: [42] :: ascii "FROM" :: tokenizeSql tok := by
  have hfront : tokenizeSql (ascii "SELECT * FROM " ++ tok) =
      lexLoop ([ascii "SELECT", [42], ascii "FROM"] ++ []) (.plain []) tok := by
    change lexLoop [] (.plain [])
      (83 :: 69 :: 76 :: 69 :: 67 :: 84 :: 32 :: 42 :: 32 :: 70 :: 82 :: 79 :: 77 :: 32 :: tok) = _
    iterate 14 rw [lexLoop_one rfl]
    rfl
  rw [hfront, lexLoop_append (by decide)]
  rfl

/-- The measure of a SELECT: `SELECT * FROM` in front is not counted. -/
def selectWeight : List Bytes → Nat
  | a :: b :: c :: rest =>
    if a = ascii "SELECT" ∧ b = [42] ∧ c = ascii "FROM" then weight rest
    else weight (a :: b :: c :: rest)
  | cur => weight cur

theorem selectWeight_le (cur : List Bytes) : selectWeight cur ≤ weight cur := by
  unfold selectWeight
  split
  · split_ifs
    · simp only [weight_cons]
      omega
    · exact Nat.le_refl _
  · exact Nat.le_refl _

theorem selectWeight_selectFrom (tok : Bytes) :
    selectWeight (tokenizeSql (ascii "SELECT * FROM " ++ tok)) ≤ marks tok := by
  rw [tokenizeSql_selectFrom, selectWeight, if_pos ⟨rfl, rfl, rfl⟩]
  exact weight_tokenizeSql tok

/-! ## Parentheses -/

theorem marks_extractLoop (cur : List Bytes) (sql : Bytes) (depth : Nat) :
    marks (extractLoop sql depth cur).1 ≤ marks sql + weight cur ∧
      weight (extractLoop sql depth cur).2 ≤ weight cur := by
  induction cur generalizing sql depth with
  | nil => exact ⟨Nat.le_refl _, Nat.le_refl _⟩
  | cons t rest ih =>
    rw [weight_cons]
    unfold extractLoop
    by_cases hend : t = [41] ∧ depth = 0
    · rw [if_pos hend]
      exact ⟨Nat.le_add_right _ _, Nat.le_add_left _ _⟩
    · rw [if_neg hend]
      have hsep : marks ((if sql = [] then sql else sql ++ [32]) ++ t) = marks sql + marks t := by
        have hspace : marks [32] = 0 := by decide
        split_ifs
        · rw [marks_append]
        · rw [marks_append, marks_append, hspace, Nat.add_zero]
      obtain ⟨h1, h2⟩ := ih ((if sql = [] then sql else sql ++ [32]) ++ t)
        (if t = [40] then depth + 1 else if t = [41] then depth - 1 else depth)
      rw [hsep] at h1
      exact ⟨by omega, by omega⟩

/-- **What stands between parentheses**, tokenized, and what is left behind them. -/
theorem weight_extract (cur : List Bytes) :
    weight (tokenizeSql (extractBalancedParenSql cur).1) ≤ weight cur.tail ∧
      weight (extractBalancedParenSql cur).2 ≤ weight cur ∧
      (peek cur = [40] → weight (extractBalancedParenSql cur).2 ≤ weight cur.tail) := by
  unfold extractBalancedParenSql
  by_cases hopen : peek cur = [40]
  · obtain ⟨h1, h2⟩ := marks_extractLoop cur.tail [] 0
    rw [marks_nil, Nat.zero_add] at h1
    have htail := weight_tail_le cur
    rw [if_neg (not_not.2 hopen)]
    exact ⟨(weight_tokenizeSql _).trans h1, h2.trans htail, fun _ => h2⟩
  · rw [if_pos hopen]
    exact ⟨Nat.zero_le _, Nat.le_refl _, fun h => absurd h hopen⟩

/-! ## Parsers -/

/-- The parser comes to an end; where it succeeds it leaves less than `m`. -/
abbrev Ends {α : Type} (o : Parsed α) (m : Nat) : Prop := Outcome.Below weight o m

theorem fail_ends {α : Type} (msg : String) (m : Nat) : Ends (fail msg : Parsed α) m :=
  below_error _ m

/-- The parsers come to an end below the measure `n`, and go round often enough. -/
structure Halts (r : Parsers) (n : Nat) : Prop where
  rounds : n + 2 ≤ r.rounds
  primary : ∀ cur, weight cur < n → Ends (r.primary cur) (weight cur)
  unary : ∀ cur, weight cur < n → Ends (r.unary cur) (weight cur)
  add : ∀ cur, weight cur < n → Ends (r.add cur) (weight cur)
  predicate : ∀ cur, weight cur < n → Ends (r.predicate cur) (weight cur)
  select : ∀ sql cur, selectWeight cur < n → r.select sql cur ≠ none

/-! ## Primary expressions -/

section

variable {rt : Runtime} {r : Parsers} {n : Nat} (hr : Halts r n)
include hr

theorem Halts.select_tokens {sql : Bytes} {tokens : List Bytes} (h : weight tokens < n) :
    r.select sql tokens ≠ none :=
  hr.select sql tokens (Nat.lt_of_le_of_lt (selectWeight_le tokens) h)

theorem parseExists_below (notOp : Bool) {cur : List Bytes} {m : Nat} (hn : weight cur < n)
    (hm : weight cur < m) : Ends (parseExists r notOp cur) m := by
  obtain ⟨hsql, hrest, -⟩ := weight_extract cur
  have htail := weight_tail_le cur
  unfold parseExists
  dsimp only
  exact attempt_below (hr.select_tokens (by omega)) fun parsed _ => below_done (by omega)

theorem parseParen_below {cur : List Bytes} (hopen : peek cur = [40]) (hn : weight cur ≤ n) :
    Ends (parseParen r cur) (weight cur) := by
  obtain ⟨hsql, -, hrest⟩ := weight_extract cur
  have hlt := weight_tail_lt (ne_nil_of_peek hopen (by decide))
  have hrest := hrest hopen
  unfold parseParen
  dsimp only
  split_ifs
  · exact attempt_below (hr.select_tokens (by omega)) fun parsed _ => below_done (by omega)
  · exact (hr.predicate _ (by omega)).andThen fun e _ _ => below_done (by omega)

theorem parseCast_below {cur : List Bytes} (hn : weight cur < n) :
    Ends (parseCast r cur) (weight cur) := by
  refine (hr.add cur hn).andThen fun val rest hrest => ?_
  have h1 := weight_tail_le rest
  have h2 := weight_tail_le rest.tail
  have h3 := weight_skip_le (peek rest.tail.tail = [41]) rest.tail.tail
  split_ifs
  · exact fail_ends _ _
  · exact below_done (by omega)

theorem parseCall_below (name : Bytes) {cur : List Bytes} {m : Nat} (hn : weight cur < n)
    (hm : weight cur < m) : Ends (parseCall r name cur) m := by
  have hround : ∀ args rest o, weight rest < min n m → callRound r args rest = some o →
      Ends o (weight rest) := by
    intro args rest o hrest hround
    unfold callRound at hround
    split_ifs at hround
    obtain rfl := Option.some.inj hround
    refine (hr.add rest (by omega)).andThen fun arg behind hbehind => ?_
    have htail := weight_tail_le behind
    split_ifs
    · exact below_done (by omega)
    · exact below_done hbehind
    · exact fail_ends _ _
  have hrounds := hr.rounds
  refine (loop_below hround r.rounds [] cur (by omega) (by omega)).andThen
    fun args rest hrest => ?_
  have hskip := weight_skip_le (peek rest = [41]) rest
  exact below_done (by omega)

theorem parseIdent_below (ident : Bytes) {cur : List Bytes} {m : Nat} (hn : weight cur < n)
    (hm : weight cur < m) : Ends (parseIdent rt r ident cur) m := by
  have h1 := weight_tail_le cur
  have h2 := weight_tail_le cur.tail
  unfold parseIdent
  split_ifs
  · exact below_done hm
  · exact below_done hm
  · exact below_done (by omega)
  · exact (parseCast_below hr (by omega)).mono (by omega)
  · exact parseCall_below hr _ (by omega) (by omega)
  · exact below_done hm

/-- `ParsePrimary` takes a token, or fails. -/
theorem parsePrimary_below {cur : List Bytes} (hn : weight cur ≤ n) :
    Ends (parsePrimary rt r cur) (weight cur) := by
  unfold parsePrimary
  dsimp only
  by_cases hnil : cur = []
  · rw [if_pos hnil]
    exact fail_ends _ _
  rw [if_neg hnil]
  have hlt := weight_tail_lt hnil
  have hle := weight_tail_le cur.tail
  split_ifs with _ _ _ _ hopen
  · exact parseExists_below hr true (by omega) (by omega)
  · exact (hr.primary _ (by omega)).andThen fun inner rest hrest => below_done (by omega)
  · exact parseExists_below hr false (by omega) hlt
  · exact below_done hlt
  · exact parseParen_below hr hopen hn
  · exact below_done hlt
  · exact below_done hlt
  · exact parseIdent_below hr _ (by omega) hlt

/-! ## Operators -/

theorem parseInOrExists_below {cur : List Bytes} {m : Nat} (lhs : ParsedExpr) (notOp : Bool)
    (hn : weight cur < n) (hm : weight cur < m) : Ends (parseInOrExists r cur lhs notOp) m := by
  obtain ⟨hsql, hrest, -⟩ := weight_extract cur
  have htail := weight_tail_le cur
  unfold parseInOrExists
  dsimp only
  split_ifs
  · exact andThen_below (hr.select_tokens (by omega)) fun q _ => below_done (by omega)
  · exact below_done (by omega)
  · -- the table's token is less than what it stands in, but `SELECT * FROM` comes in front of it
    have htable := selectWeight_selectFrom (peek cur)
    have hpeek := marks_peek_le cur
    exact andThen_below (hr.select _ _ (by omega)) fun q _ => below_done (by omega)
  · exact fail_ends _ _

theorem parseRight_below (op : BinaryOp) (left : ParsedExpr) {cur : List Bytes} {m : Nat}
    (hn : weight cur ≤ n) (hm : weight cur ≤ m) : Ends (parseRight rt r op left cur) m :=
  (parsePrimary_below hr hn).andThen fun right rest hrest => below_done (by omega)

theorem parseBetween_below (left : ParsedExpr) {cur : List Bytes} {m : Nat} (hn : weight cur ≤ n)
    (hm : weight cur ≤ m) : Ends (parseBetween rt r left cur) m := by
  refine (parsePrimary_below hr hn).andThen fun lo rest hrest => ?_
  have htail := weight_tail_le rest
  split_ifs
  · exact fail_ends _ _
  · exact (parsePrimary_below hr (by omega)).andThen fun hi rest hrest => below_done (by omega)

theorem parseCompared_below (left : ParsedExpr) {cur : List Bytes} {m : Nat} (hn : weight cur < n)
    (hm : weight cur < m) : Ends (parseCompared rt r left cur) m := by
  have h1 := weight_tail_le cur
  have h2 := weight_tail_le cur.tail
  have h3 := weight_tail_le cur.tail.tail
  unfold parseCompared
  dsimp only
  split_ifs
  · exact fail_ends _ _
  · exact below_done (by omega)
  · exact fail_ends _ _
  · exact below_done (by omega)
  · exact parseInOrExists_below hr left true (by omega) (by omega)
  · exact below_done (by omega)
  · exact parseInOrExists_below hr left false (by omega) (by omega)
  · exact parseRight_below hr .kLike left (by omega) (by omega)
  · exact parseRight_below hr .kGlob left (by omega) (by omega)
  · exact parseBetween_below hr left (by omega) (by omega)
  · exact below_done hm
  · cases comparisonOp (peek cur) with
    | none => exact below_done hm
    | some op => exact parseRight_below hr op left (by omega) (by omega)

theorem parseComparison_below {cur : List Bytes} (hn : weight cur ≤ n) :
    Ends (parseComparison rt r cur) (weight cur) :=
  (parsePrimary_below hr hn).andThen fun left rest hrest =>
    parseCompared_below hr left (by omega) hrest

theorem parseUnary_below {cur : List Bytes} (hn : weight cur ≤ n) :
    Ends (parseUnary rt r cur) (weight cur) := by
  unfold parseUnary
  split_ifs with hminus
  · have hlt := weight_tail_lt (ne_nil_of_peek hminus (by decide))
    exact (hr.unary _ (by omega)).andThen fun inner rest hrest => below_done (by omega)
  · exact parseComparison_below hr hn

theorem leftAssoc_below {op : List Bytes → Option BinaryOp}
    {operand : List Bytes → Parsed ParsedExpr}
    (hoperand : ∀ cur, weight cur ≤ n → Ends (operand cur) (weight cur)) {cur : List Bytes}
    (hn : weight cur ≤ n) : Ends (leftAssoc op operand r.rounds cur) (weight cur) := by
  have hrounds := hr.rounds
  refine (hoperand cur hn).andThen fun left rest hrest => ?_
  refine loop_below ?_ r.rounds left rest (by omega) hrest
  intro left rest o hlt hround
  obtain ⟨bin, -, rfl⟩ := Option.map_eq_some_iff.1 hround
  have htail := weight_tail_le rest
  exact (hoperand rest.tail (by omega)).andThen fun right behind hbehind => below_done (by omega)

theorem parseMul_below {cur : List Bytes} (hn : weight cur ≤ n) :
    Ends (parseMul rt r cur) (weight cur) :=
  leftAssoc_below hr (fun _ h => parseUnary_below hr h) hn

theorem parseAdd_below {cur : List Bytes} (hn : weight cur ≤ n) :
    Ends (parseAdd rt r cur) (weight cur) :=
  leftAssoc_below hr (fun _ h => parseMul_below hr h) hn

theorem parseAnd_below {cur : List Bytes} (hn : weight cur ≤ n) :
    Ends (parseAnd rt r cur) (weight cur) :=
  leftAssoc_below hr (fun _ h => parseComparison_below hr h) hn

theorem parsePredicate_below {cur : List Bytes} (hn : weight cur ≤ n) :
    Ends (parsePredicate rt r cur) (weight cur) :=
  leftAssoc_below hr (fun _ h => parseAnd_below hr h) hn

/-! ## Projections -/

omit hr in
theorem qualifiedName_le (cur : List Bytes) : weight (qualifiedName cur).2 ≤ weight cur.tail := by
  have h1 := weight_tail_le cur.tail
  have h2 := weight_tail_le cur.tail.tail
  unfold qualifiedName
  split_ifs
  · exact h2.trans h1
  · exact Nat.le_refl _

omit hr in
theorem takeAlias_le (name atEnd : Bytes) (cur : List Bytes) :
    weight (takeAlias name atEnd cur).2 ≤ weight cur := by
  have h1 := weight_tail_le cur
  have h2 := weight_tail_le cur.tail
  unfold takeAlias
  split_ifs
  · exact h2.trans h1
  · exact Nat.le_refl _

omit hr in
theorem skipKeyword_le (keyword : String) (cur : List Bytes) :
    weight (skipKeyword keyword cur) ≤ weight cur :=
  weight_skip_le _ cur

omit hr in
theorem aggregateColumn_le (cur : List Bytes) : weight (aggregateColumn cur).2 ≤ weight cur := by
  have h1 := weight_tail_le cur
  have h2 := qualifiedName_le cur
  unfold aggregateColumn
  split_ifs
  · exact h1
  · exact h2.trans h1

omit hr in
theorem aggregateSeparator_le (func : Bytes) (cur : List Bytes) :
    weight (aggregateSeparator func cur).2 ≤ weight cur := by
  have h1 := weight_tail_le cur
  have h2 := weight_tail_le cur.tail
  unfold aggregateSeparator
  split_ifs
  · exact h2.trans h1
  · exact Nat.le_refl _

omit hr in
theorem parseAggregate_below (q : SelectQuery ParsedExpr) {cur : List Bytes} (hne : cur ≠ []) :
    Ends (parseAggregate q cur) (weight cur) := by
  have h0 := weight_tail_lt hne
  have h1 := weight_tail_le cur.tail
  unfold parseAggregate
  dsimp only
  by_cases hopen : peek cur.tail ≠ [40]
  · rw [if_pos hopen]
    exact fail_ends _ _
  · rw [if_neg hopen]
    apply below_done
    refine Nat.lt_of_le_of_lt (takeAlias_le _ _ _) ?_
    refine Nat.lt_of_le_of_lt (weight_skip_le _ _) ?_
    refine Nat.lt_of_le_of_lt (aggregateSeparator_le _ _) ?_
    refine Nat.lt_of_le_of_lt (aggregateColumn_le _) ?_
    refine Nat.lt_of_le_of_lt (skipKeyword_le _ _) ?_
    omega

omit hr in
theorem projectExpr_below (q : SelectQuery ParsedExpr) (expr : ParsedExpr) {cur : List Bytes}
    {m : Nat} (hm : weight cur < m) : Ends (projectExpr q expr cur) m := by
  have halias : ∀ name atEnd, weight (takeAlias name atEnd cur).2 < m := fun name atEnd =>
    Nat.lt_of_le_of_lt (takeAlias_le name atEnd cur) hm
  cases expr with
  | column table column isNot =>
    unfold projectExpr
    dsimp only
    split_ifs <;> exact below_done (halias _ _)
  | literal l isNot => exact below_done (halias _ _)
  | binary op left right isNot => exact below_done (halias _ _)
  | isNull child check isNot => exact below_done (halias _ _)
  | function name args isNot => exact below_done (halias _ _)
  | subquery spec isNot => exact below_done (halias _ _)

omit hr in
theorem projectToken_below (q : SelectQuery ParsedExpr) {cur : List Bytes} (hne : cur ≠ []) :
    Ends (projectToken rt q cur) (weight cur) := by
  have h0 := weight_tail_lt hne
  have h1 := qualifiedName_le cur
  unfold projectToken
  dsimp only
  split_ifs
  · exact below_done (Nat.lt_of_le_of_lt (takeAlias_le _ _ _) h0)
  · exact below_done (Nat.lt_of_le_of_lt (takeAlias_le _ _ _) (by omega))
  · exact below_done (Nat.lt_of_le_of_lt (takeAlias_le _ _ _) (by omega))

theorem parseProjectionItem_below (q : SelectQuery ParsedExpr) {cur : List Bytes} (hne : cur ≠ [])
    (hn : weight cur ≤ n) : Ends (parseProjectionItem rt r q cur) (weight cur) := by
  unfold parseProjectionItem
  split_ifs
  · exact below_done (weight_tail_lt hne)
  · exact parseAggregate_below q hne
  · obtain ⟨first, hfirst, hbelow⟩ := @parseAdd_below rt r n hr cur hn
    rw [hfirst]
    refine attempt_below (Option.some_ne_none first) fun res hres => ?_
    obtain rfl := Option.some.inj hres
    cases first with
    | error e => exact projectToken_below q hne
    | ok x => exact projectExpr_below q x.1 (hbelow _ _ rfl)

theorem projectionRound_below (q : SelectQuery ParsedExpr) {cur : List Bytes}
    (hn : weight cur ≤ n) {o : Parsed (SelectQuery ParsedExpr)}
    (ho : projectionRound rt r q cur = some o) : Ends o (weight cur) := by
  unfold projectionRound at ho
  split_ifs at ho with hend
  obtain rfl := Option.some.inj ho
  rw [not_or] at hend
  exact (parseProjectionItem_below hr q hend.1 hn).andThen fun q rest hrest =>
    below_done (Nat.lt_of_le_of_lt (weight_skip_le _ _) hrest)

/-! ## Clauses -/

omit hr in
theorem parseJoinType_le (cur : List Bytes) : weight (parseJoinType cur).2 ≤ weight cur := by
  have htail := weight_tail_le cur
  have hjoin := skipKeyword_le "JOIN" cur.tail
  have houter := skipKeyword_le "JOIN" (skipKeyword "OUTER" cur.tail)
  have hkeyword := skipKeyword_le "OUTER" cur.tail
  unfold parseJoinType
  dsimp only
  split_ifs
  · exact hjoin.trans htail
  · exact houter.trans (hkeyword.trans htail)
  · exact houter.trans (hkeyword.trans htail)
  · exact houter.trans (hkeyword.trans htail)
  · exact hjoin.trans htail
  · exact skipKeyword_le "JOIN" cur

omit hr in
theorem joinLeft_le (base : Bytes) (cur : List Bytes) :
    weight (joinLeft base cur).2.2 ≤ weight cur := by
  have h1 := weight_tail_le cur
  have h2 := weight_tail_le cur.tail
  have h3 := weight_tail_le cur.tail.tail
  unfold joinLeft
  dsimp only
  split_ifs
  · exact h3.trans (h2.trans h1)
  · exact h3.trans (h2.trans h1)
  · exact h1

omit hr in
theorem joinRight_le (table : Bytes) (cur : List Bytes) :
    weight (joinRight table cur).2.2 ≤ weight cur := by
  have h1 := weight_tail_le cur
  have h2 := weight_tail_le cur.tail
  have h3 := weight_tail_le cur.tail.tail
  unfold joinRight
  split_ifs
  · exact h3.trans (h2.trans h1)
  · exact h1

omit hr in
theorem parseJoinOn_below (j : JoinSpec) {cur : List Bytes} {m : Nat} (hm : weight cur < m) :
    Ends (parseJoinOn j cur) m := by
  unfold parseJoinOn
  dsimp only
  by_cases hon : peekUpper cur ≠ ascii "ON"
  · rw [if_pos hon]
    exact fail_ends _ _
  · rw [if_neg hon]
    apply below_done
    refine Nat.lt_of_le_of_lt (joinRight_le _ _) ?_
    refine Nat.lt_of_le_of_lt (weight_tail_le _) ?_
    refine Nat.lt_of_le_of_lt (joinLeft_le _ _) ?_
    exact Nat.lt_of_le_of_lt (weight_tail_le cur) hm

omit hr in
/-- A join takes the token that leads it, or the table. -/
theorem joinRound_below (found : List JoinSpec × Bytes) {cur : List Bytes}
    {o : Parsed (List JoinSpec × Bytes)} (ho : joinRound found cur = some o) :
    Ends o (weight cur) := by
  have htype := parseJoinType_le cur
  unfold joinRound at ho
  dsimp only at ho
  split_ifs at ho with hlead hcross
  all_goals
    obtain rfl := Option.some.inj ho
    have hne : cur ≠ [] := by
      rintro rfl
      exact absurd hlead (by decide)
    have hpos := weight_tail_lt hne
    have htable : weight (parseJoinType cur).2.tail < weight cur := by
      by_cases hrest : (parseJoinType cur).2 = []
      · rw [hrest]
        change 0 < _
        omega
      · have hlt := weight_tail_lt hrest
        omega
  · exact below_done htable
  · exact (parseJoinOn_below _ htable).andThen fun j rest hrest => below_done hrest

theorem parseClause_below (keyword : String) {cur : List Bytes} {m : Nat} (hn : weight cur ≤ n)
    (hm : weight cur < m) : Ends (parseClause rt r keyword cur) m := by
  have htail := weight_tail_le cur
  unfold parseClause
  split_ifs
  · exact (parsePredicate_below hr (by omega)).andThen fun e rest hrest => below_done (by omega)
  · exact below_done hm

omit hr in
theorem groupRound_below (cols : List Bytes) {cur : List Bytes} {o : Parsed (List Bytes)}
    (ho : groupRound cols cur = some o) : Ends o (weight cur) := by
  unfold groupRound at ho
  dsimp only at ho
  by_cases hend : cur = [] ∨ peekUpper cur = ascii "HAVING" ∨ peekUpper cur = ascii "ORDER" ∨
      peekUpper cur = ascii "LIMIT"
  · rw [if_pos hend] at ho
    cases ho
  · rw [if_neg hend] at ho
    obtain rfl := Option.some.inj ho
    rw [not_or] at hend
    apply below_done
    refine Nat.lt_of_le_of_lt (weight_skip_le _ _) ?_
    exact Nat.lt_of_le_of_lt (qualifiedName_le cur) (weight_tail_lt hend.1)

theorem parseGroupBy_below {cur : List Bytes} {m : Nat} (hn : weight cur ≤ n)
    (hm : weight cur < m) : Ends (parseGroupBy r cur) m := by
  have hrounds := hr.rounds
  have h1 := weight_tail_le cur
  have h2 := weight_tail_le cur.tail
  unfold parseGroupBy
  split_ifs
  · exact fail_ends _ _
  · exact loop_below (fun cols rest o _ ho => groupRound_below cols ho) _ _ _ (by omega) (by omega)
  · exact below_done hm

omit hr in
theorem parseOrderBy_below {cur : List Bytes} {m : Nat} (hm : weight cur < m) :
    Ends (parseOrderBy cur) m := by
  have h1 := weight_tail_le cur
  have h2 := weight_tail_le cur.tail
  have h3 := weight_tail_le cur.tail.tail
  unfold parseOrderBy
  dsimp only
  by_cases horder : peekUpper cur = ascii "ORDER"
  · rw [if_pos horder]
    by_cases hby : peekUpper cur.tail ≠ ascii "BY"
    · rw [if_pos hby]
      exact fail_ends _ _
    · rw [if_neg hby]
      exact below_done (Nat.lt_of_le_of_lt (weight_skip_le _ _) (by omega))
  · rw [if_neg horder]
    exact below_done hm

omit hr in
theorem parseLimit_below {cur : List Bytes} {m : Nat} (hm : weight cur < m) :
    Ends (parseLimit cur) m := by
  have h1 := weight_tail_le cur
  have h2 := weight_tail_le cur.tail
  unfold parseLimit
  split_ifs
  · cases stoull (peek cur.tail) with
    | none => exact fail_ends _ _
    | some limit => exact below_done (by omega)
  · exact below_done hm

/-! ## The statement -/

theorem parseFrom_below (sql : Bytes) (q : SelectQuery ParsedExpr) {cur : List Bytes}
    (hn : weight cur ≤ n) : Ends (parseFrom rt r sql q cur) (n + 1) := by
  have hrounds := hr.rounds
  have htail := weight_tail_le cur
  unfold parseFrom
  refine (loop_below (fun found rest o _ ho => joinRound_below found ho) r.rounds _ _ (by omega)
    (show weight cur.tail < n + 1 by omega)).andThen fun found rest hrest => ?_
  refine (parseClause_below hr "WHERE" (by omega) hrest).andThen fun whereExpr rest hrest => ?_
  refine (parseGroupBy_below hr (by omega) hrest).andThen fun groupBy rest hrest => ?_
  refine (parseClause_below hr "HAVING" (by omega) hrest).andThen fun having rest hrest => ?_
  refine (parseOrderBy_below hrest).andThen fun orderBy rest hrest => ?_
  exact (parseLimit_below hrest).andThen fun limit rest hrest => below_done hrest

theorem parseProjected_below (sql : Bytes) (q : SelectQuery ParsedExpr) {cur : List Bytes}
    (hn : weight cur ≤ n) : Ends (parseProjected rt r sql q cur) (n + 1) := by
  have htail := weight_tail_le cur
  unfold parseProjected
  split_ifs
  · exact fail_ends _ _
  · exact below_done (Nat.lt_succ_of_le hn)
  · exact parseFrom_below hr sql _ (by omega)

theorem parseSelect_below (sql : Bytes) {cur : List Bytes} (hn : weight cur ≤ n) :
    Ends (parseSelect rt r sql cur) (n + 1) := by
  have hrounds := hr.rounds
  unfold parseSelect
  dsimp only
  by_cases hselect : peekUpper cur ≠ ascii "SELECT"
  · rw [if_pos hselect]
    exact fail_ends _ _
  rw [if_neg hselect]
  have h1 := weight_tail_le cur
  have h2 := weight_skip_le (decide (peekUpper cur.tail = ascii "DISTINCT") = true) cur.tail
  refine (loop_below (fun q rest o hlt ho => projectionRound_below hr q (by omega) ho) r.rounds _ _
    (by omega) (show _ < n + 1 by omega)).andThen fun q rest hrest => ?_
  exact parseProjected_below hr sql q (by omega)

/-- Of `SELECT * FROM` only what is behind it counts: the first three tokens take one round. -/
theorem parseSelect_star_ne_none (sql : Bytes) {rest : List Bytes} (hn : weight rest ≤ n) :
    parseSelect rt r sql (ascii "SELECT" :: [42] :: ascii "FROM" :: rest) ≠ none := by
  obtain ⟨k, hk⟩ : ∃ k, r.rounds = k + 2 := ⟨r.rounds - 2, by have := hr.rounds; omega⟩
  have hstart : parseSelect rt r sql (ascii "SELECT" :: [42] :: ascii "FROM" :: rest) =
      parseFrom rt r sql { projectCols := [[42]] } rest := by
    unfold parseSelect
    rw [hk]
    rfl
  rw [hstart]
  exact (parseFrom_below hr sql _ hn).ne_none

theorem parseSelect_ne_none (sql : Bytes) {cur : List Bytes} (hn : selectWeight cur ≤ n) :
    parseSelect rt r sql cur ≠ none := by
  unfold selectWeight at hn
  split at hn
  · split_ifs at hn with hstar
    · obtain ⟨rfl, rfl, rfl⟩ := hstar
      exact parseSelect_star_ne_none hr sql hn
    · exact (parseSelect_below hr sql hn).ne_none
  · exact (parseSelect_below hr sql hn).ne_none

end

/-! ## The recursion -/

/-- The induction is on how deep the parsers go: one call more for one character more. -/
theorem parsers_halt (rt : Runtime) (n : Nat) : Halts (parsers rt n) n := by
  induction n with
  | zero =>
    exact ⟨Nat.le_refl 2, fun _ h => absurd h (Nat.not_lt_zero _),
      fun _ h => absurd h (Nat.not_lt_zero _), fun _ h => absurd h (Nat.not_lt_zero _),
      fun _ h => absurd h (Nat.not_lt_zero _), fun _ _ h => absurd h (Nat.not_lt_zero _)⟩
  | succ n ih =>
    exact ⟨Nat.le_refl (n + 3), fun _ h => parsePrimary_below ih (Nat.le_of_lt_succ h),
      fun _ h => parseUnary_below ih (Nat.le_of_lt_succ h),
      fun _ h => parseAdd_below ih (Nat.le_of_lt_succ h),
      fun _ h => parsePredicate_below ih (Nat.le_of_lt_succ h),
      fun sql _ h => parseSelect_ne_none ih sql (Nat.le_of_lt_succ h)⟩

/-! ## Going deeper -/

/-- What `r` comes to, `r'` comes to as well. -/
structure Parsers.Leads (r r' : Parsers) : Prop where
  rounds : r.rounds ≤ r'.rounds
  primary : ∀ cur, (r.primary cur).Leads (r'.primary cur)
  unary : ∀ cur, (r.unary cur).Leads (r'.unary cur)
  add : ∀ cur, (r.add cur).Leads (r'.add cur)
  predicate : ∀ cur, (r.predicate cur).Leads (r'.predicate cur)
  select : ∀ sql cur, (r.select sql cur).Leads (r'.select sql cur)

section

variable {rt : Runtime} {r r' : Parsers} (hl : r.Leads r')
include hl

theorem parseExists_leads (notOp : Bool) (cur : List Bytes) :
    (parseExists r notOp cur).Leads (parseExists r' notOp cur) :=
  (hl.select _ _).attempt _

theorem parseParen_leads (cur : List Bytes) : (parseParen r cur).Leads (parseParen r' cur) := by
  unfold parseParen
  dsimp only
  split_ifs
  · exact (hl.select _ _).attempt _
  · exact (hl.predicate _).andThen fun e _ => Leads.refl _

theorem parseCall_leads (name : Bytes) (cur : List Bytes) :
    (parseCall r name cur).Leads (parseCall r' name cur) := by
  refine (loop_leads ?_ ?_ hl.rounds [] cur).andThen fun args rest => Leads.refl _
  · intro args rest hnone
    unfold callRound at hnone ⊢
    split_ifs at hnone ⊢
    rfl
  · intro args rest o hsome
    unfold callRound at hsome ⊢
    split_ifs at hsome ⊢
    obtain rfl := Option.some.inj hsome
    exact ⟨_, rfl, (hl.add rest).andThen fun arg behind => Leads.refl _⟩

theorem parseIdent_leads (ident : Bytes) (cur : List Bytes) :
    (parseIdent rt r ident cur).Leads (parseIdent rt r' ident cur) := by
  unfold parseIdent
  split_ifs
  · exact Leads.refl _
  · exact Leads.refl _
  · exact Leads.refl _
  · exact (hl.add _).andThen fun val rest => Leads.refl _
  · exact parseCall_leads hl _ _
  · exact Leads.refl _

theorem parsePrimary_leads (cur : List Bytes) :
    (parsePrimary rt r cur).Leads (parsePrimary rt r' cur) := by
  unfold parsePrimary
  dsimp only
  split_ifs
  · exact Leads.refl _
  · exact parseExists_leads hl true _
  · exact (hl.primary _).andThen fun inner rest => Leads.refl _
  · exact parseExists_leads hl false _
  · exact Leads.refl _
  · exact parseParen_leads hl cur
  · exact Leads.refl _
  · exact Leads.refl _
  · exact parseIdent_leads hl _ _

theorem parseInOrExists_leads (cur : List Bytes) (lhs : ParsedExpr) (notOp : Bool) :
    (parseInOrExists r cur lhs notOp).Leads (parseInOrExists r' cur lhs notOp) := by
  unfold parseInOrExists
  dsimp only
  split_ifs
  · exact (hl.select _ _).andThen fun q _ => Leads.refl _
  · exact Leads.refl _
  · exact (hl.select _ _).andThen fun q _ => Leads.refl _
  · exact Leads.refl _

theorem parseRight_leads (op : BinaryOp) (left : ParsedExpr) (cur : List Bytes) :
    (parseRight rt r op left cur).Leads (parseRight rt r' op left cur) :=
  (parsePrimary_leads hl cur).andThen fun _ _ => Leads.refl _

theorem parseBetween_leads (left : ParsedExpr) (cur : List Bytes) :
    (parseBetween rt r left cur).Leads (parseBetween rt r' left cur) := by
  refine (parsePrimary_leads hl cur).andThen fun lo rest => ?_
  split_ifs
  · exact Leads.refl _
  · exact (parsePrimary_leads hl _).andThen fun hi rest => Leads.refl _

theorem parseCompared_leads (left : ParsedExpr) (cur : List Bytes) :
    (parseCompared rt r left cur).Leads (parseCompared rt r' left cur) := by
  unfold parseCompared
  dsimp only
  split_ifs
  · exact Leads.refl _
  · exact Leads.refl _
  · exact Leads.refl _
  · exact Leads.refl _
  · exact parseInOrExists_leads hl _ left true
  · exact Leads.refl _
  · exact parseInOrExists_leads hl _ left false
  · exact parseRight_leads hl .kLike left _
  · exact parseRight_leads hl .kGlob left _
  · exact parseBetween_leads hl left _
  · exact Leads.refl _
  · cases comparisonOp (peek cur) with
    | none => exact Leads.refl _
    | some op => exact parseRight_leads hl op left _

theorem parseComparison_leads (cur : List Bytes) :
    (parseComparison rt r cur).Leads (parseComparison rt r' cur) :=
  (parsePrimary_leads hl cur).andThen fun left rest => parseCompared_leads hl left rest

theorem parseUnary_leads (cur : List Bytes) :
    (parseUnary rt r cur).Leads (parseUnary rt r' cur) := by
  unfold parseUnary
  split_ifs
  · exact (hl.unary _).andThen fun inner rest => Leads.refl _
  · exact parseComparison_leads hl cur

theorem leftAssoc_leads {op : List Bytes → Option BinaryOp}
    {operand operand' : List Bytes → Parsed ParsedExpr}
    (hoperand : ∀ cur, (operand cur).Leads (operand' cur)) (cur : List Bytes) :
    (leftAssoc op operand r.rounds cur).Leads (leftAssoc op operand' r'.rounds cur) := by
  refine (hoperand cur).andThen fun left rest => loop_leads ?_ ?_ hl.rounds left rest
  · intro left rest hnone
    rw [Option.map_eq_none_iff] at hnone ⊢
    exact hnone
  · intro left rest o hsome
    obtain ⟨bin, hbin, rfl⟩ := Option.map_eq_some_iff.1 hsome
    refine ⟨_, Option.map_eq_some_iff.2 ⟨bin, hbin, rfl⟩, ?_⟩
    exact (hoperand rest.tail).andThen fun right behind => Leads.refl _

theorem parseAdd_leads (cur : List Bytes) : (parseAdd rt r cur).Leads (parseAdd rt r' cur) :=
  leftAssoc_leads hl (leftAssoc_leads hl (parseUnary_leads hl)) cur

theorem parsePredicate_leads (cur : List Bytes) :
    (parsePredicate rt r cur).Leads (parsePredicate rt r' cur) :=
  leftAssoc_leads hl (leftAssoc_leads hl (parseComparison_leads hl)) cur

theorem parseProjectionItem_leads (q : SelectQuery ParsedExpr) (cur : List Bytes) :
    (parseProjectionItem rt r q cur).Leads (parseProjectionItem rt r' q cur) := by
  unfold parseProjectionItem
  split_ifs
  · exact Leads.refl _
  · exact Leads.refl _
  · exact (parseAdd_leads hl cur).attempt _

theorem parseClause_leads (keyword : String) (cur : List Bytes) :
    (parseClause rt r keyword cur).Leads (parseClause rt r' keyword cur) := by
  unfold parseClause
  split_ifs
  · exact (parsePredicate_leads hl _).andThen fun e rest => Leads.refl _
  · exact Leads.refl _

theorem parseGroupBy_leads (cur : List Bytes) :
    (parseGroupBy r cur).Leads (parseGroupBy r' cur) := by
  unfold parseGroupBy
  split_ifs
  · exact Leads.refl _
  · exact loop_leads (fun _ _ h => h) (fun _ _ o h => ⟨o, h, Leads.refl o⟩) hl.rounds _ _
  · exact Leads.refl _

theorem parseFrom_leads (sql : Bytes) (q : SelectQuery ParsedExpr) (cur : List Bytes) :
    (parseFrom rt r sql q cur).Leads (parseFrom rt r' sql q cur) := by
  unfold parseFrom
  refine (loop_leads (fun _ _ h => h) (fun _ _ o h => ⟨o, h, Leads.refl o⟩) hl.rounds _
    _).andThen fun found rest => ?_
  refine (parseClause_leads hl "WHERE" rest).andThen fun whereExpr rest => ?_
  refine (parseGroupBy_leads hl rest).andThen fun groupBy rest => ?_
  exact (parseClause_leads hl "HAVING" rest).andThen fun having rest => Leads.refl _

theorem parseSelect_leads (sql : Bytes) (cur : List Bytes) :
    (parseSelect rt r sql cur).Leads (parseSelect rt r' sql cur) := by
  unfold parseSelect
  dsimp only
  by_cases hselect : peekUpper cur ≠ ascii "SELECT"
  · rw [if_pos hselect, if_pos hselect]
    exact Leads.refl _
  rw [if_neg hselect, if_neg hselect]
  refine (loop_leads ?_ ?_ hl.rounds _ _).andThen fun q rest => ?_
  · intro q rest hnone
    unfold projectionRound at hnone ⊢
    split_ifs at hnone ⊢
    rfl
  · intro q rest o hsome
    unfold projectionRound at hsome ⊢
    split_ifs at hsome ⊢
    obtain rfl := Option.some.inj hsome
    exact ⟨_, rfl, (parseProjectionItem_leads hl q rest).andThen fun q rest => Leads.refl _⟩
  · unfold parseProjected
    split_ifs
    · exact Leads.refl _
    · exact Leads.refl _
    · exact parseFrom_leads hl sql q _

end

theorem parsers_leads_succ (rt : Runtime) (n : Nat) :
    (parsers rt n).Leads (parsers rt (n + 1)) := by
  induction n with
  | zero =>
    exact ⟨Nat.le_succ 2, fun _ _ h => (by cases h), fun _ _ h => (by cases h),
      fun _ _ h => (by cases h), fun _ _ h => (by cases h), fun _ _ _ h => (by cases h)⟩
  | succ n ih =>
    exact ⟨Nat.le_succ (n + 3), parsePrimary_leads ih, parseUnary_leads ih, parseAdd_leads ih,
      parsePredicate_leads ih, parseSelect_leads ih⟩

/-- **The parser terminates on every list of tokens.** A predicate and a SELECT come to an end if
the parsers that they call again do so on what has a smaller measure; and there is one result that
all parsers come to which go deeper than the measure. -/
theorem parser_terminates (rt : Runtime) (tokens : List Bytes) :
    (∀ r, Halts r (weight tokens) → (∃ res, parsePredicate rt r tokens = some res) ∧
      ∀ sql, ∃ res, parseSelect rt r sql tokens = some res) ∧
    (∃ res, ∀ n, weight tokens < n → (parsers rt n).predicate tokens = some res) ∧
    ∀ sql, ∃ res, ∀ n, weight tokens < n → (parsers rt n).select sql tokens = some res := by
  have hr := parsers_halt rt (weight tokens + 1)
  refine ⟨?_, ?_, fun sql => ?_⟩
  · intro r hr
    exact ⟨Option.ne_none_iff_exists'.1 (parsePredicate_below hr (Nat.le_refl _)).ne_none,
      fun sql => Option.ne_none_iff_exists'.1 (parseSelect_below hr sql (Nat.le_refl _)).ne_none⟩
  · obtain ⟨res, hres, -⟩ := hr.predicate tokens (Nat.lt_succ_self _)
    refine ⟨res, fun n hn => ?_⟩
    have hdeep : weight tokens + 1 ≤ n := hn
    clear hn
    induction n, hdeep using Nat.le_induction with
    | base => exact hres
    | succ n _ ih => exact (parsers_leads_succ rt n).predicate tokens res ih
  · obtain ⟨res, hres⟩ := Option.ne_none_iff_exists'.1 (hr.select_tokens (Nat.lt_succ_self _))
    refine ⟨res, fun n hn => ?_⟩
    have hdeep : weight tokens + 1 ≤ n := hn
    clear hn
    induction n, hdeep using Nat.le_induction with
    | base => exact hres
    | succ n _ ih => exact (parsers_leads_succ rt n).select sql tokens res ih

/-- A list that is not closed, and a literal in it that is not either. -/
theorem parser_terminates_unclosed : ∃ res, ∀ n, 40 ≤ n → (parsers wholeNumbers n).predicate
    (tokenizeSql (ascii "a IN (SELECT b FROM t WHERE c = 'it''s")) = some res := by
  obtain ⟨res, hres⟩ := (parser_terminates wholeNumbers
    (tokenizeSql (ascii "a IN (SELECT b FROM t WHERE c = 'it''s"))).2.1
  exact ⟨res, fun n hn => hres n (Nat.lt_of_lt_of_le (by decide +kernel) hn)⟩

end EBTree.Sql.Parse
