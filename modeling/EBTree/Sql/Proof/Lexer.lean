import EBTree.Sql.Lexer

/-!
# Tokens that come back

`Token` is a well-formed token: an identifier, a number, a string of any bytes, an operator. It is
written as SQL writes it (`Token.print`) and should come back as its text (`Token.text`). `write`
puts tokens one behind another, with white space wherever two would run together (`runsInto`).

* `lexLoop_token`: one token, from any state of the loop.
* `tokenize_write`: **tokens come back exactly when `survives`**: no `!=` is among them and no
  string stands right behind the identifier `x`.
-/

set_option autoImplicit false

namespace EBTree.Sql.Parse

/-! ## Tokens -/

/-- `IsIdentChar`. -/
def isIdentChar (c : UInt8) : Bool :=
  (48 ≤ c && c ≤ 57) || (65 ≤ c && c ≤ 90) || (97 ≤ c && c ≤ 122) || c = 95

structure Identifier where
  text : Bytes
  ne_nil : text ≠ []
  chars : ∀ b ∈ text, isIdentChar b = true
  head : ¬ IsDigit (text.headD 0)

structure Digits where
  text : Bytes
  ne_nil : text ≠ []
  digits : ∀ b ∈ text, IsDigit b

inductive Operator
  | lparen | rparen | comma | semicolon | star | eq | lt | gt | plus | minus | slash | dot
  | le | ge | ltgt | bangeq
  deriving DecidableEq, Repr

def Operator.text : Operator → Bytes
  | .lparen => [40]
  | .rparen => [41]
  | .comma => [44]
  | .semicolon => [59]
  | .star => [42]
  | .eq => [61]
  | .lt => [60]
  | .gt => [62]
  | .plus => [43]
  | .minus => [45]
  | .slash => [47]
  | .dot => [46]
  | .le => [60, 61]
  | .ge => [62, 61]
  | .ltgt => [60, 62]
  | .bangeq => [33, 61]

inductive Token
  | word (w : Identifier)
  | number (whole : Digits) (fraction : Option Digits)
  | string (content : Bytes)
  | op (o : Operator)

namespace Token

/-- What `TokenizeSql` should give. -/
def text : Token → Bytes
  | word w => w.text
  | number whole none => whole.text
  | number whole (some fraction) => whole.text ++ 46 :: fraction.text
  | string content => 39 :: (content ++ [39])
  | op o => o.text

/-- A quote inside a string is written twice. -/
def double (c : UInt8) : Bytes := if c = 39 then [39, 39] else [c]

/-- What is written. -/
def print : Token → Bytes
  | string content => 39 :: (content.flatMap double ++ [39])
  | t => t.text

/-- Identifiers and numbers. -/
def wordlike : Token → Bool
  | word _ | number _ _ => true
  | _ => false

def isString : Token → Bool
  | string _ => true
  | _ => false

/-- A byte that, right behind a token, would belong to it: white space has to stand between. -/
def runsInto : Token → UInt8 → Bool
  | word _, b | number _ _, b => isIdentChar b
  | string _, b => b = 39
  | op .lt, b => b = 61 || b = 62
  | op .gt, b => b = 61
  | op .dot, b => decide (IsDigit b)
  | op _, _ => false

end Token

/-- A token with the white space in front of it. -/
structure Piece where
  gap : Bytes
  token : Token

def Piece.text (p : Piece) : Bytes := p.token.text

/-- The pieces one behind another, and white space at the end. -/
def write (trail : Bytes) : List Piece → Bytes
  | [] => trail
  | p :: ps => p.gap ++ (p.token.print ++ write trail ps)

/-- Gaps are white space, and are there where two tokens would run together. -/
def Spaced (prev : Option Token) : List Piece → Prop
  | [] => True
  | p :: ps => (∀ b ∈ p.gap, isSpace b = true) ∧
      (p.gap = [] → ∀ t ∈ prev, t.runsInto (p.token.print.headD 0) = false) ∧
      Spaced (some p.token) ps

/-- Whether a quote behind the token opens a blob. -/
def Token.opens : Token → Bool
  | word w => w.text = [120] || w.text = [88]
  | _ => false

/-- No `!=`, and no string behind the identifier `x`. -/
def survives (prev : Option Token) : List Piece → Bool
  | [] => true
  | p :: ps =>
    (match p.token with
      | .op .bangeq => false
      | .string _ => !prev.any Token.opens
      | _ => true) && survives (some p.token) ps

/-! ## One round -/

section

variable {T T' : List Bytes} {mode mode' : LexMode} {cur rest : Bytes} {c next : UInt8}

/-- A round that takes its character alone. -/
theorem lexLoop_one (h : lexChar T mode c rest.head? = (T', mode', false)) :
    lexLoop T mode (c :: rest) = lexLoop T' mode' rest := by
  rw [lexLoop, h]
  cases rest with
  | nil => rfl
  | cons next after => rfl

/-- A round that takes the next character as well. -/
theorem lexLoop_two (h : lexChar T mode c (some next) = (T', mode', true)) :
    lexLoop T mode (c :: next :: rest) = lexLoop T' mode' rest := by
  rw [lexLoop, List.head?_cons, h]
  rfl

theorem headD_eq (s : Bytes) : s.head?.getD 0 = s.headD 0 := by
  cases s with
  | nil => rfl
  | cons c s => rfl

/-! ## Gathering -/

theorem plain_of_identChar {b : UInt8} (h : isIdentChar b = true) :
    isSpace b = false ∧ b ≠ 39 ∧ b ≠ 46 ∧ isOperatorByte b = false := by
  have hall : ∀ n : Fin 256, isIdentChar (UInt8.ofNat n) = true →
      isSpace (UInt8.ofNat n) = false ∧ UInt8.ofNat n ≠ 39 ∧ UInt8.ofNat n ≠ 46 ∧
        isOperatorByte (UInt8.ofNat n) = false := by decide +kernel
  simpa using hall ⟨b.toNat, b.toNat_lt⟩ (by simpa using h)

theorem identChar_of_digit {b : UInt8} (h : IsDigit b) : isIdentChar b = true := by
  have hb : 48 ≤ b ∧ b ≤ 57 := ⟨UInt8.le_iff_toNat_le.2 h.1, UInt8.le_iff_toNat_le.2 h.2⟩
  simp [isIdentChar, hb.1, hb.2]

/-- Characters of identifiers and numbers are gathered. -/
theorem lexLoop_chars {s : Bytes} (h : ∀ b ∈ s, isIdentChar b = true) :
    lexLoop T (.plain cur) (s ++ rest) = lexLoop T (.plain (cur ++ s)) rest := by
  induction s generalizing cur with
  | nil => rw [List.nil_append, List.append_nil]
  | cons b s ih =>
    obtain ⟨hb, hs⟩ := List.forall_mem_cons.1 h
    obtain ⟨h1, h2, h3, h4⟩ := plain_of_identChar hb
    have hstep : lexChar T (.plain cur) b (s ++ rest).head? = (T, .plain (cur ++ [b]), false) := by
      simp [lexChar, h1, h2, h3, h4]
    rw [List.cons_append, lexLoop_one hstep, ih hs, List.append_assoc]
    rfl

@[simp] theorem pushToken_nil (T : List Bytes) : pushToken T [] = T := if_pos rfl

theorem pushToken_of_ne (T : List Bytes) {cur : Bytes} (h : cur ≠ []) :
    pushToken T cur = T ++ [cur] := if_neg h

/-- White space ends what was gathered. -/
theorem lexLoop_spaces {gap : Bytes} (h : ∀ b ∈ gap, isSpace b = true) (hne : gap ≠ []) :
    lexLoop T (.plain cur) (gap ++ rest) = lexLoop (pushToken T cur) (.plain []) rest := by
  induction gap generalizing T cur with
  | nil => exact absurd rfl hne
  | cons b gap ih =>
    obtain ⟨hb, hgap⟩ := List.forall_mem_cons.1 h
    have hstep : lexChar T (.plain cur) b (gap ++ rest).head? =
        (pushToken T cur, .plain [], false) := by
      simp [lexChar, hb]
    rw [List.cons_append, lexLoop_one hstep]
    by_cases hnil : gap = []
    · rw [hnil, List.nil_append]
    · rw [ih hgap hnil, pushToken_nil]

/-- A point that is no part of a number. -/
theorem lexLoop_point (h : ¬ (cur ≠ [] ∧ IsDigit (rest.headD 0))) :
    lexLoop T (.plain cur) (46 :: rest) =
      lexLoop (pushToken T cur ++ [[46]]) (.plain []) rest := by
  rw [← headD_eq] at h
  refine lexLoop_one ?_
  rw [lexChar, if_neg (by decide), if_neg (by decide), if_pos rfl, if_neg h]

theorem lexLoop_number {whole fraction : Digits} :
    lexLoop T (.plain []) (whole.text ++ 46 :: (fraction.text ++ rest)) =
      lexLoop T (.plain (whole.text ++ 46 :: fraction.text)) rest := by
  obtain ⟨d, ds, hds⟩ := List.exists_cons_of_ne_nil fraction.ne_nil
  have hd : IsDigit d := fraction.digits d (by rw [hds]; exact List.mem_cons_self)
  have hstep : lexChar T (.plain whole.text) 46 (fraction.text ++ rest).head? =
      (T, .plain (whole.text ++ [46]), false) := by
    rw [lexChar, if_neg (by decide), if_neg (by decide), if_pos rfl, if_pos]
    exact ⟨whole.ne_nil, by rw [hds]; exact hd⟩
  rw [lexLoop_chars (fun b hb => identChar_of_digit (whole.digits b hb)), List.nil_append,
    lexLoop_one hstep, lexLoop_chars (fun b hb => identChar_of_digit (fraction.digits b hb)),
    List.append_assoc]
  rfl

/-! ## Literals -/

/-- A literal that was opened is read to its last quote. -/
theorem lexLoop_literal {lit content : Bytes} (h : rest.headD 0 ≠ 39) :
    lexLoop T (.literal lit) (content.flatMap Token.double ++ 39 :: rest) =
      lexLoop (T ++ [lit ++ content ++ [39]]) (.plain []) rest := by
  induction content generalizing lit with
  | nil =>
    rw [List.flatMap_nil, List.nil_append, List.append_nil]
    refine lexLoop_one ?_
    have hne : rest.head? ≠ some 39 := by
      intro heq
      rw [← headD_eq, heq] at h
      exact h rfl
    rw [lexChar, if_pos rfl, if_neg hne]
  | cons c content ih =>
    rw [List.flatMap_cons, Token.double]
    by_cases hc : c = 39
    · subst hc
      have hstep : lexChar T (.literal lit) 39 (some 39) =
          (T, .literal (lit ++ [39]), true) := by simp [lexChar]
      rw [if_pos rfl]
      change lexLoop T (.literal lit) (39 :: 39 :: (content.flatMap Token.double ++ 39 :: rest)) = _
      rw [lexLoop_two hstep, ih]
      simp only [List.append_assoc, List.cons_append, List.nil_append]
    · have hstep : lexChar T (.literal lit) c (content.flatMap Token.double ++ 39 :: rest).head? =
          (T, .literal (lit ++ [c]), false) := by simp [lexChar, hc]
      rw [if_neg hc]
      change lexLoop T (.literal lit) (c :: (content.flatMap Token.double ++ 39 :: rest)) = _
      rw [lexLoop_one hstep, ih]
      simp only [List.append_assoc, List.cons_append, List.nil_append]

theorem lexLoop_quote (h : opensBlob (pushToken T cur) = false) :
    lexLoop T (.plain cur) (39 :: rest) =
      lexLoop (pushToken T cur) (.literal [39]) rest := by
  refine lexLoop_one ?_
  simp [lexChar, show isSpace 39 = false by decide, h]

theorem lexLoop_blobQuote (h : opensBlob (pushToken T cur) = true) :
    lexLoop T (.plain cur) (39 :: rest) =
      lexLoop (pushToken T cur).dropLast
        (.blob ((pushToken T cur).getLastD [] ++ [39])) rest := by
  refine lexLoop_one ?_
  simp [lexChar, show isSpace 39 = false by decide, h]

/-! ## Operators -/

/-- A character that is an operator, with nothing behind it that would make it another. -/
theorem lexLoop_single (hc : isOperatorByte c = true)
    (h61 : c = 60 ∨ c = 62 → rest.headD 0 ≠ 61) (h62 : c = 60 → rest.headD 0 ≠ 62) :
    lexLoop T (.plain cur) (c :: rest) = lexLoop (pushToken T cur ++ [[c]]) (.plain []) rest := by
  have hne : ∀ b : UInt8, rest.headD 0 ≠ b → rest.head? ≠ some b := by
    intro b hb heq
    rw [← headD_eq, heq] at hb
    exact hb rfl
  have hclass : ∀ n : Fin 256, isOperatorByte (UInt8.ofNat n) = true →
      isSpace (UInt8.ofNat n) = false ∧ UInt8.ofNat n ≠ 39 ∧ UInt8.ofNat n ≠ 46 ∧
        UInt8.ofNat n ≠ 33 := by decide +kernel
  obtain ⟨hs, hq, hd, hbang⟩ := hclass ⟨c.toNat, c.toNat_lt⟩ (by simpa using hc)
  simp only [UInt8.ofNat_toNat] at hs hq hd hbang
  refine lexLoop_one ?_
  have hle : ¬ ((c = 60 ∨ c = 62 ∨ c = 33) ∧ rest.head? = some 61) := by
    intro ⟨hor, heq⟩
    rcases hor with h | h | h
    · exact hne 61 (h61 (.inl h)) heq
    · exact hne 61 (h61 (.inr h)) heq
    · exact hbang h
  have hne' : ¬ (c = 60 ∧ rest.head? = some 62) := fun ⟨h, heq⟩ => hne 62 (h62 h) heq
  rw [lexChar, if_neg (by rw [hs]; exact Bool.false_ne_true), if_neg hq, if_neg hd, if_pos hc]
  dsimp only
  rw [if_neg hle, if_neg (fun h => hbang h.1), if_neg hne']

/-- An operator, with nothing behind it that it runs into. -/
theorem lexLoop_operator {o : Operator} (hbang : o ≠ .bangeq)
    (hdot : o = .dot → ¬ (cur ≠ [] ∧ IsDigit (rest.headD 0)))
    (hrest : o ≠ .dot → (Token.op o).runsInto (rest.headD 0) = false) :
    lexLoop T (.plain cur) (o.text ++ rest) =
      lexLoop (pushToken T cur ++ [o.text]) (.plain []) rest := by
  have hsingle : ∀ {c : UInt8}, isOperatorByte c = true → c ≠ 60 → c ≠ 62 →
      lexLoop T (.plain cur) (c :: rest) = lexLoop (pushToken T cur ++ [[c]]) (.plain []) rest :=
    fun hc h60 h62 => lexLoop_single hc (fun h => absurd h (not_or.2 ⟨h60, h62⟩))
      (fun h => absurd h h60)
  cases o with
  | lparen => exact hsingle (by decide) (by decide) (by decide)
  | rparen => exact hsingle (by decide) (by decide) (by decide)
  | comma => exact hsingle (by decide) (by decide) (by decide)
  | semicolon => exact hsingle (by decide) (by decide) (by decide)
  | star => exact hsingle (by decide) (by decide) (by decide)
  | eq => exact hsingle (by decide) (by decide) (by decide)
  | plus => exact hsingle (by decide) (by decide) (by decide)
  | minus => exact hsingle (by decide) (by decide) (by decide)
  | slash => exact hsingle (by decide) (by decide) (by decide)
  | dot => exact lexLoop_point (hdot rfl)
  | lt =>
    have h := hrest (by decide)
    simp only [Token.runsInto, Bool.or_eq_false_iff, decide_eq_false_iff_not] at h
    exact lexLoop_single (by decide) (fun _ => h.1) (fun _ => h.2)
  | gt =>
    have h := hrest (by decide)
    simp only [Token.runsInto, decide_eq_false_iff_not] at h
    exact lexLoop_single (by decide) (fun _ => h) (fun hc => absurd hc (by decide))
  | le => exact lexLoop_two (by simp [lexChar, isSpace, isOperatorByte, Operator.text])
  | ge => exact lexLoop_two (by simp [lexChar, isSpace, isOperatorByte, Operator.text])
  | ltgt => exact lexLoop_two (by simp [lexChar, isSpace, isOperatorByte, Operator.text])
  | bangeq => exact absurd rfl hbang

/-! ## One token -/

/-- **One token**, from any state of the loop in which it is not glued to what stands before it. -/
theorem lexLoop_token {t : Token} {out : List Bytes} (hout : pushToken T cur = out)
    (hcur : t.wordlike = true → cur = []) (hbang : t ≠ .op .bangeq)
    (hblob : t.isString = true → opensBlob out = false)
    (hrest : t.runsInto (rest.headD 0) = false) :
    ∃ T' cur', lexLoop T (.plain cur) (t.print ++ rest) = lexLoop T' (.plain cur') rest ∧
      pushToken T' cur' = out ++ [t.text] ∧ (cur' ≠ [] → t.wordlike = true) := by
  cases t with
  | word w =>
    obtain rfl := hcur rfl
    refine ⟨T, w.text, ?_, ?_, fun _ => rfl⟩
    · exact lexLoop_chars w.chars
    · rw [pushToken_of_ne _ w.ne_nil, ← hout, pushToken_nil]
      rfl
  | number whole fraction =>
    obtain rfl := hcur rfl
    cases fraction with
    | none =>
      refine ⟨T, whole.text, ?_, ?_, fun _ => rfl⟩
      · exact lexLoop_chars fun b hb => identChar_of_digit (whole.digits b hb)
      · rw [pushToken_of_ne _ whole.ne_nil, ← hout, pushToken_nil]
        rfl
    | some fraction =>
      refine ⟨T, whole.text ++ 46 :: fraction.text, ?_, ?_, fun _ => rfl⟩
      · rw [← lexLoop_number]
        simp [Token.print, Token.text]
      · rw [pushToken_of_ne _ (by simp), ← hout, pushToken_nil]
        rfl
  | string content =>
    have hnext : rest.headD 0 ≠ 39 := by simpa [Token.runsInto] using hrest
    refine ⟨out ++ [39 :: (content ++ [39])], [], ?_, pushToken_nil _, fun h => absurd rfl h⟩
    rw [Token.print, List.cons_append, List.append_assoc, lexLoop_quote (hout ▸ hblob rfl), hout,
      List.singleton_append, lexLoop_literal hnext]
    rfl
  | op o =>
    refine ⟨out ++ [o.text], [], ?_, pushToken_nil _, fun h => absurd rfl h⟩
    have hdot : o = .dot → ¬ (cur ≠ [] ∧ IsDigit (rest.headD 0)) := by
      intro ho h
      subst ho
      simp only [Token.runsInto, decide_eq_false_iff_not] at hrest
      exact hrest h.2
    rw [← hout]
    exact lexLoop_operator (fun h => hbang (h ▸ rfl)) hdot (fun _ => hrest)

end

/-! ## Texts -/

theorem Token.print_ne_nil (t : Token) : t.print ≠ [] := by
  cases t with
  | word w => exact w.ne_nil
  | number whole fraction =>
    cases fraction with
    | none => exact whole.ne_nil
    | some fraction => simp [Token.print, Token.text]
  | string content => exact List.cons_ne_nil _ _
  | op o => cases o <;> exact List.cons_ne_nil _ _

/-- The first character of an identifier or a number is one of identifiers. -/
theorem Token.head_of_wordlike {t : Token} (h : t.wordlike = true) :
    isIdentChar (t.print.headD 0) = true := by
  cases t with
  | word w =>
    obtain ⟨c, s, hs⟩ := List.exists_cons_of_ne_nil w.ne_nil
    have hc := w.chars c (by rw [hs]; exact List.mem_cons_self)
    simpa [Token.print, Token.text, hs] using hc
  | number whole fraction =>
    obtain ⟨c, s, hs⟩ := List.exists_cons_of_ne_nil whole.ne_nil
    have hc := identChar_of_digit (whole.digits c (by rw [hs]; exact List.mem_cons_self))
    cases fraction with
    | none => simpa [Token.print, Token.text, hs] using hc
    | some fraction => simpa [Token.print, Token.text, hs] using hc
  | string content => cases h
  | op o => cases h

/-- White space, and the end of the text, belong to no token. -/
theorem Token.runsInto_blank (t : Token) {b : UInt8} (h : isSpace b = true ∨ b = 0) :
    t.runsInto b = false := by
  have hall : ∀ n : Fin 256, isSpace (UInt8.ofNat n) = true ∨ UInt8.ofNat n = 0 →
      isIdentChar (UInt8.ofNat n) = false ∧ UInt8.ofNat n ≠ 39 ∧ UInt8.ofNat n ≠ 61 ∧
        UInt8.ofNat n ≠ 62 ∧ ¬ IsDigit (UInt8.ofNat n) := by decide +kernel
  obtain ⟨h1, h2, h3, h4, h5⟩ := hall ⟨b.toNat, b.toNat_lt⟩ (by simpa using h)
  simp only [UInt8.ofNat_toNat] at h1 h2 h3 h4 h5
  cases t with
  | word w => exact h1
  | number whole fraction => exact h1
  | string content => simpa [Token.runsInto] using h2
  | op o => cases o <;> simp [Token.runsInto, h3, h4, h5]

/-- A token right behind which a text goes on does not run into it. -/
theorem runsInto_write {t : Token} {ps : List Piece} {trail : Bytes}
    (htrail : ∀ b ∈ trail, isSpace b = true) (h : Spaced (some t) ps) :
    t.runsInto ((write trail ps).headD 0) = false := by
  cases ps with
  | nil =>
    rw [write]
    cases trail with
    | nil => exact t.runsInto_blank (.inr rfl)
    | cons b trail => exact t.runsInto_blank (.inl (htrail b List.mem_cons_self))
  | cons p ps =>
    obtain ⟨hgap, hnext, -⟩ := h
    rw [write]
    cases hg : p.gap with
    | nil =>
      obtain ⟨c, s, hs⟩ := List.exists_cons_of_ne_nil p.token.print_ne_nil
      have hc := hnext hg t rfl
      rw [hs] at hc ⊢
      exact hc
    | cons b gap =>
      rw [hg] at hgap
      exact t.runsInto_blank (.inl (hgap b List.mem_cons_self))

/-- A blob: the prefix and a quote. -/
def IsBlob (v : Bytes) : Prop := ∃ x s, (x = 120 ∨ x = 88) ∧ v = x :: 39 :: s

theorem Token.not_isBlob (t : Token) : ¬ IsBlob t.text := by
  intro ⟨x, s, hx, heq⟩
  have hq : ¬ isIdentChar 39 = true := by decide
  have hxd : ¬ IsDigit x := by
    rcases hx with rfl | rfl <;> decide
  cases t with
  | word w => exact hq (w.chars 39 (by
      change w.text = _ at heq
      rw [heq]
      simp))
  | number whole fraction =>
    obtain ⟨c, r, hr⟩ := List.exists_cons_of_ne_nil whole.ne_nil
    have hc := whole.digits c (by rw [hr]; exact List.mem_cons_self)
    have hcx : c = x := by
      cases fraction with
      | none => simpa [Token.text, hr] using congrArg (List.headD · 0) heq
      | some fraction => simpa [Token.text, hr] using congrArg (List.headD · 0) heq
    exact hxd (hcx ▸ hc)
  | string content =>
    have h39 : 39 = x := by simpa [Token.text] using congrArg (List.headD · 0) heq
    rcases hx with rfl | rfl <;> cases h39
  | op o =>
    have hmem : (39 : UInt8) ∈ o.text := by
      change o.text = _ at heq
      rw [heq]
      simp
    revert hmem
    cases o <;> decide

/-- The quote behind a token opens a blob when the token is a prefix. -/
theorem opensBlob_concat (out : List Bytes) (t : Token) :
    opensBlob (out ++ [t.text]) = t.opens := by
  have hdef : opensBlob (out ++ [t.text]) = (t.text = [120] || t.text = [88]) := by
    simp [opensBlob]
  rw [hdef]
  have hdigit : ∀ {s : Bytes} {x : UInt8}, (∀ c r, s = c :: r → IsDigit c) → ¬ IsDigit x →
      s ≠ [x] := fun h hx heq => hx (h _ _ heq)
  cases t with
  | word w => rfl
  | number whole fraction =>
    obtain ⟨c, r, hr⟩ := List.exists_cons_of_ne_nil whole.ne_nil
    have hc := whole.digits c (by rw [hr]; exact List.mem_cons_self)
    have hne : ∀ x, ¬ IsDigit x → (Token.number whole fraction).text ≠ [x] := by
      intro x hx
      refine hdigit (fun d s hd => ?_) hx
      cases fraction with
      | none =>
        rw [Token.text, hr] at hd
        exact (List.cons.inj hd).1 ▸ hc
      | some fraction =>
        rw [Token.text, hr] at hd
        exact (List.cons.inj hd).1 ▸ hc
    simp [Token.opens, hne 120 (by decide), hne 88 (by decide)]
  | string content => simp [Token.text, Token.opens]
  | op o => cases o <;> decide

/-! ## Runs -/

/-- What every round keeps holds at the end of the text. -/
theorem lexLoop_induct {P : List Bytes → LexMode → Prop} {Q : List Bytes → Prop}
    (hchar : ∀ T mode c next, P T mode →
      P (lexChar T mode c next).1 (lexChar T mode c next).2.1)
    (hend : ∀ T mode, P T mode → Q (lexEnd T mode)) (text : Bytes) {T : List Bytes}
    {mode : LexMode} (h : P T mode) : Q (lexLoop T mode text) := by
  induction hn : text.length using Nat.strong_induction_on generalizing text T mode with
  | _ n ih =>
    cases text with
    | nil => exact hend T mode h
    | cons c rest =>
      have hnext := hchar T mode c rest.head? h
      rw [lexLoop]
      cases rest with
      | nil => exact hend _ _ hnext
      | cons next after =>
        simp only [List.length_cons] at hn
        dsimp only
        split
        · exact ih after.length (by omega) after hnext rfl
        · exact ih (next :: after).length (by simp only [List.length_cons]; omega) _ hnext rfl

/-- A blob that is a token, or is being read, is a token at the end. -/
theorem exists_blob (text : Bytes) {T : List Bytes} {mode : LexMode}
    (h : (∃ v ∈ T, IsBlob v) ∨ ∃ b, mode = .blob b ∧ IsBlob b) :
    ∃ v ∈ lexLoop T mode text, IsBlob v := by
  have hmore : ∀ {b : Bytes} (s : Bytes), IsBlob b → IsBlob (b ++ s) := by
    intro b s ⟨x, r, hx, hb⟩
    exact ⟨x, r ++ s, hx, by rw [hb]; rfl⟩
  have hpush : ∀ {T : List Bytes} (cur : Bytes), (∃ v ∈ T, IsBlob v) →
      ∃ v ∈ pushToken T cur, IsBlob v := by
    intro T cur ⟨v, hv, hb⟩
    refine ⟨v, ?_, hb⟩
    unfold pushToken
    split
    · exact hv
    · exact List.mem_append_left _ hv
  have happ : ∀ {T : List Bytes} (w : Bytes), (∃ v ∈ T, IsBlob v) → ∃ v ∈ T ++ [w], IsBlob v :=
    fun w ⟨v, hv, hb⟩ => ⟨v, List.mem_append_left _ hv, hb⟩
  refine lexLoop_induct (P := fun T mode => (∃ v ∈ T, IsBlob v) ∨ ∃ b, mode = .blob b ∧ IsBlob b)
    (Q := fun out => ∃ v ∈ out, IsBlob v) ?_ ?_ text h
  · intro T mode c next hP
    cases mode with
    | literal lit =>
      have hT := hP.resolve_right (fun ⟨b, hb, _⟩ => by cases hb)
      rw [lexChar]
      split_ifs
      · exact .inl hT
      · exact .inl (happ _ hT)
      · exact .inl hT
    | blob b =>
      have hb : (∃ v ∈ T, IsBlob v) ∨ IsBlob b := hP.imp id fun ⟨b', hb', hblob⟩ => by
        cases hb'
        exact hblob
      rw [lexChar]
      split_ifs
      · rcases hb with hT | hb
        · exact .inl (happ _ hT)
        · exact .inl ⟨_, List.mem_append_right _ (List.mem_singleton_self _), hmore _ hb⟩
      · exact hb.imp id fun hb => ⟨_, rfl, hmore _ hb⟩
    | plain cur =>
      have hT := hP.resolve_right (fun ⟨b, hb, _⟩ => by cases hb)
      rw [lexChar]
      dsimp only
      split_ifs with h1 h2 h3
      · exact .inl (hpush _ hT)
      · -- the token that is taken back for a blob is no blob itself
        obtain ⟨v, hv, hb⟩ := hpush cur hT
        left
        refine ⟨v, ?_, hb⟩
        obtain ⟨front, last, hlast⟩ : ∃ front last, pushToken T cur = front ++ [last] :=
          ⟨_, _, (List.dropLast_append_getLast (List.ne_nil_of_mem hv)).symm⟩
        have hx : last = [120] ∨ last = [88] := by
          simpa [opensBlob, hlast] using h3
        rw [hlast] at hv ⊢
        rw [List.dropLast_concat]
        refine (List.mem_append.1 hv).resolve_right fun hmem => ?_
        obtain ⟨x, r, -, heq⟩ := hb
        rw [List.mem_singleton.1 hmem] at heq
        rcases hx with hx | hx <;> rw [hx] at heq <;> cases heq
      · exact .inl (hpush _ hT)
      · exact .inl hT
      · exact .inl (happ _ (hpush _ hT))
      · exact .inl (happ _ (hpush _ hT))
      · exact .inl (happ _ (hpush _ hT))
      · exact .inl (happ _ (hpush _ hT))
      · exact .inl (happ _ (hpush _ hT))
      · exact .inl hT
  · intro T mode hP
    cases mode with
    | plain cur => exact hpush cur (hP.resolve_right fun ⟨b, hb, _⟩ => by cases hb)
    | literal lit => exact happ lit (hP.resolve_right fun ⟨b, hb, _⟩ => by cases hb)
    | blob b =>
      rcases hP with hT | ⟨b', hb', hblob⟩
      · exact happ b hT
      · cases hb'
        exact ⟨b, List.mem_append_right _ (List.mem_singleton_self _), hblob⟩

/-- What has been gathered cannot become `!=`. -/
def LexMode.Safe : LexMode → Prop
  | .plain cur => 61 ∉ cur
  | .literal lit => 39 ∈ lit
  | .blob b => 39 ∈ b

/-- **`!=` is never a token.** -/
theorem bangeq_not_mem (sql : Bytes) : [33, 61] ∉ tokenizeSql sql := by
  have hpush : ∀ {T : List Bytes} {cur : Bytes}, [33, 61] ∉ T → 61 ∉ cur →
      [33, 61] ∉ pushToken T cur := by
    intro T cur hT hcur
    unfold pushToken
    split
    · exact hT
    · intro hmem
      rcases List.mem_append.1 hmem with h | h
      · exact hT h
      · rw [← List.mem_singleton.1 h] at hcur
        simp at hcur
  have happ : ∀ {T : List Bytes} {w : Bytes}, [33, 61] ∉ T → w ≠ [33, 61] →
      [33, 61] ∉ T ++ [w] := by
    intro T w hT hw hmem
    rcases List.mem_append.1 hmem with h | h
    · exact hT h
    · exact hw (List.mem_singleton.1 h).symm
  have hquoted : ∀ {w : Bytes}, 39 ∈ w → w ≠ [33, 61] := by
    intro w hw heq
    rw [heq] at hw
    simp at hw
  refine lexLoop_induct (P := fun T mode => [33, 61] ∉ T ∧ mode.Safe)
    (Q := fun out => [33, 61] ∉ out) ?_ ?_ sql
      ⟨List.not_mem_nil, List.not_mem_nil⟩
  · intro T mode c next ⟨hT, hmode⟩
    cases mode with
    | literal lit =>
      rw [lexChar]
      split_ifs
      · exact ⟨hT, List.mem_append_left _ hmode⟩
      · exact ⟨happ hT (hquoted (List.mem_append_left _ hmode)), List.not_mem_nil⟩
      · exact ⟨hT, List.mem_append_left _ hmode⟩
    | blob b =>
      rw [lexChar]
      split_ifs
      · exact ⟨happ hT (hquoted (List.mem_append_left _ hmode)), List.not_mem_nil⟩
      · exact ⟨hT, List.mem_append_left _ hmode⟩
    | plain cur =>
      have hP := hpush hT hmode
      rw [lexChar]
      dsimp only
      split_ifs with h1 h2 h3 h4 h5 h6 h7 h8 h9
      · exact ⟨hP, List.not_mem_nil⟩
      · exact ⟨fun hmem => hP (List.mem_of_mem_dropLast hmem), List.mem_append_right _ (List.mem_singleton_self _)⟩
      · exact ⟨hP, List.mem_singleton_self _⟩
      · refine ⟨hT, ?_⟩
        rw [LexMode.Safe, List.mem_append, not_or, h4]
        exact ⟨hmode, by decide⟩
      · exact ⟨happ hP (by decide), List.not_mem_nil⟩
      · refine ⟨happ hP ?_, List.not_mem_nil⟩
        intro heq
        rw [(List.cons.inj heq).1] at h6
        exact absurd h6 (by decide)
      · rw [h8.1] at h6
        exact absurd h6 (by decide)
      · exact ⟨happ hP (by decide), List.not_mem_nil⟩
      · exact ⟨happ hP (by simp), List.not_mem_nil⟩
      · refine ⟨hT, ?_⟩
        rw [LexMode.Safe, List.mem_append, not_or, List.mem_singleton]
        refine ⟨hmode, ?_⟩
        intro heq
        subst heq
        exact h6 (by decide)
  · intro T mode ⟨hT, hmode⟩
    cases mode with
    | plain cur => exact hpush hT hmode
    | literal lit => exact happ hT (hquoted hmode)
    | blob b => exact happ hT (hquoted hmode)

/-! ## The round trip -/

/-- White space in front of a token ends what was gathered; where there is none, a token that
would be glued to it does not follow. -/
theorem lexLoop_gap {T : List Bytes} {cur rest : Bytes} {p : Piece} {prev : Option Token}
    (hcur : cur ≠ [] → prev.any Token.wordlike = true)
    (hgap : ∀ b ∈ p.gap, isSpace b = true)
    (hnext : p.gap = [] → ∀ t ∈ prev, t.runsInto (p.token.print.headD 0) = false) :
    ∃ T' cur', lexLoop T (.plain cur) (p.gap ++ rest) = lexLoop T' (.plain cur') rest ∧
      pushToken T' cur' = pushToken T cur ∧ (p.token.wordlike = true → cur' = []) := by
  by_cases hnil : p.gap = []
  · refine ⟨T, cur, by rw [hnil, List.nil_append], rfl, fun hword => ?_⟩
    by_contra hne
    obtain ⟨t, rfl, ht⟩ := (Option.any_eq_true _ _).1 (hcur hne)
    have hfalse := hnext hnil t rfl
    have htrue := Token.head_of_wordlike hword
    cases t with
    | word w => exact Bool.false_ne_true (hfalse.symm.trans htrue)
    | number whole fraction => exact Bool.false_ne_true (hfalse.symm.trans htrue)
    | string content => cases ht
    | op o => cases ht
  · exact ⟨pushToken T cur, [], lexLoop_spaces hgap hnil, pushToken_nil _, fun _ => rfl⟩

/-- **Tokens that are written, read from any state**: without `!=`, they come back where they
survive, and there is a blob where they do not. By induction on the tokens. -/
theorem lexLoop_write {trail : Bytes} (htrail : ∀ b ∈ trail, isSpace b = true)
    {ps : List Piece} (hbang : ∀ p ∈ ps, p.token ≠ .op .bangeq) {prev : Option Token}
    {T : List Bytes} {cur : Bytes} (hcur : cur ≠ [] → prev.any Token.wordlike = true)
    (hopens : opensBlob (pushToken T cur) = prev.any Token.opens) (hspaced : Spaced prev ps) :
    (survives prev ps = true →
      lexLoop T (.plain cur) (write trail ps) = pushToken T cur ++ ps.map Piece.text) ∧
    (survives prev ps = false → ∃ v ∈ lexLoop T (.plain cur) (write trail ps), IsBlob v) := by
  induction ps generalizing prev T cur with
  | nil =>
    refine ⟨fun _ => ?_, fun h => by cases h⟩
    rw [write, List.map_nil, List.append_nil]
    by_cases hnil : trail = []
    · rw [hnil]
      rfl
    · have h := @lexLoop_spaces T cur [] trail htrail hnil
      rw [List.append_nil] at h
      rw [h, lexLoop, lexEnd, pushToken_nil]
  | cons p ps ih =>
    obtain ⟨hp, hps⟩ := List.forall_mem_cons.1 hbang
    obtain ⟨hgap, hnext, hrest⟩ := hspaced
    obtain ⟨T₁, cur₁, hlex₁, hpush₁, hword⟩ := @lexLoop_gap T cur
      (p.token.print ++ write trail ps) p prev hcur hgap hnext
    rw [write, hlex₁]
    rw [← hpush₁] at hopens ⊢
    by_cases hblob : p.token.isString = true ∧ opensBlob (pushToken T₁ cur₁) = true
    · -- the quote is taken for the one of a blob
      obtain ⟨hstr, hopen⟩ := hblob
      cases ht : p.token with
      | string content =>
        have hdead : survives prev (p :: ps) = false := by
          rw [survives, ht, ← hopens, hopen]
          rfl
        refine ⟨fun h => absurd (h.symm.trans hdead) (by decide), fun _ => ?_⟩
        rw [Token.print, List.cons_append, lexLoop_blobQuote hopen]
        refine exists_blob _ (.inr ⟨_, rfl, ?_⟩)
        have hlast : (pushToken T₁ cur₁).getLastD [] = [120] ∨
            (pushToken T₁ cur₁).getLastD [] = [88] := by
          rw [List.getLastD_eq_getLast?]
          simp only [opensBlob, Bool.or_eq_true, decide_eq_true_eq] at hopen
          rcases hopen with h | h
          · exact .inl (by rw [h]; rfl)
          · exact .inr (by rw [h]; rfl)
        rcases hlast with h | h
        · exact ⟨120, [], .inl rfl, by rw [h]; rfl⟩
        · exact ⟨88, [], .inr rfl, by rw [h]; rfl⟩
      | word w =>
        rw [ht] at hstr
        cases hstr
      | number whole fraction =>
        rw [ht] at hstr
        cases hstr
      | op o =>
        rw [ht] at hstr
        cases hstr
    · have hnoblob : p.token.isString = true → opensBlob (pushToken T₁ cur₁) = false := by
        intro hstr
        by_contra hopen
        exact hblob ⟨hstr, Bool.eq_true_of_not_eq_false hopen⟩
      obtain ⟨T₂, cur₂, hlex₂, hpush₂, hcur₂⟩ := lexLoop_token rfl hword hp hnoblob
        (runsInto_write htrail hrest)
      have hopens₂ : opensBlob (pushToken T₂ cur₂) = (some p.token).any Token.opens := by
        rw [hpush₂, opensBlob_concat]
        rfl
      have hsame : survives prev (p :: ps) = survives (some p.token) ps := by
        rw [survives]
        cases ht : p.token with
        | word w => rfl
        | number whole fraction => rfl
        | string content =>
          have h := hnoblob (by rw [ht]; rfl)
          rw [hopens] at h
          simp [h]
        | op o =>
          rw [ht] at hp
          cases o with
          | bangeq => exact absurd rfl hp
          | _ => rfl
      obtain ⟨hlive, hdead⟩ := ih hps hcur₂ hopens₂ hrest
      rw [hlex₂, hsame]
      refine ⟨fun h => ?_, hdead⟩
      rw [hlive h, hpush₂, List.append_assoc]
      rfl

theorem not_survives_of_bang {ps : List Piece} (h : ∃ p ∈ ps, p.token = .op .bangeq)
    (prev : Option Token) : survives prev ps = false := by
  induction ps generalizing prev with
  | nil =>
    obtain ⟨p, hp, -⟩ := h
    cases hp
  | cons q ps ih =>
    obtain ⟨p, hp, hbang⟩ := h
    rw [survives]
    rcases List.mem_cons.1 hp with rfl | hp
    · rw [hbang]
      rfl
    · rw [ih ⟨p, hp, hbang⟩, Bool.and_false]

/-- **The round trip**: the tokens that are written come back exactly when they survive. -/
theorem tokenize_write {trail : Bytes} (htrail : ∀ b ∈ trail, isSpace b = true)
    {ps : List Piece} (hspaced : Spaced none ps) :
    tokenizeSql (write trail ps) = ps.map Piece.text ↔ survives none ps = true := by
  by_cases hbang : ∃ p ∈ ps, p.token = .op .bangeq
  · rw [not_survives_of_bang hbang none]
    refine ⟨fun h => ?_, fun h => by cases h⟩
    obtain ⟨p, hp, heq⟩ := hbang
    refine absurd ?_ (bangeq_not_mem (write trail ps))
    rw [h]
    exact List.mem_map.2 ⟨p, hp, by rw [Piece.text, heq]; rfl⟩
  · have hrun := @lexLoop_write trail htrail ps (fun p hp heq => hbang ⟨p, hp, heq⟩) none [] []
      (fun h => absurd rfl h) rfl hspaced
    refine ⟨fun h => ?_, fun h => hrun.1 h⟩
    by_contra hdead
    obtain ⟨v, hv, hblob⟩ := hrun.2 (Bool.eq_false_of_not_eq_true hdead)
    change v ∈ tokenizeSql (write trail ps) at hv
    rw [h] at hv
    obtain ⟨p, -, rfl⟩ := List.mem_map.1 hv
    exact p.token.not_isBlob hblob

/-- Identifiers of one letter. -/
def letter (c : UInt8) (h : isIdentChar c = true ∧ ¬ IsDigit c) : Identifier where
  text := [c]
  ne_nil := List.cons_ne_nil _ _
  chars := fun _ hb => List.mem_singleton.1 hb ▸ h.1
  head := h.2

/-- `a!=b`. -/
def unequal : List Piece :=
  [⟨[], .word (letter 97 (by decide))⟩, ⟨[], .op .bangeq⟩, ⟨[], .word (letter 98 (by decide))⟩]

/-- `a<= 'it''s'`. -/
def quoted : List Piece :=
  [⟨[], .word (letter 97 (by decide))⟩, ⟨[], .op .le⟩, ⟨[32], .string (ascii "it's")⟩]

theorem spaced_quoted : Spaced none quoted := by
  simp [quoted, Spaced, isSpace, Token.runsInto, Token.print, Token.text, Operator.text,
    isIdentChar]

theorem tokenize_write_quoted :
    tokenizeSql (write [] quoted) = [ascii "a", ascii "<=", ascii "'it's'"] :=
  (@tokenize_write [] (by simp) quoted spaced_quoted).2 rfl

theorem spaced_unequal : Spaced none unequal := by
  simp [unequal, Spaced, Token.runsInto, Token.print, Token.text, Operator.text, isIdentChar]

/-- `a!=b` comes back as three other tokens. -/
theorem tokenize_unequal :
    ¬ ∀ ps trail, (∀ b ∈ trail, isSpace b = true) → Spaced none ps →
      tokenizeSql (write trail ps) = ps.map Piece.text := by
  intro h
  have heq := h unequal [] (by simp) spaced_unequal
  exact absurd heq (by decide +kernel)

end EBTree.Sql.Parse
