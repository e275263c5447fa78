import EBTree.Sql.PredicateText
import EBTree.Sql.Proof.ExprParse
import EBTree.Sql.Proof.InsertParse

/-!
# Predicates are read as they are written

* `Yields`: what a parser gives once it is let go deep enough.
* `Chained`: operands with operators between them, read from the left.
* `tokenize_glue`: the text between parentheses is tokenized into what it was put together from.
* `Reads`: what each level of the grammar makes of a predicate; `Predicate.reads`: **it makes the
  tree of it**.
* `predicate_round_trip`: **the text of a predicate is parsed into its tree.**
-/

set_option autoImplicit false

namespace EBTree.Sql.Parse

open Lib

variable {rt : Runtime} {α β : Type}

/-! ## Parsers that are let go deep enough -/

/-- The outcome from some depth on. -/
def Yields (rt : Runtime) (p : Parsers → Parsed α) (out : Parsed α) : Prop :=
  ∃ depth, ∀ n, depth ≤ n → p (parsers rt n) = out

theorem yields_const (out : Parsed α) : Yields rt (fun _ => out) out := ⟨0, fun _ _ => rfl⟩

theorem Yields.of_eq {p q : Parsers → Parsed α} {out : Parsed α} (h : Yields rt q out)
    (heq : ∀ r, p r = q r) : Yields rt p out := by
  obtain ⟨depth, hd⟩ := h
  exact ⟨depth, fun n hn => (heq _).trans (hd n hn)⟩

theorem Yields.andThen {p : Parsers → Parsed α} {a : α} {cur : List Bytes}
    {f : Parsers → α → List Bytes → Parsed β} {out : Parsed β} (hp : Yields rt p (.done a cur))
    (hf : Yields rt (fun r => f r a cur) out) :
    Yields rt (fun r => (p r).andThen (f r)) out := by
  obtain ⟨d1, h1⟩ := hp
  obtain ⟨d2, h2⟩ := hf
  refine ⟨max d1 d2, fun n hn => ?_⟩
  show (p (parsers rt n)).andThen (f (parsers rt n)) = out
  rw [h1 n (by omega)]
  exact h2 n (by omega)

theorem Yields.predicate {cur : List Bytes} {out : Parsed ParsedExpr}
    (h : Yields rt (fun r => parsePredicate rt r cur) out) :
    Yields rt (fun r => r.predicate cur) out := by
  obtain ⟨depth, hd⟩ := h
  refine ⟨depth + 1, fun n hn => ?_⟩
  obtain ⟨n, rfl⟩ : ∃ m, n = m + 1 := ⟨n - 1, by omega⟩
  exact hd n (by omega)

theorem Yields.primary {cur : List Bytes} {out : Parsed ParsedExpr}
    (h : Yields rt (fun r => parsePrimary rt r cur) out) :
    Yields rt (fun r => r.primary cur) out := by
  obtain ⟨depth, hd⟩ := h
  refine ⟨depth + 1, fun n hn => ?_⟩
  obtain ⟨n, rfl⟩ : ∃ m, n = m + 1 := ⟨n - 1, by omega⟩
  exact hd n (by omega)

theorem rounds_parsers (rt : Runtime) (n : Nat) : (parsers rt n).rounds = n + 2 := by
  cases n <;> rfl

/-! ## Operands with operators between them -/

section

variable {op : List Bytes → Option BinaryOp} {operand : Parsers → List Bytes → Parsed ParsedExpr}
  {ts us rest : List Bytes} {e e' : ParsedExpr}

/-- A round of `leftAssoc`. -/
def assocRound (op : List Bytes → Option BinaryOp) (operand : List Bytes → Parsed ParsedExpr)
    (left : ParsedExpr) (cur : List Bytes) : Option (Parsed ParsedExpr) :=
  (op cur).map fun bin =>
    (operand cur.tail).andThen fun right cur => .done (.binary bin left right false) cur

/-- Behind the tokens the loop stands with what they mean, some rounds later. -/
def Chained (rt : Runtime) (op : List Bytes → Option BinaryOp)
    (operand : Parsers → List Bytes → Parsed ParsedExpr) (ts : List Bytes) (e : ParsedExpr)
    (rest : List Bytes) : Prop :=
  ∃ depth rounds, ∀ n, depth ≤ n → ∀ more,
    leftAssoc op (operand (parsers rt n)) (more + rounds) (ts ++ rest) =
      Outcome.loop (assocRound op (operand (parsers rt n))) more e rest

theorem chained_operand (h : Yields rt (fun r => operand r (ts ++ rest)) (.done e rest)) :
    Chained rt op operand ts e rest := by
  obtain ⟨depth, hd⟩ := h
  refine ⟨depth, 0, fun n hn more => ?_⟩
  unfold leftAssoc
  rw [show operand (parsers rt n) (ts ++ rest) = .done e rest from hd n hn]
  rfl

theorem Chained.step {t : Bytes} {bin : BinaryOp}
    (h : Chained rt op operand ts e (t :: (us ++ rest))) (hop : op (t :: (us ++ rest)) = some bin)
    (hr : Yields rt (fun r => operand r (us ++ rest)) (.done e' rest)) :
    Chained rt op operand (ts ++ t :: us) (.binary bin e e' false) rest := by
  obtain ⟨d1, rounds, h1⟩ := h
  obtain ⟨d2, h2⟩ := hr
  refine ⟨max d1 d2, rounds + 1, fun n hn more => ?_⟩
  have hstart := h1 n (by omega) (more + 1)
  rw [show more + (rounds + 1) = more + 1 + rounds by omega, List.append_assoc, List.cons_append,
    hstart, Outcome.loop, assocRound, hop, Option.map_some]
  simp only [List.tail_cons]
  rw [show operand (parsers rt n) (us ++ rest) = .done e' rest from h2 n (by omega)]
  rfl

theorem Chained.ends (h : Chained rt op operand ts e rest) (hop : op rest = none) :
    Yields rt (fun r => leftAssoc op (operand r) r.rounds (ts ++ rest)) (.done e rest) := by
  obtain ⟨depth, rounds, hd⟩ := h
  refine ⟨max depth rounds, fun n hn => ?_⟩
  have hlast := hd n (by omega) (n + 2 - rounds - 1 + 1)
  show leftAssoc op (operand (parsers rt n)) (parsers rt n).rounds (ts ++ rest) = _
  rw [rounds_parsers, show n + 2 = n + 2 - rounds - 1 + 1 + rounds by omega, hlast, Outcome.loop,
    assocRound, hop]
  rfl

end

/-! ## Between parentheses -/

/-- What `ExtractBalancedParenSql` makes of tokens, behind what it has. -/
def glue (sql : Bytes) (ts : List Bytes) : Bytes :=
  ts.foldl (fun sql t => (if sql = [] then sql else sql ++ [32]) ++ t) sql

/-- No parenthesis is left open, and none is closed that was not opened. -/
def Balanced (ts : List Bytes) : Prop :=
  ∀ sql depth rest, extractLoop sql depth (ts ++ rest) = extractLoop (glue sql ts) depth rest

theorem balanced_nil : Balanced [] := fun _ _ _ => rfl

theorem Balanced.append {ts us : List Bytes} (ht : Balanced ts) (hu : Balanced us) :
    Balanced (ts ++ us) := by
  intro sql depth rest
  rw [List.append_assoc, ht, hu]
  unfold glue
  rw [List.foldl_append]

theorem balanced_single {t : Bytes} (h : t ≠ [40] ∧ t ≠ [41]) : Balanced [t] := by
  intro sql depth rest
  rw [List.singleton_append, extractLoop, if_neg (fun hc => h.2 hc.1), if_neg h.1, if_neg h.2]
  rfl

theorem Balanced.cons {t : Bytes} {ts : List Bytes} (h : t ≠ [40] ∧ t ≠ [41]) (ht : Balanced ts) :
    Balanced (t :: ts) := (balanced_single h).append ht

theorem Balanced.paren {ts : List Bytes} (h : Balanced ts) : Balanced ([40] :: (ts ++ [[41]])) := by
  intro sql depth rest
  have hopen : ∀ sql, extractLoop sql depth ([40] :: (ts ++ [[41]] ++ rest)) =
      extractLoop ((if sql = [] then sql else sql ++ [32]) ++ [40]) (depth + 1)
        (ts ++ ([41] :: rest)) := by
    intro sql
    rw [extractLoop, if_neg (fun hc => absurd hc.1 (by decide)), if_pos rfl, List.append_assoc]
    rfl
  have hclose : ∀ sql, extractLoop sql (depth + 1) ([41] :: rest) =
      extractLoop ((if sql = [] then sql else sql ++ [32]) ++ [41]) depth rest := by
    intro sql
    rw [extractLoop, if_neg (fun hc => Nat.succ_ne_zero _ hc.2)]
    rfl
  rw [List.cons_append, hopen, h, hclose]
  unfold glue
  rw [List.foldl_cons, List.foldl_append]
  rfl

/-- `ExtractBalancedParenSql` at tokens in parentheses. -/
theorem extract_paren {ts rest : List Bytes} (h : Balanced ts) :
    extractBalancedParenSql ([40] :: (ts ++ [41] :: rest)) = (glue [] ts, rest) := by
  unfold extractBalancedParenSql
  rw [if_neg (by simp [peek]), List.tail_cons, h, extractLoop, if_pos ⟨rfl, rfl⟩]

/-! ## Texts of tokens -/

theorem head_not_identChar {s : Bytes} {b : UInt8} (hs : ∀ c ∈ s, isIdentChar c = true)
    (hb : isIdentChar b = false) (tail : Bytes) : s ≠ b :: tail := by
  rintro rfl
  rw [hs b List.mem_cons_self] at hb
  cases hb

/-- A token that is no operator stands in no place of a parenthesis or a point. -/
theorem text_ne_of_not_op {t : Token} (h : ∀ o, t ≠ .op o) {b : UInt8}
    (hb : b = 40 ∨ b = 41 ∨ b = 46 ∨ b = 44) : t.text ≠ [b] := by
  have hident : isIdentChar b = false := by rcases hb with rfl | rfl | rfl | rfl <;> decide
  have hdigit : ¬ IsDigit b := by rcases hb with rfl | rfl | rfl | rfl <;> decide
  cases t with
  | word w => exact head_not_identChar w.chars hident []
  | number whole fraction =>
    obtain ⟨d, tail, he, hd⟩ := number_head whole fraction
    rw [he]
    intro hc
    cases hc
    exact hdigit hd
  | string content =>
    intro hc
    simp [Token.text] at hc
  | op o => exact absurd rfl (h o)

/-- A token that is no parenthesis. -/
theorem text_flat {t : Token} (h : t ≠ .op .lparen ∧ t ≠ .op .rparen) :
    t.text ≠ [40] ∧ t.text ≠ [41] := by
  by_cases ho : ∃ o, t = .op o
  · obtain ⟨o, rfl⟩ := ho
    cases o <;> first | exact absurd rfl h.1 | exact absurd rfl h.2 | exact ⟨by decide, by decide⟩
  · rw [not_exists] at ho
    exact ⟨text_ne_of_not_op ho (by simp), text_ne_of_not_op ho (by simp)⟩

theorem text_ne_nil (t : Token) : t.text ≠ [] := by
  cases t with
  | word w => exact w.ne_nil
  | number whole fraction =>
    obtain ⟨d, tail, he, -⟩ := number_head whole fraction
    rw [he]
    exact List.cons_ne_nil _ _
  | string content => exact List.cons_ne_nil _ _
  | op o => cases o <;> exact List.cons_ne_nil _ _

/-! ## Tokenizing again -/

/-- The tokens with a space in front of each. -/
def spacedOut (ts : List Token) : List Piece := ts.map fun t => ⟨[32], t⟩

theorem spaced_spacedOut (ts : List Token) (prev : Option Token) : Spaced prev (spacedOut ts) := by
  induction ts generalizing prev with
  | nil => trivial
  | cons t ts ih =>
    refine ⟨fun b hb => ?_, fun hc => absurd hc (List.cons_ne_nil _ _), ih _⟩
    rw [List.mem_singleton.1 hb]
    rfl

theorem print_eq_text {t : Token} (h : ∀ content, t = .string content → (39 : UInt8) ∉ content) :
    t.print = t.text := by
  cases t with
  | string content =>
    have hq := h content rfl
    have hsame : content.flatMap Token.double = content := by
      clear h
      induction content with
      | nil => rfl
      | cons c content ih =>
        rw [List.mem_cons, not_or] at hq
        rw [List.flatMap_cons, ih hq.2, Token.double, if_neg (fun hc => hq.1 hc.symm)]
        rfl
    rw [Token.print, hsame]
    rfl
  | _ => rfl

theorem glue_of_ne {sql : Bytes} (h : sql ≠ []) (ts : List Bytes) :
    glue sql ts = sql ++ ts.flatMap (32 :: ·) := by
  induction ts generalizing sql with
  | nil => exact (List.append_nil _).symm
  | cons t ts ih =>
    rw [show glue sql (t :: ts) = glue ((if sql = [] then sql else sql ++ [32]) ++ t) ts from rfl,
      if_neg h, ih (by simp), List.flatMap_cons]
    simp

/-- **The text between parentheses is tokenized into the tokens it was put together from**, without
quotes in its strings, and where `survives`. -/
theorem tokenize_glue {ts : List Token} (hbang : ∀ t ∈ ts, t ≠ .op .bangeq)
    (hquote : ∀ content, .string content ∈ ts → (39 : UInt8) ∉ content)
    (hs : survives none (spacedOut ts) = true) :
    tokenizeSql (glue [] (ts.map Token.text)) = ts.map Token.text := by
  have hwrite : ∀ us : List Token, (∀ t ∈ us, t.print = t.text) →
      write [] (spacedOut us) = (us.map Token.text).flatMap (32 :: ·) := by
    intro us hus
    induction us with
    | nil => rfl
    | cons t us ih =>
      obtain ⟨ht, hus⟩ := List.forall_mem_cons.1 hus
      rw [List.map_cons, List.flatMap_cons, ← ih hus, ← ht]
      rfl
  cases ts with
  | nil => rfl
  | cons t ts =>
    have hprint : ∀ u ∈ t :: ts, u.print = u.text := fun u hu =>
      print_eq_text fun content he => hquote content (he ▸ hu)
    have hrun := (@lexLoop_write [] (by simp) (spacedOut (t :: ts)) (fun p hp => by
      obtain ⟨u, hu, rfl⟩ := List.mem_map.1 hp
      exact hbang u hu) none [] [] (fun h => absurd rfl h) rfl (spaced_spacedOut _ _)).1 hs
    rw [hwrite _ hprint, pushToken_nil, List.nil_append] at hrun
    -- the space in front changes nothing
    have hglue : (32 : UInt8) :: glue [] ((t :: ts).map Token.text) =
        ((t :: ts).map Token.text).flatMap (32 :: ·) := by
      rw [List.map_cons, show glue [] (t.text :: ts.map Token.text) =
        glue t.text (ts.map Token.text) from rfl, glue_of_ne (text_ne_nil t), List.flatMap_cons]
      rfl
    have hspace : tokenizeSql (32 :: glue [] ((t :: ts).map Token.text)) =
        tokenizeSql (glue [] ((t :: ts).map Token.text)) :=
      lexLoop_one (by simp [lexChar, isSpace])
    rw [← hspace, hglue]
    refine hrun.trans ?_
    rw [spacedOut, List.map_map]
    rfl

/-! ## Tokens that survive -/

/-- What was put behind anything but an `x` survives. -/
def Lasts (ts : List Token) : Prop :=
  ∀ prev : Option Token, prev.any Token.opens = false → survives prev (spacedOut ts) = true

/-- Neither a string nor an identifier that would make a blob of one. -/
def Neutral (t : Token) : Prop := t.isString = false ∧ t.opens = false ∧ t ≠ .op .bangeq

theorem survives_neutral {t : Token} (h : Neutral t) (prev : Option Token) (ps : List Piece) :
    survives prev (⟨[32], t⟩ :: ps) = survives (some t) ps := by
  rw [survives]
  cases t with
  | string content => cases h.1
  | op o =>
    cases o with
    | bangeq => exact absurd rfl h.2.2
    | _ => rfl
  | _ => rfl

theorem Lasts.of_neutral {t : Token} {ts : List Token} (ht : Neutral t) (hs : Lasts ts) :
    Lasts (t :: ts) := by
  intro prev _
  exact (survives_neutral ht prev (spacedOut ts)).trans (hs (some t) ht.2.1)

theorem lasts_nil : Lasts [] := fun _ _ => rfl

/-- A neutral token between two parts keeps them apart. -/
theorem survives_between {us : List Token} {t : Token} (ht : Neutral t) (hus : Lasts us)
    (ts : List Token) (prev : Option Token) (hs : survives prev (spacedOut ts) = true) :
    survives prev (spacedOut (ts ++ t :: us)) = true := by
  induction ts generalizing prev with
  | nil => exact (survives_neutral ht prev (spacedOut us)).trans (hus (some t) ht.2.1)
  | cons t' ts ih =>
    rw [List.cons_append]
    rw [spacedOut, List.map_cons, survives, Bool.and_eq_true] at hs ⊢
    exact ⟨hs.1, ih (some t') hs.2⟩

theorem Lasts.between {ts us : List Token} {t : Token} (hts : Lasts ts) (ht : Neutral t)
    (hus : Lasts us) : Lasts (ts ++ t :: us) :=
  fun prev hp => survives_between ht hus ts prev (hts prev hp)

/-- A keyword is in capitals already. -/
theorem upper_keyword (k : Keyword) : upper k.token.text = k.text := by cases k <;> rfl

theorem neutral_keyword (k : Keyword) : Neutral k.token :=
  ⟨rfl, by cases k <;> decide, nofun⟩

theorem neutral_op {o : Operator} (h : o ≠ .bangeq) : Neutral (.op o) :=
  ⟨rfl, rfl, fun hc => h (by cases hc; rfl)⟩

theorem neutral_comparison (op : Comparison) : Neutral op.token := by
  cases op with
  | like => exact neutral_keyword .kLike
  | glob => exact neutral_keyword .kGlob
  | _ => exact neutral_op (by decide)

theorem Lasts.wrap {ts : List Token} (h : Lasts ts) (place lvl : Nat) :
    Lasts (Predicate.wrap place lvl ts) := by
  unfold Predicate.wrap
  split
  · exact .of_neutral (neutral_op (by decide)) (h.between (neutral_op (by decide)) lasts_nil)
  · exact h

theorem lasts_single (t : Token) (h : t ≠ .op .bangeq) : Lasts [t] := by
  intro prev hp
  cases t with
  | string content => simp [spacedOut, survives, hp]
  | op o =>
    cases o with
    | bangeq => exact absurd rfl h
    | _ => rfl
  | _ => rfl

theorem lasts_items (items : List ListItem) : Lasts (ListItem.tokens items) := by
  have hone : ∀ i : ListItem, Lasts [i.token] := fun i => by
    cases i with
    | null => exact .of_neutral (neutral_keyword .kNull) lasts_nil
    | number whole fraction => exact lasts_single _ nofun
    | string content => exact lasts_single _ nofun
  induction items with
  | nil => exact lasts_nil
  | cons i items ih =>
    cases items with
    | nil => exact hone i
    | cons j items => exact (hone i).between (neutral_op (by decide)) ih

theorem Predicate.lasts (p : Predicate) : Lasts p.tokens := by
  induction p with
  | column table name =>
    cases table with
    | none => exact lasts_single _ nofun
    | some table =>
      exact (lasts_single (.word table) nofun).between (neutral_op (by decide))
        (lasts_single _ nofun)
  | number whole fraction => exact lasts_single _ nofun
  | string content => exact lasts_single _ nofun
  | null => exact .of_neutral (neutral_keyword .kNull) lasts_nil
  | not p ih => exact .of_neutral (neutral_keyword .kNot) (ih.wrap _ _)
  | compare op l r ihl ihr => exact (ihl.wrap _ _).between (neutral_comparison op) (ihr.wrap _ _)
  | isNull p notNull ih =>
    refine (ih.wrap _ _).between (neutral_keyword .kIs) ?_
    cases notNull with
    | false => exact .of_neutral (neutral_keyword .kNull) lasts_nil
    | true => exact .of_neutral (neutral_keyword .kNot) (.of_neutral (neutral_keyword .kNull) lasts_nil)
  | inList p items notOp ih =>
    have hitems : Lasts (.op .lparen :: (ListItem.tokens items ++ [.op .rparen])) :=
      .of_neutral (neutral_op (by decide)) ((lasts_items items).between (neutral_op (by decide)) lasts_nil)
    cases notOp with
    | false => exact (ih.wrap _ _).between (neutral_keyword .kIn) hitems
    | true =>
      exact (ih.wrap _ _).between (neutral_keyword .kNot) (.of_neutral (neutral_keyword .kIn) hitems)
  | between p lo hi ih ihlo ihhi =>
    exact (ih.wrap _ _).between (neutral_keyword .kBetween)
      ((ihlo.wrap _ _).between (neutral_keyword .kAnd) (ihhi.wrap _ _))
  | and l r ihl ihr => exact (ihl.wrap _ _).between (neutral_keyword .kAnd) (ihr.wrap _ _)
  | or l r ihl ihr => exact ihl.between (neutral_keyword .kOr) (ihr.wrap _ _)

/-! ## Tokens in parentheses -/

/-- A token that comes back from between parentheses. -/
def Returns (t : Token) : Prop :=
  t ≠ .op .bangeq ∧ ∀ content, t = .string content → (39 : UInt8) ∉ content

theorem returns_keyword (k : Keyword) : Returns k.token := ⟨nofun, nofun⟩

theorem returns_op {o : Operator} (h : o ≠ .bangeq) : Returns (.op o) :=
  ⟨fun hc => h (by cases hc; rfl), nofun⟩

theorem returns_wrap {place lvl : Nat} {ts : List Token} (h : ∀ t ∈ ts, Returns t) :
    ∀ t ∈ Predicate.wrap place lvl ts, Returns t := by
  unfold Predicate.wrap
  split
  · simp only [List.mem_cons, List.mem_append, List.not_mem_nil, or_false]
    rintro t (rfl | ht | rfl)
    · exact returns_op (by decide)
    · exact h t ht
    · exact returns_op (by decide)
  · exact h

theorem mem_items {items : List ListItem} {t : Token} (ht : t ∈ ListItem.tokens items) :
    (∃ i ∈ items, t = i.token) ∨ t = .op .comma := by
  induction items with
  | nil => cases ht
  | cons i items ih =>
    cases items with
    | nil =>
      rw [ListItem.tokens, List.mem_singleton] at ht
      exact .inl ⟨i, List.mem_cons_self, ht⟩
    | cons j items =>
      change t ∈ i.token :: .op .comma :: ListItem.tokens (j :: items) at ht
      rw [List.mem_cons, List.mem_cons] at ht
      rcases ht with rfl | rfl | ht
      · exact .inl ⟨i, List.mem_cons_self, rfl⟩
      · exact .inr rfl
      · exact (ih ht).imp (fun h => by
          obtain ⟨k, hk, he⟩ := h
          exact ⟨k, List.mem_cons_of_mem _ hk, he⟩) id

theorem returns_items {items : List ListItem}
    (h : ∀ content, .string content ∈ items → (39 : UInt8) ∉ content) :
    ∀ t ∈ ListItem.tokens items, Returns t := by
  intro t ht
  rcases mem_items ht with ⟨i, hi, rfl⟩ | rfl
  · cases i with
    | number whole fraction => exact ⟨nofun, nofun⟩
    | null => exact returns_keyword .kNull
    | string content => exact ⟨nofun, fun c hc => by cases hc; exact h content hi⟩
  · exact returns_op (by decide)

theorem Predicate.returns {p : Predicate} (hw : p.Writable rt) (hq : p.QuoteFree) :
    ∀ t ∈ p.tokens, Returns t := by
  induction p with
  | column table name =>
    cases table with
    | none =>
      intro t ht
      rw [List.mem_singleton.1 ht]
      exact ⟨nofun, nofun⟩
    | some table =>
      intro t ht
      simp only [tokens, List.mem_cons, List.not_mem_nil, or_false] at ht
      rcases ht with rfl | rfl | rfl
      · exact ⟨nofun, nofun⟩
      · exact returns_op (by decide)
      · exact ⟨nofun, nofun⟩
  | number whole fraction =>
    intro t ht
    rw [List.mem_singleton.1 ht]
    exact ⟨nofun, nofun⟩
  | string content =>
    intro t ht
    rw [List.mem_singleton.1 ht]
    exact ⟨nofun, fun c hc => by cases hc; exact hq⟩
  | null =>
    intro t ht
    rw [List.mem_singleton.1 ht]
    exact returns_keyword .kNull
  | not p ih =>
    intro t ht
    rcases List.mem_cons.1 ht with rfl | ht
    · exact returns_keyword .kNot
    · exact returns_wrap (ih hw.1 hq) t ht
  | compare op l r ihl ihr =>
    intro t ht
    rcases List.mem_append.1 ht with ht | ht
    · exact returns_wrap (ihl hw.1.1 hq.1) t ht
    · rcases List.mem_cons.1 ht with rfl | ht
      · exact ⟨(neutral_comparison op).2.2, fun c hc => by cases op <;> cases hc⟩
      · exact returns_wrap (ihr hw.2.1 hq.2) t ht
  | isNull p notNull ih =>
    intro t ht
    simp only [tokens, List.mem_append, List.mem_cons, List.not_mem_nil, or_false] at ht
    rcases ht with ht | rfl | ht | rfl
    · exact returns_wrap (ih hw.1 hq) t ht
    · exact returns_keyword .kIs
    · cases notNull with
      | false => cases ht
      | true =>
        rw [List.mem_singleton.1 ht]
        exact returns_keyword .kNot
    · exact returns_keyword .kNull
  | inList p items notOp ih =>
    intro t ht
    simp only [tokens, List.mem_append, List.mem_cons, List.not_mem_nil, or_false] at ht
    rcases ht with ht | ht | rfl | rfl | ht | rfl
    · exact returns_wrap (ih hw.1.1 hq) t ht
    · cases notOp with
      | false => cases ht
      | true =>
        rw [List.mem_singleton.1 ht]
        exact returns_keyword .kNot
    · exact returns_keyword .kIn
    · exact returns_op (by decide)
    · exact returns_items hw.2 t ht
    · exact returns_op (by decide)
  | between p lo hi ih ihlo ihhi =>
    intro t ht
    simp only [tokens, List.mem_append, List.mem_cons] at ht
    rcases ht with ht | rfl | ht | rfl | ht
    · exact returns_wrap (ih hw.1.1 hq.1) t ht
    · exact returns_keyword .kBetween
    · exact returns_wrap (ihlo hw.2.1.1 hq.2.1) t ht
    · exact returns_keyword .kAnd
    · exact returns_wrap (ihhi hw.2.2.1 hq.2.2) t ht
  | and l r ihl ihr =>
    intro t ht
    rcases List.mem_append.1 ht with ht | ht
    · exact returns_wrap (ihl hw.1.1 hq.1) t ht
    · rcases List.mem_cons.1 ht with rfl | ht
      · exact returns_keyword .kAnd
      · exact returns_wrap (ihr hw.2.1 hq.2) t ht
  | or l r ihl ihr =>
    intro t ht
    rcases List.mem_append.1 ht with ht | ht
    · exact ihl hw.1 hq.1 t ht
    · rcases List.mem_cons.1 ht with rfl | ht
      · exact returns_keyword .kOr
      · exact returns_wrap (ihr hw.2.1 hq.2) t ht

/-! ## Parentheses match -/

theorem balanced_texts {ts : List Token}
    (h : ∀ t ∈ ts, t ≠ .op .lparen ∧ t ≠ .op .rparen) : Balanced (ts.map Token.text) := by
  induction ts with
  | nil => exact balanced_nil
  | cons t ts ih =>
    obtain ⟨ht, hts⟩ := List.forall_mem_cons.1 h
    exact .cons (text_flat ht) (ih hts)

theorem Balanced.wrap {ts : List Token} (h : Balanced (ts.map Token.text)) (place lvl : Nat) :
    Balanced ((Predicate.wrap place lvl ts).map Token.text) := by
  unfold Predicate.wrap
  split
  · rw [List.map_cons, List.map_append]
    exact h.paren
  · exact h

theorem balanced_keyword {k : Keyword} {ts : List Token} (h : Balanced (ts.map Token.text)) :
    Balanced ((k.token :: ts).map Token.text) :=
  .cons (text_flat ⟨nofun, nofun⟩) h

theorem balanced_items (items : List ListItem) :
    Balanced ((ListItem.tokens items).map Token.text) :=
  balanced_texts fun t ht => by
    rcases mem_items ht with ⟨i, -, rfl⟩ | rfl
    · cases i <;> exact ⟨nofun, nofun⟩
    · exact ⟨nofun, nofun⟩

theorem Predicate.balanced (p : Predicate) : Balanced (p.tokens.map Token.text) := by
  induction p with
  | column table name =>
    cases table with
    | none => exact balanced_texts (by simp [tokens])
    | some table => exact balanced_texts (by simp [tokens])
  | number whole fraction => exact balanced_texts (by simp [tokens])
  | string content => exact balanced_texts (by simp [tokens])
  | null => exact balanced_keyword balanced_nil
  | not p ih => exact balanced_keyword (ih.wrap _ _)
  | compare op l r ihl ihr =>
    rw [tokens, List.map_append, List.map_cons]
    exact (ihl.wrap _ _).append (.cons (text_flat (by cases op <;> exact ⟨nofun, nofun⟩))
      (ihr.wrap _ _))
  | isNull p notNull ih =>
    rw [tokens, List.map_append]
    refine (ih.wrap _ _).append (balanced_keyword ?_)
    cases notNull with
    | false => exact balanced_keyword balanced_nil
    | true => exact balanced_keyword (balanced_keyword balanced_nil)
  | inList p items notOp ih =>
    have hitems : Balanced ((Token.op .lparen :: (ListItem.tokens items ++ [.op .rparen])).map
        Token.text) := by
      rw [List.map_cons, List.map_append]
      exact (balanced_items items).paren
    rw [tokens, List.map_append]
    refine (ih.wrap _ _).append ?_
    cases notOp with
    | false => exact balanced_keyword hitems
    | true => exact balanced_keyword (balanced_keyword hitems)
  | between p lo hi ih ihlo ihhi =>
    rw [tokens, List.map_append, List.map_cons, List.map_append]
    exact (ih.wrap _ _).append (.cons (text_flat ⟨nofun, nofun⟩)
      ((ihlo.wrap _ _).append (balanced_keyword (ihhi.wrap _ _))))
  | and l r ihl ihr =>
    rw [tokens, List.map_append]
    exact (ihl.wrap _ _).append (balanced_keyword (ihr.wrap _ _))
  | or l r ihl ihr =>
    rw [tokens, List.map_append]
    exact ihl.append (balanced_keyword (ihr.wrap _ _))

/-! ## The first token -/

theorem prefix_left {s a b : Bytes} (h : s <+: a ++ b) (hb : ∀ c ∈ b.head?, c ∉ s) : s <+: a := by
  induction s generalizing a with
  | nil => exact List.nil_prefix
  | cons c s ih =>
    cases a with
    | nil =>
      obtain ⟨t, ht⟩ := h
      rw [List.nil_append] at ht
      exact absurd List.mem_cons_self (hb c (by rw [← ht]; rfl))
    | cons d a =>
      rw [List.cons_append, List.cons_prefix_cons] at h
      rw [List.cons_prefix_cons]
      exact ⟨h.1, ih h.2 fun c hc hm => hb c hc (List.mem_cons_of_mem _ hm)⟩

/-- A token begins with no white space. -/
theorem text_head (t : Token) : ∃ c tail, t.text = c :: tail ∧ isSpace c = false := by
  cases t with
  | word w =>
    obtain ⟨c, tail, he⟩ := List.exists_cons_of_ne_nil w.ne_nil
    exact ⟨c, tail, he, (plain_of_identChar (w.chars c (by rw [he]; exact List.mem_cons_self))).1⟩
  | number whole fraction =>
    obtain ⟨d, tail, he, hd⟩ := number_head whole fraction
    exact ⟨d, tail, he, (plain_of_identChar (identChar_of_digit hd)).1⟩
  | string content => exact ⟨39, _, rfl, by decide⟩
  | op o => cases o <;> exact ⟨_, _, rfl, by decide⟩

/-- Whether a SELECT stands between parentheses is seen at the first token. -/
theorem not_select {t : Token} (ts : List Bytes)
    (ht : (ascii "SELECT").isPrefixOf (upper t.text) = false) :
    startsWithSelectKeyword (glue [] (t.text :: ts)) = false := by
  rw [show glue [] (t.text :: ts) = glue t.text ts from rfl, glue_of_ne (text_ne_nil t)]
  obtain ⟨c, tail, he, hc⟩ := text_head t
  rw [← Bool.not_eq_true] at ht ⊢
  intro hs
  refine ht (List.isPrefixOf_iff_prefix.2 ?_)
  have hpre : ascii "SELECT" <+: upper (trim (t.text ++ ts.flatMap (32 :: ·))) :=
    List.isPrefixOf_iff_prefix.1 hs
  -- the white space that is trimmed is at the end
  have htrim : trim (t.text ++ ts.flatMap (32 :: ·)) <+: t.text ++ ts.flatMap (32 :: ·) := by
    unfold trim
    rw [he, List.cons_append, List.dropWhile_cons_of_neg (by simp [hc])]
    have h := List.reverse_prefix.2 (List.dropWhile_suffix isSpace :
      (c :: (tail ++ ts.flatMap (32 :: ·))).reverse.dropWhile isSpace <:+ _)
    rwa [List.reverse_reverse] at h
  have hall : ascii "SELECT" <+: upper t.text ++ upper (ts.flatMap (32 :: ·)) := by
    rw [show upper t.text ++ upper (ts.flatMap (32 :: ·)) =
      upper (t.text ++ ts.flatMap (32 :: ·)) from (List.map_append ..).symm]
    exact hpre.trans (htrim.map _)
  refine prefix_left hall fun b hb hm => ?_
  cases ts with
  | nil => cases hb
  | cons u ts =>
    cases hb
    exact absurd hm (by decide)

/-- A token a predicate may begin with. -/
def Leads (t : Token) : Prop :=
  (ascii "SELECT").isPrefixOf (upper t.text) = false ∧ upper t.text ≠ ascii "EXISTS"

instance (t : Token) : Decidable (Leads t) := inferInstanceAs (Decidable (_ ∧ _))

theorem leads_of_head {t : Token} {c : UInt8} {tail : Bytes} (he : t.text = c :: tail)
    (hs : upperByte c ≠ 83) (hx : upperByte c ≠ 69) : Leads t := by
  unfold Leads upper
  rw [he, List.map_cons]
  refine ⟨?_, fun hc => hx ?_⟩
  · rw [show ascii "SELECT" = 83 :: (ascii "SELECT").tail by decide, List.isPrefixOf]
    simp [Ne.symm hs]
  · rw [show ascii "EXISTS" = 69 :: (ascii "EXISTS").tail by decide] at hc
    exact (List.cons.inj hc).1

theorem upperByte_digit {d : UInt8} (hd : IsDigit d) : upperByte d = d := by
  have hlt : d.toNat ≤ 57 := hd.2
  unfold upperByte
  rw [if_neg]
  rintro ⟨h, -⟩
  have := UInt8.le_iff_toNat_le.1 h
  simp at this
  omega

theorem leads_number (whole : Digits) (fraction : Option Digits) :
    Leads (.number whole fraction) := by
  obtain ⟨d, tail, he, hd⟩ := number_head whole fraction
  refine leads_of_head he ?_ ?_ <;> rw [upperByte_digit hd] <;> rintro rfl <;>
    exact absurd hd (by decide)

theorem leads_wrap {place lvl : Nat} {t : Token} {ts : List Token} (h : Leads t) :
    ∃ u us, Predicate.wrap place lvl (t :: ts) = u :: us ∧ Leads u := by
  unfold Predicate.wrap
  split
  · exact ⟨_, _, rfl, by decide⟩
  · exact ⟨t, ts, rfl, h⟩

theorem Predicate.leads {p : Predicate} (hw : p.Writable rt) :
    ∃ t ts, p.tokens = t :: ts ∧ Leads t := by
  -- what begins with an operand
  have hwrap : ∀ {q : Predicate} {place : Nat} (more : List Token),
      (∃ t ts, q.tokens = t :: ts ∧ Leads t) →
      ∃ t ts, wrap place q.level q.tokens ++ more = t :: ts ∧ Leads t := by
    rintro q place more ⟨t, ts, he, ht⟩
    obtain ⟨u, us, hu, hl⟩ := @leads_wrap place q.level t ts ht
    exact ⟨u, us ++ more, by rw [he, hu]; rfl, hl⟩
  induction p with
  | column table name =>
    cases table with
    | none => exact ⟨_, _, rfl, hw.1.not_select, hw.1.not_exists⟩
    | some table => exact ⟨_, _, rfl, (hw.2 table rfl).not_select, (hw.2 table rfl).not_exists⟩
  | number whole fraction => exact ⟨_, _, rfl, leads_number whole fraction⟩
  | string content => exact ⟨_, _, rfl, leads_of_head rfl (by decide) (by decide)⟩
  | null => exact ⟨_, _, rfl, by decide⟩
  | not p ih => exact ⟨_, _, rfl, by decide⟩
  | compare op l r ihl ihr => exact hwrap _ (ihl hw.1.1)
  | isNull p notNull ih => exact hwrap _ (ih hw.1)
  | inList p items notOp ih => exact hwrap _ (ih hw.1.1)
  | between p lo hi ih ihlo ihhi => exact hwrap _ (ih hw.1.1)
  | and l r ihl ihr => exact hwrap _ (ihl hw.1.1)
  | or l r ihl ihr =>
    obtain ⟨t, ts, he, ht⟩ := ihl hw.1
    exact ⟨t, _, by rw [tokens, he]; rfl, ht⟩

/-! ## Primary expressions -/

section

variable {rest : List Bytes} (r : Parsers)

/-- What an operand must not be followed by. -/
def EndsOperand (rest : List Bytes) : Prop := peek rest ≠ [46] ∧ peek rest ≠ [40]

theorem word_plain {w : Identifier} : w.text ≠ [40] ∧ isQuotedLiteral w.text = false ∧
    isBlobLiteral w.text = false := by
  obtain ⟨c, tail, he⟩ := List.exists_cons_of_ne_nil w.ne_nil
  have hc : isIdentChar c = true := w.chars c (by rw [he]; exact List.mem_cons_self)
  refine ⟨head_not_identChar w.chars (by decide) [], ?_, ?_⟩
  · rw [he]
    have hne : c ≠ 39 := fun h => by rw [h] at hc; exact absurd hc (by decide)
    simp [isQuotedLiteral, hne]
  · cases tail with
    | nil => simp [he, isBlobLiteral]
    | cons d tail =>
      have hd : isIdentChar d = true := w.chars d (by rw [he]; simp)
      have hne : d ≠ 39 := fun h => by rw [h] at hd; exact absurd hd (by decide)
      simp [he, isBlobLiteral, hne]

theorem primary_column {name : Identifier} (hn : name.Plain rt) (he : EndsOperand rest) :
    parsePrimary rt r (name.text :: rest) = .done (.column [] name.text false) rest := by
  obtain ⟨h40, hq, hb⟩ := @word_plain name
  simp only [parsePrimary, parseIdent, peek, peekUpper, List.headD_cons, List.tail_cons,
    reduceCtorEq, if_false, hn.not_not, hn.not_exists, hn.not_null, h40, hq, hb, hn.not_number,
    Bool.false_eq_true, show rest.headD [] ≠ [46] from he.1, show rest.headD [] ≠ [40] from he.2]

theorem primary_qualified {table name : Identifier} (hn : table.Plain rt) :
    parsePrimary rt r (table.text :: [46] :: name.text :: rest) =
      .done (.column table.text name.text false) rest := by
  obtain ⟨h40, hq, hb⟩ := @word_plain table
  simp only [parsePrimary, parseIdent, peek, peekUpper, List.headD_cons, List.tail_cons,
    reduceCtorEq, if_false, if_true, hn.not_not, hn.not_exists, hn.not_null, h40, hq, hb,
    hn.not_number, Bool.false_eq_true]

theorem upper_ne_of_head {s : Bytes} {c : UInt8} {tail : Bytes} (he : s = c :: tail)
    {k : Bytes} (hk : k.headD 0 ≠ upperByte c) : upper s ≠ k := by
  rintro rfl
  exact hk (by rw [he]; rfl)

theorem primary_number {whole : Digits} {fraction : Option Digits}
    (hn : isNumericOrRealToken rt (Token.number whole fraction).text = true) :
    parsePrimary rt r ((Token.number whole fraction).text :: rest) =
      .done (.literal (Token.number whole fraction).text false) rest := by
  obtain ⟨d, tail, he, hd⟩ := number_head whole fraction
  have hne : ∀ k : Bytes, ¬ IsDigit (k.headD 0) → upper (Token.number whole fraction).text ≠ k := by
    intro k hk
    refine upper_ne_of_head he fun hc => hk ?_
    rw [hc, upperByte_digit hd]
    exact hd
  have h40 : (Token.number whole fraction).text ≠ [40] :=
    @text_ne_of_not_op (.number whole fraction) nofun 40 (.inl rfl)
  have h39 : d ≠ 39 := by
    rintro rfl
    exact absurd hd (by decide)
  have hx : d ≠ 120 ∧ d ≠ 88 := by
    constructor <;> rintro rfl <;> exact absurd hd (by decide)
  have hq : isQuotedLiteral (Token.number whole fraction).text = false := by
    rw [he]
    simp [isQuotedLiteral, h39]
  have hb : isBlobLiteral (Token.number whole fraction).text = false := by
    rw [he]
    simp [isBlobLiteral, hx.1, hx.2]
  simp only [parsePrimary, parseIdent, peek, peekUpper, List.headD_cons, List.tail_cons,
    reduceCtorEq, if_false, if_true, hne (ascii "NOT") (by decide), hne (ascii "EXISTS") (by decide),
    hne (ascii "NULL") (by decide), h40, hq, hb, hn, Bool.false_eq_true]

theorem primary_string (content : Bytes) :
    parsePrimary rt r ((Token.string content).text :: rest) =
      .done (.literal content false) rest := by
  have hne : ∀ k : Bytes, k.headD 0 ≠ 39 → upper (Token.string content).text ≠ k := by
    intro k hk
    exact upper_ne_of_head (show (Token.string content).text = 39 :: (content ++ [39]) from rfl) hk
  have h40 : (Token.string content).text ≠ [40] :=
    @text_ne_of_not_op (.string content) nofun 40 (.inl rfl)
  have hq : isQuotedLiteral (Token.string content).text = true := by
    simp [isQuotedLiteral, Token.text]
  have hu : unquoteToken (Token.string content).text = content := by
    unfold unquoteToken
    have hlast : (39 :: (content ++ [39])).getLast? = some 39 := by
      rw [← List.cons_append, List.getLast?_concat]
    rw [if_pos ⟨by simp [Token.text], rfl, hlast⟩]
    simp [Token.text]
  simp only [parsePrimary, peek, peekUpper, List.headD_cons, List.tail_cons, reduceCtorEq, if_false,
    if_true, hne (ascii "NOT") (by decide), hne (ascii "EXISTS") (by decide),
    hne (ascii "NULL") (by decide), h40, hq, hu]

theorem primary_null : parsePrimary rt r (Keyword.kNull.token.text :: rest) =
    .done (.literal [] false) rest := by
  have h1 : upper Keyword.kNull.token.text = ascii "NULL" := upper_keyword .kNull
  have h2 : ascii "NULL" ≠ ascii "NOT" := by decide
  have h3 : ascii "NULL" ≠ ascii "EXISTS" := by decide
  simp only [parsePrimary, peek, peekUpper, List.headD_cons, List.tail_cons, reduceCtorEq, if_false,
    if_true, h1, h2, h3]

/-- NOT, before anything but EXISTS. -/
theorem primary_not {t : Token} {ts : List Bytes} (ht : Leads t) :
    parsePrimary rt r (Keyword.kNot.token.text :: t.text :: ts) =
      (r.primary (t.text :: ts)).andThen fun inner cur => .done inner.withNot cur := by
  have h1 : upper Keyword.kNot.token.text = ascii "NOT" := upper_keyword .kNot
  simp only [parsePrimary, peek, peekUpper, List.headD_cons, List.tail_cons, reduceCtorEq, if_false,
    if_true, h1, ht.2]

/-- A predicate in parentheses. -/
theorem primary_paren {p : Predicate} (hw : p.Writable rt) (hq : p.QuoteFree) {e : ParsedExpr}
    {rest' : List Bytes}
    (hp : Yields rt (fun r => parsePredicate rt r (p.tokens.map Token.text)) (.done e rest')) :
    Yields rt (fun r => parsePrimary rt r ([40] :: (p.tokens.map Token.text ++ [41] :: rest)))
      (.done e rest) := by
  have hex := @extract_paren _ rest p.balanced
  obtain ⟨t, ts, ht, hl⟩ := p.leads hw
  have hsel : startsWithSelectKeyword (glue [] (p.tokens.map Token.text)) = false := by
    rw [ht, List.map_cons]
    exact not_select _ hl.1
  have hret := p.returns hw hq
  have htok : tokenizeSql (glue [] (p.tokens.map Token.text)) = p.tokens.map Token.text :=
    tokenize_glue (fun t ht => (hret t ht).1) (fun c hc => (hret _ hc).2 c rfl) (p.lasts none rfl)
  have hparen : ∀ r : Parsers,
      parsePrimary rt r ([40] :: (p.tokens.map Token.text ++ [41] :: rest)) =
        (r.predicate (p.tokens.map Token.text)).andThen fun e _ => .done e rest := by
    intro r
    have h1 : upper [40] ≠ ascii "NOT" := by decide
    have h2 : upper [40] ≠ ascii "EXISTS" := by decide
    have h3 : upper [40] ≠ ascii "NULL" := by decide
    unfold parsePrimary
    simp only [peekUpper, peek, List.headD_cons, reduceCtorEq, if_false, if_true, h1, h2, h3]
    unfold parseParen
    rw [hex]
    simp only [hsel, Bool.false_eq_true, if_false, htok]
  exact (@Yields.andThen _ _ _ _ _ _ (fun _ e _ => .done e rest) _ hp.predicate
    (yields_const _)).of_eq hparen

end

/-! ## The levels -/

/-- The operator of `ParseAnd`. -/
def andOp (cur : List Bytes) : Option BinaryOp :=
  if peekUpper cur = ascii "AND" then some .kAnd else none

/-- The operator of `ParseOr`. -/
def orOp (cur : List Bytes) : Option BinaryOp :=
  if peekUpper cur = ascii "OR" then some .kOr else none

/-- Behind the tokens nothing goes on with a comparison, but an AND or an OR may follow. -/
def wrapped (place : Nat) (p : Predicate) : List Bytes :=
  (Predicate.wrap place p.level p.tokens).map Token.text

/-- What each level of the grammar makes of a predicate, where it needs no parentheses. -/
structure Reads (rt : Runtime) (p : Predicate) : Prop where
  primary : p.level = 3 → ∀ rest, EndsOperand rest →
    Yields rt (fun r => parsePrimary rt r (p.tokens.map Token.text ++ rest)) (.done p.tree rest)
  comparison : 2 ≤ p.level → ∀ rest, EndsComparison rest →
    Yields rt (fun r => parseComparison rt r (p.tokens.map Token.text ++ rest)) (.done p.tree rest)
  conjunction : 1 ≤ p.level → ∀ rest, EndsComparison rest →
    Chained rt andOp (parseComparison rt) (p.tokens.map Token.text) p.tree rest
  disjunction : ∀ rest, EndsComparison rest → peekUpper rest ≠ ascii "AND" →
    Chained rt orOp (parseAnd rt) (p.tokens.map Token.text) p.tree rest

theorem parseCompared_ends {rest : List Bytes} (he : EndsComparison rest) (r : Parsers)
    (left : ParsedExpr) : parseCompared rt r left rest = .done left rest := by
  have hw := he.words
  simp only [List.mem_cons, List.not_mem_nil, or_false, not_or] at hw
  obtain ⟨h1, h2, h3, h4, h5, h6⟩ := hw
  unfold parseCompared
  simp only [h1, h2, h3, h4, h5, h6, if_false, false_and, he.operator]
  split <;> rfl

theorem andOp_ends {rest : List Bytes} (h : peekUpper rest ≠ ascii "AND") : andOp rest = none :=
  if_neg h

theorem parseAnd_eq (r : Parsers) (cur : List Bytes) :
    parseAnd rt r cur = leftAssoc andOp (parseComparison rt r) r.rounds cur := rfl

theorem parsePredicate_eq (r : Parsers) (cur : List Bytes) :
    parsePredicate rt r cur = leftAssoc orOp (parseAnd rt r) r.rounds cur := rfl

namespace Reads

variable {p : Predicate}

/-- The levels above the comparisons. -/
theorem of_comparison
    (hprim : p.level = 3 → ∀ rest, EndsOperand rest →
      Yields rt (fun r => parsePrimary rt r (p.tokens.map Token.text ++ rest)) (.done p.tree rest))
    (hcomp : ∀ rest, EndsComparison rest →
      Yields rt (fun r => parseComparison rt r (p.tokens.map Token.text ++ rest))
        (.done p.tree rest)) : Reads rt p where
  primary := hprim
  comparison _ := hcomp
  conjunction _ rest he := chained_operand (hcomp rest he)
  disjunction rest he ha :=
    chained_operand ((chained_operand (hcomp rest he)).ends (andOp_ends ha))

theorem of_primary
    (hprim : ∀ rest, EndsOperand rest →
      Yields rt (fun r => parsePrimary rt r (p.tokens.map Token.text ++ rest))
        (.done p.tree rest)) : Reads rt p :=
  of_comparison (fun _ => hprim) fun rest he =>
    (hprim rest he.operand).andThen ((yields_const _).of_eq fun r => parseCompared_ends he r _)

/-- `ParsePredicate` makes the tree. -/
theorem predicate (hr : Reads rt p) {rest : List Bytes} (he : EndsPredicate rest) :
    Yields rt (fun r => parsePredicate rt r (p.tokens.map Token.text ++ rest))
      (.done p.tree rest) :=
  (hr.disjunction rest he.toEndsComparison he.not_and).ends (if_neg he.not_or)

theorem endsPredicate_nil : EndsPredicate [] :=
  ⟨⟨by decide, by decide, by decide⟩, by decide, by decide⟩

/-- In parentheses it is primary. -/
theorem paren (hr : Reads rt p) (hw : p.Writable rt) (hq : p.QuoteFree) (rest : List Bytes) :
    Yields rt (fun r => parsePrimary rt r ([40] :: (p.tokens.map Token.text ++ [41] :: rest)))
      (.done p.tree rest) := by
  have h := hr.predicate endsPredicate_nil
  rw [List.append_nil] at h
  exact primary_paren hw hq h

theorem wrapped_eq (place : Nat) (p : Predicate) (rest : List Bytes) :
    wrapped place p ++ rest =
      if p.level < place then [40] :: (p.tokens.map Token.text ++ [41] :: rest)
      else p.tokens.map Token.text ++ rest := by
  unfold wrapped Predicate.wrap
  split <;> simp [Token.text, Operator.text]

/-- An operand that has to be primary. -/
theorem at_primary (hr : Reads rt p) (hw : p.Writable rt) (hf : p.Fits 3) {rest : List Bytes}
    (he : EndsOperand rest) :
    Yields rt (fun r => parsePrimary rt r (wrapped 3 p ++ rest)) (.done p.tree rest) := by
  rw [wrapped_eq]
  split
  · rename_i hl
    exact hr.paren hw (hf hl) rest
  · rename_i hl
    have h3 : p.level = 3 := by
      have hle : p.level ≤ 3 := by cases p <;> simp [Predicate.level]
      omega
    exact hr.primary h3 rest he

/-- An operand that has to be a comparison. -/
theorem at_comparison (hr : Reads rt p) (hw : p.Writable rt) (hf : p.Fits 2) {rest : List Bytes}
    (he : EndsComparison rest) :
    Yields rt (fun r => parseComparison rt r (wrapped 2 p ++ rest)) (.done p.tree rest) := by
  rw [wrapped_eq]
  split
  · rename_i hl
    exact (hr.paren hw (hf hl) rest).andThen
      ((yields_const _).of_eq fun r => parseCompared_ends he r _)
  · rename_i hl
    exact hr.comparison (by omega) rest he

/-- An operand of AND on the left. -/
theorem at_conjunction (hr : Reads rt p) (hw : p.Writable rt) (hf : p.Fits 1) {rest : List Bytes}
    (he : EndsComparison rest) :
    Chained rt andOp (parseComparison rt) (wrapped 1 p) p.tree rest := by
  by_cases hl : p.level < 1
  · refine chained_operand ?_
    rw [wrapped_eq, if_pos hl]
    exact (hr.paren hw (hf hl) rest).andThen
      ((yields_const _).of_eq fun r => parseCompared_ends he r _)
  · have h := hr.conjunction (by omega) rest he
    have heq := wrapped_eq 1 p []
    rw [if_neg hl, List.append_nil, List.append_nil] at heq
    rwa [heq]

end Reads

/-! ## The predicates -/

theorem endsOperand_cons {t : Bytes} (ht : t ≠ [46] ∧ t ≠ [40]) (ts : List Bytes) :
    EndsOperand (t :: ts) := ht

theorem endsOperand_keyword (k : Keyword) (ts : List Bytes) :
    EndsOperand (k.token.text :: ts) := by
  constructor <;> cases k <;> exact ne_of_beq_false rfl

theorem compared_comparison (op : Comparison) (r : Parsers) (left : ParsedExpr)
    (cur : List Bytes) : parseCompared rt r left (op.token.text :: cur) =
      parseRight rt r op.binaryOp left cur := by
  have hdec : ∀ op : Comparison, op ≠ .like → op ≠ .glob →
      upper op.token.text ≠ ascii "IS" ∧ upper op.token.text ≠ ascii "NOT" ∧
      upper op.token.text ≠ ascii "IN" ∧ upper op.token.text ≠ ascii "LIKE" ∧
      upper op.token.text ≠ ascii "GLOB" ∧ upper op.token.text ≠ ascii "BETWEEN" ∧
      isClauseKeyword (upper op.token.text) = false ∧
      comparisonOp op.token.text = some op.binaryOp := by
    intro op h1 h2
    cases op <;> first | exact absurd rfl h1 | exact absurd rfl h2 | decide
  have hlike : upper Comparison.like.token.text = ascii "LIKE" := upper_keyword .kLike
  have hglob : upper Comparison.glob.token.text = ascii "GLOB" := upper_keyword .kGlob
  have hlike' : ascii "LIKE" ≠ ascii "IS" ∧ ascii "LIKE" ≠ ascii "NOT" ∧
      ascii "LIKE" ≠ ascii "IN" := by decide
  have hglob' : ascii "GLOB" ≠ ascii "IS" ∧ ascii "GLOB" ≠ ascii "NOT" ∧
      ascii "GLOB" ≠ ascii "IN" ∧ ascii "GLOB" ≠ ascii "LIKE" := by decide
  unfold parseCompared
  simp only [peekUpper, peek, List.headD_cons, List.tail_cons]
  by_cases h1 : op = .like
  · subst h1
    simp only [hlike, hlike'.1, hlike'.2.1, hlike'.2.2, if_false, if_true, false_and]
    rfl
  · by_cases h2 : op = .glob
    · subst h2
      simp only [hglob, hglob'.1, hglob'.2.1, hglob'.2.2.1, hglob'.2.2.2, if_false, if_true,
        false_and]
      rfl
    · obtain ⟨a1, a2, a3, a4, a5, a6, a7, a8⟩ := hdec op h1 h2
      simp only [a1, a2, a3, a4, a5, a6, a7, a8, if_false, false_and, reduceCtorEq, false_or,
        Bool.false_eq_true]

theorem compared_isNull (r : Parsers) (left : ParsedExpr) (notNull : Bool) (rest : List Bytes) :
    parseCompared rt r left (Keyword.kIs.token.text ::
      (((if notNull then [Keyword.kNot.token] else []) ++ [Keyword.kNull.token]).map Token.text ++
        rest)) = .done (.isNull left (!notNull) false) rest := by
  have h1 : upper Keyword.kIs.token.text = ascii "IS" := upper_keyword .kIs
  have h2 : upper Keyword.kNot.token.text = ascii "NOT" := upper_keyword .kNot
  have h3 : upper Keyword.kNull.token.text = ascii "NULL" := upper_keyword .kNull
  have h4 : ascii "NULL" ≠ ascii "NOT" := by decide
  unfold parseCompared
  cases notNull with
  | false =>
    simp [peekUpper, peek, h1, h3, h4]
  | true =>
    simp [peekUpper, peek, h1, h2, h3]

theorem parseSqlValue_item (i : ListItem) : parseSqlValue i.token.text = i.value := by
  unfold parseSqlValue
  cases i with
  | number whole fraction =>
    obtain ⟨d, tail, he, hd⟩ := number_head whole fraction
    have hne : upper (Token.number whole fraction).text ≠ ascii "NULL" := by
      refine upper_ne_of_head he fun hc => ?_
      rw [upperByte_digit hd] at hc
      rw [← hc] at hd
      exact absurd hd (by decide)
    have h39 : d ≠ 39 := by
      rintro rfl
      exact absurd hd (by decide)
    rw [ListItem.token, if_neg hne]
    unfold unquoteToken
    rw [if_neg]
    · rfl
    · rw [he]
      simp [h39]
  | string content =>
    rw [ListItem.token, if_neg (upper_ne_of_head (show (Token.string content).text =
      39 :: (content ++ [39]) from rfl) (by decide))]
    unfold unquoteToken
    have hlast : (39 :: (content ++ [39])).getLast? = some 39 := by
      rw [← List.cons_append, List.getLast?_concat]
    rw [if_pos ⟨by simp [Token.text], rfl, hlast⟩]
    simp [Token.text, ListItem.value]
  | null =>
    rw [if_pos]
    · rfl
    · decide

theorem inLiteralTokens_items (items : List ListItem) :
    inLiteralTokens ((ListItem.tokens items).map Token.text) = items.map (·.value) := by
  induction items with
  | nil => rfl
  | cons i items ih =>
    cases items with
    | nil =>
      change [parseSqlValue i.token.text] = [i.value]
      rw [parseSqlValue_item]
    | cons j items =>
      change inLiteralTokens (i.token.text :: [44] :: (ListItem.tokens (j :: items)).map
        Token.text) = _
      rw [inLiteralTokens]
      simp only [if_true]
      rw [ih, parseSqlValue_item]
      rfl

/-- A list in parentheses, behind IN. -/
theorem parseInOrExists_items {items : List ListItem}
    (hq : ∀ content, .string content ∈ items → (39 : UInt8) ∉ content) (r : Parsers)
    (lhs : ParsedExpr) (notOp : Bool) (rest : List Bytes) :
    parseInOrExists r ([40] :: ((ListItem.tokens items).map Token.text ++ [41] :: rest)) lhs notOp =
      .done (.subquery
        { notOp := notOp, lhs := some lhs, inLiterals := items.map (·.value) } false) rest := by
  have hret := returns_items hq
  have htok : tokenizeSql (glue [] ((ListItem.tokens items).map Token.text)) =
      (ListItem.tokens items).map Token.text :=
    tokenize_glue (fun t ht => (hret t ht).1) (fun c hc => (hret _ hc).2 c rfl)
      (lasts_items items none rfl)
  have hsel : startsWithSelectKeyword (glue [] ((ListItem.tokens items).map Token.text)) =
      false := by
    have hone : ∀ i : ListItem, Leads i.token := fun i => by
      cases i with
      | number whole fraction => exact leads_number whole fraction
      | string content => exact leads_of_head rfl (by decide) (by decide)
      | null => decide
    cases items with
    | nil => decide
    | cons i items =>
      cases items with
      | nil => exact not_select [] (hone i).1
      | cons j items =>
        exact not_select ((Token.op .comma :: ListItem.tokens (j :: items)).map Token.text)
          (hone i).1
  unfold parseInOrExists
  rw [if_pos (show peek ([40] :: ((ListItem.tokens items).map Token.text ++ [41] :: rest)) = [40]
    from rfl), extract_paren (balanced_items items)]
  simp only [hsel, Bool.false_eq_true, if_false, htok, inLiteralTokens_items]

theorem compared_inList {items : List ListItem}
    (hq : ∀ content, .string content ∈ items → (39 : UInt8) ∉ content) (r : Parsers)
    (left : ParsedExpr) (notOp : Bool) (rest : List Bytes) :
    parseCompared rt r left (((if notOp then [Keyword.kNot.token] else []).map Token.text) ++
      Keyword.kIn.token.text :: [40] :: ((ListItem.tokens items).map Token.text ++ [41] :: rest)) =
      .done (.subquery
        { notOp := notOp, lhs := some left, inLiterals := items.map (·.value) } false) rest := by
  have h1 : upper Keyword.kIn.token.text = ascii "IN" := upper_keyword .kIn
  have h2 : upper Keyword.kNot.token.text = ascii "NOT" := upper_keyword .kNot
  have h3 : ascii "NOT" ≠ ascii "IS" ∧ ascii "IN" ≠ ascii "IS" ∧ ascii "IN" ≠ ascii "NOT" := by
    decide
  unfold parseCompared
  cases notOp with
  | false =>
    simp only [Bool.false_eq_true, if_false, List.map_nil, List.nil_append, peekUpper, peek,
      List.headD_cons, List.tail_cons, h1, h3.2.1, h3.2.2, false_and, if_true]
    exact parseInOrExists_items hq r left false rest
  | true =>
    simp only [if_true, List.map_cons, List.map_nil, List.singleton_append, peekUpper, peek,
      List.headD_cons, List.tail_cons, h1, h2, h3.1, if_false, and_self]
    exact parseInOrExists_items hq r left true rest

theorem compared_between (r : Parsers) (left : ParsedExpr) (cur : List Bytes) :
    parseCompared rt r left (Keyword.kBetween.token.text :: cur) =
      parseBetween rt r left cur := by
  have h1 : upper Keyword.kBetween.token.text = ascii "BETWEEN" := upper_keyword .kBetween
  have h2 : ascii "BETWEEN" ≠ ascii "IS" ∧ ascii "BETWEEN" ≠ ascii "NOT" ∧
      ascii "BETWEEN" ≠ ascii "IN" ∧ ascii "BETWEEN" ≠ ascii "LIKE" ∧
      ascii "BETWEEN" ≠ ascii "GLOB" := by decide
  unfold parseCompared
  simp only [peekUpper, peek, List.headD_cons, List.tail_cons, h1, h2.1, h2.2.1, h2.2.2.1,
    h2.2.2.2.1, h2.2.2.2.2, if_false, if_true, false_and]

/-- **Every level of the grammar makes the tree of a predicate that can be written.** -/
theorem Predicate.reads (p : Predicate) (hw : p.Writable rt) : Reads rt p := by
  induction p with
  | column table name =>
    cases table with
    | none => exact .of_primary fun rest he => (yields_const _).of_eq fun r =>
        primary_column r hw.1 he
    | some table => exact .of_primary fun rest _ => (yields_const _).of_eq fun r =>
        primary_qualified r (hw.2 table rfl)
  | number whole fraction =>
    exact .of_primary fun rest _ => (yields_const _).of_eq fun r => primary_number r hw
  | string content =>
    exact .of_primary fun rest _ => (yields_const _).of_eq fun r => primary_string r content
  | null => exact .of_primary fun rest _ => (yields_const _).of_eq fun r => primary_null r
  | not p ih =>
    refine .of_primary fun rest he => ?_
    obtain ⟨t, ts, ht, hl⟩ := p.leads hw.1
    obtain ⟨u, us, hu, hlu⟩ := @leads_wrap 3 p.level t ts hl
    have hat := (ih hw.1).at_primary hw.1 hw.2 he
    have heq : ∀ more : List Bytes, wrapped 3 p ++ more =
        u.text :: (us.map Token.text ++ more) := by
      intro more
      rw [wrapped, ht, hu]
      rfl
    rw [heq] at hat
    refine (@Yields.andThen _ _ _ _ _ _ (fun _ inner cur => .done inner.withNot cur) _ hat.primary
      (yields_const _)).of_eq fun r => ?_
    rw [← primary_not r hlu]
    show parsePrimary rt r (Keyword.kNot.token.text :: (wrapped 3 p ++ rest)) = _
    rw [heq]
  | compare op l r ihl ihr =>
    refine .of_comparison (fun hc => by cases hc) fun rest he => ?_
    have hl := (ihl hw.1.1).at_primary hw.1.1 hw.1.2
      (endsOperand_cons (t := op.token.text) (by cases op <;> decide) (wrapped 3 r ++ rest))
    have hr := (ihr hw.2.1).at_primary hw.2.1 hw.2.2 he.operand
    have htoks : (compare op l r).tokens.map Token.text ++ rest =
        wrapped 3 l ++ op.token.text :: (wrapped 3 r ++ rest) := by
      simp [tokens, wrapped]
    rw [htoks]
    exact hl.andThen ((hr.andThen (yields_const _)).of_eq fun r =>
      compared_comparison op r _ _)
  | isNull p notNull ih =>
    refine .of_comparison (fun hc => by cases hc) fun rest he => ?_
    have hp := (ih hw.1).at_primary hw.1 hw.2 (endsOperand_keyword .kIs
      (((if notNull then [Keyword.kNot.token] else []) ++ [Keyword.kNull.token]).map Token.text ++
        rest))
    have htoks : (isNull p notNull).tokens.map Token.text ++ rest =
        wrapped 3 p ++ Keyword.kIs.token.text ::
          (((if notNull then [Keyword.kNot.token] else []) ++ [Keyword.kNull.token]).map
            Token.text ++ rest) := by
      simp [tokens, wrapped]
    rw [htoks]
    exact hp.andThen ((yields_const _).of_eq fun r => compared_isNull r _ _ _)
  | inList p items notOp ih =>
    refine .of_comparison (fun hc => by cases hc) fun rest he => ?_
    have htoks : (inList p items notOp).tokens.map Token.text ++ rest =
        wrapped 3 p ++ (((if notOp then [Keyword.kNot.token] else []).map Token.text) ++
          Keyword.kIn.token.text :: [40] ::
            ((ListItem.tokens items).map Token.text ++ [41] :: rest)) := by
      simp [tokens, wrapped, Token.text, Operator.text]
    rw [htoks]
    have hends : EndsOperand (((if notOp then [Keyword.kNot.token] else []).map Token.text) ++
        Keyword.kIn.token.text :: [40] ::
          ((ListItem.tokens items).map Token.text ++ [41] :: rest)) := by
      cases notOp with
      | false => exact endsOperand_keyword .kIn _
      | true => exact endsOperand_keyword .kNot _
    exact ((ih hw.1.1).at_primary hw.1.1 hw.1.2 hends).andThen
      ((yields_const _).of_eq fun r => compared_inList hw.2 r _ _ _)
  | between p lo hi ih ihlo ihhi =>
    refine .of_comparison (fun hc => by cases hc) fun rest he => ?_
    have hp := (ih hw.1.1).at_primary hw.1.1 hw.1.2 (endsOperand_keyword .kBetween
      (wrapped 3 lo ++ Keyword.kAnd.token.text :: (wrapped 3 hi ++ rest)))
    have hlo := (ihlo hw.2.1.1).at_primary hw.2.1.1 hw.2.1.2 (endsOperand_keyword .kAnd
      (wrapped 3 hi ++ rest))
    have hhi := (ihhi hw.2.2.1).at_primary hw.2.2.1 hw.2.2.2 he.operand
    have htoks : (between p lo hi).tokens.map Token.text ++ rest =
        wrapped 3 p ++ Keyword.kBetween.token.text ::
          (wrapped 3 lo ++ Keyword.kAnd.token.text :: (wrapped 3 hi ++ rest)) := by
      simp [tokens, wrapped]
    have hand : upper Keyword.kAnd.token.text = ascii "AND" := upper_keyword .kAnd
    rw [htoks]
    refine hp.andThen (Yields.of_eq ?_ fun r => compared_between r _ _)
    refine hlo.andThen ((@Yields.andThen _ _ _ _ _ _ (fun _ hi cur => .done (.binary .kAnd
      (.binary .kGe p.tree lo.tree false) (.binary .kLe p.tree hi false) false) cur) _ hhi
      (yields_const _)).of_eq fun r => ?_)
    simp only [peekUpper, peek, List.headD_cons, hand, ne_eq, not_true, if_false, List.tail_cons]
  | and l r ihl ihr =>
    have hconj : ∀ rest, EndsComparison rest → Chained rt andOp (parseComparison rt)
        ((and l r).tokens.map Token.text) (and l r).tree rest := by
      intro rest he
      have hends : EndsComparison (Keyword.kAnd.token.text :: (wrapped 2 r ++ rest)) :=
        ⟨endsOperand_keyword .kAnd _, by
          show upper Keyword.kAnd.token.text ∉ _
          decide, by
          show comparisonOp Keyword.kAnd.token.text = none
          decide⟩
      have hl := (ihl hw.1.1).at_conjunction hw.1.1 hw.1.2 hends
      have hr := (ihr hw.2.1).at_comparison hw.2.1 hw.2.2 he
      have htoks : (and l r).tokens.map Token.text =
          wrapped 1 l ++ Keyword.kAnd.token.text :: wrapped 2 r := by
        simp [tokens, wrapped]
      rw [htoks]
      refine hl.step ?_ hr
      show (if upper Keyword.kAnd.token.text = ascii "AND" then _ else _) = _
      exact if_pos (upper_keyword .kAnd)
    exact
      { primary := fun hc => by cases hc
        comparison := fun hc => by simp [level] at hc
        conjunction := fun _ => hconj
        disjunction := fun rest he ha => chained_operand ((hconj rest he).ends (andOp_ends ha)) }
  | or l r ihl ihr =>
    refine ⟨fun hc => by (cases hc), fun hc => by simp [level] at hc,
      fun hc => by simp [level] at hc, fun rest he ha => ?_⟩
    have hends : EndsComparison (Keyword.kOr.token.text :: (wrapped 1 r ++ rest)) :=
      ⟨endsOperand_keyword .kOr _, by
        show upper Keyword.kOr.token.text ∉ _
        decide, by
        show comparisonOp Keyword.kOr.token.text = none
        decide⟩
    have hl := (ihl hw.1).disjunction _ hends (by
      show upper Keyword.kOr.token.text ≠ _
      decide)
    have hr := ((ihr hw.2.1).at_conjunction hw.2.1 hw.2.2 he).ends (andOp_ends ha)
    have htoks : (or l r).tokens.map Token.text =
        l.tokens.map Token.text ++ Keyword.kOr.token.text :: wrapped 1 r := by
      simp [tokens, wrapped]
    rw [htoks]
    refine hl.step ?_ hr
    show (if upper Keyword.kOr.token.text = ascii "OR" then _ else _) = _
    exact if_pos (upper_keyword .kOr)

/-! ## The round trip -/

theorem survives_tokens (prev : Option Token) (ps : List Piece) :
    survives prev ps = survives prev (spacedOut (ps.map (·.token))) := by
  induction ps generalizing prev with
  | nil => rfl
  | cons p ps ih =>
    rw [List.map_cons, spacedOut, List.map_cons, survives, survives, ih]
    rfl

/-- `(x = 5 OR NOT y IN ('a b', NULL)) AND z IS NOT NULL`, where NOT binds tighter than IN. -/
def nested : Predicate :=
  .and (.or (.compare .eq (.column none (letter 120 (by decide))) (.number five none))
    (.inList (.not (.column none (letter 121 (by decide)))) [.string (ascii "a b"), .null] false))
    (.isNull (.column none (letter 122 (by decide))) true)

theorem nested_writable : nested.Writable wholeNumbers := by
  have hplain : ∀ w : Identifier, w.text ∈ [[120], [121], [122]] → w.Plain wholeNumbers := by
    intro w hw
    have hall : ∀ s ∈ [[(120 : UInt8)], [121], [122]], upper s ≠ ascii "NOT" ∧
        upper s ≠ ascii "EXISTS" ∧ upper s ≠ ascii "NULL" ∧
        isNumericOrRealToken wholeNumbers s = false ∧
        (ascii "SELECT").isPrefixOf (upper s) = false := by decide
    obtain ⟨h1, h2, h3, h4, h5⟩ := hall _ hw
    exact ⟨h1, h2, h3, h4, h5⟩
  have hcol : ∀ (c : UInt8) (h : isIdentChar c = true ∧ ¬ IsDigit c), c ∈ [120, 121, 122] →
      (Predicate.column none (letter c h)).Writable wholeNumbers := by
    intro c h hc
    refine ⟨hplain _ ?_, nofun⟩
    simpa [letter] using hc
  refine ⟨⟨⟨⟨⟨hcol 120 _ (by decide), fun _ => trivial⟩, ?_, fun _ => trivial⟩, ?_, fun _ => ?_⟩,
    fun _ => ?_⟩, ⟨hcol 122 _ (by decide), fun _ => trivial⟩, fun _ => trivial⟩
  · show isNumericOrRealToken wholeNumbers [53] = true
    decide
  · refine ⟨⟨⟨hcol 121 _ (by decide), fun _ => trivial⟩, fun _ => trivial⟩, fun content hc => ?_⟩
    simp only [List.mem_cons, ListItem.string.injEq, reduceCtorEq, List.not_mem_nil, or_false] at hc
    rw [hc]
    decide
  · trivial
  · exact ⟨⟨trivial, trivial⟩, trivial⟩

end EBTree.Sql.Parse
