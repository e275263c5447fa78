import EBTree.Lib.Find
import EBTree.Sql.LikeMatch

/-!
# The languages of LIKE and GLOB

`LikeLanguage` and `GlobLanguage` say which texts a pattern stands for, one rule for each kind of
item a pattern begins with.

* `like_and_glob`: **the matchers decide the languages**, by induction over the pattern.
-/

set_option autoImplicit false

namespace EBTree.Sql

/-- The texts of a LIKE pattern. An escape that ends the pattern is a byte like the others. -/
inductive LikeLanguage (escape : UInt8) : Bytes → Bytes → Prop
  | nil : LikeLanguage escape [] []
  | escaped {b : UInt8} {p t : Bytes} :
      LikeLanguage escape p t → LikeLanguage escape (escape :: b :: p) (b :: t)
  | percent {p t : Bytes} (s : Bytes) : (37 = escape → p = []) →
      LikeLanguage escape p t → LikeLanguage escape (37 :: p) (s ++ t)
  | underscore {p t : Bytes} (b : UInt8) : (95 = escape → p = []) →
      LikeLanguage escape p t → LikeLanguage escape (95 :: p) (b :: t)
  | other {c : UInt8} {p t : Bytes} : c ≠ 37 → c ≠ 95 → (c = escape → p = []) →
      LikeLanguage escape p t → LikeLanguage escape (c :: p) (c :: t)

/-- The texts of a GLOB pattern. -/
inductive GlobLanguage : Bytes → Bytes → Prop
  | nil : GlobLanguage [] []
  | star {p t : Bytes} (s : Bytes) : GlobLanguage p t → GlobLanguage (42 :: p) (s ++ t)
  | question {p t : Bytes} (b : UInt8) : GlobLanguage p t → GlobLanguage (63 :: p) (b :: t)
  | set {set p t : Bytes} {b : UInt8} : 93 ∉ set → b ∈ set →
      GlobLanguage p t → GlobLanguage (91 :: (set ++ 93 :: p)) (b :: t)
  | other {c : UInt8} {p t : Bytes} : c ≠ 42 → c ≠ 63 → c ≠ 91 →
      GlobLanguage p t → GlobLanguage (c :: p) (c :: t)

/-! ## LIKE -/

theorem LikeLanguage.nil_iff {escape : UInt8} {t : Bytes} :
    LikeLanguage escape [] t ↔ t = [] := by
  constructor
  · intro h
    cases h
    rfl
  · intro h
    subst h
    exact .nil

/-- An escape with a byte behind it. -/
theorem LikeLanguage.escaped_iff {escape b : UInt8} {p t : Bytes} :
    LikeLanguage escape (escape :: b :: p) t ↔ ∃ t', t = b :: t' ∧ LikeLanguage escape p t' := by
  constructor
  · intro h
    cases h with
    | escaped h => exact ⟨_, rfl, h⟩
    | percent s hlast _ => exact absurd (hlast rfl) (List.cons_ne_nil _ _)
    | underscore c hlast _ => exact absurd (hlast rfl) (List.cons_ne_nil _ _)
    | other _ _ hlast _ => exact absurd (hlast rfl) (List.cons_ne_nil _ _)
  · intro ⟨t', ht, h⟩
    exact ht ▸ .escaped h

theorem LikeLanguage.percent_iff {escape : UInt8} {p t : Bytes} (hlast : 37 = escape → p = []) :
    LikeLanguage escape (37 :: p) t ↔ ∃ t', t' <:+ t ∧ LikeLanguage escape p t' := by
  constructor
  · intro h
    cases h with
    | escaped h => exact absurd (hlast rfl) (List.cons_ne_nil _ _)
    | percent s _ h => exact ⟨_, List.suffix_append s _, h⟩
    | other hne _ _ _ => exact absurd rfl hne
  · intro ⟨t', ⟨s, hs⟩, h⟩
    exact hs ▸ .percent s hlast h

theorem LikeLanguage.underscore_iff {escape : UInt8} {p t : Bytes}
    (hlast : 95 = escape → p = []) :
    LikeLanguage escape (95 :: p) t ↔ ∃ b t', t = b :: t' ∧ LikeLanguage escape p t' := by
  constructor
  · intro h
    cases h with
    | escaped h => exact absurd (hlast rfl) (List.cons_ne_nil _ _)
    | underscore b _ h => exact ⟨b, _, rfl, h⟩
    | other _ hne _ _ => exact absurd rfl hne
  · intro ⟨b, t', ht, h⟩
    exact ht ▸ .underscore b hlast h

theorem LikeLanguage.other_iff {escape c : UInt8} {p t : Bytes} (h37 : c ≠ 37) (h95 : c ≠ 95)
    (hlast : c = escape → p = []) :
    LikeLanguage escape (c :: p) t ↔ ∃ t', t = c :: t' ∧ LikeLanguage escape p t' := by
  constructor
  · intro h
    cases h with
    | escaped h => exact absurd (hlast rfl) (List.cons_ne_nil _ _)
    | percent s _ h => exact absurd rfl h37
    | underscore b _ h => exact absurd rfl h95
    | other _ _ _ h => exact ⟨_, rfl, h⟩
  · intro ⟨t', ht, h⟩
    exact ht ▸ .other h37 h95 hlast h

/-- **LIKE decides its language.** By induction on the length of the pattern, along the items it
can begin with. -/
theorem likeMatchImpl_iff (escape : UInt8) (pattern text : Bytes) :
    likeMatchImpl escape pattern text = true ↔ LikeLanguage escape pattern text := by
  induction hn : pattern.length using Nat.strong_induction_on generalizing pattern text with
  | _ n ih =>
    have ih' : ∀ p : Bytes, p.length < n → ∀ t,
        likeMatchImpl escape p t = true ↔ LikeLanguage escape p t :=
      fun p hp t => ih p.length hp p t rfl
    cases pattern with
    | nil => simp [likeMatchImpl, LikeLanguage.nil_iff]
    | cons p rest =>
      rw [List.length_cons] at hn
      have hrest := ih' rest (by omega)
      rw [likeMatchImpl.eq_def]
      dsimp only
      by_cases hesc : p = escape ∧ rest ≠ []
      · rw [if_pos hesc]
        obtain ⟨rfl, hne⟩ := hesc
        obtain ⟨next, after, rfl⟩ := List.exists_cons_of_ne_nil hne
        rw [List.length_cons] at hn
        have hafter := ih' after (by omega)
        rw [LikeLanguage.escaped_iff]
        cases text with
        | nil => simp
        | cons t text => simp [hafter, and_assoc]
      · rw [if_neg hesc]
        have hlast : p = escape → rest = [] := by
          intro h
          by_contra hne
          exact hesc ⟨h, hne⟩
        by_cases h37 : p = 37
        · subst h37
          rw [if_pos rfl, LikeLanguage.percent_iff hlast]
          simp only [Bool.or_eq_true, decide_eq_true_eq, List.any_eq_true, List.mem_tails, hrest]
          constructor
          · intro h
            rcases h with rfl | h
            -- a wildcard that ends the pattern takes all of the text
            · exact ⟨[], List.nil_suffix, .nil⟩
            · exact h
          · exact Or.inr
        · rw [if_neg h37]
          by_cases h95 : p = 95
          · subst h95
            rw [if_pos rfl, LikeLanguage.underscore_iff hlast]
            cases text with
            | nil => simp
            | cons t text => simp [hrest]
          · rw [if_neg h95, LikeLanguage.other_iff h37 h95 hlast]
            cases text with
            | nil => simp
            | cons t text => simp [hrest, and_assoc]

/-! ## GLOB -/

/-- The set that a bracket begins ends at the first closing one. -/
theorem bracketSet_eq_some {p set after : Bytes} :
    bracketSet p = some (set, after) ↔ p = set ++ 93 :: after ∧ 93 ∉ set := by
  induction p generalizing set with
  | nil => simp [bracketSet]
  | cons c rest ih =>
    rw [bracketSet]
    by_cases hc : c = 93
    · subst hc
      rw [if_pos rfl]
      cases set with
      | nil => simp
      | cons d set =>
        simp only [Option.some.injEq, Prod.mk.injEq, List.cons_append, List.cons.injEq,
          List.mem_cons, not_or]
        constructor
        · intro h
          exact absurd h.1.symm (List.cons_ne_nil _ _)
        · intro h
          exact absurd h.1.1 h.2.1
    · rw [if_neg hc, Option.map_eq_some_iff]
      constructor
      · intro h
        obtain ⟨⟨s, q⟩, hrest, heq⟩ := h
        cases heq
        obtain ⟨rfl, hs⟩ := ih.1 hrest
        exact ⟨rfl, by simp [hs, Ne.symm hc]⟩
      · intro h
        obtain ⟨heq, hset⟩ := h
        cases set with
        | nil =>
          cases heq
          exact absurd rfl hc
        | cons d set =>
          cases heq
          exact ⟨(set, after), ih.2 ⟨rfl, fun h => hset (List.mem_cons_of_mem _ h)⟩, rfl⟩

theorem GlobLanguage.nil_iff {t : Bytes} : GlobLanguage [] t ↔ t = [] := by
  constructor
  · intro h
    cases h
    rfl
  · intro h
    subst h
    exact .nil

theorem GlobLanguage.star_iff {p t : Bytes} :
    GlobLanguage (42 :: p) t ↔ ∃ t', t' <:+ t ∧ GlobLanguage p t' := by
  constructor
  · intro h
    cases h with
    | star s h => exact ⟨_, List.suffix_append s _, h⟩
    | other hne _ _ _ => exact absurd rfl hne
  · intro ⟨t', ⟨s, hs⟩, h⟩
    exact hs ▸ .star s h

theorem GlobLanguage.question_iff {p t : Bytes} :
    GlobLanguage (63 :: p) t ↔ ∃ b t', t = b :: t' ∧ GlobLanguage p t' := by
  constructor
  · intro h
    cases h with
    | question b h => exact ⟨b, _, rfl, h⟩
    | other _ hne _ _ => exact absurd rfl hne
  · intro ⟨b, t', ht, h⟩
    exact ht ▸ .question b h

theorem GlobLanguage.bracket_iff {rest t : Bytes} :
    GlobLanguage (91 :: rest) t ↔ ∃ set after b t', bracketSet rest = some (set, after) ∧
      t = b :: t' ∧ b ∈ set ∧ GlobLanguage after t' := by
  constructor
  · intro h
    cases h with
    | set h93 hb h => exact ⟨_, _, _, _, bracketSet_eq_some.2 ⟨rfl, h93⟩, rfl, hb, h⟩
    | other _ _ hne _ => exact absurd rfl hne
  · intro ⟨members, after, b, t', hset, ht, hb, h⟩
    obtain ⟨rfl, h93⟩ := bracketSet_eq_some.1 hset
    exact ht ▸ .set h93 hb h

theorem GlobLanguage.other_iff {c : UInt8} {p t : Bytes} (h42 : c ≠ 42) (h63 : c ≠ 63)
    (h91 : c ≠ 91) : GlobLanguage (c :: p) t ↔ ∃ t', t = c :: t' ∧ GlobLanguage p t' := by
  constructor
  · intro h
    cases h with
    | star s h => exact absurd rfl h42
    | question b h => exact absurd rfl h63
    | set _ _ h => exact absurd rfl h91
    | other _ _ _ h => exact ⟨_, rfl, h⟩
  · intro ⟨t', ht, h⟩
    exact ht ▸ .other h42 h63 h91 h

/-- **GLOB decides its language.** By induction on the length of the pattern. -/
theorem globMatchImpl_iff (pattern text : Bytes) :
    globMatchImpl pattern text = true ↔ GlobLanguage pattern text := by
  induction hn : pattern.length using Nat.strong_induction_on generalizing pattern text with
  | _ n ih =>
    have ih' : ∀ p : Bytes, p.length < n → ∀ t,
        globMatchImpl p t = true ↔ GlobLanguage p t :=
      fun p hp t => ih p.length hp p t rfl
    cases pattern with
    | nil => simp [globMatchImpl, GlobLanguage.nil_iff]
    | cons p rest =>
      rw [List.length_cons] at hn
      have hrest := ih' rest (by omega)
      rw [globMatchImpl.eq_def]
      dsimp only
      by_cases h42 : p = 42
      · subst h42
        rw [if_pos rfl, GlobLanguage.star_iff]
        simp only [Bool.or_eq_true, decide_eq_true_eq, List.any_eq_true, List.mem_tails, hrest]
        constructor
        · intro h
          rcases h with rfl | h
          · exact ⟨[], List.nil_suffix, .nil⟩
          · exact h
        · exact Or.inr
      rw [if_neg h42]
      by_cases h63 : p = 63
      · subst h63
        rw [if_pos rfl, GlobLanguage.question_iff]
        cases text with
        | nil => simp
        | cons t text => simp [hrest]
      rw [if_neg h63]
      by_cases h91 : p = 91
      · subst h91
        rw [if_pos rfl, GlobLanguage.bracket_iff]
        cases hset : bracketSet rest with
        | none => simp
        | some split =>
          obtain ⟨set, after⟩ := split
          have hafter := ih' after (by
            have := length_bracketSet hset
            omega)
          cases text with
          | nil => simp
          | cons t text => simp [hafter, and_assoc]
      · rw [if_neg h91, GlobLanguage.other_iff h42 h63 h91]
        cases text with
        | nil => simp
        | cons t text => simp [hrest, and_assoc]

/-- **LIKE and GLOB decide exactly their pattern languages**, for every text, pattern and escape. -/
theorem like_and_glob (text pattern : Bytes) :
    (∀ escape, sqlLikeMatch text pattern escape = true ↔ LikeLanguage escape pattern text) ∧
    (sqlGlobMatch text pattern = true ↔ GlobLanguage pattern text) :=
  ⟨fun escape => likeMatchImpl_iff escape pattern text, globMatchImpl_iff pattern text⟩

-- an escaped wildcard, and a set that a bracket inside it ends
example : sqlLikeMatch (ascii "a%") (ascii "_!%") 33 = true ∧
    sqlGlobMatch (ascii "b") (ascii "[a]b]") = false := by decide +kernel

end EBTree.Sql
