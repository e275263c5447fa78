import Mathlib.Order.Basic

/-!
# Parsers that call each other

What a parser gives from a state: a value or an error, and `none` where it did not come to an end
because it was not let go deep enough. Parsers are put together by `andThen`, `attempt` and `loop`.

* `Below`: the parser comes to an end, with a smaller measure where it succeeds; `Below.andThen`,
  `loop_below`: **a loop comes to an end if each round lowers the measure**.
* `Leads`: a parser that is let go deeper comes to the same; `Leads.andThen`, `loop_leads`.
-/

set_option autoImplicit false

namespace EBTree.Lib

/-- A value with the state behind it, or an error; `none` where there is no end. -/
def Outcome (σ ε α : Type) := Option (Except ε (α × σ))

namespace Outcome

variable {σ ε α β : Type}

def done (a : α) (s : σ) : Outcome σ ε α := some (.ok (a, s))

def error (e : ε) : Outcome σ ε α := some (.error e)

def andThen (o : Outcome σ ε α) (f : α → σ → Outcome σ ε β) : Outcome σ ε β :=
  match o with
  | none => none
  | some (.error e) => some (.error e)
  | some (.ok (a, s)) => f a s

/-- What comes after `o` also where that is an error. -/
def attempt (o : Outcome σ ε α) (f : Except ε (α × σ) → Outcome σ ε β) : Outcome σ ε β :=
  match o with
  | none => none
  | some res => f res

/-- A loop of at most so many rounds; it leaves where `body` has nothing to do. -/
def loop (body : α → σ → Option (Outcome σ ε α)) : Nat → α → σ → Outcome σ ε α
  | 0, _, _ => none
  | n + 1, a, s =>
    match body a s with
    | none => done a s
    | some o => o.andThen (loop body n)

/-! ## Coming to an end -/

section

variable {μ : σ → Nat}

/-- It comes to an end; where it succeeds, with a measure less than `m`. -/
def Below (μ : σ → Nat) (o : Outcome σ ε α) (m : Nat) : Prop :=
  ∃ res, o = some res ∧ ∀ a s, res = .ok (a, s) → μ s < m

theorem below_done {a : α} {s : σ} {m : Nat} (h : μ s < m) :
    Below μ (done a s : Outcome σ ε α) m :=
  ⟨_, rfl, fun _ _ heq => by cases heq; exact h⟩

theorem below_error (e : ε) (m : Nat) : Below μ (error e : Outcome σ ε α) m :=
  ⟨_, rfl, fun _ _ heq => by cases heq⟩

theorem Below.mono {o : Outcome σ ε α} {m m' : Nat} (h : Below μ o m) (hm : m ≤ m') :
    Below μ o m' := by
  obtain ⟨res, ho, hres⟩ := h
  exact ⟨res, ho, fun a s heq => Nat.lt_of_lt_of_le (hres a s heq) hm⟩

theorem Below.andThen {o : Outcome σ ε α} {f : α → σ → Outcome σ ε β} {m m' : Nat}
    (ho : Below μ o m) (hf : ∀ a s, μ s < m → Below μ (f a s) m') :
    Below μ (o.andThen f) m' := by
  obtain ⟨res, rfl, hres⟩ := ho
  cases res with
  | error e => exact below_error e m'
  | ok x => exact hf x.1 x.2 (hres _ _ rfl)

theorem attempt_below {o : Outcome σ ε α} {f : Except ε (α × σ) → Outcome σ ε β} {m : Nat}
    (ho : o ≠ none) (hf : ∀ res, o = some res → Below μ (f res) m) :
    Below μ (o.attempt f) m := by
  cases hres : o with
  | none => exact absurd hres ho
  | some res => exact hf res hres

/-- An outcome whose state is not looked at. -/
theorem andThen_below {o : Outcome σ ε α} {f : α → σ → Outcome σ ε β} {m : Nat} (ho : o ≠ none)
    (hf : ∀ a s, Below μ (f a s) m) : Below μ (o.andThen f) m := by
  cases hres : o with
  | none => exact absurd hres ho
  | some res =>
    cases res with
    | error e => exact below_error e m
    | ok x => exact hf x.1 x.2

theorem Below.ne_none {o : Outcome σ ε α} {m : Nat} (h : Below μ o m) : o ≠ none := by
  obtain ⟨res, rfl, -⟩ := h
  exact Option.some_ne_none res

/-- **A loop comes to an end** if each round lowers the measure. -/
theorem loop_below {body : α → σ → Option (Outcome σ ε α)} {m : Nat}
    (hbody : ∀ a s o, μ s < m → body a s = some o → Below μ o (μ s)) (rounds : Nat) (a : α) (s : σ)
    (hrounds : μ s < rounds) (hm : μ s < m) : Below μ (loop body rounds a s) m := by
  induction rounds generalizing a s with
  | zero => exact absurd hrounds (Nat.not_lt_zero _)
  | succ rounds ih =>
    unfold loop
    cases hround : body a s with
    | none => exact below_done hm
    | some o =>
      refine (hbody a s o hm hround).andThen fun a' s' hless => ?_
      exact ih a' s' (Nat.lt_of_lt_of_le hless (Nat.le_of_lt_succ hrounds)) (Nat.lt_trans hless hm)

end

/-! ## Going deeper -/

/-- Where `o` came to an end, `o'` came to the same. -/
def Leads (o o' : Outcome σ ε α) : Prop := ∀ res, o = some res → o' = some res

theorem Leads.refl (o : Outcome σ ε α) : o.Leads o := fun _ h => h

theorem Leads.andThen {o o' : Outcome σ ε α} {f f' : α → σ → Outcome σ ε β} (ho : o.Leads o')
    (hf : ∀ a s, (f a s).Leads (f' a s)) : (o.andThen f).Leads (o'.andThen f') := by
  intro res hres
  cases hfirst : o with
  | none =>
    rw [hfirst] at hres
    cases hres
  | some first =>
    rw [hfirst] at hres
    rw [ho first hfirst]
    cases first with
    | error e => exact hres
    | ok x => exact hf x.1 x.2 res hres

theorem Leads.attempt {o o' : Outcome σ ε α} (ho : o.Leads o')
    (f : Except ε (α × σ) → Outcome σ ε β) : (o.attempt f).Leads (o'.attempt f) := by
  intro res hres
  cases hfirst : o with
  | none =>
    rw [hfirst] at hres
    cases hres
  | some first =>
    rw [hfirst] at hres
    rw [ho first hfirst]
    exact hres

theorem loop_leads {body body' : α → σ → Option (Outcome σ ε α)}
    (hnone : ∀ a s, body a s = none → body' a s = none)
    (hsome : ∀ a s o, body a s = some o → ∃ o', body' a s = some o' ∧ o.Leads o')
    {rounds rounds' : Nat} (h : rounds ≤ rounds') (a : α) (s : σ) :
    (loop body rounds a s).Leads (loop body' rounds' a s) := by
  induction rounds generalizing rounds' a s with
  | zero =>
    intro res hres
    cases hres
  | succ rounds ih =>
    cases rounds' with
    | zero => exact absurd h (Nat.not_succ_le_zero rounds)
    | succ rounds' =>
      unfold loop
      cases hbody : body a s with
      | none =>
        rw [hnone a s hbody]
        exact Leads.refl _
      | some o =>
        obtain ⟨o', hbody', hleads⟩ := hsome a s o hbody
        rw [hbody']
        exact hleads.andThen fun a s => ih (Nat.le_of_succ_le_succ h) a s

end Outcome

end EBTree.Lib
