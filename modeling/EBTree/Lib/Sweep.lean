import Mathlib.Data.List.Induction
import Mathlib.Order.Lattice

/-!
# Sweeps with a reset

A sweep over a list keeps a state that it starts anew whenever the key of the elements changes. On a
list that is sorted by the key, the state at an element is that of a sweep over the earlier elements
of its key alone (`sweep_state`).
-/

set_option autoImplicit false

namespace EBTree.Lib

variable {α κ σ : Type} [LinearOrder κ]

/-- One element: the state is the one at the start if the key is another than the last. -/
def sweepStep (key : α → κ) (start : σ) (step : σ → α → σ) (st : κ × σ) (a : α) : κ × σ :=
  (key a, step (if key a = st.1 then st.2 else start) a)

/-- The state that an element of some key meets. -/
theorem sweep_state (key : α → κ) (start : σ) (step : σ → α → σ) (k₀ : κ) {l : List α}
    (hl : l.Pairwise fun a b => key a ≤ key b) {k : κ} (hk : ∀ a ∈ l, key a ≤ k) :
    (if k = (l.foldl (sweepStep key start step) (k₀, start)).1 then
      (l.foldl (sweepStep key start step) (k₀, start)).2 else start) =
      (l.filter fun a => key a = k).foldl step start := by
  induction l using List.reverseRecOn generalizing k with
  | nil => exact ite_self _
  | append_singleton l a ih =>
    obtain ⟨hl', -, hla⟩ := List.pairwise_append.1 hl
    have hle : ∀ b ∈ l, key b ≤ key a := fun b hb => hla b hb a (List.mem_singleton.2 rfl)
    rw [List.foldl_append, List.foldl_cons, List.foldl_nil]
    simp only [sweepStep, ih hl' hle, List.filter_append, List.foldl_append]
    by_cases hka : k = key a
    · subst hka
      simp
    · -- the key of `a` is less than `k`, and with it all earlier ones
      have hlt : key a < k := lt_of_le_of_ne (hk a (by simp)) (Ne.symm hka)
      have hnone : (l.filter fun b => key b = k) = [] := by
        refine List.filter_eq_nil_iff.2 fun b hb => ?_
        simpa using ((hle b hb).trans_lt hlt).ne
      simp [hka, Ne.symm hka, hnone]

end EBTree.Lib
