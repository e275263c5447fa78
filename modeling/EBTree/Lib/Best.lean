import Mathlib

/-!
# The best of a list

A loop over a list that keeps the largest number seen so far among the elements that qualify,
starting from zero: `foldl_best_spec`.
-/

set_option autoImplicit false

namespace EBTree.Lib

variable {α : Type} (p : α → Prop) [DecidablePred p] (f : α → Nat)

/-- The largest `f a` of the elements with `p`, the later one of two equal ones. -/
def best (l : List α) : Nat := l.foldl (fun b a => if p a ∧ b ≤ f a then f a else b) 0

theorem best_append (l : List α) (a : α) :
    best p f (l ++ [a]) = if p a ∧ best p f l ≤ f a then f a else best p f l := by
  rw [best, List.foldl_append]
  rfl

/-- **The best is one of the list, or zero**, and no element that qualifies lies above it. -/
theorem best_spec (l : List α) :
    (best p f l = 0 ∨ ∃ a ∈ l, p a ∧ f a = best p f l) ∧ ∀ a ∈ l, p a → f a ≤ best p f l := by
  induction l using List.reverseRecOn with
  | nil => exact ⟨.inl rfl, fun a ha => absurd ha List.not_mem_nil⟩
  | append_singleton l a ih =>
    obtain ⟨hmem, hmax⟩ := ih
    rw [best_append]
    split
    · rename_i ha
      refine ⟨.inr ⟨a, by simp, ha.1, rfl⟩, fun b hb hp => ?_⟩
      rcases List.mem_append.1 hb with hb | hb
      · exact le_trans (hmax b hb hp) ha.2
      · rw [List.mem_singleton.1 hb]
    · rename_i ha
      refine ⟨hmem.imp id fun ⟨b, hb, h⟩ => ⟨b, by simp [hb], h⟩, fun b hb hp => ?_⟩
      rcases List.mem_append.1 hb with hb | hb
      · exact hmax b hb hp
      · rw [List.mem_singleton.1 hb] at hp ⊢
        exact le_of_not_ge fun hle => ha ⟨hp, hle⟩

end EBTree.Lib
