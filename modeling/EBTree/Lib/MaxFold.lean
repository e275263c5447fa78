import Mathlib.Data.List.Basic
import Mathlib.Order.Lattice

/-!
# The maximum of a list

A maximum that is kept along a list: it is not below its start or any of the list, and it is one of
these.
-/

set_option autoImplicit false

namespace EBTree.Lib

theorem le_foldl_max (l : List Nat) (a : Nat) : a ≤ l.foldl max a ∧ ∀ x ∈ l, x ≤ l.foldl max a := by
  induction l generalizing a with
  | nil => exact ⟨Nat.le_refl a, fun x hx => by cases hx⟩
  | cons y l ih =>
    obtain ⟨ha, hl⟩ := ih (max a y)
    refine ⟨Nat.le_trans (Nat.le_max_left a y) ha, fun x hx => ?_⟩
    rcases List.mem_cons.1 hx with rfl | hx
    · exact Nat.le_trans (Nat.le_max_right a x) ha
    · exact hl x hx

theorem foldl_max_mem (l : List Nat) (a : Nat) : l.foldl max a = a ∨ l.foldl max a ∈ l := by
  induction l generalizing a with
  | nil => exact .inl rfl
  | cons y l ih =>
    rw [List.foldl_cons]
    rcases ih (max a y) with he | hm
    · rw [he]
      rcases Nat.le_total a y with hle | hle
      · exact .inr (by rw [Nat.max_eq_right hle]; exact List.mem_cons_self)
      · exact .inl (Nat.max_eq_left hle)
    · exact .inr (List.mem_cons_of_mem _ hm)

/-- The last of a list that grows is not below any of it. -/
theorem le_getLast {l : List Nat} (hl : l.Pairwise (· < ·)) {x last : Nat} (hx : x ∈ l)
    (he : l.getLast? = some last) : x ≤ last := by
  obtain ⟨ys, rfl⟩ := List.getLast?_eq_some_iff.1 he
  rcases List.mem_append.1 hx with hx | hx
  · exact Nat.le_of_lt ((List.pairwise_append.1 hl).2.2 x hx last (List.mem_singleton.2 rfl))
  · exact Nat.le_of_eq (List.mem_singleton.1 hx)

end EBTree.Lib
