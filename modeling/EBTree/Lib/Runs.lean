import Mathlib

/-!
# Runs of equal elements

* `bestRun`: the longest maximal run of a list and where it starts, found in one scan from the
  left; of several longest runs the first one is kept.
* `le_bestRun_iff`: a length above the start value is reached exactly when that many equal
  elements stand next to each other.
-/

set_option autoImplicit false

namespace EBTree

variable {α : Type*} [DecidableEq α]

/-- Scans the maximal runs of a list whose first element has index `i`; `best` is the longest
run found so far and its first index. -/
def bestRun : List α → Nat → Nat × Nat → Nat × Nat
  | [], _, best => best
  | b :: bs, i, best =>
    let run := (bs.takeWhile (· = b)).length + 1
    bestRun (bs.dropWhile (· = b)) (i + run) (if best.1 < run then (run, i) else best)
termination_by xs => xs.length
decreasing_by
  have := (bs.dropWhile_suffix (· = b)).length_le
  simp only [List.length_cons]
  omega

/-! ## Runs as sublists -/

omit [DecidableEq α] in
/-- Equal elements at the front of a list that starts with `m` copies of `b`. -/
theorem replicate_isPrefix_run {n m : Nat} {b c : α} {rest : List α}
    (hrest : ∀ x ∈ rest.head?, x ≠ b)
    (h : List.replicate (n + 1) c <+: List.replicate (m + 1) b ++ rest) : c = b ∧ n ≤ m := by
  induction m generalizing n with
  | zero =>
    simp only [Nat.zero_add, List.replicate_succ, List.replicate_zero, List.cons_append,
      List.nil_append, List.cons_prefix_cons] at h
    obtain ⟨rfl, h⟩ := h
    cases n with
    | zero => exact ⟨rfl, le_refl _⟩
    | succ n =>
      cases rest with
      | nil => simp [List.replicate_succ] at h
      | cons x rest =>
        rw [List.replicate_succ, List.cons_prefix_cons] at h
        exact absurd h.1.symm (hrest x rfl)
  | succ m ih =>
    rw [List.replicate_succ, List.replicate_succ, List.cons_append, List.cons_prefix_cons] at h
    obtain ⟨rfl, h⟩ := h
    cases n with
    | zero => exact ⟨rfl, Nat.zero_le _⟩
    | succ n =>
      obtain ⟨-, hn⟩ := ih h
      exact ⟨rfl, by omega⟩

omit [DecidableEq α] in
/-- Equal elements next to each other lie in the first maximal run or after it. -/
theorem replicate_infix_run {n m : Nat} {b c : α} {rest : List α}
    (hrest : ∀ x ∈ rest.head?, x ≠ b) :
    List.replicate (n + 1) c <:+: List.replicate (m + 1) b ++ rest ↔
      (c = b ∧ n ≤ m) ∨ List.replicate (n + 1) c <:+: rest := by
  constructor
  · intro h
    induction m with
    | zero =>
      rcases List.infix_cons_iff.1 h with h | h
      · exact .inl (replicate_isPrefix_run hrest h)
      · exact .inr h
    | succ m ih =>
      rcases List.infix_cons_iff.1 h with h | h
      · exact .inl (replicate_isPrefix_run hrest h)
      · rcases ih h with ⟨hc, hn⟩ | h
        · exact .inl ⟨hc, by omega⟩
        · exact .inr h
  · rintro (⟨rfl, hn⟩ | h)
    · have hm : m + 1 = (n + 1) + (m - n) := by omega
      rw [hm, List.replicate_add (n + 1), List.append_assoc]
      exact (List.prefix_append _ _).isInfix
    · exact h.trans (List.suffix_append _ _).isInfix

/-- A list as its first maximal run and what follows. -/
theorem eq_run_append (b : α) (bs : List α) :
    b :: bs = List.replicate ((bs.takeWhile (· = b)).length + 1) b ++ bs.dropWhile (· = b) := by
  have hrun : bs.takeWhile (· = b) = List.replicate (bs.takeWhile (· = b)).length b := by
    apply List.eq_replicate_of_mem
    intro x hx
    simpa using List.mem_takeWhile_imp hx
  rw [List.replicate_succ, List.cons_append, ← hrun, List.takeWhile_append_dropWhile]

theorem head?_dropWhile_ne (b : α) (bs : List α) :
    ∀ x ∈ (bs.dropWhile (· = b)).head?, x ≠ b := by
  intro x hx
  have h := bs.head?_dropWhile_not (· = b)
  rw [Option.mem_def.1 hx] at h
  simpa using h

/-! ## The longest run -/

/-- **A run of `n + 1` is found exactly when `n + 1` equal elements stand next to each other.** -/
theorem le_bestRun_iff (xs : List α) (i n : Nat) (best : Nat × Nat) (hn : best.1 ≤ n) :
    n + 1 ≤ (bestRun xs i best).1 ↔ ∃ c, List.replicate (n + 1) c <:+: xs := by
  suffices h : n + 1 ≤ (bestRun xs i best).1 ↔
      n + 1 ≤ best.1 ∨ ∃ c, List.replicate (n + 1) c <:+: xs by
    rw [h]
    exact or_iff_right (by omega)
  clear hn
  induction xs, i, best using bestRun.induct with
  | case1 i best => simp [bestRun, List.replicate_succ]
  | case2 b bs i best run ih =>
    simp only [dite_eq_ite] at ih
    rw [bestRun, ih]
    conv_rhs => rw [eq_run_append b bs]
    simp only [replicate_infix_run (head?_dropWhile_ne b bs)]
    have hbest : n + 1 ≤ (if best.1 < run then (run, i) else best).1 ↔
        n + 1 ≤ best.1 ∨ n ≤ (bs.takeWhile (· = b)).length := by
      split <;> omega
    rw [hbest, exists_or, or_assoc]
    simp

/-- The longest run starts inside the list and is no longer than it. -/
theorem bestRun_bounds (xs : List α) (i N : Nat) (best : Nat × Nat) (hN : i + xs.length ≤ N)
    (hstart : best.2 < N) (hlen : best.1 ≤ N) :
    (bestRun xs i best).2 < N ∧ (bestRun xs i best).1 ≤ N := by
  induction xs, i, best using bestRun.induct with
  | case1 i best => exact ⟨by simpa [bestRun] using hstart, by simpa [bestRun] using hlen⟩
  | case2 b bs i best run ih =>
    have hl := congrArg List.length (eq_run_append b bs)
    simp only [List.length_append, List.length_replicate] at hl
    simp only [dite_eq_ite] at ih
    rw [bestRun]
    apply ih
    · omega
    · split <;> omega
    · split <;> omega

end EBTree
