import Mathlib.Data.Multiset.Bind
import Mathlib.Data.Multiset.Filter

/-!
# Joins of two lists

A join by a relation is the multiset of the pairs that meet it, with the unmatched elements of the
sides it keeps (`relJoin`). A nested loop over the left list, or over the right one, makes this
multiset (`loopLeft_eq`, `loopRight_eq`), and it tells two relations apart that differ on a pair
(`relJoin_inj`).
-/

set_option autoImplicit false

namespace EBTree.Lib

variable {α β : Type}

/-- The elements of a list that meet none of another. -/
def unmatched (on : α → β → Bool) (ls : List α) (rs : List β) : List α :=
  ls.filter fun a => !rs.any (on a)

/-- What a left element is paired with. -/
def pairsLeft (on : α → β → Bool) (rs : List β) (a : α) : List (Option α × Option β) :=
  (rs.filter (on a)).map fun b => (some a, some b)

/-- What a right element is paired with. -/
def pairsRight (on : α → β → Bool) (ls : List α) (b : β) : List (Option α × Option β) :=
  (ls.filter (on · b)).map fun a => (some a, some b)

/-- The join by a relation: its pairs, and the unmatched elements of the sides it keeps. -/
def relJoin (keepLeft keepRight : Bool) (on : α → β → Bool) (ls : List α) (rs : List β) :
    Multiset (Option α × Option β) :=
  (Multiset.ofList ls).bind (fun a => Multiset.ofList (pairsLeft on rs a)) +
  (if keepLeft then Multiset.ofList ((unmatched on ls rs).map fun a => (some a, none)) else 0) +
  (if keepRight then
    Multiset.ofList ((unmatched (fun b a => on a b) rs ls).map fun b => (none, some b)) else 0)

def loopLeft (keepLeft : Bool) (on : α → β → Bool) (ls : List α) (rs : List β) :
    List (Option α × Option β) :=
  ls.flatMap fun a =>
    let merged := pairsLeft on rs a
    if keepLeft ∧ merged.isEmpty then [(some a, none)] else merged

def loopRight (on : α → β → Bool) (ls : List α) (rs : List β) : List (Option α × Option β) :=
  rs.flatMap fun b =>
    let merged := pairsRight on ls b
    if merged.isEmpty then [(none, some b)] else merged

/-! ## The loops -/

theorem pairsLeft_isEmpty (on : α → β → Bool) (rs : List β) (a : α) :
    (pairsLeft on rs a).isEmpty = !rs.any (on a) := by
  rw [Bool.eq_iff_iff]
  simp [pairsLeft]

theorem pairsRight_isEmpty (on : α → β → Bool) (ls : List α) (b : β) :
    (pairsRight on ls b).isEmpty = !ls.any (on · b) := by
  rw [Bool.eq_iff_iff]
  simp [pairsRight]

theorem unmatched_cons (on : α → β → Bool) (a : α) (ls : List α) (rs : List β) :
    unmatched on (a :: ls) rs = if rs.any (on a) then unmatched on ls rs
      else a :: unmatched on ls rs := by
  unfold unmatched
  rw [List.filter_cons]
  cases rs.any (on a) <;> simp

theorem unmatched_congr {on on' : α → β → Bool} {ls : List α} {rs : List β}
    (h : ∀ a ∈ ls, ∀ b ∈ rs, on a b = on' a b) : unmatched on ls rs = unmatched on' ls rs := by
  refine List.filter_congr fun a ha => ?_
  have hany : rs.any (on a) = rs.any (on' a) := by
    rw [Bool.eq_iff_iff, List.any_eq_true, List.any_eq_true]
    exact exists_congr fun b => and_congr_right fun hb => by rw [h a ha b hb]
  rw [hany]

theorem loopLeft_eq (keepLeft : Bool) (on : α → β → Bool) (ls : List α) (rs : List β) :
    Multiset.ofList (loopLeft keepLeft on ls rs) = relJoin keepLeft false on ls rs := by
  induction ls with
  | nil => cases keepLeft <;> simp [loopLeft, relJoin, unmatched]
  | cons a ls ih =>
    have hstep : Multiset.ofList (loopLeft keepLeft on (a :: ls) rs) =
        Multiset.ofList (if keepLeft ∧ (pairsLeft on rs a).isEmpty then [(some a, none)]
          else pairsLeft on rs a) + Multiset.ofList (loopLeft keepLeft on ls rs) := by
      simp [loopLeft]
    rw [hstep, ih]
    simp only [relJoin, unmatched_cons, ← Multiset.cons_coe, Multiset.cons_bind, pairsLeft_isEmpty]
    cases keepLeft
    · simp
    · cases hany : rs.any (on a)
      · have hnil : pairsLeft on rs a = [] := by
          rw [← List.isEmpty_iff, pairsLeft_isEmpty, hany]
          rfl
        simp only [hnil]
        simpa using List.perm_middle.symm
      · simp

theorem flatMap_pair (on : α → β → Bool) (a : α) (rs : List β) :
    rs.flatMap (fun b => if on a b then [(some a, some b)] else []) = pairsLeft on rs a := by
  unfold pairsLeft
  induction rs with
  | nil => rfl
  | cons b rs ih =>
    rw [List.flatMap_cons, ih, List.filter_cons]
    cases on a b <;> simp

/-- The pairs of a join, gone through from the right. -/
theorem bind_pairsRight (on : α → β → Bool) (ls : List α) (rs : List β) :
    (Multiset.ofList ls).bind (fun a => Multiset.ofList (pairsLeft on rs a)) =
      (Multiset.ofList rs).bind fun b => Multiset.ofList (pairsRight on ls b) := by
  induction ls with
  | nil => simp [pairsRight]
  | cons a ls ih =>
    have hright (b : β) : Multiset.ofList (pairsRight on (a :: ls) b) =
        Multiset.ofList (if on a b then [(some a, some b)] else []) +
          Multiset.ofList (pairsRight on ls b) := by
      unfold pairsRight
      rw [List.filter_cons]
      cases on a b <;> simp
    have hleft : (Multiset.ofList rs).bind (fun b =>
        Multiset.ofList (if on a b then [(some a, some b)] else [])) =
          Multiset.ofList (pairsLeft on rs a) := by
      rw [Multiset.coe_bind, flatMap_pair]
    rw [← Multiset.cons_coe, Multiset.cons_bind, ih]
    simp only [hright, Multiset.bind_add, hleft]

theorem loopRight_eq (on : α → β → Bool) (ls : List α) (rs : List β) :
    Multiset.ofList (loopRight on ls rs) = relJoin false true on ls rs := by
  have hsplit : Multiset.ofList (loopRight on ls rs) =
      (Multiset.ofList rs).bind (fun b => Multiset.ofList (pairsRight on ls b)) +
        Multiset.ofList ((unmatched (fun b a => on a b) rs ls).map fun b => (none, some b)) := by
    induction rs with
    | nil => simp [loopRight, unmatched]
    | cons b rs ih =>
      have hstep : Multiset.ofList (loopRight on ls (b :: rs)) =
          Multiset.ofList (if (pairsRight on ls b).isEmpty then [(none, some b)]
            else pairsRight on ls b) + Multiset.ofList (loopRight on ls rs) := by
        simp [loopRight]
      rw [hstep, ih, ← Multiset.cons_coe, Multiset.cons_bind, unmatched_cons, pairsRight_isEmpty]
      cases hany : ls.any (on · b)
      · have hnil : pairsRight on ls b = [] := by
          rw [← List.isEmpty_iff, pairsRight_isEmpty, hany]
          rfl
        simp only [hnil]
        simpa using List.perm_middle.symm
      · simp
  rw [hsplit, ← bind_pairsRight]
  simp [relJoin]

/-- The loop over the right list, and then the left elements that none of it met. -/
theorem loopFull_eq (on : α → β → Bool) (ls : List α) (rs : List β) :
    Multiset.ofList (loopRight on ls rs ++ (unmatched on ls rs).map fun a => (some a, none)) =
      relJoin true true on ls rs := by
  rw [← Multiset.coe_add, loopRight_eq]
  simp only [relJoin, Bool.false_eq_true, if_false, if_true, add_zero]
  rw [add_right_comm]

/-! ## Two relations -/

theorem mem_relJoin {keepLeft keepRight : Bool} {on : α → β → Bool} {ls : List α} {rs : List β}
    {a : α} {b : β} : (some a, some b) ∈ relJoin keepLeft keepRight on ls rs ↔
      a ∈ ls ∧ b ∈ rs ∧ on a b = true := by
  cases keepLeft <;> cases keepRight <;> simp [relJoin, pairsLeft]

/-- A join tells apart what differs on a pair of its elements. -/
theorem relJoin_inj {keepLeft keepRight : Bool} {on on' : α → β → Bool} {ls : List α}
    {rs : List β} : relJoin keepLeft keepRight on ls rs = relJoin keepLeft keepRight on' ls rs ↔
      ∀ a ∈ ls, ∀ b ∈ rs, on a b = on' a b := by
  constructor
  · intro h a ha b hb
    have hiff := @mem_relJoin α β keepLeft keepRight on ls rs a b
    rw [h, mem_relJoin] at hiff
    rw [Bool.eq_iff_iff]
    simpa [ha, hb] using hiff.symm
  · intro h
    have hleft : ∀ a ∈ ls, pairsLeft on rs a = pairsLeft on' rs a := fun a ha => by
      unfold pairsLeft
      rw [List.filter_congr fun b hb => h a ha b hb]
    have hpairs : (Multiset.ofList ls).bind (fun a => Multiset.ofList (pairsLeft on rs a)) =
        (Multiset.ofList ls).bind fun a => Multiset.ofList (pairsLeft on' rs a) :=
      Multiset.bind_congr fun a ha => by rw [hleft a ha]
    rw [relJoin, relJoin, hpairs, unmatched_congr h,
      @unmatched_congr β α (fun b a => on a b) (fun b a => on' a b) rs ls fun b hb a ha => h a ha b hb]

end EBTree.Lib
