import Mathlib.Data.List.Basic
import Mathlib.Data.List.Perm.Subperm
import Mathlib.Order.Lattice

/-!
# What a sort may leave

A sort that need not be stable leaves some order of its elements in which none is less than one
before it (`SortedBy`). `sortedBy_forall_iff` says what holds of every such outcome: a relation
between all earlier and later elements does exactly if it holds of any two elements that the sort
may leave in that order.
-/

set_option autoImplicit false

namespace EBTree.Lib

variable {α : Type}

/-- An outcome of a sort by `less`. -/
structure SortedBy (less : α → α → Bool) (l out : List α) : Prop where
  perm : out.Perm l
  sorted : out.Pairwise fun a b => less b a = false

/-- A comparison that a sort may be given: what is not less is an order. -/
structure IsSortOrder (less : α → α → Bool) : Prop where
  trans : ∀ a b c, less b a = false → less c b = false → less c a = false
  total : ∀ a b, less a b = true → less b a = false

/-- A comparison by a text, a number, or anything else that is ordered. -/
theorem IsSortOrder.of_key {κ : Type} [LinearOrder κ] {less : α → α → Bool} (key : α → κ)
    (h : ∀ a b, less a b = true ↔ key a < key b) : IsSortOrder less where
  trans a b c hab hbc := by
    simp only [← Bool.not_eq_true, h, not_lt] at *
    exact hab.trans hbc
  total a b hab := by
    simp only [← Bool.not_eq_true, h, not_lt] at *
    exact hab.le

/-- The same order downwards. -/
theorem IsSortOrder.reverse {less : α → α → Bool} (h : IsSortOrder less) :
    IsSortOrder fun a b => less b a where
  trans a b c hab hbc := h.trans c b a hbc hab
  total a b hab := h.total b a hab

/-- An order by a key first, and by another order where the keys are equal. -/
theorem IsSortOrder.lex {κ : Type} [LinearOrder κ] {less less' : α → α → Bool}
    (h : IsSortOrder less) (key : α → κ)
    (h' : ∀ a b, less' a b = true ↔ key a < key b ∨ key a = key b ∧ less a b = true) :
    IsSortOrder less' where
  trans a b c hab hbc := by
    rw [← Bool.not_eq_true, h', not_or, not_lt] at *
    refine ⟨hab.1.trans hbc.1, fun ⟨hca, hl⟩ => ?_⟩
    -- the keys in between are the same
    have hba : key b = key a := le_antisymm (hbc.1.trans hca.le) hab.1
    have h1 : less b a = false := by simpa [hba] using hab.2
    have h2 : less c b = false := by simpa [hca, hba] using hbc.2
    simp [h.trans a b c h1 h2] at hl
  total a b hab := by
    rw [← Bool.not_eq_true, h', not_or, not_lt]
    rcases (h' a b).1 hab with hlt | ⟨heq, hl⟩
    · exact ⟨hlt.le, fun hba => absurd hba.1 hlt.ne'⟩
    · exact ⟨heq.le, fun hba => by simp [h.total a b hl] at hba⟩

variable {less : α → α → Bool}

theorem mergeSort_sortedBy (h : IsSortOrder less) (l : List α) :
    SortedBy less l (l.mergeSort fun a b => !less b a) where
  perm := List.mergeSort_perm _ _
  sorted := by
    have hp : (l.mergeSort fun a b => !less b a).Pairwise fun a b => !less b a :=
      List.pairwise_mergeSort (fun a b c hab hbc => by
        simp only [Bool.not_eq_true'] at *
        exact h.trans a b c hab hbc)
      (fun a b => by
        cases hab : less b a
        · rfl
        · simp [h.total b a hab]) l
    exact hp.imp fun hab => by simpa using hab

/-- Two elements that the sort may leave in this order are so left in some outcome. -/
theorem exists_sortedBy_pair (h : IsSortOrder less) {l : List α} {a b : α}
    (hsub : [a, b].Subperm l) (hab : less b a = false) :
    ∃ out, SortedBy less l out ∧ [a, b].Sublist out := by
  obtain ⟨l', hperm, hl'⟩ := List.subperm_iff.1 hsub
  have hs := mergeSort_sortedBy h l'
  refine ⟨_, ⟨hs.perm.trans hperm, hs.sorted⟩, ?_⟩
  refine List.pair_sublist_mergeSort ?_ ?_ (by simpa using hab) hl'
  · intro a b c hab hbc
    simp only [Bool.not_eq_true'] at *
    exact h.trans a b c hab hbc
  · intro a b
    cases hab : less b a
    · rfl
    · simp [h.total b a hab]

/-- Two elements of which neither is less may stand next to each other, either way round. -/
theorem exists_sortedBy_tie (h : IsSortOrder less) {l rest : List α} {a b : α}
    (hperm : (a :: b :: rest).Perm l) (hab : less a b = false) (hba : less b a = false) :
    ∃ pre post, SortedBy less l (pre ++ a :: b :: post) ∧ SortedBy less l (pre ++ b :: a :: post) := by
  have hs := mergeSort_sortedBy h rest
  generalize rest.mergeSort (fun a b => !less b a) = s at hs
  let pre := s.filter (less · a)
  let post := s.filter fun c => !less c a
  have hsplit : (pre ++ post).Perm rest := (List.filter_append_perm _ s).trans hs.perm
  -- what is not less than either of two that are not less than each other
  have hsame : ∀ c, less c a = false ↔ less c b = false := fun c =>
    ⟨fun hc => h.trans b a c hab hc, fun hc => h.trans a b c hba hc⟩
  have hpre : ∀ c ∈ pre, less a c = false ∧ less b c = false := by
    intro c hc
    have hca : less c a = true := (List.mem_filter.1 hc).2
    have hcb : less c b = true := by
      rw [← Bool.not_eq_false, ← hsame, hca]
      decide
    exact ⟨h.total c a hca, h.total c b hcb⟩
  have hpost : ∀ c ∈ post, less c a = false ∧ less c b = false := by
    intro c hc
    have hca : less c a = false := by simpa using (List.mem_filter.1 hc).2
    exact ⟨hca, (hsame c).1 hca⟩
  have hcross : ∀ c ∈ pre, ∀ d ∈ post, less d c = false := fun c hc d hd =>
    h.trans c a d (hpre c hc).1 (hpost d hd).1
  have hsorted : ∀ u v, less v u = false → (∀ c ∈ pre, less u c = false ∧ less v c = false) →
      (∀ c ∈ post, less c u = false ∧ less c v = false) →
      (pre ++ u :: v :: post).Pairwise fun a b => less b a = false := by
    intro u v huv hu hv
    refine List.pairwise_append.2 ⟨hs.sorted.filter _, ?_, fun c hc d hd => ?_⟩
    · refine List.pairwise_cons.2 ⟨fun d hd => ?_, List.pairwise_cons.2
        ⟨fun d hd => (hv d hd).2, hs.sorted.filter _⟩⟩
      rcases List.mem_cons.1 hd with rfl | hd
      · exact huv
      · exact (hv d hd).1
    · rcases List.mem_cons.1 hd with rfl | hd
      · exact (hu c hc).1
      · rcases List.mem_cons.1 hd with rfl | hd
        · exact (hu c hc).2
        · exact hcross c hc d hd
  have hmiddle : ∀ u v, (u :: v :: rest).Perm l → (pre ++ u :: v :: post).Perm l := by
    intro u v hl
    refine List.perm_middle.trans (.trans (.cons u List.perm_middle) ?_)
    exact ((hsplit.cons v).cons u).trans hl
  exact ⟨pre, post, ⟨hmiddle a b hperm, hsorted a b hba hpre hpost⟩,
    ⟨hmiddle b a ((List.Perm.swap a b rest).trans hperm),
      hsorted b a hab (fun c hc => (hpre c hc).symm) fun c hc => (hpost c hc).symm⟩⟩

/-- A relation holds between earlier and later elements of every outcome exactly if it holds of any
two that may come in this order. -/
theorem sortedBy_forall_iff (h : IsSortOrder less) (R : α → α → Prop) (l : List α) :
    (∀ out, SortedBy less l out → out.Pairwise R) ↔
      ∀ a b, [a, b].Subperm l → less b a = false → R a b := by
  constructor
  · intro hall a b hsub hab
    obtain ⟨out, hout, hpair⟩ := exists_sortedBy_pair h hsub hab
    exact List.pairwise_iff_forall_sublist.1 (hall out hout) hpair
  · intro hall out hout
    rw [List.pairwise_iff_forall_sublist]
    intro a b hpair
    exact hall a b (hpair.subperm.trans hout.perm.subperm)
      (List.pairwise_iff_forall_sublist.1 hout.sorted hpair)

end EBTree.Lib
