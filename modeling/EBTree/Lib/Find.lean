import EBTree.Lib.Bytes

/-!
# Searching text

`std::string::find` and `rfind` on lists, `npos` being `none`.

* `find_some`, `find_eq_some_iff`: a search finds the first place at or after its start where the
  needle stands.
* `find_append`: what is found does not depend on the text that was skipped.
* `indexOf?_skip`, `indexOf?_skip_string`: a search for a quoted string goes over unquoted text
  and over other quoted strings.
* `rfind_append`: the last such element before a place.
-/

set_option autoImplicit false

namespace EBTree

/-- The bytes of a literal. -/
def ascii (s : String) : Bytes := s.toList.map fun c => UInt8.ofNat c.toNat

variable {α : Type*} [DecidableEq α]

/-- Where `needle` first stands in a list. -/
def indexOf? (needle : List α) : List α → Option Nat
  | [] => if needle = [] then some 0 else none
  | x :: xs => if needle <+: x :: xs then some 0 else (indexOf? needle xs).map (· + 1)

/-- `s.find(needle, pos)`. -/
def find (s needle : List α) (pos : Nat) : Option Nat :=
  (indexOf? needle (s.drop pos)).map (pos + ·)

/-- `s.rfind(c, pos)`: the last `c` at or before `pos`. -/
def rfind (s : List α) (c : α) (pos : Nat) : Option Nat :=
  let front := (s.take (pos + 1)).reverse
  (indexOf? [c] front).map fun i => front.length - 1 - i

/-- `s.substr(b, e - b + 1)`. -/
def slice (s : List α) (b e : Nat) : List α := (s.drop b).take (e - b + 1)

/-! ## Searching forwards -/

theorem indexOf?_some {needle s : List α} {i : Nat} (h : indexOf? needle s = some i) :
    needle <+: s.drop i ∧ ∀ j < i, ¬ needle <+: s.drop j := by
  induction s generalizing i with
  | nil =>
    simp only [indexOf?] at h
    split at h
    · cases h
      subst needle
      exact ⟨List.nil_prefix, by simp⟩
    · cases h
  | cons x xs ih =>
    simp only [indexOf?] at h
    split at h
    · rename_i hp
      cases h
      exact ⟨hp, by simp⟩
    · rename_i hp
      cases hi : indexOf? needle xs with
      | none => simp [hi] at h
      | some k =>
        simp only [hi, Option.map_some, Option.some.injEq] at h
        obtain ⟨hk, hno⟩ := ih hi
        subst h
        refine ⟨hk, fun j hj => ?_⟩
        cases j with
        | zero => exact hp
        | succ j => exact hno j (by omega)

theorem indexOf?_eq_none {needle s : List α} (h : indexOf? needle s = none) (j : Nat) :
    ¬ needle <+: s.drop j := by
  induction s generalizing j with
  | nil =>
    simp only [indexOf?] at h
    split at h
    · cases h
    · simpa using ‹¬ needle = []›
  | cons x xs ih =>
    simp only [indexOf?] at h
    split at h
    · cases h
    · rename_i hp
      cases j with
      | zero => exact hp
      | succ j => exact ih (by simpa using h) j

theorem indexOf?_eq_some_iff {needle s : List α} {i : Nat} :
    indexOf? needle s = some i ↔ needle <+: s.drop i ∧ ∀ j < i, ¬ needle <+: s.drop j := by
  refine ⟨indexOf?_some, fun ⟨hi, hno⟩ => ?_⟩
  cases h : indexOf? needle s with
  | none => exact absurd hi (indexOf?_eq_none h i)
  | some k =>
    obtain ⟨hk, hno'⟩ := indexOf?_some h
    rcases Nat.lt_trichotomy k i with hlt | rfl | hlt
    · exact absurd hk (hno k hlt)
    · rfl
    · exact absurd hi (hno' i hlt)

/-- What a search finds. -/
theorem find_some {s needle : List α} {pos i : Nat} (h : find s needle pos = some i) :
    pos ≤ i ∧ needle <+: s.drop i ∧ ∀ j, pos ≤ j → j < i → ¬ needle <+: s.drop j := by
  unfold find at h
  cases hk : indexOf? needle (s.drop pos) with
  | none => simp [hk] at h
  | some k =>
    simp only [hk, Option.map_some, Option.some.injEq] at h
    obtain ⟨hp, hno⟩ := indexOf?_some hk
    subst h
    rw [List.drop_drop] at hp
    refine ⟨by omega, hp, fun j hj hlt => ?_⟩
    have := hno (j - pos) (by omega)
    rwa [List.drop_drop, Nat.add_sub_cancel' hj] at this

/-- A search that finds a non-empty needle stays inside the text. -/
theorem find_lt {s needle : List α} {pos i : Nat} (hn : needle ≠ [])
    (h : find s needle pos = some i) : i + needle.length ≤ s.length := by
  have hp := (find_some h).2.1.length_le
  have hlen := List.length_pos_iff.2 hn
  simp only [List.length_drop] at hp
  omega

/-- No needle stands in a text that one of its elements is not in. -/
theorem indexOf?_eq_none_of_not_mem {needle s : List α} {c : α} (hc : c ∈ needle) (hs : c ∉ s) :
    indexOf? needle s = none := by
  cases h : indexOf? needle s with
  | none => rfl
  | some i => exact absurd (List.mem_of_mem_drop ((indexOf?_some h).1.subset hc)) hs

/-- One element: where it first stands. -/
theorem indexOf?_singleton_append {c : α} {pre post : List α} (h : c ∉ pre) :
    indexOf? [c] (pre ++ c :: post) = some pre.length := by
  induction pre with
  | nil => simp [indexOf?]
  | cons x pre ih =>
    simp only [List.mem_cons, not_or] at h
    have hne : ¬ [c] <+: x :: (pre ++ c :: post) := by
      rw [List.cons_prefix_cons]
      exact fun hx => h.1 hx.1
    rw [List.cons_append, indexOf?, if_neg hne, ih h.2]
    rfl

/-- A needle at the front is found there. -/
theorem indexOf?_self_append (needle s : List α) : indexOf? needle (needle ++ s) = some 0 :=
  indexOf?_eq_some_iff.2 ⟨List.prefix_append _ _, by simp⟩

/-- A needle that stands somewhere is found. -/
theorem indexOf?_isSome {needle s : List α} (h : needle <:+: s) : (indexOf? needle s).isSome := by
  obtain ⟨a, b, rfl⟩ := h
  cases hi : indexOf? needle (a ++ needle ++ b) with
  | some i => rfl
  | none =>
    refine absurd ?_ (indexOf?_eq_none hi a.length)
    rw [List.append_assoc, List.drop_left]
    exact List.prefix_append _ _

/-- A text where no needle starts is skipped. -/
theorem indexOf?_append {needle a s : List α}
    (h : ∀ j < a.length, ¬ needle <+: (a ++ s).drop j) :
    indexOf? needle (a ++ s) = (indexOf? needle s).map (a.length + ·) := by
  induction a with
  | nil => simp
  | cons x a ih =>
    have h0 : ¬ needle <+: x :: (a ++ s) := h 0 (by simp)
    have hrest : ∀ j < a.length, ¬ needle <+: (a ++ s).drop j :=
      fun j hj => h (j + 1) (by simpa using hj)
    rw [List.cons_append, indexOf?, if_neg h0, ih hrest, Option.map_map]
    congr 1
    funext i
    simp only [Function.comp, List.length_cons]
    omega

/-- Text without the needle's first element is skipped. -/
theorem indexOf?_skip {q : α} {r a s : List α} (h : q ∉ a) :
    indexOf? (q :: r) (a ++ s) = (indexOf? (q :: r) s).map (a.length + ·) := by
  apply indexOf?_append
  intro j hj hp
  rw [List.drop_append_of_le_length (by omega), List.drop_eq_getElem_cons hj, List.cons_append,
    List.cons_prefix_cons] at hp
  exact h (hp.1 ▸ List.getElem_mem hj)

/-- A string between quotes `q`, with `c` behind it, is skipped by a search for another such
string, or for one with something else behind it. -/
theorem indexOf?_skip_string {q c : α} {k r w s : List α} (hk : q ∉ k) (hw : q ∉ w)
    (hc : ¬ [c] <+: k ++ q :: r) (hne : ¬ (k = w ∧ r <+: c :: s)) :
    indexOf? (q :: (k ++ q :: r)) (q :: (w ++ q :: c :: s)) =
      (indexOf? (q :: (k ++ q :: r)) (c :: s)).map (w.length + 2 + ·) := by
  have hsplit : q :: (w ++ q :: c :: s) = (q :: (w ++ [q])) ++ c :: s := by simp
  rw [hsplit, indexOf?_append]
  · simp
  · intro j hj hp
    rw [← hsplit] at hp
    rcases j with _ | j
    · -- at the opening quote
      rw [List.drop_zero, List.cons_prefix_cons] at hp
      refine hne ?_
      have key : ∀ k w : List α, q ∉ k → q ∉ w → k ++ q :: r <+: w ++ q :: c :: s →
          k = w ∧ r <+: c :: s := by
        intro k
        induction k with
        | nil =>
          intro w _ hw h
          cases w with
          | nil => exact ⟨rfl, (List.cons_prefix_cons.1 h).2⟩
          | cons y w =>
            rw [List.nil_append, List.cons_append, List.cons_prefix_cons] at h
            exact absurd (h.1 ▸ List.mem_cons_self) hw
        | cons x k ih =>
          intro w hk hw h
          cases w with
          | nil =>
            rw [List.nil_append, List.cons_append, List.cons_prefix_cons] at h
            exact absurd (h.1 ▸ List.mem_cons_self) hk
          | cons y w =>
            rw [List.cons_append, List.cons_append, List.cons_prefix_cons] at h
            obtain ⟨rfl, h⟩ := h
            obtain ⟨hkw, hr⟩ := ih w (fun hm => hk (List.mem_cons_of_mem _ hm))
              (fun hm => hw (List.mem_cons_of_mem _ hm)) h
            exact ⟨congrArg _ hkw, hr⟩
      exact key k w hk hw hp.2
    · rw [List.drop_succ_cons] at hp
      simp only [List.length_cons, List.length_append, List.length_nil] at hj
      rcases Nat.lt_or_ge j w.length with hlt | hge
      · -- inside the string
        rw [List.drop_append_of_le_length (by omega), List.drop_eq_getElem_cons hlt,
          List.cons_append, List.cons_prefix_cons] at hp
        exact hw (hp.1 ▸ List.getElem_mem hlt)
      · -- at the closing quote
        obtain rfl : j = w.length := by omega
        rw [List.drop_left, List.cons_prefix_cons] at hp
        refine hc ?_
        obtain ⟨t, ht⟩ := hp.2
        cases hkr : k ++ q :: r with
        | nil => simp at hkr
        | cons x l =>
          rw [hkr, List.cons_append, List.cons.injEq] at ht
          rw [ht.1]
          exact List.cons_prefix_cons.2 ⟨rfl, List.nil_prefix⟩

/-- A search goes through the text before its start. -/
theorem find_append (pre s needle : List α) (pos : Nat) :
    find (pre ++ s) needle (pre.length + pos) = (find s needle pos).map (pre.length + ·) := by
  have h : (pre ++ s).drop (pre.length + pos) = s.drop pos := by
    rw [List.drop_append]; simp
  unfold find
  rw [h, Option.map_map]
  congr 1
  funext i
  simp only [Function.comp]
  omega

theorem find_length_add (pre s needle : List α) :
    find (pre ++ s) needle pre.length = (indexOf? needle s).map (pre.length + ·) := by
  simp [find]

/-- Up to the first `c` behind a place: what `c` ends. -/
theorem slice_find_singleton {s : List α} {c : α} {b e : Nat} (h : find s [c] b = some e) :
    ∃ front, slice s b e = front ++ [c] ∧ c ∉ front := by
  obtain ⟨hbe, hc, hno⟩ := find_some h
  obtain ⟨post, hpost⟩ := hc
  have hsplit : s.drop b = (s.drop b).take (e - b) ++ c :: post := by
    conv_lhs => rw [← List.take_append_drop (e - b) (s.drop b)]
    rw [List.drop_drop, Nat.add_sub_cancel' hbe, ← hpost]
    rfl
  have hlen : ((s.drop b).take (e - b)).length = e - b := by
    have := find_lt (by simp) h
    simp only [List.length_singleton] at this
    simp
    omega
  refine ⟨(s.drop b).take (e - b), ?_, fun hm => ?_⟩
  · unfold slice
    conv_lhs => rw [hsplit]
    rw [show e - b + 1 = ((s.drop b).take (e - b)).length + 1 by omega,
      List.take_length_add_append]
    rfl
  · obtain ⟨i, hi, hget⟩ := List.getElem_of_mem hm
    rw [hlen] at hi
    refine hno (b + i) (by omega) (by omega) ⟨s.drop (b + i + 1), ?_⟩
    have hlt : b + i < s.length := by
      have := find_lt (by simp) h
      omega
    rw [List.drop_eq_getElem_cons hlt]
    simp only [List.getElem_take, List.getElem_drop] at hget
    rw [hget]
    rfl

omit [DecidableEq α] in
/-- A slice lies in the text up to its end. -/
theorem mem_take_of_mem_slice {s : List α} {b e : Nat} {x : α} (hbe : b ≤ e)
    (h : x ∈ slice s b e) : x ∈ s.take (e + 1) := by
  unfold slice at h
  rw [show e - b + 1 = e + 1 - b by omega, ← List.drop_take] at h
  exact List.mem_of_mem_drop h

/-! ## Searching backwards -/

theorem rfind_le {s : List α} {c : α} {pos i : Nat} (h : rfind s c pos = some i) : i ≤ pos := by
  unfold rfind at h
  simp only [Option.map_eq_some_iff] at h
  obtain ⟨k, -, rfl⟩ := h
  simp only [List.length_reverse, List.length_take]
  omega

/-- The last `c` before a place, with none of them in between. -/
theorem rfind_append {c x : α} {pre mid post : List α} (h : c ∉ mid) (hx : x ≠ c) :
    rfind (pre ++ c :: (mid ++ x :: post)) c (pre.length + mid.length + 1) =
      some pre.length := by
  have htake : (pre ++ c :: (mid ++ x :: post)).take (pre.length + mid.length + 1 + 1) =
      pre ++ c :: (mid ++ [x]) := by
    have hsplit : pre ++ c :: (mid ++ x :: post) = (pre ++ c :: (mid ++ [x])) ++ post := by simp
    rw [hsplit]
    apply List.take_left'
    simp
    omega
  have hrev : (pre ++ c :: (mid ++ [x])).reverse = (x :: mid.reverse) ++ c :: pre.reverse := by
    simp
  have hmem : c ∉ x :: mid.reverse := by
    simpa using ⟨hx.symm, h⟩
  unfold rfind
  simp only [htake, hrev, indexOf?_singleton_append hmem]
  simp only [Option.map_some, List.length_append, List.length_reverse, List.length_cons,
    Option.some.injEq]
  omega

end EBTree
