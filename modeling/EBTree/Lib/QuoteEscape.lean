import EBTree.Lib.JsonLine

/-!
# Escaping quotes and backslashes

The escaping that puts a backslash in front of every quote and every backslash, and does nothing
else.

* `escaped_quoteEscape`: what comes of it may stand between quotes.
* `quoteEscape_of_plain`, `length_lt_quoteEscape`: text with neither stays as it is, text with a
  backslash gets longer.
-/

set_option autoImplicit false

namespace EBTree

def quoteEscapeByte (c : UInt8) : Bytes :=
  if c = 34 then [92, 34] else if c = 92 then [92, 92] else [c]

def quoteEscape (s : Bytes) : Bytes := s.flatMap quoteEscapeByte

theorem quoteEscape_cons (c : UInt8) (s : Bytes) :
    quoteEscape (c :: s) = quoteEscapeByte c ++ quoteEscape s := rfl

theorem quoteEscape_append (s t : Bytes) : quoteEscape (s ++ t) = quoteEscape s ++ quoteEscape t :=
  List.flatMap_append

theorem escaped_quoteEscape (s : Bytes) : Escaped (quoteEscape s) := by
  induction s with
  | nil => exact .nil
  | cons c s ih =>
    rw [quoteEscape_cons]
    refine Escaped.append ?_ ih
    unfold quoteEscapeByte
    split
    · exact .pair .nil
    split
    · exact .pair .nil
    · exact .plain ‹_› ‹_› .nil

theorem quoteEscape_of_plain {s : Bytes} (h : 34 ∉ s) (h' : 92 ∉ s) : quoteEscape s = s := by
  induction s with
  | nil => rfl
  | cons c s ih =>
    simp only [List.mem_cons, not_or] at h h'
    rw [quoteEscape_cons, ih h.2 h'.2, quoteEscapeByte, if_neg (Ne.symm h.1),
      if_neg (Ne.symm h'.1)]
    rfl

/-- Nothing but backslashes is put in. -/
theorem mem_quoteEscape {s : Bytes} {c : UInt8} (h : c ∈ quoteEscape s) : c ∈ s ∨ c = 92 := by
  induction s with
  | nil => cases h
  | cons x s ih =>
    rw [quoteEscape_cons, List.mem_append] at h
    rcases h with h | h
    · unfold quoteEscapeByte at h
      split at h
      · simp only [List.mem_cons, List.not_mem_nil, or_false] at h
        rcases h with rfl | rfl
        · exact .inr rfl
        · exact .inl (by simp [*])
      split at h
      · simp only [List.mem_cons, List.not_mem_nil, or_false, or_self] at h
        exact .inr h
      · rw [List.mem_singleton.1 h]
        exact .inl List.mem_cons_self
    · exact (ih h).imp_left (List.mem_cons_of_mem _)

theorem not_mem_quoteEscape {s : Bytes} {c : UInt8} (h : c ∉ s) (hc : c ≠ 92) :
    c ∉ quoteEscape s := by
  intro hm
  rcases mem_quoteEscape hm with hm | hm
  · exact h hm
  · exact hc hm

theorem mem_quoteEscape_of_mem {s : Bytes} {c : UInt8} (h : c ∈ s) : c ∈ quoteEscape s := by
  refine List.mem_flatMap.2 ⟨c, h, ?_⟩
  unfold quoteEscapeByte
  split
  · simp [*]
  split
  · simp [*]
  · exact List.mem_singleton_self c

theorem length_le_quoteEscape (s : Bytes) : s.length ≤ (quoteEscape s).length := by
  induction s with
  | nil => exact Nat.le_refl _
  | cons c s ih =>
    have hc : 1 ≤ (quoteEscapeByte c).length := by
      unfold quoteEscapeByte
      split
      · decide
      split
      · decide
      · exact Nat.le_refl _
    rw [quoteEscape_cons, List.length_append, List.length_cons]
    omega

/-- A backslash is written twice. -/
theorem length_lt_quoteEscape {s : Bytes} (h : 92 ∈ s) : s.length < (quoteEscape s).length := by
  obtain ⟨a, b, rfl⟩ := List.append_of_mem h
  have ha := length_le_quoteEscape a
  have hb := length_le_quoteEscape b
  have hback : (quoteEscapeByte 92).length = 2 := by decide
  rw [quoteEscape_append, quoteEscape_cons]
  simp only [List.length_append, List.length_cons, hback]
  omega

end EBTree
