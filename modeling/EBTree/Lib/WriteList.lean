import EBTree.Lib.SortedMap

/-!
# Lists of writes

A list of writes and erasures, applied to a map one after the other: a key holds what was written to
it last, and a list applied over the map another one left gives what it gives alone exactly if it
covers the keys that are there.
-/

set_option autoImplicit false

namespace EBTree.Lib

variable {K V : Type} [LinearOrder K]

/-- `none` erases the key. -/
def applyWrite (m : SortedMap K V) (w : K × Option V) : SortedMap K V :=
  match w.2 with
  | none => m.erase w.1
  | some v => m.insert w.1 v

def applyWrites (m : SortedMap K V) (ws : List (K × Option V)) : SortedMap K V :=
  ws.foldl applyWrite m

/-- The last write to a key. -/
def lastWrite (ws : List (K × Option V)) (k : K) : Option (Option V) :=
  ((ws.filter fun w => w.1 = k).getLast?).map (·.2)

theorem find?_applyWrite (m : SortedMap K V) (w : K × Option V) (k : K) :
    (applyWrite m w).find? k = if w.1 = k then w.2 else m.find? k := by
  obtain ⟨k', v⟩ := w
  cases v with
  | none => simp [applyWrite, eq_comm]
  | some v => simp [applyWrite, eq_comm]

@[simp] theorem applyWrites_nil (m : SortedMap K V) : applyWrites m [] = m := rfl

@[simp] theorem applyWrites_cons (m : SortedMap K V) (w : K × Option V) (ws : List (K × Option V)) :
    applyWrites m (w :: ws) = applyWrites (applyWrite m w) ws := rfl

theorem lastWrite_cons (w : K × Option V) (ws : List (K × Option V)) (k : K) :
    lastWrite (w :: ws) k = (lastWrite ws k).or (if w.1 = k then some w.2 else none) := by
  unfold lastWrite
  by_cases h : w.1 = k
  · rw [List.filter_cons_of_pos (by simpa using h), if_pos h]
    cases hws : ws.filter fun w => w.1 = k with
    | nil => rfl
    | cons w' ws' =>
      rw [List.getLast?_cons_cons]
      cases hl : (w' :: ws').getLast? with
      | none => simp at hl
      | some x => rfl
  · rw [List.filter_cons_of_neg (by simpa using h), if_neg h, Option.or_none]

theorem lastWrite_eq_none {ws : List (K × Option V)} {k : K} :
    lastWrite ws k = none ↔ ∀ w ∈ ws, w.1 ≠ k := by
  simp [lastWrite]

/-- **A key holds what was written to it last.** -/
theorem find?_applyWrites (m : SortedMap K V) (ws : List (K × Option V)) (k : K) :
    (applyWrites m ws).find? k = (lastWrite ws k).getD (m.find? k) := by
  induction ws generalizing m with
  | nil => rfl
  | cons w ws ih =>
    rw [applyWrites_cons, ih, lastWrite_cons, find?_applyWrite]
    cases lastWrite ws k with
    | some v => rfl
    | none =>
      rw [Option.none_or]
      split <;> rfl

/-- **What an earlier list left** is gone exactly if the later one writes to every key that is there. -/
theorem applyWrites_over_iff (m : SortedMap K V) (ws : List (K × Option V)) :
    applyWrites m ws = applyWrites SortedMap.empty ws ↔
      ∀ k v, m.find? k = some v → ∃ w ∈ ws, w.1 = k := by
  constructor
  · intro h k v hv
    by_contra hno
    have hnone : lastWrite ws k = none :=
      lastWrite_eq_none.2 fun w hw he => hno ⟨w, hw, he⟩
    have hk := congrArg (·.find? k) h
    simp only [find?_applyWrites, hnone, Option.getD_none, hv, SortedMap.find?_empty] at hk
    cases hk
  · intro h
    refine SortedMap.ext_find? fun k => ?_
    rw [find?_applyWrites, find?_applyWrites]
    cases hl : lastWrite ws k with
    | some v => rfl
    | none =>
      rw [Option.getD_none, Option.getD_none, SortedMap.find?_empty]
      cases hm : m.find? k with
      | none => rfl
      | some v =>
        obtain ⟨w, hw, he⟩ := h k v hm
        exact absurd he (lastWrite_eq_none.1 hl w hw)

/-- A map that a list of writes made of nothing. -/
theorem find?_applyWrites_empty {ws : List (K × Option V)} {k : K} {v : V} :
    (applyWrites SortedMap.empty ws).find? k = some v ↔ lastWrite ws k = some (some v) := by
  rw [find?_applyWrites, SortedMap.find?_empty]
  cases lastWrite ws k <;> simp

end EBTree.Lib
