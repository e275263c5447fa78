import Mathlib.Order.BoundedOrder.Basic
import Mathlib.Order.MinMax

/-!
# Writing ahead

A component logs records, syncs its log, applies records elsewhere and publishes a bound of what it
made durable. A `Ledger` keeps which records are in the log and which were in it when it was synced.

* `Ledger.Ordered`: along some effects, only synced records are applied, and a published bound is
  covered by one.
* `ordered_append`, `afterAll_append`: effects one after another.
* `Known.afterAll`, `Covers.afterAll`: what is known and what is covered stays so while the log is
  not opened anew.
-/

set_option autoImplicit false

namespace EBTree.Lib

/-- What a component does to its log and to what it keeps beside it. -/
inductive LogEffect (α : Type)
  /-- These records are in the log: appended to it, or read from it. -/
  | log (xs : List α)
  | sync
  | apply (x : α)
  | publish (x : α)

structure Ledger (α : Type) where
  logged : List α
  synced : List α

namespace Ledger

variable {α : Type}

def after (l : Ledger α) : LogEffect α → Ledger α
  | .log xs => { l with logged := xs ++ l.logged }
  | .sync => { l with synced := l.logged ++ l.synced }
  | .apply _ | .publish _ => l

def afterAll (l : Ledger α) (es : List (LogEffect α)) : Ledger α := es.foldl after l

/-- The log was lost or closed, and is opened: what is in it is not known until it is read. -/
def reopened (l : Ledger α) : Ledger α := { l with logged := [] }

/-- The record is in the log, or was when the log was synced. -/
def Known (l : Ledger α) (x : α) : Prop := x ∈ l.logged ∨ x ∈ l.synced

@[simp] theorem afterAll_nil (l : Ledger α) : l.afterAll [] = l := rfl

@[simp] theorem afterAll_cons (l : Ledger α) (e : LogEffect α) (es : List (LogEffect α)) :
    l.afterAll (e :: es) = (l.after e).afterAll es := rfl

theorem afterAll_append (l : Ledger α) (es es' : List (LogEffect α)) :
    l.afterAll (es ++ es') = (l.afterAll es).afterAll es' := List.foldl_append

theorem synced_after {l : Ledger α} {x : α} (h : x ∈ l.synced) (e : LogEffect α) :
    x ∈ (l.after e).synced := by
  cases e with
  | sync => exact List.mem_append_right _ h
  | log xs => exact h
  | apply y => exact h
  | publish y => exact h

theorem Known.after {l : Ledger α} {x : α} (h : l.Known x) (e : LogEffect α) : (l.after e).Known x := by
  rcases h with h | h
  · left
    cases e with
    | log xs => exact List.mem_append_right _ h
    | sync => exact h
    | apply y => exact h
    | publish y => exact h
  · exact .inr (synced_after h e)

theorem Known.afterAll {l : Ledger α} {x : α} (h : l.Known x) (es : List (LogEffect α)) :
    (l.afterAll es).Known x := by
  induction es generalizing l with
  | nil => exact h
  | cons e es ih => exact ih (h.after e)

/-- A sync takes all that is known. -/
theorem Known.sync {l : Ledger α} {x : α} (h : l.Known x) : x ∈ (l.after .sync).synced :=
  List.mem_append.2 h

section
variable [LinearOrder α] [OrderBot α]

/-- The bound is at most a record that was synced, or says nothing. -/
def Covers (l : Ledger α) (x : α) : Prop := x = ⊥ ∨ ∃ y ∈ l.synced, x ≤ y

theorem covers_bot (l : Ledger α) : l.Covers ⊥ := .inl rfl

theorem covers_of_mem {l : Ledger α} {x : α} (h : x ∈ l.synced) : l.Covers x := .inr ⟨x, h, le_rfl⟩

theorem Covers.max {l : Ledger α} {x y : α} (hx : l.Covers x) (hy : l.Covers y) :
    l.Covers (max x y) := by
  rcases max_choice x y with h | h
  · rwa [h]
  · rwa [h]

theorem Covers.after {l : Ledger α} {x : α} (h : l.Covers x) (e : LogEffect α) :
    (l.after e).Covers x := by
  refine h.imp id ?_
  rintro ⟨y, hy, hle⟩
  exact ⟨y, synced_after hy e, hle⟩

theorem Covers.afterAll {l : Ledger α} {x : α} (h : l.Covers x) (es : List (LogEffect α)) :
    (l.afterAll es).Covers x := by
  induction es generalizing l with
  | nil => exact h
  | cons e es ih => exact ih (h.after e)

theorem Covers.reopened {l : Ledger α} {x : α} (h : l.Covers x) : l.reopened.Covers x := h

/-- What an effect must find: a record is applied when it was synced, a bound published when it is
covered. -/
def Allows (l : Ledger α) : LogEffect α → Prop
  | .apply x => x ∈ l.synced
  | .publish x => l.Covers x
  | .log _ | .sync => True

/-- Each of the effects finds what it must. -/
def Ordered (l : Ledger α) : List (LogEffect α) → Prop
  | [] => True
  | e :: es => l.Allows e ∧ (l.after e).Ordered es

theorem ordered_append {l : Ledger α} {es es' : List (LogEffect α)} :
    l.Ordered (es ++ es') ↔ l.Ordered es ∧ (l.afterAll es).Ordered es' := by
  induction es generalizing l with
  | nil => simp [Ordered]
  | cons e es ih => simp [Ordered, ih, and_assoc]

end

end Ledger
end EBTree.Lib
