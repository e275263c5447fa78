import EBTree.Lib.Bytes

/-!
# LIKE and GLOB

`like_match.cc`. A text and a pattern are what is left of them from the two indices of the loops
on; the loop that tries every place behind a wildcard goes over the tails of the text.
-/

set_option autoImplicit false

namespace EBTree.Sql

/-- `LikeMatchImpl`. -/
def likeMatchImpl (escape : UInt8) : Bytes → Bytes → Bool
  | [], text => text = []
  | p :: rest, text =>
    -- an escape at the end of the pattern escapes nothing
    if p = escape ∧ rest ≠ [] then
      match rest, text with
      | next :: after, t :: text => t = next && likeMatchImpl escape after text
      | _, _ => false
    else if p = 37 then rest = [] || text.tails.any fun tail => likeMatchImpl escape rest tail
    else if p = 95 then
      match text with
      | [] => false
      | _ :: text => likeMatchImpl escape rest text
    else
      match text with
      | [] => false
      | t :: text => t = p && likeMatchImpl escape rest text

/-- `SqlLikeMatch`. -/
def sqlLikeMatch (text pattern : Bytes) (escape : UInt8) : Bool :=
  likeMatchImpl escape pattern text

/-- The set that an opening bracket begins, and the pattern behind it; `none` where it is not
closed. -/
def bracketSet : Bytes → Option (Bytes × Bytes)
  | [] => none
  | c :: rest => if c = 93 then some ([], rest) else (bracketSet rest).map fun (s, p) => (c :: s, p)

theorem length_bracketSet {p set after : Bytes} (h : bracketSet p = some (set, after)) :
    after.length < p.length := by
  induction p generalizing set with
  | nil => cases h
  | cons c rest ih =>
    rw [bracketSet] at h
    split at h
    · cases h
      exact Nat.lt_succ_self _
    · obtain ⟨⟨s, q⟩, hrest, heq⟩ := Option.map_eq_some_iff.1 h
      cases heq
      exact Nat.lt_succ_of_lt (ih hrest)

/-- `GlobMatchImpl`. -/
def globMatchImpl : Bytes → Bytes → Bool
  | [], text => text = []
  | p :: rest, text =>
    if p = 42 then rest = [] || text.tails.any fun tail => globMatchImpl rest tail
    else if p = 63 then
      match text with
      | [] => false
      | _ :: text => globMatchImpl rest text
    else if p = 91 then
      match _h : bracketSet rest, text with
      | some (set, after), t :: text => set.contains t && globMatchImpl after text
      | _, _ => false
    else
      match text with
      | [] => false
      | t :: text => t = p && globMatchImpl rest text
termination_by pattern => pattern.length
decreasing_by
  · exact Nat.lt_succ_self _
  · exact Nat.lt_succ_self _
  · exact Nat.lt_succ_of_lt (length_bracketSet _h)
  · exact Nat.lt_succ_self _

/-- `SqlGlobMatch`. -/
def sqlGlobMatch (text pattern : Bytes) : Bool := globMatchImpl pattern text

end EBTree.Sql
