import Mathlib.Data.List.Basic
import Mathlib.Tactic.Common

/-!
# Hash trees

A tree over texts: a leaf hashes a text behind one tag, a node hashes two hashes behind another,
and a level without a partner for its last node pairs it with itself. `Hashing` is any hash of
texts to texts of one length, with two tags that no text can confuse.

* `climb_siblings`: **complete**: the siblings of a leaf lead from it to the root.
* `sound`: **sound**: a path that ends at the root begins at one of the leaves, or two of the texts
  that were hashed (`treeTexts`, `climbTexts`) have one hash.
-/

set_option autoImplicit false

namespace EBTree.Lib

/-- A hash with the tags of leaves and nodes. -/
structure Hashing (α : Type) where
  hash : List α → List α
  leafTag : List α
  nodeTag : List α
  width : Nat
  length_hash : ∀ s, (hash s).length = width
  tags_apart : ∀ s t, leafTag ++ s ≠ nodeTag ++ t

namespace Hashing

variable {α : Type} (H : Hashing α)

def leaf (s : List α) : List α := H.hash (H.leafTag ++ s)

def node (l r : List α) : List α := H.hash (H.nodeTag ++ l ++ r)

/-! ## The tree -/

/-- What is hashed for the level above. -/
def levelTexts : List (List α) → List (List α)
  | [] => []
  | [x] => [H.nodeTag ++ x ++ x]
  | x :: y :: rest => (H.nodeTag ++ x ++ y) :: levelTexts rest

def nextLevel (level : List (List α)) : List (List α) := (H.levelTexts level).map H.hash

/-- The root, when there are enough rounds. -/
def top : Nat → List (List α) → List α
  | 0, level => level.headD []
  | rounds + 1, level =>
    if 1 < level.length then top rounds (H.nextLevel level) else level.headD []

/-- What is hashed above a level. -/
def treeTexts : Nat → List (List α) → List (List α)
  | 0, _ => []
  | rounds + 1, level =>
    if 1 < level.length then H.levelTexts level ++ treeTexts rounds (H.nextLevel level) else []

@[simp] theorem length_levelTexts (level : List (List α)) :
    (H.levelTexts level).length = (level.length + 1) / 2 := by
  induction level using levelTexts.induct with
  | case1 => simp [levelTexts]
  | case2 => simp [levelTexts]
  | case3 x y rest ih =>
    simp only [levelTexts, List.length_cons, ih]
    omega

@[simp] theorem length_nextLevel (level : List (List α)) :
    (H.nextLevel level).length = (level.length + 1) / 2 := by
  rw [nextLevel, List.length_map, length_levelTexts]

@[simp] theorem nextLevel_cons_cons (x y : List α) (rest : List (List α)) :
    H.nextLevel (x :: y :: rest) = H.node x y :: H.nextLevel rest := rfl

/-! ## Paths -/

/-- The sibling of a place: the other of its pair, or itself where there is none. -/
def siblingAt (level : List (List α)) (pos : Nat) : List α :=
  let sibling := if pos % 2 = 0 then pos + 1 else pos - 1
  if sibling < level.length then level.getD sibling [] else level.getD pos []

/-- The path from a place in a level up: each sibling, and whether it stands on the left. -/
def siblings : Nat → List (List α) → Nat → List (Bool × List α)
  | 0, _, _ => []
  | rounds + 1, level, pos =>
    if 1 < level.length then
      (decide (pos % 2 = 1), siblingAt level pos) :: siblings rounds (H.nextLevel level) (pos / 2)
    else []

/-- What is hashed for one step of a path. -/
def stepText (current : List α) (step : Bool × List α) : List α :=
  if step.1 then H.nodeTag ++ step.2 ++ current else H.nodeTag ++ current ++ step.2

/-- Where a path leads. -/
def climb (current : List α) : List (Bool × List α) → List α
  | [] => current
  | step :: rest => climb (H.hash (H.stepText current step)) rest

/-- What is hashed along a path. -/
def climbTexts (current : List α) : List (Bool × List α) → List (List α)
  | [] => []
  | step :: rest => H.stepText current step :: climbTexts (H.hash (H.stepText current step)) rest

/-- Every node of the next level is that of a place and its sibling. -/
theorem nextLevel_getD {level : List (List α)} {pos : Nat} (h : pos < level.length) :
    (H.nextLevel level).getD (pos / 2) [] =
      H.hash (H.stepText (level.getD pos []) (decide (pos % 2 = 1), siblingAt level pos)) := by
  induction level using levelTexts.induct generalizing pos with
  | case1 => cases h
  | case2 x =>
    obtain rfl : pos = 0 := by simpa using h
    simp [nextLevel, levelTexts, siblingAt, stepText]
  | case3 x y rest ih =>
    rcases pos with _ | _ | pos
    · simp [siblingAt, stepText, node]
    · simp [siblingAt, stepText, node]
    · have hpos : pos < rest.length := by simpa using h
      have hdiv : (pos + 1 + 1) / 2 = pos / 2 + 1 := by omega
      have hmod : (pos + 1 + 1) % 2 = pos % 2 := by omega
      have hsib : siblingAt (x :: y :: rest) (pos + 1 + 1) = siblingAt rest pos := by
        unfold siblingAt
        rw [hmod]
        by_cases heven : pos % 2 = 0
        · simp [heven]
        · obtain ⟨p, rfl⟩ := Nat.exists_eq_add_of_le' (show 1 ≤ pos by omega)
          simp [heven]
      rw [hdiv, hmod, hsib, nextLevel_cons_cons, List.getD_cons_succ, ih hpos]
      simp

/-- **From a leaf to the root**, by induction on the rounds; there are enough of them. -/
theorem climb_siblings (rounds : Nat) {level : List (List α)} {pos : Nat}
    (hpos : pos < level.length) (hrounds : level.length ≤ rounds + 1) :
    H.climb (level.getD pos []) (H.siblings rounds level pos) = H.top rounds level := by
  have htop : level.length ≤ 1 → level.getD pos [] = level.headD [] := by
    intro h1
    obtain rfl : pos = 0 := by omega
    cases level with
    | nil => rfl
    | cons x level => rfl
  induction rounds generalizing level pos with
  | zero => exact htop hrounds
  | succ rounds ih =>
    rw [siblings, top]
    by_cases hlen : 1 < level.length
    · have hpos' : pos / 2 < (H.nextLevel level).length := by
        rw [length_nextLevel]
        omega
      have hrounds' : (H.nextLevel level).length ≤ rounds + 1 := by
        rw [length_nextLevel]
        omega
      have hrest := ih hpos' hrounds' (by
        intro h1
        have h0 : pos / 2 = 0 := by omega
        rw [h0]
        cases H.nextLevel level with
        | nil => rfl
        | cons x l => rfl)
      rw [if_pos hlen, if_pos hlen, climb, ← H.nextLevel_getD hpos, hrest]
    · rw [if_neg hlen, if_neg hlen, climb, htop (by omega)]

/-! ## Soundness -/

/-- Two of the texts have one hash. -/
def Collision (texts : List (List α)) : Prop :=
  ∃ s ∈ texts, ∃ t ∈ texts, s ≠ t ∧ H.hash s = H.hash t

variable {H}

theorem eq_of_not_collision {texts : List (List α)} (h : ¬ H.Collision texts) {s t : List α}
    (hs : s ∈ texts) (ht : t ∈ texts) (heq : H.hash s = H.hash t) : s = t := by
  by_contra hne
  exact h ⟨s, hs, t, ht, hne, heq⟩

/-- A text that joins two hashes is hashed from texts of `below`. -/
def Joins (H : Hashing α) (below : List (List α)) (t : List α) : Prop :=
  ∃ s ∈ below, ∃ s' ∈ below, t = H.nodeTag ++ H.hash s ++ H.hash s'

theorem Joins.mono {below above : List (List α)} (h : ∀ s ∈ below, s ∈ above) {t : List α}
    (ht : Joins H below t) : Joins H above t := by
  obtain ⟨s, hs, s', hs', heq⟩ := ht
  exact ⟨s, h s hs, s', h s' hs', heq⟩

theorem joins_levelTexts {below : List (List α)} {t : List α}
    (ht : t ∈ H.levelTexts (below.map H.hash)) : Joins H below t := by
  generalize hlevel : below.map H.hash = level at ht
  induction level using levelTexts.induct generalizing below with
  | case1 => cases ht
  | case2 x =>
    obtain ⟨s, rfl, rfl⟩ := List.map_eq_singleton_iff.1 hlevel
    rw [levelTexts, List.mem_singleton] at ht
    exact ⟨s, by simp, s, by simp, ht⟩
  | case3 x y rest ih =>
    obtain ⟨s, below', rfl, rfl, htail⟩ := List.map_eq_cons_iff.1 hlevel
    obtain ⟨s', below, rfl, rfl, hrest⟩ := List.map_eq_cons_iff.1 htail
    rw [levelTexts, List.mem_cons] at ht
    rcases ht with rfl | ht
    · exact ⟨s, by simp, s', by simp, rfl⟩
    · exact (ih hrest ht).mono fun r hr => by simp [hr]

/-- Above a level of hashes every text joins two hashes, of the level's texts or of texts above. -/
theorem joins_treeTexts (rounds : Nat) {below : List (List α)} {t : List α}
    (ht : t ∈ H.treeTexts rounds (below.map H.hash)) :
    Joins H (below ++ H.treeTexts rounds (below.map H.hash)) t := by
  induction rounds generalizing below with
  | zero => cases ht
  | succ rounds ih =>
    rw [treeTexts] at ht ⊢
    split at ht
    · rename_i hlen
      rw [if_pos hlen]
      rcases List.mem_append.1 ht with ht | ht
      · exact (joins_levelTexts ht).mono fun s hs => by simp [hs]
      · exact (ih ht).mono fun s hs => List.mem_append_right _ hs
    · cases ht

/-- The root of a level of hashes is the hash of a text of the level or above. -/
theorem top_mem (rounds : Nat) {below : List (List α)} (hne : below ≠ []) :
    ∃ t ∈ below ++ H.treeTexts rounds (below.map H.hash),
      H.top rounds (below.map H.hash) = H.hash t := by
  have hhead : ∀ (above : List (List α)), ∃ t ∈ below ++ above,
      (below.map H.hash).headD [] = H.hash t := by
    intro above
    obtain ⟨s, below', rfl⟩ := List.exists_cons_of_ne_nil hne
    exact ⟨s, by simp, rfl⟩
  induction rounds generalizing below with
  | zero => exact hhead _
  | succ rounds ih =>
    rw [treeTexts, top]
    split
    · rename_i hlen
      have hne' : H.levelTexts (below.map H.hash) ≠ [] := by
        apply List.ne_nil_of_length_pos
        rw [length_levelTexts]
        omega
      obtain ⟨t, ht, heq⟩ := ih hne' (by
        intro above
        obtain ⟨s, texts, hs⟩ := List.exists_cons_of_ne_nil hne'
        exact ⟨s, by simp [hs], by rw [hs]; rfl⟩)
      exact ⟨t, List.mem_append_right _ ht, heq⟩
    · exact hhead _

/-- A step from a hash to a text that joins two: the hash is one of the two. A sibling of another
length would make the text too long or too short. -/
theorem eq_of_stepText {s a b : List α} {step : Bool × List α}
    (h : H.stepText (H.hash s) step = H.nodeTag ++ H.hash a ++ H.hash b) :
    H.hash s = H.hash a ∨ H.hash s = H.hash b := by
  unfold stepText at h
  split at h
  · rw [List.append_assoc, List.append_assoc] at h
    have hpair := List.append_inj' (List.append_cancel_left h) (by simp only [H.length_hash])
    exact .inr hpair.2
  · rw [List.append_assoc, List.append_assoc] at h
    have hpair := List.append_inj (List.append_cancel_left h) (by simp only [H.length_hash])
    exact .inl hpair.1

/-- **Down a path**: when it ends at the hash of a text of the tree, it began at one. By induction
on the path, from its end. -/
theorem mem_of_climb {leaves texts : List (List α)}
    (hleaves : ∀ t ∈ leaves, ∃ s, t = H.leafTag ++ s)
    (htexts : ∀ t ∈ texts, Joins H (leaves ++ texts) t) {v : List α}
    (hv : ∃ t ∈ leaves ++ texts, v = H.hash t) (path : List (Bool × List α)) {s : List α}
    (hclimb : H.climb (H.hash s) path = v)
    (hfree : ¬ H.Collision ((leaves ++ texts) ++ s :: H.climbTexts (H.hash s) path)) :
    s ∈ leaves ++ texts := by
  have hend : ∀ {t : List α}, t ∈ leaves ++ texts → H.hash s = H.hash t → s ∈ leaves ++ texts :=
    fun {t} ht heq =>
      eq_of_not_collision hfree (s := s) (by simp) (List.mem_append_left _ ht) heq ▸ ht
  induction path generalizing s with
  | nil =>
    obtain ⟨t, ht, rfl⟩ := hv
    exact hend ht hclimb
  | cons step rest ih =>
    have hfree' : ¬ H.Collision ((leaves ++ texts) ++ H.stepText (H.hash s) step ::
        H.climbTexts (H.hash (H.stepText (H.hash s) step)) rest) := by
      intro hcol
      obtain ⟨a, ha, b, hb, hab⟩ := hcol
      have hsub : ∀ t ∈ (leaves ++ texts) ++ H.stepText (H.hash s) step ::
          H.climbTexts (H.hash (H.stepText (H.hash s) step)) rest,
          t ∈ (leaves ++ texts) ++ s :: H.climbTexts (H.hash s) (step :: rest) := by
        intro t ht
        rcases List.mem_append.1 ht with ht | ht
        · exact List.mem_append_left _ ht
        · exact List.mem_append_right _ (List.mem_cons_of_mem _ ht)
      exact hfree ⟨a, hsub a ha, b, hsub b hb, hab⟩
    have hstep : H.stepText (H.hash s) step ∈ leaves ++ texts :=
      ih hclimb hfree' fun {t} ht heq =>
        eq_of_not_collision hfree' (s := H.stepText (H.hash s) step) (by simp)
          (List.mem_append_left _ ht) heq ▸ ht
    have hnode : ∃ t, H.stepText (H.hash s) step = H.nodeTag ++ t := by
      unfold stepText
      split
      · exact ⟨_, List.append_assoc _ _ _⟩
      · exact ⟨_, List.append_assoc _ _ _⟩
    rcases List.mem_append.1 hstep with hleaf | htree
    · obtain ⟨r, hr⟩ := hleaves _ hleaf
      obtain ⟨t, ht⟩ := hnode
      exact absurd (hr.symm.trans ht) (H.tags_apart r t)
    · obtain ⟨a, ha, b, hb, heq⟩ := htexts _ htree
      rcases eq_of_stepText heq with h | h
      · exact hend ha h
      · exact hend hb h

/-- **A path to the root begins at a leaf**, or texts that were hashed collide. -/
theorem sound {xs : List (List α)} (hne : xs ≠ []) (rounds : Nat) {x : List α}
    {path : List (Bool × List α)}
    (hclimb : H.climb (H.leaf x) path = H.top rounds (xs.map H.leaf)) :
    x ∈ xs ∨ H.Collision ((xs.map (H.leafTag ++ ·) ++ H.treeTexts rounds (xs.map H.leaf)) ++
      (H.leafTag ++ x) :: H.climbTexts (H.leaf x) path) := by
  have hlevel : xs.map H.leaf = (xs.map (H.leafTag ++ ·)).map H.hash := by
    rw [List.map_map]
    rfl
  rw [hlevel] at hclimb ⊢
  by_contra hcon
  obtain ⟨hx, hfree⟩ := not_or.1 hcon
  have hroot := top_mem rounds (show xs.map (H.leafTag ++ ·) ≠ [] by simpa using hne) (H := H)
  have hmem := mem_of_climb (s := H.leafTag ++ x)
    (fun t ht => by
      obtain ⟨s, -, rfl⟩ := List.mem_map.1 ht
      exact ⟨s, rfl⟩)
    (fun t ht => joins_treeTexts rounds ht) hroot path hclimb hfree
  rcases List.mem_append.1 hmem with hleaf | htree
  · obtain ⟨s, hs, heq⟩ := List.mem_map.1 hleaf
    exact hx (List.append_cancel_left heq ▸ hs)
  · obtain ⟨a, -, b, -, heq⟩ := joins_treeTexts rounds htree
    exact H.tags_apart _ _ (heq.trans (List.append_assoc _ _ _))

end Hashing

end EBTree.Lib
