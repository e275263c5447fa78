import Mathlib.Data.List.Basic
import Mathlib.Data.List.Dedup

/-!
# Partitions by a key

`firstsBy key seen l` keeps of each key the first element, and `groupsBy key l` collects the
elements of each key. Either is meant to stand for a partition by another function, the tuple that
the key is made of: `firstsBy_onePer_iff` and `groupsBy_exact_iff` say that they do exactly if
two elements have one key where they have one tuple (`KeyFits`).
-/

set_option autoImplicit false

namespace EBTree.Lib

variable {α κ τ : Type} [DecidableEq κ]

def firstsBy (key : α → κ) : List κ → List α → List α
  | _, [] => []
  | seen, a :: l => if key a ∈ seen then firstsBy key seen l else a :: firstsBy key (key a :: seen) l

/-- A group for each key, with its elements in their order. -/
def groupsBy (key : α → κ) (l : List α) : List (κ × List α) :=
  ((firstsBy key [] l).map key).map fun k => (k, l.filter fun a => key a = k)

/-- Two elements have one key exactly if they have one tuple. -/
def KeyFits (key : α → κ) (tuple : α → τ) (l : List α) : Prop :=
  ∀ a ∈ l, ∀ b ∈ l, key a = key b ↔ tuple a = tuple b

/-- One element for each tuple. -/
structure OnePer (tuple : α → τ) (l out : List α) : Prop where
  distinct : (out.map tuple).Nodup
  mem : ∀ t, t ∈ out.map tuple ↔ t ∈ l.map tuple
  sublist : out.Sublist l

/-- Each group holds the elements of one tuple, and each element is in a group. -/
structure Groups [DecidableEq τ] (tuple : α → τ) (l : List α) (groups : List (List α)) : Prop where
  distinct : groups.Nodup
  group : ∀ g ∈ groups, ∃ a ∈ l, g = l.filter fun b => tuple b = tuple a
  mem : ∀ a ∈ l, ∃ g ∈ groups, a ∈ g

/-! ## The first of each key -/

theorem firstsBy_sublist (key : α → κ) (seen : List κ) (l : List α) :
    (firstsBy key seen l).Sublist l := by
  induction l generalizing seen with
  | nil => exact .slnil
  | cons a l ih =>
    unfold firstsBy
    split
    · exact (ih seen).cons a
    · exact (ih _).cons_cons a

theorem firstsBy_not_seen (key : α → κ) {seen : List κ} {l : List α} {a : α}
    (h : a ∈ firstsBy key seen l) : key a ∉ seen := by
  induction l generalizing seen with
  | nil => simp [firstsBy] at h
  | cons b l ih =>
    unfold firstsBy at h
    split at h
    · exact ih h
    · rename_i hb
      rcases List.mem_cons.1 h with rfl | h
      · exact hb
      · exact fun hs => ih h (List.mem_cons_of_mem _ hs)

theorem firstsBy_pairwise (key : α → κ) (seen : List κ) (l : List α) :
    (firstsBy key seen l).Pairwise fun a b => key a ≠ key b := by
  induction l generalizing seen with
  | nil => exact .nil
  | cons a l ih =>
    unfold firstsBy
    split
    · exact ih seen
    · refine List.pairwise_cons.2 ⟨fun b hb heq => ?_, ih _⟩
      exact firstsBy_not_seen key hb (heq ▸ List.mem_cons_self)

/-- Every key is seen already or has its first element. -/
theorem firstsBy_covers (key : α → κ) {seen : List κ} {l : List α} {a : α} (h : a ∈ l) :
    key a ∈ seen ∨ ∃ b ∈ firstsBy key seen l, key b = key a := by
  induction l generalizing seen with
  | nil => simp at h
  | cons c l ih =>
    unfold firstsBy
    rcases List.mem_cons.1 h with rfl | h
    · split
      · exact .inl ‹_›
      · exact .inr ⟨a, List.mem_cons_self, rfl⟩
    · split
      · exact ih h
      · obtain hs | ⟨b, hb, hk⟩ : key a ∈ key c :: seen ∨ _ := ih h
        · rcases List.mem_cons.1 hs with heq | hs
          · exact .inr ⟨c, List.mem_cons_self, heq.symm⟩
          · exact .inl hs
        · exact .inr ⟨b, List.mem_cons_of_mem _ hb, hk⟩

/-- The first two elements of a list are both kept if their keys differ. -/
theorem firstsBy_pair (key : α → κ) {a b : α} (h : key a ≠ key b) (l : List α) :
    firstsBy key [] (a :: b :: l) = a :: b :: firstsBy key [key b, key a] l := by
  have hb : key b ∉ [key a] := by simpa using h.symm
  simp [firstsBy, hb]

theorem exists_perm_pair {l : List α} {a b : α} (ha : a ∈ l) (hb : b ∈ l) (h : a ≠ b) :
    ∃ rest, (a :: b :: rest).Perm l := by
  classical
  have hb' : b ∈ l.erase a := (List.mem_erase_of_ne h.symm).2 hb
  exact ⟨(l.erase a).erase b,
    ((List.perm_cons_erase hb').symm.cons a).trans (List.perm_cons_erase ha).symm⟩

theorem KeyFits.onePer {key : α → κ} {tuple : α → τ} {l : List α} (h : KeyFits key tuple l) :
    OnePer tuple l (firstsBy key [] l) where
  distinct := by
    have hsub := firstsBy_sublist key [] l
    refine List.pairwise_map.2 ((firstsBy_pairwise key [] l).imp_of_mem ?_)
    exact fun ha hb hne heq => hne ((h _ (hsub.subset ha) _ (hsub.subset hb)).2 heq)
  mem t := by
    have hsub := firstsBy_sublist key [] l
    refine ⟨fun ht => ?_, fun ht => ?_⟩
    · exact (hsub.map tuple).subset ht
    · obtain ⟨a, ha, rfl⟩ := List.mem_map.1 ht
      obtain hs | ⟨b, hb, hk⟩ := @firstsBy_covers α κ _ key [] l a ha
      · simp at hs
      · exact List.mem_map.2 ⟨b, hb, (h b (hsub.subset hb) a ha).1 hk⟩
  sublist := firstsBy_sublist key [] l

/-- In every order of the elements the first of each key stands for one tuple, exactly if keys and
tuples fit. -/
theorem firstsBy_onePer_iff (key : α → κ) (tuple : α → τ) (l : List α) :
    (∀ l', l'.Perm l → OnePer tuple l' (firstsBy key [] l')) ↔ KeyFits key tuple l := by
  constructor
  · intro h
    -- two elements of one tuple that come first are both kept unless they have one key
    have hback : ∀ a ∈ l, ∀ b ∈ l, tuple a = tuple b → key a = key b := by
      intro a ha b hb htuple
      by_contra hkey
      have hab : a ≠ b := fun heq => hkey (heq ▸ rfl)
      obtain ⟨rest, hperm⟩ := exists_perm_pair ha hb hab
      have hone := (h _ hperm).distinct
      rw [firstsBy_pair key hkey] at hone
      simp [htuple] at hone
    refine fun a ha b hb => ⟨fun hkey => ?_, hback a ha b hb⟩
    by_contra htuple
    have hab : a ≠ b := fun heq => htuple (heq ▸ rfl)
    obtain ⟨rest, hperm⟩ := exists_perm_pair ha hb hab
    -- behind an element of its key, one of another tuple is stood for by a third
    have hone := h _ hperm
    obtain ⟨c, hc, hcb⟩ := List.mem_map.1 ((hone.mem (tuple b)).2 (by simp))
    have hcl : c ∈ l := hperm.subset (hone.sublist.subset hc)
    have hcfirst : c = a ∨ key c ≠ key a := by
      unfold firstsBy at hc
      rw [if_neg List.not_mem_nil] at hc
      rcases List.mem_cons.1 hc with rfl | hc
      · exact .inl rfl
      · exact .inr fun heq => firstsBy_not_seen key hc (by simp [heq])
    obtain rfl | hne := hcfirst
    · exact htuple hcb
    · exact hne ((hback c hcl b hb hcb).trans hkey.symm)
  · intro h l' hperm
    exact KeyFits.onePer fun a ha b hb => h a (hperm.subset ha) b (hperm.subset hb)

/-! ## Groups -/

theorem mem_groupsBy (key : α → κ) (l : List α) (g : κ × List α) :
    g ∈ groupsBy key l ↔ ∃ a ∈ l, g = (key a, l.filter fun b => key b = key a) := by
  have hkeys (k : κ) : k ∈ (firstsBy key [] l).map key ↔ ∃ a ∈ l, key a = k := by
    constructor
    · intro h
      obtain ⟨a, ha, rfl⟩ := List.mem_map.1 h
      exact ⟨a, (firstsBy_sublist key [] l).subset ha, rfl⟩
    · rintro ⟨a, ha, rfl⟩
      obtain hs | ⟨b, hb, hk⟩ := @firstsBy_covers α κ _ key [] l a ha
      · simp at hs
      · exact List.mem_map.2 ⟨b, hb, hk⟩
  unfold groupsBy
  simp only [List.mem_map (f := fun k => (k, l.filter fun a => key a = k)), hkeys]
  constructor
  · rintro ⟨k, ⟨a, ha, rfl⟩, rfl⟩
    exact ⟨a, ha, rfl⟩
  · rintro ⟨a, ha, rfl⟩
    exact ⟨key a, ⟨a, ha, rfl⟩, rfl⟩

/-- The groups are those of the tuples, exactly if keys and tuples fit. -/
theorem groupsBy_exact_iff [DecidableEq τ] (key : α → κ) (tuple : α → τ) (l : List α) :
    Groups tuple l ((groupsBy key l).map (·.2)) ↔ KeyFits key tuple l := by
  have hmem (g : List α) : g ∈ (groupsBy key l).map (·.2) ↔
      ∃ a ∈ l, g = l.filter fun b => key b = key a := by
    simp only [List.mem_map, mem_groupsBy]
    constructor
    · rintro ⟨g, ⟨a, ha, rfl⟩, rfl⟩
      exact ⟨a, ha, rfl⟩
    · rintro ⟨a, ha, rfl⟩
      exact ⟨_, ⟨a, ha, rfl⟩, rfl⟩
  constructor
  · intro h a ha b hb
    obtain ⟨c, hc, hgroup⟩ := h.group _ ((hmem _).2 ⟨a, ha, rfl⟩)
    have hiff (x : α) (hx : x ∈ l) : key x = key a ↔ tuple x = tuple c := by
      have hx' : (x ∈ l.filter fun b => key b = key a) ↔
          x ∈ l.filter fun b => tuple b = tuple c := by rw [hgroup]
      simpa [hx] using hx'
    have hac : tuple a = tuple c := (hiff a ha).1 rfl
    rw [eq_comm, hiff b hb, hac, eq_comm]
  · intro h
    have hsame : ∀ a ∈ l, (l.filter fun b => key b = key a) = l.filter fun b => tuple b = tuple a :=
      fun a ha => List.filter_congr fun b hb => by simp [h b hb a ha]
    refine ⟨?_, fun g hg => ?_, fun a ha => ⟨_, (hmem _).2 ⟨a, ha, rfl⟩, by simpa using ha⟩⟩
    · unfold groupsBy
      simp only [List.map_map]
      refine List.pairwise_map.2 ((firstsBy_pairwise key [] l).imp_of_mem ?_)
      intro a b ha hb hne heq
      have hal := (firstsBy_sublist key [] l).subset ha
      have hin : a ∈ l.filter fun c => key c = key b := by
        simp only [Function.comp_apply] at heq
        rw [← heq]
        simpa using hal
      exact hne (by simpa using (List.mem_filter.1 hin).2)
    · obtain ⟨a, ha, rfl⟩ := (hmem g).1 hg
      exact ⟨a, ha, hsame a ha⟩

end EBTree.Lib
