import Mathlib

/-!
# Maps kept as sorted lists

`SortedMap K V` is an association list with strictly increasing keys, carried as a field: an
ordered map whose iteration is `entries`. `m.find? k` is its lookup.

* `find?_insert`, `find?_erase`: what the two updates do to every lookup.
* `mem_entries_iff`: an entry is listed exactly when it is found.
* `find?_mapValues`, `find?_filterValues`: lookups after the values were mapped or filtered.
* `ext_find?`: maps with the same lookups are equal.
* `insertAll_eq`: collecting the entries of a map gives the map.
* `first_le`, `le_last`: the ends of the iteration bound every key.
* `filter_key`, `dropWhile_eq_filter`, `takeWhile_eq_filter`, `rdropWhile_eq_filter`: a lookup and
  the two ends of a range scan are filters of the iteration.
-/

set_option autoImplicit false

namespace EBTree.Lib

/-- The keys increase strictly along the list. -/
def KeysSorted {K V : Type} [LT K] (l : List (K × V)) : Prop :=
  l.Pairwise fun a b => a.1 < b.1

structure SortedMap (K V : Type) [LinearOrder K] where
  entries : List (K × V)
  sorted : KeysSorted entries

namespace SortedMap

variable {K V : Type} [LinearOrder K]

/-! ## Association lists -/

/-- The value listed first under `k`. -/
def findIn (k : K) : List (K × V) → Option V
  | [] => none
  | (k', v) :: l => if k = k' then some v else findIn k l

/-- `k` put in its place, over what was listed under it. -/
def insertIn (k : K) (v : V) : List (K × V) → List (K × V)
  | [] => [(k, v)]
  | (k', v') :: l =>
    if k < k' then (k, v) :: (k', v') :: l
    else if k = k' then (k, v) :: l
    else (k', v') :: insertIn k v l

def eraseIn (k : K) (l : List (K × V)) : List (K × V) := l.filter fun e => e.1 ≠ k

theorem mem_insertIn {k : K} {v : V} {e : K × V} {l : List (K × V)} (h : e ∈ insertIn k v l) :
    e = (k, v) ∨ e ∈ l := by
  induction l with
  | nil => simpa [insertIn] using h
  | cons a l ih =>
    rw [insertIn] at h
    split at h
    · simpa using h
    · split at h
      · rcases List.mem_cons.1 h with h | h
        · exact .inl h
        · exact .inr (List.mem_cons_of_mem _ h)
      · rcases List.mem_cons.1 h with h | h
        · exact .inr (h ▸ List.mem_cons_self)
        · exact (ih h).imp id (List.mem_cons_of_mem _)

theorem insertIn_sorted {k : K} {v : V} {l : List (K × V)} (h : KeysSorted l) :
    KeysSorted (insertIn k v l) := by
  induction l with
  | nil => simp [insertIn, KeysSorted]
  | cons a l ih =>
    obtain ⟨ha, hl⟩ := List.pairwise_cons.1 h
    rw [insertIn]
    split
    · rename_i hlt
      refine List.pairwise_cons.2 ⟨fun b hb => ?_, h⟩
      rcases List.mem_cons.1 hb with rfl | hb
      · exact hlt
      · exact lt_trans hlt (ha b hb)
    · split
      · rename_i heq
        exact List.pairwise_cons.2 ⟨fun b hb => heq ▸ ha b hb, hl⟩
      · rename_i hnlt hne
        refine List.pairwise_cons.2 ⟨fun b hb => ?_, ih hl⟩
        rcases mem_insertIn hb with rfl | hb
        · exact lt_of_le_of_ne (not_lt.1 hnlt) (Ne.symm hne)
        · exact ha b hb

theorem findIn_insertIn (k k' : K) (v : V) (l : List (K × V)) :
    findIn k' (insertIn k v l) = if k' = k then some v else findIn k' l := by
  induction l with
  | nil => rfl
  | cons a l ih =>
    rw [insertIn]
    split
    · rfl
    · split
      · rename_i heq
        subst heq
        simp only [findIn]
        by_cases h : k' = a.1 <;> simp [h]
      · rename_i hne
        simp only [findIn, ih]
        by_cases h : k' = a.1
        · have : k' ≠ k := fun h' => hne (h' ▸ h)
          simp [h, show a.1 ≠ k from fun e => hne e.symm]
        · simp [h]

theorem findIn_eraseIn (k k' : K) (l : List (K × V)) :
    findIn k' (eraseIn k l) = if k' = k then none else findIn k' l := by
  induction l with
  | nil => simp [eraseIn, findIn]
  | cons a l ih =>
    rw [eraseIn, List.filter_cons]
    by_cases ha : a.1 = k
    · rw [if_neg (by simpa using ha)]
      refine Eq.trans ih ?_
      by_cases h : k' = k <;> simp [findIn, h, ha]
    · rw [if_pos (by simpa using ha)]
      simp only [findIn]
      rw [show findIn k' (List.filter (fun e => decide (e.1 ≠ k)) l) = _ from ih]
      by_cases h : k' = a.1
      · simp [h, ha]
      · simp [h]

theorem findIn_eq_some_of_mem {k : K} {v : V} {l : List (K × V)} (h : KeysSorted l)
    (hm : (k, v) ∈ l) : findIn k l = some v := by
  induction l with
  | nil => cases hm
  | cons a l ih =>
    obtain ⟨ha, hl⟩ := List.pairwise_cons.1 h
    rcases List.mem_cons.1 hm with rfl | hm
    · simp [findIn]
    · have : k ≠ a.1 := fun e => lt_irrefl _ (e ▸ ha _ hm)
      simp [findIn, this, ih hl hm]

theorem mem_of_findIn {k : K} {v : V} {l : List (K × V)} (h : findIn k l = some v) :
    (k, v) ∈ l := by
  induction l with
  | nil => cases h
  | cons a l ih =>
    simp only [findIn] at h
    split at h
    · rename_i heq
      cases h; subst heq; exact List.mem_cons_self
    · exact List.mem_cons_of_mem _ (ih h)

theorem findIn_eq_none_iff {k : K} {l : List (K × V)} :
    findIn k l = none ↔ ∀ e ∈ l, e.1 ≠ k := by
  induction l with
  | nil => simp [findIn]
  | cons a l ih =>
    by_cases h : k = a.1
    · simp [findIn, h]
    · simp [findIn, h, ih, Ne.symm h]

theorem findIn_append (k : K) (l l' : List (K × V)) :
    findIn k (l ++ l') = (findIn k l).or (findIn k l') := by
  induction l with
  | nil => rfl
  | cons a l ih =>
    simp only [List.cons_append, findIn, ih]
    split <;> rfl

/-! ## The map -/

def empty : SortedMap K V := ⟨[], List.Pairwise.nil⟩

instance : Inhabited (SortedMap K V) := ⟨empty⟩

def find? (m : SortedMap K V) (k : K) : Option V := findIn k m.entries

def insert (m : SortedMap K V) (k : K) (v : V) : SortedMap K V :=
  ⟨insertIn k v m.entries, insertIn_sorted m.sorted⟩

def erase (m : SortedMap K V) (k : K) : SortedMap K V :=
  ⟨eraseIn k m.entries, m.sorted.sublist List.filter_sublist⟩

def contains (m : SortedMap K V) (k : K) : Bool := (m.find? k).isSome

def isEmpty (m : SortedMap K V) : Bool := m.entries.isEmpty

/-- The entries put in one after the other, later ones over earlier ones. -/
def insertAll (m : SortedMap K V) (l : List (K × V)) : SortedMap K V :=
  l.foldl (fun m e => m.insert e.1 e.2) m

def mapValues {W : Type} (m : SortedMap K V) (f : V → W) : SortedMap K W :=
  ⟨m.entries.map fun e => (e.1, f e.2), by
    simpa only [KeysSorted, List.pairwise_map] using m.sorted⟩

def filterValues (m : SortedMap K V) (p : V → Bool) : SortedMap K V :=
  ⟨m.entries.filter fun e => p e.2, m.sorted.sublist List.filter_sublist⟩

@[simp] theorem entries_empty : (empty : SortedMap K V).entries = [] := rfl

@[simp] theorem find?_empty (k : K) : (empty : SortedMap K V).find? k = none := rfl

@[simp] theorem find?_insert (m : SortedMap K V) (k k' : K) (v : V) :
    (m.insert k v).find? k' = if k' = k then some v else m.find? k' :=
  findIn_insertIn k k' v m.entries

@[simp] theorem find?_erase (m : SortedMap K V) (k k' : K) :
    (m.erase k).find? k' = if k' = k then none else m.find? k' :=
  findIn_eraseIn k k' m.entries

theorem mem_entries_iff {m : SortedMap K V} {k : K} {v : V} :
    (k, v) ∈ m.entries ↔ m.find? k = some v :=
  ⟨findIn_eq_some_of_mem m.sorted, mem_of_findIn⟩

@[simp] theorem find?_mapValues {W : Type} (m : SortedMap K V) (f : V → W) (k : K) :
    (m.mapValues f).find? k = (m.find? k).map f := by
  refine Option.ext fun w => ?_
  simp only [← mem_entries_iff, mapValues, List.mem_map, Prod.mk.injEq, Option.map_eq_some_iff]
  constructor
  · rintro ⟨e, he, rfl, rfl⟩
    exact ⟨e.2, he, rfl⟩
  · rintro ⟨v, hv, rfl⟩
    exact ⟨(k, v), hv, rfl, rfl⟩

@[simp] theorem find?_filterValues (m : SortedMap K V) (p : V → Bool) (k : K) :
    (m.filterValues p).find? k = (m.find? k).filter p := by
  refine Option.ext fun v => ?_
  simp only [← mem_entries_iff, filterValues, List.mem_filter, Option.filter_eq_some_iff]

theorem find?_eq_none_iff {m : SortedMap K V} {k : K} :
    m.find? k = none ↔ ∀ e ∈ m.entries, e.1 ≠ k := findIn_eq_none_iff

theorem contains_iff {m : SortedMap K V} {k : K} : m.contains k = true ↔ ∃ v, m.find? k = some v :=
  Option.isSome_iff_exists

theorem isEmpty_iff {m : SortedMap K V} : m.isEmpty = true ↔ m.entries = [] := by
  simp [isEmpty]

/-- **Two maps with the same lookups are the same map.** -/
theorem ext_find? {m m' : SortedMap K V} (h : ∀ k, m.find? k = m'.find? k) : m = m' := by
  obtain ⟨l, hl⟩ := m
  obtain ⟨l', hl'⟩ := m'
  suffices l = l' by subst this; rfl
  have hmem : ∀ e, e ∈ l ↔ e ∈ l' := by
    rintro ⟨k, v⟩
    exact (mem_entries_iff (m := ⟨l, hl⟩)).trans
      ((by rw [h k] : _ ↔ _).trans (mem_entries_iff (m := ⟨l', hl'⟩)).symm)
  have hnd : ∀ {l : List (K × V)}, KeysSorted l → l.Nodup :=
    fun h => h.imp fun hlt => by rintro rfl; exact lt_irrefl _ hlt
  exact ((List.perm_ext_iff_of_nodup (hnd hl) (hnd hl')).2 hmem).eq_of_pairwise
    (fun a b _ _ hab hba => absurd hab (lt_asymm hba)) hl hl'

/-- Putting in entries of one map only ever finds entries of that map. -/
theorem find?_insertAll {m' : SortedMap K V} {l : List (K × V)} (hl : ∀ e ∈ l, e ∈ m'.entries)
    {m : SortedMap K V} (hm : ∀ k v, m.find? k = some v → m'.find? k = some v) (k : K) (v : V) :
    (m.insertAll l).find? k = some v ↔ m.find? k = some v ∨ (k, v) ∈ l := by
  induction l generalizing m with
  | nil => simp [insertAll]
  | cons e l ih =>
    have he : m'.find? e.1 = some e.2 := mem_entries_iff.1 (hl e List.mem_cons_self)
    have hone : ∀ k v, (m.insert e.1 e.2).find? k = some v ↔ m.find? k = some v ∨ (k, v) = e := by
      intro k v
      rw [find?_insert]
      by_cases hk : k = e.1
      · -- what was there under the key of `e` is what `e` says
        rw [if_pos hk, Option.some.injEq]
        constructor
        · rintro rfl
          exact .inr (by rw [hk])
        · rintro (h | rfl)
          · have := hm k v h
            rw [hk, he] at this
            exact Option.some.inj this
          · rfl
      · rw [if_neg hk]
        refine ⟨.inl, ?_⟩
        rintro (h | rfl)
        · exact h
        · exact absurd rfl hk
    have hm' : ∀ k v, (m.insert e.1 e.2).find? k = some v → m'.find? k = some v := by
      intro k v h
      rcases (hone k v).1 h with h | h
      · exact hm k v h
      · rw [← mem_entries_iff, h]
        exact hl e List.mem_cons_self
    have hrest := ih (fun e' he' => hl e' (List.mem_cons_of_mem _ he')) hm'
    rw [insertAll, List.foldl_cons]
    refine hrest.trans ?_
    rw [hone, List.mem_cons, or_assoc]

/-- **Collecting the entries of a map**, in any order and any number of times, gives the map. -/
theorem insertAll_eq {m : SortedMap K V} {l : List (K × V)} (h : ∀ e, e ∈ l ↔ e ∈ m.entries) :
    empty.insertAll l = m := by
  refine ext_find? fun k => Option.ext fun v => ?_
  rw [find?_insertAll (fun e he => (h e).1 he) (fun k v hk => by cases hk), h, mem_entries_iff]
  simp

/-! ## Loops -/

theorem mem_of_find?_insertAll {m : SortedMap K V} {l : List (K × V)} {k : K} {v : V}
    (h : (m.insertAll l).find? k = some v) : m.find? k = some v ∨ (k, v) ∈ l := by
  induction l generalizing m with
  | nil => exact .inl h
  | cons e l ih =>
    rcases ih h with h | h
    · rw [find?_insert] at h
      split at h
      · rename_i hk
        cases h
        exact .inr (by rw [hk]; exact List.mem_cons_self)
      · exact .inl h
    · exact .inr (List.mem_cons_of_mem _ h)

/-- **A loop over the entries of a map** that changes another map at their keys only: what it leaves
at a key is what the entry of the key makes of it. -/
theorem find?_foldl_entries {W : Type} {upd : SortedMap K W → K × V → SortedMap K W}
    (hother : ∀ m e k, k ≠ e.1 → (upd m e).find? k = m.find? k)
    (hsame : ∀ m m' e, m.find? e.1 = m'.find? e.1 → (upd m e).find? e.1 = (upd m' e).find? e.1)
    (m : SortedMap K W) (mt : SortedMap K V) (k : K) :
    (mt.entries.foldl upd m).find? k =
      match mt.find? k with
      | some v => (upd m (k, v)).find? k
      | none => m.find? k := by
  obtain ⟨l, hl⟩ := mt
  show (l.foldl upd m).find? k = match findIn k l with
    | some v => (upd m (k, v)).find? k
    | none => m.find? k
  induction l generalizing m with
  | nil => rfl
  | cons e l ih =>
    obtain ⟨he, hl'⟩ := List.pairwise_cons.1 hl
    rw [List.foldl_cons, ih _ hl']
    by_cases hk : e.1 = k
    · subst hk
      have hnone : findIn e.1 l = none := findIn_eq_none_iff.2 fun e' he' => (he e' he').ne'
      rw [hnone, findIn, if_pos rfl]
    · rw [findIn, if_neg (Ne.symm hk)]
      cases hf : findIn k l with
      | none => exact hother m e k (Ne.symm hk)
      | some v => exact hsame _ _ (k, v) (hother m e k (Ne.symm hk))

/-! ## The ends of the iteration -/

/-- The key the iteration starts with bounds every key from below. -/
theorem first_le {m : SortedMap K V} {e e' : K × V} (h : m.entries.head? = some e)
    (h' : e' ∈ m.entries) : e.1 ≤ e'.1 := by
  obtain ⟨l, hl⟩ := m
  cases l with
  | nil => cases h
  | cons a l =>
    cases h
    rcases List.mem_cons.1 h' with rfl | h'
    · exact le_rfl
    · exact le_of_lt ((List.pairwise_cons.1 hl).1 _ h')

/-- The key the iteration ends with bounds every key from above. -/
theorem le_last {m : SortedMap K V} {e e' : K × V} (h : m.entries.getLast? = some e)
    (h' : e' ∈ m.entries) : e'.1 ≤ e.1 := by
  obtain ⟨l, hl⟩ := m
  obtain ⟨l, rfl⟩ := List.getLast?_eq_some_iff.1 h
  rcases List.mem_append.1 h' with h' | h'
  · exact le_of_lt ((List.pairwise_append.1 hl).2.2 _ h' _ List.mem_cons_self)
  · simp at h'; rw [h']

/-! ## Ranges of the iteration -/

/-- The entries under a key are what a lookup finds. -/
theorem filter_key (m : SortedMap K V) {k : K} {p : K × V → Bool}
    (hp : ∀ e, p e = true ↔ e.1 = k) : m.entries.filter p = (m.find? k).toList.map (k, ·) := by
  obtain ⟨l, hl⟩ := m
  change l.filter _ = (findIn k l).toList.map _
  induction l with
  | nil => rfl
  | cons a l ih =>
    obtain ⟨ha, hl'⟩ := List.pairwise_cons.1 hl
    by_cases h : k = a.1
    · have hrest : l.filter p = [] := by
        refine List.filter_eq_nil_iff.2 fun e he => ?_
        rw [hp, h]
        exact (ne_of_lt (ha e he)).symm
      rw [List.filter_cons_of_pos ((hp a).2 h.symm), hrest]
      subst h
      simp [findIn]
    · rw [List.filter_cons_of_neg (by rw [hp]; exact Ne.symm h), ih hl', findIn, if_neg h]

end SortedMap

/-! ## The ends of a range scan

Where a property holds up to some place in the list (or from some place on), taking and dropping
while it holds is filtering by it. -/

section
variable {α : Type} {p : α → Bool}

theorem dropWhile_eq_filter {l : List α} (h : l.Pairwise fun a b => p b = true → p a = true) :
    l.dropWhile p = l.filter fun e => !p e := by
  induction l with
  | nil => rfl
  | cons a l ih =>
    obtain ⟨ha, hl⟩ := List.pairwise_cons.1 h
    by_cases hp : p a = true
    · rw [List.dropWhile_cons_of_pos hp, List.filter_cons_of_neg (by simpa using hp), ih hl]
    · rw [List.dropWhile_cons_of_neg hp]
      refine (List.filter_eq_self.2 fun e he => ?_).symm
      rcases List.mem_cons.1 he with rfl | he
      · simpa using hp
      · simpa using fun hpe => hp (ha e he hpe)

theorem takeWhile_eq_filter {l : List α} (h : l.Pairwise fun a b => p b = true → p a = true) :
    l.takeWhile p = l.filter p := by
  induction l with
  | nil => rfl
  | cons a l ih =>
    obtain ⟨ha, hl⟩ := List.pairwise_cons.1 h
    by_cases hp : p a = true
    · rw [List.takeWhile_cons_of_pos hp, List.filter_cons_of_pos hp, ih hl]
    · rw [List.takeWhile_cons_of_neg hp]
      refine (List.filter_eq_nil_iff.2 fun e he => ?_).symm
      rcases List.mem_cons.1 he with rfl | he
      · exact hp
      · exact fun hpe => hp (ha e he hpe)

theorem rdropWhile_eq_filter {l : List α} (h : l.Pairwise fun a b => p a = true → p b = true) :
    l.rdropWhile p = l.filter fun e => !p e := by
  induction l using List.reverseRecOn with
  | nil => rfl
  | append_singleton l a ih =>
    obtain ⟨hl, -, ha⟩ := List.pairwise_append.1 h
    by_cases hp : p a = true
    · rw [List.rdropWhile_concat_pos _ _ _ hp, ih hl]
      simp [hp]
    · rw [List.rdropWhile_concat_neg _ _ _ hp]
      refine (List.filter_eq_self.2 fun e he => ?_).symm
      rcases List.mem_append.1 he with he | he
      · simpa using fun hpe => hp (ha e he a List.mem_cons_self hpe)
      · rw [List.mem_singleton.1 he]
        simpa using hp

end

end EBTree.Lib
