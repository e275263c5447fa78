import EBTree.Lib.SortedMap

/-!
# A cache that drops the entry used longest ago

Three containers: the keys from the one used last on, the keys that have a place in that list, and
the values. `LruCache.Coherent` says that the three hold the same keys, each once, and no more of
them than the capacity.

* `Coherent.useAll`, `Coherent.insertAll`: uses of entries, and new entries.
* `Backed.insertAll`, `Contents.insertAll`: what holds also when a key is entered twice.
-/

set_option autoImplicit false

namespace EBTree.Lib

/-- The place of a key in `lru` is the first one; a list of iterators points to it. -/
structure LruCache (K V : Type) [LinearOrder K] where
  capacity : Nat
  lru : List K
  map : SortedMap K Unit
  pages : SortedMap K V

namespace LruCache

variable {K V : Type} [LinearOrder K]

def empty (capacity : Nat) : LruCache K V := ⟨capacity, [], .empty, .empty⟩

/-- The key is found in the cache. -/
def hit (c : LruCache K V) (k : K) : Bool := 0 < c.capacity && (c.map.find? k).isSome

/-- The entry of the key goes to the front. -/
def touch (c : LruCache K V) (k : K) : LruCache K V := { c with lru := k :: c.lru.erase k }

/-- The entries of the keys that are found go to the front, one by one. -/
def useAll (c : LruCache K V) (ks : List K) : LruCache K V :=
  ks.foldl (fun c k => if c.hit k then c.touch k else c) c

/-- The last entry goes. -/
def evict (c : LruCache K V) : LruCache K V :=
  match c.lru.getLast? with
  | none => c
  | some k => { c with lru := c.lru.dropLast, map := c.map.erase k, pages := c.pages.erase k }

/-- Room for one more entry. -/
def makeRoom (c : LruCache K V) : LruCache K V :=
  if c.capacity ≤ c.pages.entries.length then c.evict else c

def insert (c : LruCache K V) (k : K) (v : V) : LruCache K V :=
  if c.capacity = 0 then c
  else
    { c.makeRoom with
      lru := k :: c.makeRoom.lru
      map := c.makeRoom.map.insert k ()
      pages := c.makeRoom.pages.insert k v }

/-- Entries for several keys, one by one. -/
def insertAll (c : LruCache K V) (f : K → V) (ks : List K) : LruCache K V :=
  ks.foldl (fun c k => c.insert k (f k)) c

theorem insertAll_append (c : LruCache K V) (f : K → V) (ks ks' : List K) :
    c.insertAll f (ks ++ ks') = (c.insertAll f ks).insertAll f ks' := List.foldl_append

@[simp] theorem evict_capacity (c : LruCache K V) : c.evict.capacity = c.capacity := by
  unfold evict
  split <;> rfl

@[simp] theorem makeRoom_capacity (c : LruCache K V) : c.makeRoom.capacity = c.capacity := by
  unfold makeRoom
  split
  · exact c.evict_capacity
  · rfl

@[simp] theorem insert_capacity (c : LruCache K V) (k : K) (v : V) :
    (c.insert k v).capacity = c.capacity := by
  unfold insert
  split
  · rfl
  · exact c.makeRoom_capacity

@[simp] theorem insertAll_capacity (c : LruCache K V) (f : K → V) (ks : List K) :
    (c.insertAll f ks).capacity = c.capacity := by
  induction ks generalizing c with
  | nil => rfl
  | cons k ks ih => exact (ih _).trans (c.insert_capacity k (f k))

@[simp] theorem touch_capacity (c : LruCache K V) (k : K) : (c.touch k).capacity = c.capacity := rfl

/-- Uses move nothing but the places in the list. -/
theorem useAll_frame (c : LruCache K V) (ks : List K) :
    (c.useAll ks).capacity = c.capacity ∧ (c.useAll ks).map = c.map ∧
      (c.useAll ks).pages = c.pages := by
  induction ks generalizing c with
  | nil => exact ⟨rfl, rfl, rfl⟩
  | cons k ks ih =>
    rw [useAll, List.foldl_cons]
    split
    · exact ih (c.touch k)
    · exact ih c

theorem hit_useAll (c : LruCache K V) (ks : List K) (k : K) : (c.useAll ks).hit k = c.hit k := by
  obtain ⟨hcap, hmap, -⟩ := c.useAll_frame ks
  rw [hit, hit, hcap, hmap]

/-! ## With distinct keys -/

/-- The three containers hold the same keys, each once, and not more than the capacity. -/
structure Coherent (c : LruCache K V) : Prop where
  nodup : c.lru.Nodup
  mem_map : ∀ k, k ∈ c.lru ↔ (c.map.find? k).isSome
  mem_pages : ∀ k, k ∈ c.lru ↔ (c.pages.find? k).isSome
  size : c.lru.length ≤ c.capacity

theorem length_entries {c : LruCache K V} (h : c.Coherent) :
    c.pages.entries.length = c.lru.length := by
  have hkeys : (c.pages.entries.map (·.1)).Nodup :=
    List.Pairwise.map _ (fun _ _ h => ne_of_lt h) c.pages.sorted
  have hperm : (c.pages.entries.map (·.1)).Perm c.lru := by
    refine (List.perm_ext_iff_of_nodup hkeys h.nodup).2 fun k => ?_
    rw [h.mem_pages, Option.isSome_iff_exists, List.mem_map]
    constructor
    · rintro ⟨⟨k', v⟩, hm, rfl⟩
      exact ⟨v, SortedMap.mem_entries_iff.1 hm⟩
    · rintro ⟨v, hv⟩
      exact ⟨(k, v), SortedMap.mem_entries_iff.2 hv, rfl⟩
  rw [← hperm.length_eq, List.length_map]

theorem Coherent.empty (capacity : Nat) : (LruCache.empty capacity : LruCache K V).Coherent :=
  ⟨List.nodup_nil, fun _ => by simp [LruCache.empty], fun _ => by simp [LruCache.empty],
    Nat.zero_le _⟩

/-- **A use of an entry** keeps the containers together. -/
theorem Coherent.touch {c : LruCache K V} (h : c.Coherent) {k : K} (hk : k ∈ c.lru) :
    (c.touch k).Coherent := by
  have hperm : (k :: c.lru.erase k).Perm c.lru := (List.perm_cons_erase hk).symm
  exact ⟨hperm.nodup_iff.2 h.nodup, fun k' => hperm.mem_iff.trans (h.mem_map k'),
    fun k' => hperm.mem_iff.trans (h.mem_pages k'), by
      rw [LruCache.touch, hperm.length_eq]
      exact h.size⟩

theorem mem_lru_of_hit {c : LruCache K V} (h : c.Coherent) {k : K} (hk : c.hit k = true) :
    k ∈ c.lru := by
  rw [hit, Bool.and_eq_true] at hk
  exact (h.mem_map k).2 hk.2

theorem Coherent.useAll {c : LruCache K V} (h : c.Coherent) (ks : List K) :
    (c.useAll ks).Coherent := by
  induction ks generalizing c with
  | nil => exact h
  | cons k ks ih =>
    rw [LruCache.useAll, List.foldl_cons]
    split
    · exact ih (h.touch (mem_lru_of_hit h ‹_›))
    · exact ih h

/-- The entry that goes leaves all three. -/
theorem Coherent.evict {c : LruCache K V} (h : c.Coherent) : c.evict.Coherent := by
  unfold LruCache.evict
  cases hl : c.lru.getLast? with
  | none => exact h
  | some e =>
    have hsplit : c.lru = c.lru.dropLast ++ [e] := by
      obtain ⟨ys, hys⟩ := List.getLast?_eq_some_iff.1 hl
      rw [hys, List.dropLast_concat]
    have hnd := h.nodup
    rw [hsplit, List.nodup_append] at hnd
    have he : ∀ k, k ∈ c.lru.dropLast ↔ k ∈ c.lru ∧ k ≠ e := by
      intro k
      constructor
      · intro hk
        refine ⟨List.mem_of_mem_dropLast hk, ?_⟩
        exact hnd.2.2 k hk e (List.mem_singleton_self e)
      · rintro ⟨hk, hne⟩
        rw [hsplit, List.mem_append, List.mem_singleton] at hk
        exact hk.resolve_right hne
    refine ⟨hnd.1, fun k => ?_, fun k => ?_, ?_⟩
    · rw [he, h.mem_map, SortedMap.find?_erase]
      by_cases hk : k = e <;> simp [hk]
    · rw [he, h.mem_pages, SortedMap.find?_erase]
      by_cases hk : k = e <;> simp [hk]
    · rw [List.length_dropLast]
      exact Nat.le_trans (Nat.sub_le _ _) h.size

theorem lru_evict_length (c : LruCache K V) : c.evict.lru.length = c.lru.length - 1 := by
  unfold LruCache.evict
  cases hl : c.lru.getLast? with
  | none =>
    rw [List.getLast?_eq_none_iff.1 hl]
    rfl
  | some e => exact List.length_dropLast

theorem mem_lru_evict {c : LruCache K V} {k : K} (h : k ∈ c.evict.lru) : k ∈ c.lru := by
  unfold LruCache.evict at h
  cases hl : c.lru.getLast? with
  | none => rwa [hl] at h
  | some e =>
    rw [hl] at h
    exact List.mem_of_mem_dropLast h

/-- **A new entry** keeps the containers together and within the capacity. -/
theorem Coherent.insert {c : LruCache K V} (h : c.Coherent) {k : K} (hk : k ∉ c.lru) (v : V) :
    (c.insert k v).Coherent := by
  unfold LruCache.insert
  split
  · exact h
  · rename_i hcap
    have hroom : c.makeRoom.Coherent ∧ c.makeRoom.lru.length < c.capacity ∧
        k ∉ c.makeRoom.lru := by
      unfold makeRoom
      rw [length_entries h]
      have hsize := h.size
      split
      · refine ⟨h.evict, ?_, fun hm => hk (mem_lru_evict hm)⟩
        rw [lru_evict_length]
        omega
      · exact ⟨h, by omega, hk⟩
    obtain ⟨hc, hlt, hnew⟩ := hroom
    refine ⟨List.nodup_cons.2 ⟨hnew, hc.nodup⟩, fun k' => ?_, fun k' => ?_, ?_⟩
    · rw [List.mem_cons, hc.mem_map, SortedMap.find?_insert]
      by_cases hkk : k' = k <;> simp [hkk]
    · rw [List.mem_cons, hc.mem_pages, SortedMap.find?_insert]
      by_cases hkk : k' = k <;> simp [hkk]
    · rw [List.length_cons, makeRoom_capacity]
      exact hlt

/-- The keys of the list after an entry was made. -/
theorem mem_lru_insert {c : LruCache K V} {k k' : K} {v : V} (h : k' ∈ (c.insert k v).lru) :
    k' = k ∨ k' ∈ c.lru := by
  unfold LruCache.insert at h
  split at h
  · exact .inr h
  · rcases List.mem_cons.1 h with rfl | h
    · exact .inl rfl
    · unfold makeRoom at h
      split at h
      · exact .inr (mem_lru_evict h)
      · exact .inr h

/-- **New entries for several keys**, each of them once. -/
theorem Coherent.insertAll {c : LruCache K V} (h : c.Coherent) (f : K → V) {ks : List K}
    (hnd : ks.Nodup) (hnew : ∀ k ∈ ks, c.hit k = false) : (c.insertAll f ks).Coherent := by
  by_cases hcap : c.capacity = 0
  · -- nothing is kept
    have hid : ∀ ks : List K, c.insertAll f ks = c := by
      intro ks
      induction ks with
      | nil => rfl
      | cons k ks ih =>
        rw [LruCache.insertAll, List.foldl_cons, LruCache.insert, if_pos hcap]
        exact ih
    rw [hid]
    exact h
  · have hout : ∀ k ∈ ks, k ∉ c.lru := by
      intro k hk hm
      have hmiss := hnew k hk
      rw [hit, (h.mem_map k).1 hm, Bool.and_true, decide_eq_false_iff_not] at hmiss
      omega
    clear hnew hcap
    induction ks generalizing c with
    | nil => exact h
    | cons k ks ih =>
      rw [List.nodup_cons] at hnd
      rw [LruCache.insertAll, List.foldl_cons]
      refine ih (h.insert (hout k List.mem_cons_self) (f k)) hnd.2 fun k' hk' hm => ?_
      rcases mem_lru_insert hm with rfl | hm
      · exact hnd.1 hk'
      · exact hout k' (List.mem_cons_of_mem _ hk') hm

/-! ## With any keys -/

/-- A key that is found has a value. -/
def Backed (c : LruCache K V) : Prop :=
  ∀ k, (c.map.find? k).isSome = true → (c.pages.find? k).isSome = true

/-- What the values are of. -/
def Contents (c : LruCache K V) (Q : K → V → Prop) : Prop :=
  ∀ k v, c.pages.find? k = some v → Q k v

theorem Coherent.backed {c : LruCache K V} (h : c.Coherent) : c.Backed :=
  fun k hk => (h.mem_pages k).1 ((h.mem_map k).2 hk)

theorem Backed.evict {c : LruCache K V} (h : c.Backed) : c.evict.Backed := by
  unfold LruCache.evict
  split
  · exact h
  · rename_i e _
    intro k hk
    rw [SortedMap.find?_erase] at hk ⊢
    by_cases hke : k = e
    · rw [if_pos hke] at hk
      cases hk
    · rw [if_neg hke] at hk ⊢
      exact h k hk

theorem Backed.insert {c : LruCache K V} (h : c.Backed) (k : K) (v : V) : (c.insert k v).Backed := by
  have hroom : c.makeRoom.Backed := by
    unfold makeRoom
    split
    · exact h.evict
    · exact h
  unfold LruCache.insert
  split
  · exact h
  · intro k' hk'
    rw [SortedMap.find?_insert] at hk' ⊢
    by_cases hkk : k' = k
    · rw [if_pos hkk]
      rfl
    · rw [if_neg hkk] at hk' ⊢
      exact hroom k' hk'

theorem Contents.evict {c : LruCache K V} {Q : K → V → Prop} (h : c.Contents Q) :
    c.evict.Contents Q := by
  unfold LruCache.evict
  split
  · exact h
  · intro k v hv
    rw [SortedMap.find?_erase] at hv
    split at hv
    · cases hv
    · exact h k v hv

theorem Contents.insert {c : LruCache K V} {Q : K → V → Prop} (h : c.Contents Q) {k : K} {v : V}
    (hq : Q k v) : (c.insert k v).Contents Q := by
  have hroom : c.makeRoom.Contents Q := by
    unfold makeRoom
    split
    · exact h.evict
    · exact h
  unfold LruCache.insert
  split
  · exact h
  · intro k' v' hv
    rw [SortedMap.find?_insert] at hv
    split at hv
    · rename_i hkk
      cases hv
      rw [hkk]
      exact hq
    · exact hroom k' v' hv

theorem Backed.insertAll {c : LruCache K V} (h : c.Backed) (f : K → V) (ks : List K) :
    (c.insertAll f ks).Backed := by
  induction ks generalizing c with
  | nil => exact h
  | cons k ks ih => exact ih (h.insert k (f k))

theorem Contents.insertAll {c : LruCache K V} {Q : K → V → Prop} (h : c.Contents Q) {f : K → V}
    {ks : List K} (hq : ∀ k ∈ ks, Q k (f k)) : (c.insertAll f ks).Contents Q := by
  induction ks generalizing c with
  | nil => exact h
  | cons k ks ih =>
    exact ih (h.insert (hq k List.mem_cons_self)) fun k' hk' => hq k' (List.mem_cons_of_mem _ hk')

theorem Backed.congr {c c' : LruCache K V} (h : c.Backed) (hmap : c'.map = c.map)
    (hpages : c'.pages = c.pages) : c'.Backed := by
  intro k hk
  rw [hmap] at hk
  rw [hpages]
  exact h k hk

theorem Contents.congr {c c' : LruCache K V} {Q : K → V → Prop} (h : c.Contents Q)
    (hpages : c'.pages = c.pages) : c'.Contents Q := by
  intro k v hv
  rw [hpages] at hv
  exact h k v hv

end LruCache
end EBTree.Lib
