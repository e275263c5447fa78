import EBTree.BTree.Proof.Overlay

/-!
# The summary around the keys a tree finds

* `Bounded t`: every key a lookup finds lies within the summary. `Bounded.not_pruned`: no scan that
  asks for such a key is pruned.
* `bounded_put_iff`, `bounded_deleteKey_iff`, `bounded_rebuild_iff`: **when an update of a tree in
  bounds leaves it in bounds**, whatever lies on its pages (`PutKeeps`, `DeleteKeeps`,
  `RebuildKeeps`).
* `bounded_loadFromMap`, `Loaded.bounded`: trees that are built or loaded.
* `scan_stale`: a scan reports a stale summary only for one that is behind the snapshot.
-/

set_option autoImplicit false

namespace EBTree.BTree

open Lib

namespace PagedBTree

/-- `Get` succeeds on the key. -/
def Finds (t : PagedBTree) (key : Key) : Prop := ∃ lsn, t.get key = some (.ok lsn)

/-- Every key that is found lies within the summary. -/
def Bounded (t : PagedBTree) : Prop :=
  ∀ key, t.Finds key → t.summary.minKey ≤ key ∧ key ≤ t.summary.maxKey

/-- The keys found, one excepted, lie between the ends of a map, if it has any. -/
def Within (t : PagedBTree) (m : SortedMap Key Nat) (except : Key → Prop) : Prop :=
  ∀ first last, m.entries.head? = some first → m.entries.getLast? = some last →
    ∀ key, t.Finds key → ¬ except key → first.1 ≤ key ∧ key ≤ last.1

/-- What a put that narrows the summary must not find: a put into an empty delta takes its key for
the only one, and one under a summary without a lower bound for the lowest. -/
def PutKeeps (t : PagedBTree) (key : Key) : Prop :=
  ∀ k, t.Finds k →
    ((t.index.insert key 0).entries.length = 1 → (t.deltaDeleted.erase key).isEmpty = true →
      k = key) ∧
    (t.summary.minKey = [] → key ≤ k)

/-- A delete of an end of the summary takes the ends of the delta for those of the tree. -/
def DeleteKeeps (t : PagedBTree) (key : Key) : Prop :=
  key = t.summary.minKey ∨ key = t.summary.maxKey → t.Within (t.index.erase key) (· = key)

/-- A rebuilt summary has the ends of the map it is rebuilt from. -/
def RebuildKeeps (t : PagedBTree) (m : SortedMap Key Nat) : Prop := t.Within m fun _ => False

end PagedBTree

open PagedBTree

variable {t u : PagedBTree} {key k : Key}

/-- **No scan is pruned away** from a key within the summary. -/
theorem PagedBTree.Bounded.not_pruned (h : t.Bounded) (hf : t.Finds key) {plan : TypedPlan}
    (hp : planMatches plan key = true) : prunes t.summary plan = false := by
  obtain ⟨hmin, hmax⟩ := h key hf
  unfold planMatches at hp
  unfold prunes
  cases hop : plan.op with
  | kEq =>
    simp only [hop, decide_eq_true_eq] at hp
    subst hp
    simp only [decide_eq_false_iff_not, not_or, not_and, not_lt]
    exact ⟨fun _ => hmin, fun _ => hmax⟩
  | kRange =>
    simp only [hop, decide_eq_true_eq] at hp
    simp only [decide_eq_false_iff_not, not_or, not_and, not_lt]
    exact ⟨fun _ => hp.1.trans hmax, fun _ => hmin.trans hp.2⟩

/-- The summary alone says whether a tree of the same lookups is in bounds. -/
theorem bounded_congr (hget : ∀ k, u.get k = t.get k) (hmin : u.summary.minKey = t.summary.minKey)
    (hmax : u.summary.maxKey = t.summary.maxKey) : u.Bounded ↔ t.Bounded := by
  unfold Bounded Finds
  simp only [hget, hmin, hmax]

/-- A lookup reads the delta, and the pages from the root on. -/
theorem get_congr (hfile : u.pageFile = t.pageFile) (hroot : u.rootOffset = t.rootOffset)
    (hmode : u.onDiskMode = t.onDiskMode) (hidx : u.index.find? k = t.index.find? k)
    (hdel : u.deltaDeleted.contains k = t.deltaDeleted.contains k) : u.get k = t.get k := by
  have hbytes : ∀ off, u.readPageBytes off = t.readPageBytes off := fun off => by
    unfold readPageBytes
    rw [hfile]
  have hheader : ∀ off, u.readPageHeader off = t.readPageHeader off := fun off => by
    unfold readPageHeader
    rw [hfile]
  have hwalk : u.walkFuel = t.walkFuel := by
    unfold walkFuel
    rw [hfile]
  have hchain : ∀ fuel off, u.getFromLeafChain k fuel off = t.getFromLeafChain k fuel off := by
    intro fuel
    induction fuel with
    | zero => exact fun _ => rfl
    | succ fuel ih =>
      intro off
      simp only [getFromLeafChain, hbytes, ih]
  have hdisk : ∀ fuel off, u.getFromDiskAt k fuel off = t.getFromDiskAt k fuel off := by
    intro fuel
    induction fuel with
    | zero => exact fun _ => rfl
    | succ fuel ih =>
      intro off
      simp only [getFromDiskAt, hheader, hbytes, hwalk, hchain, ih]
  simp only [PagedBTree.get, hdel, hidx, hmode, hroot, hwalk, hdisk]

/-! ## Puts -/

theorem length_insertIn (k : Key) (v v' : Nat) (l : List Entry) :
    (SortedMap.insertIn k v l).length = (SortedMap.insertIn k v' l).length := by
  induction l with
  | nil => rfl
  | cons e l ih =>
    simp only [SortedMap.insertIn]
    split
    · rfl
    split
    · rfl
    · exact congrArg (· + 1) ih

theorem get_put (t : PagedBTree) (key : Key) (lsn : Nat) (k : Key) :
    (t.put key lsn).get k = if k = key then some (.ok lsn) else t.get k := by
  have hidx : (t.put key lsn).index = t.index.insert key lsn := rfl
  have hdel : (t.put key lsn).deltaDeleted = t.deltaDeleted.erase key := rfl
  split
  · rename_i hk
    subst hk
    rw [PagedBTree.get, hdel, hidx, SortedMap.contains, SortedMap.find?_erase, if_pos rfl,
      SortedMap.find?_insert, if_pos rfl]
    rfl
  · rename_i hk
    refine get_congr rfl rfl rfl ?_ ?_
    · rw [hidx, SortedMap.find?_insert, if_neg hk]
    · rw [hdel, SortedMap.contains, SortedMap.find?_erase, if_neg hk]
      rfl

theorem finds_put {lsn : Nat} : (t.put key lsn).Finds k ↔ k = key ∨ t.Finds k := by
  unfold Finds
  rw [get_put]
  by_cases hk : k = key
  · simp [hk]
  · simp [hk]

/-- The bounds a put leaves. -/
theorem summary_put (t : PagedBTree) (key : Key) (lsn : Nat) :
    ((t.put key lsn).summary.minKey, (t.put key lsn).summary.maxKey) =
      if (t.index.insert key 0).entries.length = 1 ∧ (t.deltaDeleted.erase key).isEmpty = true
      then (key, key)
      else ((widen t.summary key).minKey, (widen t.summary key).maxKey) := by
  have hne : (t.index.insert key lsn).isEmpty = false := by
    by_contra h
    have hnil := SortedMap.isEmpty_iff.1 (Bool.not_eq_false _ ▸ h)
    have hmem : (key, lsn) ∈ (t.index.insert key lsn).entries :=
      SortedMap.mem_entries_iff.2 (by rw [SortedMap.find?_insert, if_pos rfl])
    rw [hnil] at hmem
    cases hmem
  have hlen : (t.index.insert key lsn).entries.length = (t.index.insert key 0).entries.length :=
    length_insertIn _ _ _ _
  unfold PagedBTree.put updateSummaryOnPut
  simp only [hne, Bool.false_eq_true, false_and, if_false, hlen]
  split <;> rfl

/-- **When a put leaves the tree in bounds.** -/
theorem bounded_put_iff (h : t.Bounded) (key : Key) (lsn : Nat) :
    (t.put key lsn).Bounded ↔ t.PutKeeps key := by
  have hsum := summary_put t key lsn
  unfold Bounded PutKeeps
  simp only [finds_put]
  split at hsum
  · rename_i hone
    obtain ⟨hmin, hmax⟩ := Prod.mk.inj hsum
    rw [hmin, hmax]
    constructor
    · intro hb k hk
      have heq := le_antisymm (hb k (.inr hk)).2 (hb k (.inr hk)).1
      exact ⟨fun _ _ => heq, fun _ => heq ▸ le_refl key⟩
    · rintro hk k (rfl | hf)
      · exact ⟨le_refl k, le_refl k⟩
      · rw [(hk k hf).1 hone.1 hone.2]
        exact ⟨le_refl key, le_refl key⟩
  · rename_i hmore
    obtain ⟨hmin, hmax⟩ := Prod.mk.inj hsum
    rw [hmin, hmax]
    simp only [widen]
    constructor
    · intro hb k hk
      refine ⟨fun hone hdel => absurd ⟨hone, hdel⟩ hmore, fun hnil => ?_⟩
      have hle := (hb k (.inr hk)).1
      rwa [if_pos (.inl hnil)] at hle
    · intro hk k hf
      -- the lower bound moves down to the key, the upper one up
      have hlow : k = key ∨ (t.summary.minKey = [] → key ≤ k) ∧ t.summary.minKey ≤ k := by
        rcases hf with hf | hf
        · exact .inl hf
        · exact .inr ⟨(hk k hf).2, (h k hf).1⟩
      have hhigh : k = key ∨ k ≤ t.summary.maxKey := hf.imp id fun hf => (h k hf).2
      constructor
      · split
        · rename_i hmin
          rcases hlow with rfl | ⟨hnil, hle⟩
          · exact le_refl k
          · rcases hmin with hmin | hlt
            · exact hnil hmin
            · exact hlt.le.trans hle
        · rename_i hmin
          rcases hlow with rfl | ⟨-, hle⟩
          · exact not_lt.1 fun hlt => hmin (.inr hlt)
          · exact hle
      · split
        · rename_i hmax
          rcases hhigh with rfl | hle
          · exact le_refl k
          · rcases hmax with hmax | hlt
            · rw [hmax] at hle
              rw [key_le_nil hle]
              exact not_lt.1 (List.not_lt_nil _)
            · exact hle.trans hlt.le
        · rename_i hmax
          rcases hhigh with rfl | hle
          · exact not_lt.1 fun hlt => hmax (.inr hlt)
          · exact hle

/-! ## Deletes -/

theorem get_deleteKey (t : PagedBTree) (key : Key) (lsn : Nat) (hk : k ≠ key) :
    (t.deleteKey key lsn).get k = t.get k := by
  obtain ⟨hfile, hmode, hroot, hidx, hdel⟩ := Overlaid.deleteKey_fields t key lsn
  refine get_congr hfile hroot hmode ?_ ?_
  · rw [hidx, SortedMap.find?_erase, if_neg hk]
  · rw [hdel, SortedMap.contains, SortedMap.find?_insert, if_neg hk]
    rfl

theorem finds_deleteKey {lsn : Nat} :
    (t.deleteKey key lsn).Finds k ↔ k ≠ key ∧ t.Finds k := by
  unfold Finds
  by_cases hk : k = key
  · subst hk
    have hdel := (Overlaid.deleteKey_fields t k lsn).2.2.2.2
    rw [PagedBTree.get, hdel, SortedMap.contains, SortedMap.find?_insert, if_pos rfl]
    simp
  · rw [get_deleteKey t key lsn hk]
    simp [hk]

/-- The bounds a delete leaves: those of the delta, if an end of the summary was deleted. -/
theorem summary_deleteKey (t : PagedBTree) (key : Key) (lsn : Nat) :
    (¬ (key = t.summary.minKey ∨ key = t.summary.maxKey) ∧
      (t.deleteKey key lsn).summary.minKey = t.summary.minKey ∧
      (t.deleteKey key lsn).summary.maxKey = t.summary.maxKey) ∨
    ((key = t.summary.minKey ∨ key = t.summary.maxKey) ∧
      ((∃ first last, (t.index.erase key).entries.head? = some first ∧
          (t.index.erase key).entries.getLast? = some last ∧
          (t.deleteKey key lsn).summary.minKey = first.1 ∧
          (t.deleteKey key lsn).summary.maxKey = last.1) ∨
        ((t.index.erase key).entries = [] ∧
          (t.onDiskMode = true → (t.deleteKey key lsn).summary.minKey = t.summary.minKey ∧
            (t.deleteKey key lsn).summary.maxKey = t.summary.maxKey)))) := by
  have hne : (t.deltaDeleted.insert key ()).isEmpty = false := by
    by_contra h
    have hnil := SortedMap.isEmpty_iff.1 (Bool.not_eq_false _ ▸ h)
    have hmem : (key, ()) ∈ (t.deltaDeleted.insert key ()).entries :=
      SortedMap.mem_entries_iff.2 (by rw [SortedMap.find?_insert, if_pos rfl])
    rw [hnil] at hmem
    cases hmem
  unfold PagedBTree.deleteKey updateSummaryOnDelete
  simp only [hne, Bool.false_eq_true, false_and, and_false, if_false]
  by_cases hend : key ≠ t.summary.minKey ∧ key ≠ t.summary.maxKey
  · rw [if_pos hend]
    exact .inl ⟨by tauto, rfl, rfl⟩
  · rw [if_neg hend]
    refine .inr ⟨by tauto, ?_⟩
    unfold rebuildSummary
    simp only
    split
    · rename_i first last hf hl
      exact .inl ⟨first, last, hf, hl, rfl, rfl⟩
    · rename_i hnone
      have hnil : (t.index.erase key).entries = [] := by
        by_contra hcons
        exact hnone _ _ (List.head?_eq_some_head hcons) (List.getLast?_eq_some_getLast hcons)
      refine .inr ⟨hnil, fun hmode => ?_⟩
      rw [if_pos hmode]
      exact ⟨rfl, rfl⟩

/-- **When a delete leaves the tree in bounds.** -/
theorem bounded_deleteKey_iff (h : t.Bounded) (key : Key) (lsn : Nat) :
    (t.deleteKey key lsn).Bounded ↔ t.DeleteKeeps key := by
  unfold Bounded DeleteKeeps Within
  simp only [finds_deleteKey]
  rcases summary_deleteKey t key lsn with ⟨hin, hmin, hmax⟩ |
    ⟨hend, ⟨first, last, hf, hl, hmin, hmax⟩ | ⟨hnil, hdisk⟩⟩
  · rw [hmin, hmax]
    exact ⟨fun _ hend => absurd hend hin, fun _ k hk => h k hk.2⟩
  · rw [hmin, hmax, hf, hl]
    constructor
    · rintro hb - first' last' ⟨⟩ ⟨⟩ k hk hne
      exact hb k ⟨hne, hk⟩
    · exact fun hw k hk => hw hend first last rfl rfl k hk.2 hk.1
  · rw [hnil]
    constructor
    · rintro - - first last ⟨⟩
    · intro _ k hk
      obtain ⟨hne, hk⟩ := hk
      cases hmode : t.onDiskMode with
      | true =>
        obtain ⟨hmin, hmax⟩ := hdisk hmode
        rw [hmin, hmax]
        exact h k hk
      | false =>
        -- nothing but the deleted key was in the index
        obtain ⟨lsn', hget⟩ := hk
        have hidx : t.index.find? k = none := by
          have := SortedMap.find?_eq_none_iff (m := t.index.erase key) (k := k)
          rw [hnil] at this
          have hnone := this.2 (fun e he => by cases he)
          rwa [SortedMap.find?_erase, if_neg hne] at hnone
        rw [PagedBTree.get, hidx, hmode] at hget
        split at hget <;> simp at hget

/-! ## Rebuilding and loading -/

theorem summary_rebuild (t : PagedBTree) (m : SortedMap Key Nat) :
    (∀ k, (t.rebuildSummaryFromCommitted m).get k = t.get k) ∧
      ((∃ first last, m.entries.head? = some first ∧ m.entries.getLast? = some last ∧
          (t.rebuildSummaryFromCommitted m).summary.minKey = first.1 ∧
          (t.rebuildSummaryFromCommitted m).summary.maxKey = last.1) ∨
        (m.entries = [] ∧ t.rebuildSummaryFromCommitted m = t)) := by
  unfold rebuildSummaryFromCommitted
  split
  · rename_i first last hf hl
    exact ⟨fun k => get_congr rfl rfl rfl rfl rfl, .inl ⟨first, last, hf, hl, rfl, rfl⟩⟩
  · rename_i hnone
    refine ⟨fun _ => rfl, .inr ⟨?_, rfl⟩⟩
    by_contra hcons
    exact hnone _ _ (List.head?_eq_some_head hcons) (List.getLast?_eq_some_getLast hcons)

/-- **When a summary rebuilt from a map** leaves the tree in bounds. -/
theorem bounded_rebuild_iff (h : t.Bounded) (m : SortedMap Key Nat) :
    (t.rebuildSummaryFromCommitted m).Bounded ↔ t.RebuildKeeps m := by
  obtain ⟨hget, ⟨first, last, hf, hl, hmin, hmax⟩ | ⟨hnil, heq⟩⟩ := summary_rebuild t m
  · unfold Bounded RebuildKeeps Within Finds
    simp only [hget, hmin, hmax, hf, hl]
    constructor
    · rintro hb first' last' ⟨⟩ ⟨⟩ k hk -
      exact hb k hk
    · exact fun hw k hk => hw first last rfl rfl k hk id
  · rw [heq]
    have hw : t.RebuildKeeps m := by
      intro first last hf
      rw [hnil] at hf
      cases hf
    exact ⟨fun _ => hw, fun _ => h⟩

/-- What changes the summary leaves the page file alone. -/
theorem pageFile_rebuild (t : PagedBTree) (m : SortedMap Key Nat) :
    (t.rebuildSummaryFromCommitted m).pageFile = t.pageFile := by
  unfold PagedBTree.rebuildSummaryFromCommitted
  split <;> rfl

theorem pageFile_loadFromMap (t : PagedBTree) (m : SortedMap Key Nat) :
    (t.loadFromMap m).pageFile = t.pageFile := by
  simp only [PagedBTree.loadFromMap, PagedBTree.rebuildSummary]
  split
  · rfl
  · split <;> rfl

theorem pageFile_loadRoot (t : PagedBTree) (root : Nat) :
    (t.loadRoot root).1.pageFile = t.pageFile := by
  unfold PagedBTree.loadRoot
  split
  · rfl
  split
  · rfl
  simp only
  split <;> rfl

theorem bounded_ensure (lsn : Nat) : (t.ensureSummaryLsnAtLeast lsn).Bounded ↔ t.Bounded :=
  bounded_congr (fun _ => get_congr rfl rfl rfl rfl rfl) rfl rfl

/-- A tree in memory has the ends of its map. -/
theorem bounded_loadFromMap (t : PagedBTree) (data : SortedMap Key Nat) :
    (t.loadFromMap data).Bounded := by
  rintro key ⟨lsn, hget⟩
  have hfind : data.find? key = some lsn := by
    have hidx : (t.loadFromMap data).index = data := by
      unfold loadFromMap rebuildSummary
      simp only
      split
      · rfl
      · split <;> rfl
    have hmode : (t.loadFromMap data).onDiskMode = false := rfl
    rw [PagedBTree.get, hidx, hmode] at hget
    split at hget
    · simp at hget
    cases hf : data.find? key with
    | none => simp [hf] at hget
    | some lsn' => simpa [hf] using hget
  have hmem := SortedMap.mem_entries_iff.2 hfind
  unfold loadFromMap rebuildSummary
  simp only
  split
  · rename_i first last hf hl
    exact ⟨SortedMap.first_le hf hmem, SortedMap.le_last hl hmem⟩
  · rename_i hnone
    have hne := List.ne_nil_of_mem hmem
    exact (hnone _ _ (List.head?_eq_some_head hne) (List.getLast?_eq_some_getLast hne)).elim

/-- **A tree that is loaded** is in bounds, if the header of its root reaches the last key. -/
theorem Loaded.bounded {pf : PageFile} {m : SortedMap Key Nat} (h : Loaded t pf m)
    (hm : Storable m) (hreach : ∀ e ∈ m.entries, e.1 ≤ reach m) : t.Bounded := by
  rintro key ⟨lsn, hget⟩
  have hans := h.get hm key
  cases hf : m.find? key with
  | none =>
    rw [hf] at hans
    obtain ⟨msg, hmsg⟩ := hans
    rw [hget] at hmsg
    cases hmsg
  | some lsn' =>
    have hmem := SortedMap.mem_entries_iff.2 hf
    rw [h.maxKey]
    exact ⟨(le_of_start h.minKey).trans (firstKey_le hmem), hreach _ hmem⟩

/-- A tree without a delta or a root finds nothing. -/
theorem bounded_of_empty (hidx : t.index = SortedMap.empty)
    (hroot : ¬ (t.onDiskMode = true ∧ kPageFileHeaderSize ≤ t.rootOffset)) : t.Bounded := by
  rintro key ⟨lsn, hget⟩
  rw [PagedBTree.get, hidx, SortedMap.find?_empty, if_neg hroot] at hget
  split at hget <;> simp at hget

/-! ## Stale scans -/

/-- A failure that is not of the summary. -/
def Unread {α : Type} (r : Except Status α) : Prop := ∀ e, r = .error e → e.code ≠ .kStaleSummary

theorem unread_ok {α : Type} (x : α) : Unread (.ok x : Except Status α) := fun e h => by cases h

theorem unread_error {α : Type} {e : Status} (h : e.code ≠ .kStaleSummary) :
    Unread (.error e : Except Status α) := fun e' h' => by cases h'; exact h

theorem Unread.code {α : Type} {e : Status} (h : Unread (.error e : Except Status α)) :
    e.code ≠ .kStaleSummary := h e rfl

theorem unread_readPageBytes (t : PagedBTree) (off : Nat) : Unread (t.readPageBytes off) := by
  unfold PagedBTree.readPageBytes
  split
  · exact unread_error (by decide)
  · unfold PageFile.readPage
    split
    · exact unread_ok _
    · exact unread_error (by decide)

theorem unread_readPageHeader (t : PagedBTree) (off : Nat) : Unread (t.readPageHeader off) := by
  have hbytes := unread_readPageBytes t off
  unfold PagedBTree.readPageBytes at hbytes
  unfold PagedBTree.readPageHeader
  split
  · exact unread_error (by decide)
  rename_i pf ht
  rw [ht] at hbytes
  simp only at hbytes ⊢
  split
  · rename_i e hr
    rw [hr] at hbytes
    exact unread_error hbytes.code
  · split
    · exact unread_ok _
    · exact unread_error (by decide)

theorem unread_readPages (t : PagedBTree) (offs : List Nat) : Unread (t.readPages offs) := by
  induction offs with
  | nil => exact unread_ok _
  | cons off offs ih =>
    have hbytes := unread_readPageBytes t off
    unfold PagedBTree.readPages
    split
    · rename_i e hr
      rw [hr] at hbytes
      exact unread_error hbytes.code
    · split
      · rename_i e hr
        rw [hr] at ih
        exact unread_error ih.code
      · exact unread_ok _

theorem unread_internalEntryAt (page : Bytes) (pos : Nat) : Unread (internalEntryAt page pos) := by
  unfold internalEntryAt
  split
  · exact unread_error (by simp [Status.corruptPage])
  simp only
  split
  · exact unread_error (by simp [Status.corruptPage])
  · exact unread_ok _

theorem unread_childOffsets (page : Bytes) (n pos : Nat) : Unread (childOffsets page n pos) := by
  induction n generalizing pos with
  | zero => exact unread_ok _
  | succ n ih =>
    have hentry := unread_internalEntryAt page pos
    unfold childOffsets
    split
    · rename_i e hr
      rw [hr] at hentry
      exact unread_error hentry.code
    · rename_i off _ pos' _
      have hrest := ih pos'
      split
      · rename_i e hr
        rw [hr] at hrest
        exact unread_error hrest.code
      · exact unread_ok _

theorem unread_scanChildren (t : PagedBTree) (plan : TypedPlan)
    {visit : Nat → Option (Except Status (List Entry))}
    (hvisit : ∀ off r, visit off = some r → Unread r) (offs : List Nat)
    {r : Except Status (List Entry)} (h : t.scanChildren plan visit offs = some r) : Unread r := by
  induction offs generalizing r with
  | nil =>
    cases h
    exact unread_ok _
  | cons off offs ih =>
    have hheader := unread_readPageHeader t off
    unfold PagedBTree.scanChildren at h
    split at h
    · rename_i e hr
      cases h
      rw [hr] at hheader
      exact unread_error hheader.code
    split at h
    · exact ih h
    split at h
    · cases h
    · rename_i e hv
      cases h
      exact hvisit off _ hv
    · split at h
      · cases h
      · rename_i e hs
        cases h
        exact ih hs
      · cases h
        exact unread_ok _

theorem unread_scanFromDiskAt (t : PagedBTree) (plan : TypedPlan) (fuel off : Nat)
    {r : Except Status (List Entry)} (h : t.scanFromDiskAt plan fuel off = some r) : Unread r := by
  induction fuel generalizing off r with
  | zero => cases h
  | succ fuel ih =>
    have hheader := unread_readPageHeader t off
    have hbytes := unread_readPageBytes t off
    unfold PagedBTree.scanFromDiskAt at h
    split at h
    · rename_i e hr
      cases h
      rw [hr] at hheader
      exact unread_error hheader.code
    split at h
    · cases h
      exact unread_ok _
    split at h
    · obtain ⟨out, -, rfl⟩ := Option.map_eq_some_iff.1 h
      exact unread_ok _
    split at h
    · cases h
      exact unread_error (by decide)
    split at h
    · rename_i e hr
      cases h
      rw [hr] at hbytes
      exact unread_error hbytes.code
    rename_i hdr _ _ _ _ _ page _
    have hoffs := unread_childOffsets page hdr.keyCount kPageHeaderSize
    split at h
    · rename_i e hr
      cases h
      rw [hr] at hoffs
      exact unread_error hoffs.code
    rename_i offs _
    have hpages := unread_readPages t offs
    split at h
    · rename_i e hr
      cases h
      rw [hr] at hpages
      exact unread_error hpages.code
    · exact unread_scanChildren t plan (fun off r hv => ih off hv) offs h

/-- **A scan reports a stale summary** only where the summary is behind the snapshot. -/
theorem scan_stale {plan : TypedPlan} {e : Status} (h : t.scan plan = some (.error e))
    (he : e.code = .kStaleSummary) :
    0 < plan.snapshotLsn ∧ t.summary.summaryLsn < plan.snapshotLsn := by
  by_contra hfresh
  unfold PagedBTree.scan at h
  rw [if_neg hfresh] at h
  split at h
  · split at h
    · cases h
    split at h
    · cases h
    split at h <;> cases h
  · split at h
    · cases h
    split at h
    · cases h
    split at h
    · split at h
      · cases h
      · rename_i e' hs
        cases h
        exact unread_scanFromDiskAt t plan _ _ hs e rfl he
      · cases h
    · cases h

end EBTree.BTree
