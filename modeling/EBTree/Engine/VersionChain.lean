import EBTree.Engine.DataFile
import EBTree.Lib.Best

/-!
# The version chains

`VersionChainStore` (`version_chain_store.cc`): for each key the LSNs of its versions, oldest first.
The nodes kept inline and those its pager holds are one list here, as `MergedChain` puts them
together; a sidecar file holds the whole store.

* `mem_append`, `mem_appendAll`, `mem_compactBelow`, `mem_rebuildFromDataFile`: a node is in a chain
  because it was appended to it.
* `floor_mem`, `head_mem`: what a lookup answers is a node of the chain.
-/

set_option autoImplicit false

namespace EBTree.Engine

open Lib

structure VersionNode where
  lsn : Nat
  prevLsn : Nat
  deriving DecidableEq, Repr

structure VersionChainStore where
  chains : SortedMap Key (List VersionNode)

namespace VersionChainStore

def empty : VersionChainStore := ⟨SortedMap.empty⟩

def mergedChain (v : VersionChainStore) (key : Key) : List VersionNode :=
  (v.chains.find? key).getD []

/-- The LSN of the last node, `0` without one. -/
def lastLsn (chain : List VersionNode) : Nat := (chain.getLast?.map (·.lsn)).getD 0

/-- `Append`. An empty chain takes every LSN, another one a higher LSN than its last. -/
def append (v : VersionChainStore) (key : Key) (lsn prevLsn : Nat) :
    VersionChainStore × Except Status Unit :=
  if key = [] then (v, .error (Status.invalidArgument "empty key"))
  else if lsn = 0 then (v, .error (Status.invalidArgument "lsn must be > 0"))
  else if v.mergedChain key ≠ [] ∧ lsn ≤ lastLsn (v.mergedChain key) then
    (v, .error (Status.invalidArgument "lsn must increase"))
  else (⟨v.chains.insert key (v.mergedChain key ++ [⟨lsn, prevLsn⟩])⟩, .ok ())

/-- The loop of `Floor`: the largest LSN up to the snapshot. -/
def floorOf (chain : List VersionNode) (snapshotLsn : Nat) : Nat :=
  chain.foldl (fun best n => if n.lsn ≤ snapshotLsn ∧ best ≤ n.lsn then n.lsn else best) 0

def floor (v : VersionChainStore) (key : Key) (snapshotLsn : Nat) : Nat :=
  floorOf (v.mergedChain key) snapshotLsn

def head (v : VersionChainStore) (key : Key) : Nat := lastLsn (v.mergedChain key)

def containsLsn (v : VersionChainStore) (key : Key) (lsn : Nat) : Bool :=
  (v.mergedChain key).any fun n => n.lsn = lsn

/-- The nodes `CompactBelow` keeps of a chain: those from `lsn` on, and the floor at `lsn` when none
of these is visible there. -/
def compacted (chain : List VersionNode) (lsn : Nat) : List VersionNode :=
  let kept := chain.filter fun n => lsn ≤ n.lsn
  let floorAtPin := floorOf chain lsn
  let kept :=
    if 0 < floorAtPin ∧ !kept.any (fun n => n.lsn ≤ lsn) then
      kept ++ ((chain.find? fun n => n.lsn = floorAtPin).toList)
    else kept
  kept.mergeSort fun a b => a.lsn ≤ b.lsn

/-- The kept nodes of one key put back, each with the one before it as its predecessor, up to the
first that is refused. -/
def appendAll (v : VersionChainStore) (key : Key) : Nat → List VersionNode → VersionChainStore
  | _, [] => v
  | prev, n :: ns =>
    match v.append key n.lsn prev with
    | (v, .error _) => v
    | (v, .ok _) => v.appendAll key n.lsn ns

def compactBelow (v : VersionChainStore) (lsn : Nat) : VersionChainStore :=
  if lsn = 0 then v
  else v.chains.entries.foldl (fun v' c => v'.appendAll c.1 0 (compacted c.2 lsn)) empty

/-- The second loop of `RebuildFromDataFile`: out at the first record that is refused. -/
def appendRecords (v : VersionChainStore) : List DataRecord → VersionChainStore
  | [] => v
  | r :: rs =>
    match v.append r.key r.lsn (v.head r.key) with
    | (v, .error _) => v
    | (v, .ok _) => v.appendRecords rs

/-- The records `RebuildFromDataFile` reads, in the order of their LSNs. -/
def rebuildRecords (d : DataFile) : List DataRecord :=
  (((DataFile.rawReader d.file).scan d.file.length 0).map (·.2)).mergeSort fun a b => a.lsn ≤ b.lsn

def rebuildFromDataFile (d : DataFile) : VersionChainStore := empty.appendRecords (rebuildRecords d)

/-! ## What is in a chain -/

@[simp] theorem mergedChain_empty (key : Key) : empty.mergedChain key = [] := rfl

theorem append_cases (v : VersionChainStore) (key : Key) (lsn prevLsn : Nat) :
    (∃ e, v.append key lsn prevLsn = (v, .error e)) ∨
      (0 < lsn ∧ lastLsn (v.mergedChain key) < lsn ∧ v.append key lsn prevLsn =
        (⟨v.chains.insert key (v.mergedChain key ++ [⟨lsn, prevLsn⟩])⟩, .ok ())) := by
  unfold append
  split
  · exact .inl ⟨_, rfl⟩
  split
  · exact .inl ⟨_, rfl⟩
  split
  · exact .inl ⟨_, rfl⟩
  rename_i h0 hlast
  refine .inr ⟨by omega, ?_, rfl⟩
  by_cases hc : v.mergedChain key = []
  · simp only [hc, lastLsn, List.getLast?_nil, Option.map_none, Option.getD_none]; omega
  · exact Nat.not_le.1 fun h => hlast ⟨hc, h⟩

/-- The chains after an append: the one that was appended to, and the others as they were. -/
theorem mergedChain_append {v v' : VersionChainStore} {key : Key} {lsn prevLsn : Nat}
    {st : Except Status Unit} (h : v.append key lsn prevLsn = (v', st)) (k : Key) :
    v'.mergedChain k = v.mergedChain k ∨
      (k = key ∧ v'.mergedChain k = v.mergedChain k ++ [⟨lsn, prevLsn⟩]) := by
  obtain ⟨e, he⟩ | ⟨-, -, he⟩ := v.append_cases key lsn prevLsn
  · cases he.symm.trans h; exact .inl rfl
  · cases he.symm.trans h
    by_cases hk : k = key
    · subst hk; exact .inr ⟨rfl, by simp [mergedChain]⟩
    · exact .inl (by simp [mergedChain, hk])

theorem mem_append {v v' : VersionChainStore} {key k : Key} {lsn prevLsn : Nat}
    {st : Except Status Unit} (h : v.append key lsn prevLsn = (v', st)) {n : VersionNode}
    (hn : n ∈ v'.mergedChain k) : n ∈ v.mergedChain k ∨ (k = key ∧ n.lsn = lsn) := by
  rcases mergedChain_append h k with he | ⟨rfl, he⟩
  · exact .inl (he ▸ hn)
  · rw [he, List.mem_append, List.mem_singleton] at hn
    exact hn.imp id fun h => ⟨rfl, by rw [h]⟩

theorem mem_appendAll {v : VersionChainStore} {key k : Key} {ns : List VersionNode} {prev : Nat}
    {n : VersionNode} (hn : n ∈ (v.appendAll key prev ns).mergedChain k) :
    n ∈ v.mergedChain k ∨ (k = key ∧ ∃ m ∈ ns, m.lsn = n.lsn) := by
  induction ns generalizing v prev with
  | nil => exact .inl hn
  | cons m ns ih =>
    rw [appendAll] at hn
    cases hap : v.append key m.lsn prev with
    | mk v' st =>
      have hone : n ∈ v'.mergedChain k →
          n ∈ v.mergedChain k ∨ (k = key ∧ ∃ m' ∈ m :: ns, m'.lsn = n.lsn) := fun h =>
        (mem_append hap h).imp id fun ⟨hk, hl⟩ => ⟨hk, m, List.mem_cons_self, hl.symm⟩
      rw [hap] at hn
      cases st with
      | error e => exact hone hn
      | ok u =>
        rcases ih hn with h | ⟨hk, m', hm', hl⟩
        · exact hone h
        · exact .inr ⟨hk, m', List.mem_cons_of_mem _ hm', hl⟩

theorem mem_compacted {chain : List VersionNode} {lsn : Nat} {n : VersionNode}
    (h : n ∈ compacted chain lsn) : n ∈ chain := by
  simp only [compacted, List.mem_mergeSort] at h
  split at h
  · rcases List.mem_append.1 h with h | h
    · exact (List.mem_filter.1 h).1
    · exact List.mem_of_find?_eq_some (Option.mem_toList.1 h)
  · exact (List.mem_filter.1 h).1

theorem mem_compactBelow {v : VersionChainStore} {lsn : Nat} {k : Key} {n : VersionNode}
    (h : n ∈ (v.compactBelow lsn).mergedChain k) :
    ∃ m ∈ v.mergedChain k, m.lsn = n.lsn := by
  unfold compactBelow at h
  split at h
  · exact ⟨n, h, rfl⟩
  -- every node put back under a key comes from the chain of that key
  suffices ∀ (l : List (Key × List VersionNode)) (v' : VersionChainStore),
      (∀ c ∈ l, c ∈ v.chains.entries) →
      n ∈ (l.foldl (fun v' c => v'.appendAll c.1 0 (compacted c.2 lsn)) v').mergedChain k →
      n ∈ v'.mergedChain k ∨ ∃ m ∈ v.mergedChain k, m.lsn = n.lsn from
    (this _ _ (fun _ hc => hc) h).resolve_left (by simp)
  intro l
  induction l with
  | nil => exact fun v' _ h => .inl h
  | cons c l ih =>
    intro v' hl h
    rcases ih _ (fun c' hc' => hl c' (List.mem_cons_of_mem _ hc')) h with h | h
    · rcases mem_appendAll h with h | ⟨rfl, m, hm, hlsn⟩
      · exact .inl h
      · refine .inr ⟨m, ?_, hlsn⟩
        rw [mergedChain, SortedMap.mem_entries_iff.1 (hl c List.mem_cons_self), Option.getD_some]
        exact mem_compacted hm
    · exact .inr h

theorem mem_appendRecords {v : VersionChainStore} {rs : List DataRecord} {k : Key} {n : VersionNode}
    (h : n ∈ (v.appendRecords rs).mergedChain k) :
    n ∈ v.mergedChain k ∨ ∃ r ∈ rs, r.key = k ∧ r.lsn = n.lsn := by
  induction rs generalizing v with
  | nil => exact .inl h
  | cons r rs ih =>
    rw [appendRecords] at h
    cases hap : v.append r.key r.lsn (v.head r.key) with
    | mk v' st =>
      have hone : n ∈ v'.mergedChain k →
          n ∈ v.mergedChain k ∨ ∃ r' ∈ r :: rs, r'.key = k ∧ r'.lsn = n.lsn := fun h =>
        (mem_append hap h).imp id fun ⟨hk, hl⟩ => ⟨r, List.mem_cons_self, hk.symm, hl.symm⟩
      rw [hap] at h
      cases st with
      | error e => exact hone h
      | ok u =>
        rcases ih h with h | ⟨r', hr', h⟩
        · exact hone h
        · exact .inr ⟨r', List.mem_cons_of_mem _ hr', h⟩

theorem mem_rebuildFromDataFile {d : DataFile} {k : Key} {n : VersionNode}
    (h : n ∈ (rebuildFromDataFile d).mergedChain k) :
    ∃ r ∈ rebuildRecords d, r.key = k ∧ r.lsn = n.lsn :=
  (mem_appendRecords h).resolve_left (by simp)

/-! ## Lookups -/

theorem lastLsn_mem {chain : List VersionNode} (h : 0 < lastLsn chain) :
    ∃ n ∈ chain, n.lsn = lastLsn chain := by
  unfold lastLsn at h ⊢
  cases hl : chain.getLast? with
  | none => simp [hl] at h
  | some n => exact ⟨n, List.mem_of_getLast? hl, rfl⟩

theorem head_mem {v : VersionChainStore} {key : Key} (h : 0 < v.head key) :
    ∃ n ∈ v.mergedChain key, n.lsn = v.head key := lastLsn_mem h

/-- The floor is the largest LSN of the chain up to the snapshot, `0` when there is none. -/
theorem floorOf_spec (chain : List VersionNode) (snapshotLsn : Nat) :
    (floorOf chain snapshotLsn = 0 ∨ ∃ n ∈ chain, n.lsn = floorOf chain snapshotLsn) ∧
      floorOf chain snapshotLsn ≤ snapshotLsn ∧
      ∀ n ∈ chain, n.lsn ≤ snapshotLsn → n.lsn ≤ floorOf chain snapshotLsn := by
  obtain ⟨hmem, hmax⟩ := best_spec (fun n : VersionNode => n.lsn ≤ snapshotLsn) (·.lsn) chain
  change floorOf chain snapshotLsn = 0 ∨ ∃ n ∈ chain, n.lsn ≤ snapshotLsn ∧ n.lsn = floorOf chain
    snapshotLsn at hmem
  refine ⟨hmem.imp id fun ⟨n, hn, _, he⟩ => ⟨n, hn, he⟩, ?_, hmax⟩
  rcases hmem with h0 | ⟨n, -, hle, he⟩
  · rw [h0]
    exact Nat.zero_le _
  · exact he ▸ hle

theorem floor_le (v : VersionChainStore) (key : Key) (snapshotLsn : Nat) :
    v.floor key snapshotLsn ≤ snapshotLsn := (floorOf_spec _ _).2.1

theorem floor_mem {v : VersionChainStore} {key : Key} {snapshotLsn : Nat}
    (h : 0 < v.floor key snapshotLsn) :
    ∃ n ∈ v.mergedChain key, n.lsn = v.floor key snapshotLsn :=
  (floorOf_spec _ _).1.resolve_left (Nat.pos_iff_ne_zero.1 h)

end VersionChainStore
end EBTree.Engine
