import EBTree.Engine.Proof.Chains
import EBTree.Engine.Proof.Current

/-!
# Below the memtables

What a run without a reopening keeps of the tiers a read falls through.

* `Chained v ds lsn`: the chains lead to the last flushed version of a key, or past it.
* `Settled s ds`: the records `ds` of the data file are indexed, grow key by key, and are in the
  chains; a tree in memory mirrors the committed values.
* `Tiered s ds`: and the memtable is newer than all of this.
* `Run.tiered`: **a run** of calls that do not read the log in again.
-/

set_option autoImplicit false

namespace EBTree.Engine

open Lib Wal BTree ShardEngine VersionChainStore

variable {h : History} {s s' : ShardEngine} {rs : List WalRecord} {ds : List DataRecord} {op : Op}

/-! ## The chains -/

/-- Every flushed version has a node in the chain of its key that is as new, and where an older node
is left, one that is stable. -/
structure Chained (v : VersionChainStore) (ds : List DataRecord) (stableLsn : Nat) : Prop where
  ordered : Ordered v
  reached : ∀ r ∈ ds, ∃ n ∈ v.mergedChain r.key, r.lsn ≤ n.lsn
  covered : ∀ r ∈ ds, ∀ n ∈ v.mergedChain r.key, n.lsn < r.lsn →
    ∃ m ∈ v.mergedChain r.key, r.lsn ≤ m.lsn ∧ m.lsn ≤ stableLsn

variable {v v' : VersionChainStore} {lsn : Nat}

namespace Chained

theorem raise (hc : Chained v ds lsn) {lsn' : Nat}
    (hle : ∀ k, ∀ m ∈ v.mergedChain k, m.lsn ≤ lsn → m.lsn ≤ lsn') : Chained v ds lsn' where
  ordered := hc.ordered
  reached := hc.reached
  covered r hr n hn hlt := by
    obtain ⟨m, hm, hge, hml⟩ := hc.covered r hr n hn hlt
    exact ⟨m, hm, hge, hle _ m hm hml⟩

/-- A node behind the others. -/
theorem append (hc : Chained v ds lsn) {key : Key} {n prevLsn : Nat} {st : Except Status Unit}
    (ha : v.append key n prevLsn = (v', st)) : Chained v' ds lsn := by
  have hmem : ∀ k, ∀ m ∈ v.mergedChain k, m ∈ v'.mergedChain k := by
    intro k m hm
    rcases mergedChain_append ha k with he | ⟨-, he⟩
    · exact he ▸ hm
    · exact he ▸ List.mem_append_left _ hm
  refine ⟨hc.ordered.append ha, fun r hr => ?_, fun r hr m hm hlt => ?_⟩
  · obtain ⟨m, hm, hge⟩ := hc.reached r hr
    exact ⟨m, hmem _ m hm, hge⟩
  · rcases mergedChain_append ha r.key with he | ⟨hk, he⟩
    · obtain ⟨m', hm', hge⟩ := hc.covered r hr m (he ▸ hm) hlt
      exact ⟨m', hmem _ m' hm', hge⟩
    rw [he, List.mem_append, List.mem_singleton] at hm
    rcases hm with hm | rfl
    · obtain ⟨m', hm', hge⟩ := hc.covered r hr m hm hlt
      exact ⟨m', hmem _ m' hm', hge⟩
    · -- the new node is above the one that reaches the version
      obtain ⟨m', hm', hge⟩ := hc.reached r hr
      have hlast := (hc.ordered.append ha).increasing r.key
      rw [he] at hlast
      have := (List.pairwise_append.1 hlast).2.2 m' hm' _ (List.mem_singleton_self _)
      simp only at this hlt
      omega

theorem fold (hc : Chained v ds lsn) (rs : List FoldRecord) :
    Chained (foldInto v rs).1 ds lsn := by
  refine foldInto_induction (P := fun v => Chained v ds lsn) ?_ hc
  intro v v' r prevLsn st _ hc ha
  exact hc.append ha

/-- A version that is flushed and appended. -/
theorem flush (hc : Chained v ds lsn) {r : DataRecord} {prevLsn : Nat}
    (ha : v.append r.key r.lsn prevLsn = (v', .ok ())) :
    Chained v' (ds ++ [r]) (max lsn r.lsn) := by
  have hc' : Chained v' ds (max lsn r.lsn) :=
    (hc.append ha).raise fun _ _ _ hm => le_max_of_le_left hm
  have hnew : ⟨r.lsn, prevLsn⟩ ∈ v'.mergedChain r.key := by
    rw [mergedChain_append_ok ha, if_pos rfl]
    exact List.mem_append_right _ (List.mem_singleton_self _)
  refine ⟨hc'.ordered, fun r' hr' => ?_, fun r' hr' n hn hlt => ?_⟩
  · rcases List.mem_append.1 hr' with hr' | hr'
    · exact hc'.reached r' hr'
    · rw [List.mem_singleton.1 hr']
      exact ⟨_, hnew, Nat.le_refl _⟩
  · rcases List.mem_append.1 hr' with hr' | hr'
    · exact hc'.covered r' hr' n hn hlt
    · rw [List.mem_singleton.1 hr']
      exact ⟨_, hnew, Nat.le_refl _, Nat.le_max_right _ _⟩

end Chained

theorem mem_compacted_cases {chain : List VersionNode} {pin : Nat} {n : VersionNode}
    (hn : n ∈ compacted chain pin) : pin ≤ n.lsn ∨ n.lsn = floorOf chain pin := by
  simp only [compacted, List.mem_mergeSort] at hn
  split at hn
  · rcases List.mem_append.1 hn with hn | hn
    · exact .inl (of_decide_eq_true (List.mem_filter.1 hn).2)
    · have hf := List.find?_some (Option.mem_toList.1 hn)
      exact .inr (of_decide_eq_true hf)
  · exact .inl (of_decide_eq_true (List.mem_filter.1 hn).2)

/-- The LSNs a compacted chain has are those `compacted` keeps. -/
theorem mem_lsns_compactBelow (ho : Ordered v) {pin : Nat} (hpos : pin ≠ 0) (k : Key) (x : Nat) :
    (∃ n ∈ (v.compactBelow pin).mergedChain k, n.lsn = x) ↔
      ∃ n ∈ compacted (v.mergedChain k) pin, n.lsn = x := by
  have he := lsns_compactBelow ho hpos k
  constructor
  · rintro ⟨n, hn, rfl⟩
    exact List.mem_map.1 (he ▸ List.mem_map_of_mem hn)
  · rintro ⟨n, hn, rfl⟩
    exact List.mem_map.1 (he.symm ▸ List.mem_map_of_mem hn)

/-- **Compaction** keeps what reaches the flushed versions. -/
theorem Chained.compactBelow (hc : Chained v ds lsn) (pin : Nat) :
    Chained (v.compactBelow pin) ds lsn := by
  by_cases hpos : pin = 0
  · rw [VersionChainStore.compactBelow, if_pos hpos]
    exact hc
  have hlsn := mem_lsns_compactBelow hc.ordered hpos
  refine ⟨hc.ordered.compactBelow pin, fun r hr => ?_, fun r hr n hn hlt => ?_⟩
  · obtain ⟨n, hn, hge⟩ := hc.reached r hr
    have hkept : ∃ m ∈ compacted (v.mergedChain r.key) pin, n.lsn ≤ m.lsn := by
      rcases Nat.lt_or_ge n.lsn pin with hlt | hge'
      · obtain ⟨m, hm, hle, -⟩ := exists_compacted_floor hn (hc.ordered.positive _ n hn) hlt
        exact ⟨m, hm, hle⟩
      · exact ⟨n, mem_compacted_of_ge hn hge', Nat.le_refl _⟩
    obtain ⟨m, hm, hle⟩ := hkept
    obtain ⟨m', hm', he⟩ := (hlsn r.key m.lsn).2 ⟨m, hm, rfl⟩
    exact ⟨m', hm', by omega⟩
  · obtain ⟨n', hn', he⟩ := (hlsn r.key n.lsn).1 ⟨n, hn, rfl⟩
    obtain ⟨m, hm, hge, hle⟩ := hc.covered r hr n' (mem_compacted hn') (by omega)
    have hkept : m ∈ compacted (v.mergedChain r.key) pin := by
      rcases Nat.lt_or_ge m.lsn pin with hlt' | hge'
      · -- an older node is kept, which is then the floor at the pin
        have hmax := (floorOf_spec (v.mergedChain r.key) pin).2.2 m hm (Nat.le_of_lt hlt')
        rcases mem_compacted_cases hn' with hp | hp
        · omega
        · omega
      · exact mem_compacted_of_ge hm hge'
    obtain ⟨m', hm', he'⟩ := (hlsn r.key m.lsn).2 ⟨m, hkept, rfl⟩
    exact ⟨m', hm', by omega, by omega⟩

/-! ## The tree -/

section

variable {t u : PagedBTree} {m : SortedMap Key Nat}

/-- A tree with the same entries, whose summary covers them. -/
theorem mirrors_of_fields (h : Mirrors t m) (hmode : u.onDiskMode = t.onDiskMode)
    (hindex : u.index = t.index) (hdelta : u.deltaDeleted = t.deltaDeleted)
    (hcovers : Covers u.summary m.entries) : Mirrors u m where
  inMemory := hmode.trans h.inMemory
  index_eq := hindex.trans h.index_eq
  deleted k hk := h.deleted k (hdelta ▸ hk)
  keys := h.keys
  covers := hcovers

theorem mirrors_ensureSummaryLsnAtLeast (h : Mirrors t m) (lsn : Nat) :
    Mirrors (t.ensureSummaryLsnAtLeast lsn) m :=
  mirrors_of_fields h rfl rfl rfl h.covers

theorem rebuildSummaryFromCommitted_fields (t : PagedBTree) (m : SortedMap Key Nat) :
    (t.rebuildSummaryFromCommitted m).onDiskMode = t.onDiskMode ∧
      (t.rebuildSummaryFromCommitted m).index = t.index ∧
      (t.rebuildSummaryFromCommitted m).deltaDeleted = t.deltaDeleted := by
  unfold PagedBTree.rebuildSummaryFromCommitted
  split <;> exact ⟨rfl, rfl, rfl⟩

theorem mirrors_rebuildSummaryFromCommitted (h : Mirrors t m) :
    Mirrors (t.rebuildSummaryFromCommitted m) m := by
  obtain ⟨hmode, hindex, hdelta⟩ := rebuildSummaryFromCommitted_fields t m
  refine mirrors_of_fields h hmode hindex hdelta fun e he => ?_
  unfold PagedBTree.rebuildSummaryFromCommitted
  split
  · rename_i first last hfirst hlast
    exact ⟨h.keys first (List.mem_of_head? hfirst), SortedMap.first_le hfirst he,
      SortedMap.le_last hlast he⟩
  · exact h.covers e he

/-- A tree in memory that is not persisted keeps its entries. -/
theorem persistRootFromMap_memory {st : Except Status Nat}
    (h : t.persistRootFromMap m = some (u, st)) (hmode : u.onDiskMode = false) :
    u.onDiskMode = t.onDiskMode ∧ u.index = t.index ∧ u.deltaDeleted = t.deltaDeleted ∧
      u.summary = t.summary ∧ ∀ root, st = .ok root → root < kPageFileHeaderSize := by
  unfold PagedBTree.persistRootFromMap at h
  cases hpf : t.pageFile with
  | none =>
    rw [PagedBTree.persistRootImpl, hpf] at h
    cases h
    exact ⟨rfl, rfl, rfl, rfl, fun root hr => by cases hr⟩
  | some pf =>
    rcases persistRootImpl_cases hpf h with ⟨-, rfl, rfl⟩ |
      ⟨leaves, -, -, ⟨e, rfl, rfl⟩ | ⟨pf', root, rfl, -, rfl⟩⟩
    · refine ⟨rfl, rfl, rfl, rfl, fun root hr => ?_⟩
      cases hr
      decide
    · exact ⟨rfl, rfl, rfl, rfl, fun root hr => by cases hr⟩
    · cases hmode

theorem loadRoot_onDiskMode (t : PagedBTree) (root : Nat) (h : t.onDiskMode = true) :
    (t.loadRoot root).1.onDiskMode = true := by
  unfold PagedBTree.loadRoot
  split
  · exact h
  split
  · exact h
  simp only
  split
  · exact h
  · rfl

theorem loadRoot_small (t : PagedBTree) {root : Nat} (h : root < kPageFileHeaderSize) :
    (t.loadRoot root).1 = t := by
  unfold PagedBTree.loadRoot
  split
  · rfl
  · rw [if_pos h]

theorem Repaired.mirrors {lsn : Nat} (hr : Repaired m lsn t u)
    (hkeys : ∀ e ∈ m.entries, e.1 ≠ []) (ht : t.onDiskMode = false → Mirrors t m) :
    u.onDiskMode = false → Mirrors u m := by
  induction hr with
  | same => exact ht
  | @again u _ ih =>
    intro hmode
    by_cases hu : u.onDiskMode = true
    · rw [if_pos hu] at hmode
      have := (rebuildSummaryFromCommitted_fields u m).1.symm.trans hmode
      rw [hu] at this
      cases this
    · rw [if_neg hu]
      exact mirrors_ensureSummaryLsnAtLeast (Mirrors.loadFromMap u hkeys) lsn

/-- **Committing a superblock** leaves a tree in memory a mirror, or puts it on disk. -/
theorem Rooted.mirrors {lsn : Nat} (hr : Rooted t m lsn u)
    (ht : t.onDiskMode = false → Mirrors t m) : u.onDiskMode = false → Mirrors u m := by
  have hpersist : ∀ {u : PagedBTree} {st : Except Status Nat},
      ((t.rebuildSummaryFromCommitted m).ensureSummaryLsnAtLeast lsn).persistRootFromMap m =
        some (u, st) → u.onDiskMode = false →
      Mirrors u m ∧ ∀ root, st = .ok root → root < kPageFileHeaderSize := by
    intro u st hp hmode
    obtain ⟨h1, h2, h3, h4, h5⟩ := persistRootFromMap_memory hp hmode
    have hmode' : t.onDiskMode = false :=
      (rebuildSummaryFromCommitted_fields t m).1.symm.trans (h1.symm.trans hmode)
    have hm := mirrors_ensureSummaryLsnAtLeast (mirrors_rebuildSummaryFromCommitted (ht hmode')) lsn
    exact ⟨mirrors_of_fields hm h1 h2 h3 (h4 ▸ hm.covers), h5⟩
  -- a root that was persisted is loaded only when the tree is on disk
  have hload : ∀ {u : PagedBTree} {root : Nat},
      ((t.rebuildSummaryFromCommitted m).ensureSummaryLsnAtLeast lsn).persistRootFromMap m =
        some (u, .ok root) → (u.loadRoot root).1.onDiskMode = false →
      Mirrors (u.loadRoot root).1 m := by
    intro u root hp hmode
    have hu : u.onDiskMode = false := by
      cases hu : u.onDiskMode with
      | false => rfl
      | true => exact (loadRoot_onDiskMode u root hu).symm.trans hmode
    obtain ⟨hm, hsmall⟩ := hpersist hp hu
    rw [loadRoot_small u (hsmall root rfl)]
    exact hm
  intro hmode
  cases hr with
  | kept => exact ht hmode
  | failed hp => exact (hpersist hp hmode).1
  | unloaded hp => exact hload hp hmode
  | loaded hp => exact mirrors_ensureSummaryLsnAtLeast (hload hp hmode) lsn

end

/-! ## The invariants -/

/-- The tiers below the memtables. -/
structure Settled (s : ShardEngine) (ds : List DataRecord) : Prop where
  stores : Stores s.datafile ds
  indexed : ∀ r ∈ ds, ∃ off, s.datafile.lsnIndex.find? r.lsn = some off
  named : ∀ r ∈ ds, r.key ≠ []
  stable : ∀ r ∈ ds, 0 < r.lsn ∧ r.lsn ≤ s.stableLsn
  increasing : ds.Pairwise fun a b => a.key = b.key → a.lsn < b.lsn
  committed : s.committed = s.datafile.load
  chains : Chained s.vcs ds s.stableLsn
  memory : s.btree.onDiskMode = false → Mirrors s.btree s.committedLsns

/-- And the memtables: the older two are empty, and the entries of the active one are newer than
every version in the chains. -/
structure Tiered (s : ShardEngine) (ds : List DataRecord) : Prop extends Settled s ds where
  immutable : s.immutable = SortedMap.empty
  flushing : s.flushing = SortedMap.empty
  fresh : Ahead s.vcs s.memtable.entries

namespace Settled

theorem committed_find? (hst : Settled s ds) (key : Key) :
    s.committed.find? key = live (lastOf ds key) := by
  rw [hst.committed, DataFile.load, hst.stores.loadRecords_eq, foldl_loadStep_find?]

theorem lastOf_mem {key : Key} {r : DataRecord} (hr : lastOf ds key = some r) :
    r ∈ ds ∧ r.key = key :=
  ⟨List.mem_reverse.1 (List.mem_of_find?_eq_some hr), by simpa using List.find?_some hr⟩

theorem committedLsns_named (hst : Settled s ds) : ∀ e ∈ s.committedLsns.entries, e.1 ≠ [] := by
  rintro ⟨key, n⟩ he
  have hf := SortedMap.mem_entries_iff.1 he
  rw [committedLsns, SortedMap.find?_mapValues, hst.committed_find?] at hf
  obtain ⟨x, hx, -⟩ := Option.map_eq_some_iff.1 hf
  obtain ⟨r, hr, -⟩ := Option.bind_eq_some_iff.1 hx
  obtain ⟨hmem, rfl⟩ := lastOf_mem hr
  exact hst.named r hmem

/-- The tree and the stable LSN change as in a call that leaves the tables alone. -/
theorem calm (hst : Settled s ds) (hc : Calm s s') : Settled s' ds where
  stores := hc.datafile ▸ hst.stores
  indexed := hc.datafile ▸ hst.indexed
  named := hst.named
  stable r hr := ⟨(hst.stable r hr).1, Nat.le_trans (hst.stable r hr).2 hc.stable⟩
  increasing := hst.increasing
  committed := by rw [hc.committed, hc.datafile, hst.committed]
  chains := by
    rw [hc.vcs]
    exact hst.chains.raise fun _ _ _ hle => Nat.le_trans hle hc.stable
  memory := by
    have hm : s'.committedLsns = s.committedLsns := by rw [committedLsns, hc.committed]; rfl
    rw [hm]
    exact hc.btree.mirrors hst.committedLsns_named hst.memory

theorem tail (hst : Settled s ds) (ht : Tail s s') : Settled s' ds where
  stores := ht.datafile ▸ hst.stores
  indexed := ht.datafile ▸ hst.indexed
  named := hst.named
  stable := ht.stable ▸ hst.stable
  increasing := hst.increasing
  committed := by rw [ht.committed, ht.datafile, hst.committed]
  chains := by
    rw [ht.stable]
    obtain ⟨v, hv, hs'⟩ := ht.vcs
    have hfolded : Chained v ds s.stableLsn := by
      rcases hv with rfl | rfl
      · exact hst.chains
      · exact hst.chains.fold _
    rcases hs' with he | ⟨lsn, he⟩ <;> rw [he]
    · exact hfolded
    · exact hfolded.compactBelow lsn
  memory := by
    have hm : s'.committedLsns = s.committedLsns := by rw [committedLsns, ht.committed]; rfl
    rw [hm]
    exact ht.btree.mirrors hst.memory

theorem committedLsns_insert (m : SortedMap Key (Value × Nat)) (key : Key) (x : Value × Nat) :
    (m.insert key x).mapValues (·.2) = (m.mapValues (·.2)).insert key x.2 := by
  refine SortedMap.ext_find? fun k => ?_
  simp only [SortedMap.find?_mapValues, SortedMap.find?_insert]
  split <;> rfl

theorem committedLsns_erase (m : SortedMap Key (Value × Nat)) (key : Key) :
    (m.erase key).mapValues (·.2) = (m.mapValues (·.2)).erase key := by
  refine SortedMap.ext_find? fun k => ?_
  simp only [SortedMap.find?_mapValues, SortedMap.find?_erase]
  split <;> rfl

/-- **An entry is flushed** that is newer than what the chains have. -/
theorem flushEntry (hst : Settled s ds) {key : Key} {e : MemTableEntry} (hk : key ≠ [])
    (h0 : 0 < e.lsn) (hin : (memRecord key e).InRange) (hf : s.flushEntry key e = some (s', .ok ())) :
    Settled s' (ds ++ [memRecord key e]) := by
  obtain ⟨prevLsn, vcs, ha, rfl⟩ := flushEntry_cases hf
  have hchain : ∀ n ∈ s.vcs.mergedChain key, n.lsn < e.lsn :=
    ((append_ok_iff (hst.chains.ordered.increasing key)).1 (by rw [ha])).2.2
  have hstores := hst.stores.append hin
  have hstable : (if (Except.ok () : Except Status Unit).isOk then max s.stableLsn e.lsn
      else s.stableLsn) = max s.stableLsn e.lsn := rfl
  rw [hstable]
  have hcommitted : (s.afterEntry key e vcs (max s.stableLsn e.lsn)).committed =
      DataFile.loadStep s.committed (memRecord key e) := by
    simp only [afterEntry, DataFile.loadStep, memRecord]
    split <;> simp_all
  refine ⟨hstores, fun r hr => ?_, fun r hr => ?_, fun r hr => ?_, ?_, ?_, ?_, ?_⟩
  · change ∃ off, (s.datafile.lsnIndex.insert _ _).find? r.lsn = some off
    rw [SortedMap.find?_insert]
    split
    · exact ⟨_, rfl⟩
    · rename_i hne
      rcases List.mem_append.1 hr with hr | hr
      · exact hst.indexed r hr
      · exact absurd (by rw [List.mem_singleton.1 hr]) hne
  · rcases List.mem_append.1 hr with hr | hr
    · exact hst.named r hr
    · rw [List.mem_singleton.1 hr]
      exact hk
  · change 0 < r.lsn ∧ r.lsn ≤ max s.stableLsn e.lsn
    rcases List.mem_append.1 hr with hr | hr
    · exact ⟨(hst.stable r hr).1, le_max_of_le_left (hst.stable r hr).2⟩
    · rw [List.mem_singleton.1 hr]
      exact ⟨h0, Nat.le_max_right _ _⟩
  · refine List.pairwise_append.2 ⟨hst.increasing, List.pairwise_singleton _ _, ?_⟩
    intro a ha' b hb hab
    rw [List.mem_singleton.1 hb] at hab ⊢
    have hkey : a.key = key := hab
    obtain ⟨n, hn, hle⟩ := hst.chains.reached a ha'
    exact Nat.lt_of_le_of_lt hle (hchain n (hkey ▸ hn))
  · rw [hcommitted, hst.committed, DataFile.load, DataFile.load, hst.stores.loadRecords_eq]
    change _ = (DataFile.loadRecords (s.datafile.append (memRecord key e))).foldl _ _
    rw [hstores.loadRecords_eq, List.foldl_append]
    rfl
  · exact @Chained.flush _ _ _ _ hst.chains (memRecord key e) prevLsn ha
  · intro hmode
    change (if e.deleted then s.btree.deleteKey key e.lsn
      else s.btree.put key e.lsn).onDiskMode = false at hmode
    have hput : (s.btree.put key e.lsn).onDiskMode = s.btree.onDiskMode := rfl
    have hdelete : (s.btree.deleteKey key e.lsn).onDiskMode = s.btree.onDiskMode := by
      simp only [PagedBTree.deleteKey, PagedBTree.updateSummaryOnDelete, PagedBTree.rebuildSummary]
      split
      · rfl
      split
      · rfl
      split
      · rfl
      split
      · rfl
      · split <;> rfl
    have hmem : s.btree.onDiskMode = false := by
      split at hmode
      · rwa [hdelete] at hmode
      · rwa [hput] at hmode
    have hm := hst.memory hmem
    rw [committedLsns, hcommitted, DataFile.loadStep]
    change Mirrors (if e.deleted then s.btree.deleteKey key e.lsn else s.btree.put key e.lsn) _
    by_cases hd : e.deleted = true
    · rw [if_pos hd, if_pos (show (memRecord key e).deleted = true from hd)]
      have he := committedLsns_erase s.committed (memRecord key e).key
      rw [he]
      exact hm.deleteKey key e.lsn
    · rw [if_neg hd, if_neg (show ¬ (memRecord key e).deleted = true from hd)]
      have he := committedLsns_insert s.committed (memRecord key e).key
        ((memRecord key e).value, (memRecord key e).lsn)
      rw [he]
      exact hm.put hk e.lsn

end Settled

/-! ## A flush -/

/-- The entries that are left, with fields that fit. -/
def Fits (es : List (Key × MemTableEntry)) : Prop := ∀ key e, (key, e) ∈ es → (memRecord key e).InRange

/-- **A flush of entries** that are newer than what the chains have. -/
theorem Settled.flushEntries {es : List (Key × MemTableEntry)} {st : Except Status Unit}
    (hst : Settled s ds) (hes : OneEach es) (ha : Ahead s.vcs es) (hin : Fits es)
    (h : s.flushEntries es = some (s', st)) : Settled s' (ds ++ memRecords es) ∧ st = .ok () := by
  induction es generalizing s ds with
  | nil =>
    cases h
    exact ⟨by rw [memRecords, List.map_nil, List.append_nil]; exact hst, rfl⟩
  | cons x es ih =>
    obtain ⟨key, e⟩ := x
    have hok := flushEntries_ok hes ha h
    rw [OneEach, List.map_cons, List.nodup_cons] at hes
    obtain ⟨hk, h0, -⟩ := ha key e List.mem_cons_self
    rw [ShardEngine.flushEntries] at h
    cases hf : s.flushEntry key e with
    | none =>
      rw [hf] at h
      cases h
    | some y =>
      obtain ⟨s1, st1⟩ := y
      rw [hf] at h
      cases st1 with
      | error err =>
        cases h
        cases hok
      | ok u =>
        have hst1 := hst.flushEntry hk h0 (hin key e List.mem_cons_self) hf
        obtain ⟨prevLsn, vcs, happ, rfl⟩ := flushEntry_cases hf
        have ha1 : Ahead vcs es := by
          intro k' e' he'
          obtain ⟨hk', h0', hn'⟩ := ha k' e' (List.mem_cons_of_mem _ he')
          refine ⟨hk', h0', fun n hm => ?_⟩
          rcases mergedChain_append happ k' with hc | ⟨rfl, -⟩
          · exact hn' n (hc ▸ hm)
          · exact absurd (List.mem_map.2 ⟨(k', e'), he', rfl⟩) hes.1
        obtain ⟨hst', hok'⟩ := ih hst1 hes.2 ha1
          (fun k' e' he' => hin k' e' (List.mem_cons_of_mem _ he')) h
        rw [List.append_assoc] at hst'
        exact ⟨hst', hok'⟩

namespace Tiered

theorem calm (ht : Tiered s ds) (hc : Calm s s') : Tiered s' ds where
  toSettled := ht.toSettled.calm hc
  immutable := hc.immutable.trans ht.immutable
  flushing := hc.flushing.trans ht.flushing
  fresh := by
    rw [hc.vcs, hc.memtable]
    exact ht.fresh

theorem ahead_order (ht : Tiered s ds) (ord : IterOrder) : Ahead s.vcs (ord.order s.memtable) :=
  fun key e he => ht.fresh key e ((ord.perm _).mem_iff.1 he)

/-- **A flush** writes the whole memtable and empties it. -/
theorem flush (ht : Tiered s ds) (hin : Fits s.memtable.entries) {ord : IterOrder}
    {s1 : ShardEngine} {st : Except Status Unit}
    (hf : s.rotateMemTableForFlush.flushInternal ord = some (s1, st)) (htail : Tail s1 s') :
    st = .ok () ∧ Tiered s' (ds ++ memRecords (ord.order s.memtable)) := by
  obtain ⟨s2, hes, hs1⟩ := flushInternal_cases hf
  have hrotated : Settled { s.rotateMemTableForFlush with wal := s.rotateMemTableForFlush.wal.fsync }
      ds := ⟨ht.stores, ht.indexed, ht.named, ht.stable, ht.increasing, ht.committed, ht.chains,
        ht.memory⟩
  have hfits : Fits (ord.order s.memtable) := fun key e he =>
    hin key e ((ord.perm _).mem_iff.1 he)
  obtain ⟨hst, hok⟩ := hrotated.flushEntries (oneEach_order ord s.memtable) (ht.ahead_order ord)
    hfits hes
  subst hok
  have hst1 : Settled s1 (ds ++ memRecords (ord.order s.memtable)) := by
    rw [hs1]
    exact ⟨hst.stores, hst.indexed, hst.named, hst.stable, hst.increasing, hst.committed,
      hst.chains, hst.memory⟩
  have hframe := flushInternal_frame hf
  refine ⟨rfl, hst1.tail htail, ?_, ?_, ?_⟩
  · rw [htail.immutable, hframe]
    exact ht.flushing
  · rw [htail.flushing, hs1]
    rfl
  · have hmem : s'.memtable = SortedMap.empty := by
      rw [htail.memtable, hframe]
      exact ht.immutable
    rw [hmem]
    exact fun key e he => absurd he List.not_mem_nil

/-- **A write** is newer than everything. -/
theorem write (ht : Tiered s ds) (hi : Inv true h s rs ds) {r : WriteRequest} {lsn : Nat}
    {w : WalWriter} (hkey : r.key ≠ []) (hlsn : lsn = s.wal.maxLsn + 1)
    (hack : Acknowledged { s with wal := w, memtable := s.memtable.insert r.key (written r lsn) } lsn
      s') : Tiered s' ds := by
  have hbelow : ∀ {key : Key} {n : VersionNode}, n ∈ s.vcs.mergedChain key → n.lsn < lsn := by
    intro key n hn
    obtain ⟨x, ⟨y, hy, hyx, -⟩, -, hxl⟩ := hi.tiers.chains key n hn
    have := hi.log.bound hy
    rw [hyx, hxl] at this
    omega
  have hrecord : ∀ r ∈ ds, r.lsn < lsn := by
    intro r hr
    obtain ⟨n, hn, hle⟩ := ht.chains.reached r hr
    exact Nat.lt_of_le_of_lt hle (hbelow hn)
  have hstable : ∀ n, n ≤ s.stableLsn → n < lsn → n ≤ s'.stableLsn := by
    intro n hn hlt
    rcases hack.stable with hle | he
    · exact Nat.le_trans hn hle
    · omega
  refine ⟨⟨hack.datafile ▸ ht.stores, hack.datafile ▸ ht.indexed, ht.named, fun r hr => ?_,
    ht.increasing, ?_, ?_, fun hmode => ?_⟩, hack.immutable.trans ht.immutable,
    hack.flushing.trans ht.flushing, ?_⟩
  · exact ⟨(ht.stable r hr).1, hstable _ (ht.stable r hr).2 (hrecord r hr)⟩
  · rw [hack.committed, hack.datafile]
    exact ht.committed
  · rw [hack.vcs]
    exact ht.chains.raise fun k m hm hle => hstable _ hle (hbelow hm)
  · rw [hack.btree] at hmode ⊢
    have hm : s'.committedLsns = s.committedLsns := by rw [committedLsns, hack.committed]; rfl
    rw [hm]
    exact ht.memory hmode
  · rw [hack.vcs, hack.memtable]
    intro key e he
    have hf := SortedMap.mem_entries_iff.1 he
    rw [SortedMap.find?_insert] at hf
    split at hf
    · rename_i hk
      cases hf
      exact ⟨hk ▸ hkey, by simp only [written]; omega, fun n hn => hbelow hn⟩
    · exact ht.fresh key e (SortedMap.mem_entries_iff.2 hf)

/-- The entries change, but not their LSNs. -/
theorem withMemtable (ht : Tiered s ds) {mt mt' mt'' : MemTable}
    (hmt : ∀ key e, mt.find? key = some e → ∃ e', s.memtable.find? key = some e' ∧ e.lsn = e'.lsn)
    (him : mt' = SortedMap.empty) (hfl : mt'' = SortedMap.empty) :
    Tiered { s with memtable := mt, immutable := mt', flushing := mt'' } ds where
  toSettled := ⟨ht.stores, ht.indexed, ht.named, ht.stable, ht.increasing, ht.committed, ht.chains,
    ht.memory⟩
  immutable := him
  flushing := hfl
  fresh key e he := by
    obtain ⟨e', he', hl⟩ := hmt key e (SortedMap.mem_entries_iff.1 he)
    rw [hl]
    exact ht.fresh key e' (SortedMap.mem_entries_iff.2 he')

theorem promoteTxn (ht : Tiered s ds) (txnId : UInt32) : Tiered (s.promoteTxn txnId) ds := by
  have hempty : MemTable.promoteTxn SortedMap.empty txnId = SortedMap.empty := by
    unfold MemTable.promoteTxn
    split <;> rfl
  refine ht.withMemtable (fun key e he => ?_) (by rw [ht.immutable, hempty])
    (by rw [ht.flushing, hempty])
  unfold MemTable.promoteTxn at he
  split at he
  · exact ⟨e, he, rfl⟩
  · rw [SortedMap.find?_mapValues] at he
    obtain ⟨e', he', rfl⟩ := Option.map_eq_some_iff.1 he
    refine ⟨e', he', ?_⟩
    split <;> rfl

theorem clearTxn (ht : Tiered s ds) (txnId : UInt32) : Tiered (s.clearTxn txnId) ds := by
  have hempty : MemTable.clearTxn SortedMap.empty txnId = SortedMap.empty := by
    unfold MemTable.clearTxn
    split <;> rfl
  refine ht.withMemtable (fun key e he => ?_) (by rw [ht.immutable, hempty])
    (by rw [ht.flushing, hempty])
  unfold MemTable.clearTxn at he
  split at he
  · exact ⟨e, he, rfl⟩
  · rw [SortedMap.find?_filterValues] at he
    exact ⟨e, (Option.filter_eq_some_iff.1 he).1, rfl⟩

/-- **One call.** -/
theorem step (ht : Tiered s ds) (hi : Inv true h s rs ds) (hs : Steady s) (hcl : Client s h op)
    (hop : op.stays = true) (hstep : s.step op = some s') : ∃ ds', Tiered s' ds' := by
  cases hs.effect hop hstep with
  | idle hc _ => exact ⟨ds, ht.calm hc⟩
  | @write r lsn w _ hkey ha hack =>
    have hlsn : lsn = s.wal.maxLsn + 1 := by
      have hb : (r.item s.opts.logsTxn).InBounds := by
        by_contra hb
        obtain ⟨w', e', ha', -⟩ := hi.log.logs.append_tooLarge hb hcl.counter
        cases ha.symm.trans ha'
      obtain ⟨w', ha', -⟩ := hi.log.logs.append hb hcl.counter
      cases ha.symm.trans ha'
      rfl
    exact ⟨ds, ht.write hi hkey hlsn hack⟩
  | promote txnId => exact ⟨ds, ht.promoteTxn txnId⟩
  | clear txnId => exact ⟨ds, ht.clearTxn txnId⟩
  | @flush _ ord s0 s1 _ st _ h0 hf htail =>
    have hfits : Fits s0.memtable.entries := by
      rw [h0.memtable]
      exact fun key e he => hi.memRecord_inRange (SortedMap.mem_entries_iff.1 he)
    exact ⟨_, ((ht.calm h0).flush hfits hf htail).2⟩

/-- What opening makes of no files. -/
theorem open_none (opts : EngineOptions) :
    (ShardEngine.open opts ShardFiles.none).committed = SortedMap.empty ∧
      (ShardEngine.open opts ShardFiles.none).vcs = VersionChainStore.empty ∧
      Mirrors (ShardEngine.open opts ShardFiles.none).btree SortedMap.empty := by
  obtain ⟨mt, pending, state, hrec, -, -⟩ :=
    recoverFromSuperBlock_eq (created opts ShardFiles.none) SuperBlock.none
  have hroot : ¬ kPageFileHeaderSize ≤ SuperBlock.none.activeRoot := by decide
  have hepoch : ¬ (0 < SuperBlock.none.epoch ∧ SuperBlock.none.activeRoot = 0) := by decide
  have hkeys : ∀ e ∈ (SortedMap.empty : SortedMap Key Nat).entries, e.1 ≠ [] := fun e he => by
    cases he
  have hload : ∀ ix, (⟨[], ix⟩ : DataFile).load = SortedMap.empty := fun ix => rfl
  have hrecords : ∀ ix, rebuildRecords ⟨[], ix⟩ = [] := by
    intro ix
    have hscan : (DataFile.rawReader ([] : Bytes)).scan ([] : Bytes).length 0 = [] :=
      Reader.scan_of_ge (Nat.le_refl _)
    rw [rebuildRecords, hscan, List.map_nil, List.mergeSort_nil]
  have hvcs : ∀ ix, VersionChainStore.rebuildFromDataFile ⟨[], ix⟩ = VersionChainStore.empty := by
    intro ix
    rw [VersionChainStore.rebuildFromDataFile, hrecords]
    rfl
  refine ⟨?_, ?_, ?_⟩
  · show ((created opts ShardFiles.none).recoverFromSuperBlock SuperBlock.none).committed = _
    rw [hrec]
    simp only [recoverTiers]
    split
    · simp only [recoverLazy, if_neg hroot, if_neg hepoch]
    · simp only [recoverEager, if_neg hroot]
      exact hload _
  · show VersionChainStore.rebuildFromDataFile
      ((created opts ShardFiles.none).recoverFromSuperBlock SuperBlock.none).datafile = _
    rw [hrec]
    simp only [recoverTiers]
    split
    · simp only [recoverLazy, if_neg hroot, if_neg hepoch]
      exact hvcs _
    · simp only [recoverEager, if_neg hroot]
      exact hvcs _
  · show Mirrors ((created opts ShardFiles.none).recoverFromSuperBlock SuperBlock.none).btree _
    rw [hrec]
    simp only [recoverTiers]
    split
    · simp only [recoverLazy, if_neg hroot, if_neg hepoch]
      exact ⟨rfl, rfl, fun k hk => (by cases hk), hkeys, Covers.nil _⟩
    · simp only [recoverEager, if_neg hroot]
      exact Mirrors.loadFromMap _ hkeys

theorem opened (opts : EngineOptions) : Tiered (ShardEngine.open opts ShardFiles.none) [] := by
  have hc := Current.opened opts
  have hi : Inv true History.empty (ShardEngine.open opts ShardFiles.none) [] [] :=
    FilesFrom.none.open opts
  obtain ⟨hcommitted, hvcs, hmirrors⟩ := open_none opts
  have hchains : Chained VersionChainStore.empty [] (ShardEngine.open opts ShardFiles.none).stableLsn :=
    ⟨ordered_empty, fun r hr => (by cases hr), fun r hr => (by cases hr)⟩
  refine ⟨⟨hi.tiers.stores, fun r hr => (by cases hr), fun r hr => (by cases hr),
    fun r hr => (by cases hr), List.Pairwise.nil, mirrors_open opts, hvcs ▸ hchains, fun _ => ?_⟩,
    hc.immutable, hc.flushing, fun key e he => ?_⟩
  · have hlsns : (ShardEngine.open opts ShardFiles.none).committedLsns = SortedMap.empty := by
      rw [committedLsns, hcommitted]
      rfl
    rw [hlsns]
    exact hmirrors
  · obtain ⟨hk, h0, -⟩ := hc.memtable key e (SortedMap.mem_entries_iff.1 he)
    exact ⟨hk, h0, hc.chains key e (SortedMap.mem_entries_iff.1 he)⟩

end Tiered

/-- **A run** of calls that do not read the log in again. -/
theorem Run.tiered {ok : ShardEngine → History → Op → Prop}
    (hok : ∀ s h op, ok s h op → op.stays = true) (hr : Run ok s h) : ∃ ds, Tiered s ds := by
  induction hr with
  | opened opts => exact ⟨[], Tiered.opened opts⟩
  | step hr hcl ho hs ih =>
    obtain ⟨ds, ht⟩ := ih
    obtain ⟨⟨rs, ds', hi⟩, hst⟩ := hr.steady hok
    obtain rfl := ht.stores.unique hi.tiers.stores
    exact ht.step hi hst hcl (hok _ _ _ ho) hs

end EBTree.Engine
