import EBTree.BTree.Proof.Bounds
import EBTree.Engine.Proof.Snapshot
import EBTree.Engine.Proof.Standing

/-!
# Reading back

What `Get` returns in a run of autocommit writes, flushes and checkpoints, against the newest write
of the key.

* `Found`: what a read looks up below the memtables when the key is live nowhere else.
* `resolve_entry`, `resolve_live`, `resolve_gone`: the answer of the tiers, by where the newest write
  of the key is.
* `Run.reads_back_iff`: **when `Get` returns the newest write**.
-/

set_option autoImplicit false

namespace EBTree.Engine

open Lib Wal BTree ShardEngine VersionChainStore

variable {h : History} {s s' : ShardEngine} {rs : List WalRecord} {ds : List DataRecord} {key : Key}

/-! ## What stands in a run -/

/-- An autocommit write, a flush, a checkpoint, or another call that neither reads nor opens the
files. -/
def Op.plain : Op → Bool
  | .write r => r.txnId = 0
  | op => op.writes

theorem Op.plain_writes {op : Op} (ho : op.plain = true) : op.writes = true := by
  cases op <;> first | rfl | exact ho

theorem Op.plain_endures {op : Op} (ho : op.plain = true) : op.endures = true := by
  have hw := Op.plain_writes ho
  cases op <;> first | rfl | exact hw

theorem Op.plain_stays {op : Op} (ho : op.plain = true) : op.stays = true := by
  have hw := Op.plain_writes ho
  cases op <;> first | rfl | cases hw

theorem Run.autocommit (hr : Run (fun _ _ op => op.plain = true) s h) : h.Autocommit := by
  induction hr with
  | opened opts => exact fun w hw => absurd hw List.not_mem_nil
  | @step s s' h op _ _ ho _ ih =>
    cases op with
    | write r =>
      intro w hw
      rcases List.mem_append.1 hw with hw | hw
      · exact ih w hw
      · unfold ShardEngine.wrote at hw
        split at hw
        · exact absurd hw List.not_mem_nil
        split at hw
        · exact absurd hw List.not_mem_nil
        · rw [List.mem_singleton.1 hw]
          exact of_decide_eq_true ho
    | _ => exact ih

/-- What such a run keeps. -/
structure Plain (h : History) (s : ShardEngine) (rs : List WalRecord) (ds : List DataRecord) :
    Prop where
  inv : Inv true h s rs ds
  steady : Steady s
  standing : Standing h s
  tiered : Tiered s ds
  current : Current h s

theorem Run.plain (hr : Run (fun _ _ op => op.plain = true) s h) : ∃ rs ds, Plain h s rs ds := by
  have hstays : ∀ s h op, (fun _ _ op => op.plain = true : ShardEngine → History → Op → Prop) s h op →
      op.stays = true := fun _ _ _ ho => Op.plain_stays ho
  obtain ⟨⟨rs, ds, hi⟩, hsteady⟩ := hr.steady hstays
  obtain ⟨ds', ht⟩ := hr.tiered hstays
  obtain rfl := ht.stores.unique hi.tiers.stores
  exact ⟨rs, ds', hi, hsteady, (hr.standing fun _ _ _ ho => Op.plain_endures ho).2, ht,
    hr.current hstays hr.autocommit⟩

/-! ## The data file -/

/-- A read of the data file that decides finds a value, or that there is none. -/
theorem decisive_cases {r x : Except Status Version} (h : decisive r = some x) :
    (∃ v, x = .ok v) ∨ isNotFound x = true := by
  unfold decisive at h
  split at h
  · rename_i v
    exact .inl ⟨v, (Option.some.inj h).symm⟩
  · split at h
    · rename_i e hcode
      rw [← Option.some.inj h]
      exact .inr (decide_eq_true hcode)
    · cases h

theorem btreeTier_cases {hit : Option Nat} {n : Nat} {x : Except Status Version}
    (h : s.btreeTier hit n = some x) : (∃ v, x = .ok v) ∨ isNotFound x = true := by
  unfold btreeTier at h
  split at h
  · split at h
    · exact decisive_cases h
    · cases h
  · cases h

theorem chainTier_cases {n : Nat} {x : Except Status Version} (h : s.chainTier key n = some x) :
    (∃ v, x = .ok v) ∨ isNotFound x = true := by
  unfold ShardEngine.chainTier at h
  split at h
  · exact decisive_cases h
  · cases h

theorem isNotFound_of_ok {r : Except Status Version} (h : r.isOk = true) : isNotFound r = false := by
  cases r with
  | ok v => rfl
  | error e => cases h

theorem isNotFound_missing (hit : Option Nat) (n : Nat) : isNotFound (missing hit n) = true := by
  unfold missing
  split
  · split <;> rfl
  · rfl

/-! ## The tree -/

/-- The tree leads to a version of the data file that is not a deletion. -/
def ShardEngine.Found (s : ShardEngine) (key : Key) : Prop :=
  ∃ lsn v, s.btreeGet key = some (some lsn) ∧ (s.stableLsn = 0 ∨ lsn ≤ s.stableLsn) ∧
    s.datafile.readByLsn lsn = .ok v

theorem found_iff {hit : Option Nat} (hg : s.btreeGet key = some hit) :
    s.Found key ↔ ∃ v, s.btreeTier hit s.stableLsn = some (.ok v) := by
  unfold ShardEngine.Found btreeTier
  rw [hg]
  constructor
  · rintro ⟨lsn, v, hhit, hle, hr⟩
    cases hhit
    exact ⟨v, by simp only [if_pos hle, hr, decisive]⟩
  · rintro ⟨v, hb⟩
    cases hit with
    | none => cases hb
    | some lsn =>
      simp only at hb
      split at hb
      · rename_i hle
        exact ⟨lsn, v, rfl, hle, decisive_ok hb⟩
      · cases hb

/-- The tree is read without its summary. -/
theorem btreeGet_repairSummary (hmem : s.btree.onDiskMode = false → Mirrors s.btree s.committedLsns)
    (hkeys : ∀ e ∈ s.committedLsns.entries, e.1 ≠ []) (key : Key) :
    s.repairSummary.btreeGet key = s.btreeGet key := by
  unfold ShardEngine.btreeGet ShardEngine.repairSummary
  cases hmode : s.btree.onDiskMode with
  | true =>
    simp only [if_true]
    obtain ⟨h1, h2, h3⟩ := rebuildSummaryFromCommitted_fields s.btree s.committedLsns
    rw [@get_congr s.btree ((s.btree.rebuildSummaryFromCommitted
      s.committedLsns).ensureSummaryLsnAtLeast s.stableLsn)]
    · exact pageFile_rebuild s.btree _
    · show (s.btree.rebuildSummaryFromCommitted s.committedLsns).rootOffset = _
      unfold PagedBTree.rebuildSummaryFromCommitted
      split <;> rfl
    · exact h1
    · exact congrArg (SortedMap.find? · key) h2
    · exact congrArg (SortedMap.contains · key) h3
  | false =>
    simp only [Bool.false_eq_true, if_false]
    have hm := (hmem hmode).get key
    have hm' := (mirrors_ensureSummaryLsnAtLeast (Mirrors.loadFromMap s.btree hkeys)
      s.stableLsn).get key
    cases hf : s.committedLsns.find? key with
    | some lsn =>
      rw [hf] at hm hm'
      rw [hm, hm']
    | none =>
      rw [hf] at hm hm'
      obtain ⟨m, hm⟩ := hm
      obtain ⟨m', hm'⟩ := hm'
      rw [hm, hm']
      rfl

/-! ## The chains -/

/-- The last record of a key is the newest. -/
theorem lastOf_newest (hinc : ds.Pairwise fun a b => a.key = b.key → a.lsn < b.lsn)
    {r x : DataRecord} (hlast : lastOf ds key = some r) (hx : x ∈ ds) (hk : x.key = key) :
    x = r ∨ x.lsn < r.lsn := by
  induction ds using List.reverseRecOn with
  | nil => exact absurd hx List.not_mem_nil
  | append_singleton ds y ih =>
    rw [List.pairwise_append] at hinc
    rw [lastOf_append] at hlast
    by_cases hy : y.key = key
    · have hr : y = r := by simpa [lastOf, hy] using hlast
      subst hr
      rcases List.mem_append.1 hx with hx | hx
      · exact .inr (hinc.2.2 x hx y (List.mem_singleton_self y) (hk.trans hy.symm))
      · exact .inl (List.mem_singleton.1 hx)
    · have hr : lastOf ds key = some r := by simpa [lastOf, hy] using hlast
      rcases List.mem_append.1 hx with hx | hx
      · exact ih hinc.1 hr hx
      · exact absurd (List.mem_singleton.1 hx ▸ hk) hy

namespace Settled

/-- What is read through a chain is a record of the key, the one at the floor. -/
theorem chainTier_reads (hst : Settled s ds) (hi : Inv true h s rs ds) {n : Nat} {v : Version}
    (hc : s.chainTier key n = some (.ok v)) :
    ∃ m ∈ s.vcs.mergedChain key, ∃ x ∈ ds, x.key = key ∧ x.lsn = m.lsn ∧ x.deleted = false ∧
      m.lsn = s.vcs.floor key n := by
  unfold ShardEngine.chainTier at hc
  split at hc
  swap
  · cases hc
  rename_i hpos
  obtain ⟨m, hm, hlsn⟩ := VersionChainStore.floor_mem hpos
  obtain ⟨x, hx, hxl, hxd, rfl⟩ := hst.stores.readByLsn_ok (decisive_ok hc)
  -- the node and the record are of one write
  obtain ⟨w, hw, hwr, -⟩ := hi.tiers.data x hx
  obtain ⟨r, ⟨w', hw', hwr', -⟩, hk, hl⟩ := hi.tiers.chains key m hm
  have hww : w = w' := hi.unique hw hw' (by rw [hwr, hwr', hxl, hl, hlsn])
  exact ⟨m, hm, x, hx, by rw [← hwr, hww, hwr', hk], hxl.trans hlsn.symm, hxd, hlsn⟩

/-- The records of a key whose last one is no value: they end in a deletion. -/
theorem lastOf_gone (hgone : live (lastOf ds key) = none) {x : DataRecord} (hx : x ∈ ds)
    (hxk : x.key = key) : ∃ r ∈ ds, r.key = key ∧ lastOf ds key = some r ∧ r.deleted = true := by
  cases hlast : lastOf ds key with
  | none => exact absurd hxk (lastOf_eq_none.1 hlast x hx)
  | some r =>
    obtain ⟨hr, hrk⟩ := lastOf_mem hlast
    refine ⟨r, hr, hrk, rfl, ?_⟩
    by_contra hd
    rw [hlast, live, Option.bind_some, if_neg hd] at hgone
    cases hgone

/-- **A key whose last record is no value** is not found through its chain. -/
theorem chainTier_gone (hst : Settled s ds) (hi : Inv true h s rs ds)
    (hgone : live (lastOf ds key) = none) {v : Version} :
    s.chainTier key s.stableLsn ≠ some (.ok v) := by
  intro hc
  obtain ⟨n, hn, x, hx, hxk, hxl, hxd, hlsn⟩ := hst.chainTier_reads hi hc
  obtain ⟨-, hle, hmax⟩ := VersionChainStore.floorOf_spec (s.vcs.mergedChain key) s.stableLsn
  obtain ⟨r, hr, hrk, hlast, hrd⟩ := lastOf_gone hgone hx hxk
  -- the floor is not behind the last record
  have hfloor : r.lsn ≤ s.vcs.floor key s.stableLsn := by
    by_contra hlt
    obtain ⟨m, hm, hge, hml⟩ := hst.chains.covered r hr n (hrk ▸ hn) (by omega)
    have := hmax m (hrk ▸ hm) hml
    simp only [VersionChainStore.floor] at hlt
    omega
  have hxr : x = r := (lastOf_newest hst.increasing hlast hx hxk).resolve_right (by omega)
  rw [hxr, hrd] at hxd
  cases hxd

end Settled

/-! ## What the tiers answer -/

namespace Plain

variable (hp : Plain h s rs ds)
include hp

theorem lookupMemTable (key : Key) : s.lookupMemTable key = s.memtable.find? key := by
  unfold ShardEngine.lookupMemTable
  rw [hp.tiered.immutable, hp.tiered.flushing, SortedMap.find?_empty, Option.or_none,
    Option.or_none]

/-- A key of the memtable. -/
theorem resolve_entry {e : MemTableEntry} (he : s.memtable.find? key = some e) (n : Nat) :
    s.resolveAtSnapshot key ⟨0, n⟩ = some (memAnswer e) := by
  have hvis : memEntryVisible e ⟨0, n⟩ = true := by
    rw [memEntryVisible_eq_durable e rfl]
    exact (hp.current.memtable key e he).2.2.2.1
  have hmem : s.memTier key ⟨0, n⟩ = some (memAnswer e) := by
    unfold ShardEngine.memTier
    rw [hp.lookupMemTable, he]
    simp only [hvis, if_true]
  unfold resolveAtSnapshot
  rw [hmem, Option.some_or]

theorem memTier_none (he : s.memtable.find? key = none) (n : Nat) :
    s.memTier key ⟨0, n⟩ = none := by
  unfold ShardEngine.memTier
  rw [hp.lookupMemTable, he]

/-- **A key that is live** below the memtable. -/
theorem resolve_live (he : s.memtable.find? key = none) {value : Value} {lsn : Nat}
    (hl : live (h.newest key) = some (value, lsn)) :
    s.resolveAtSnapshot key ⟨0, s.stableLsn⟩ = some (.ok ⟨lsn, value⟩) := by
  have hf := (hp.current.committed key he).trans hl
  have hle : lsn ≤ s.stableLsn := by
    have hlast := (hp.tiered.committed_find? key).symm.trans hf
    obtain ⟨r, hr, hx⟩ := Option.bind_eq_some_iff.1 hlast
    split at hx
    · cases hx
    · cases hx
      exact (hp.tiered.stable r (Settled.lastOf_mem hr).1).2
  have hc : s.committedTier key s.stableLsn = some (.ok ⟨lsn, value⟩) := by
    unfold ShardEngine.committedTier
    rw [hf]
    simp only [hle, or_true, if_true]
  unfold resolveAtSnapshot
  rw [hp.memTier_none he, Option.none_or, hc]

/-- **A key that is not live**: its chain leads to no value, so that the tree alone can. -/
theorem resolve_gone (he : s.memtable.find? key = none) (hl : live (h.newest key) = none) :
    ∃ r, s.resolveAtSnapshot key ⟨0, s.stableLsn⟩ = some r ∧
      ((s.Found key ∧ r.isOk = true) ∨ (¬ s.Found key ∧ isNotFound r = true)) := by
  have hf := (hp.current.committed key he).trans hl
  have hc : s.committedTier key s.stableLsn = none := by
    unfold ShardEngine.committedTier
    rw [hf]
  obtain ⟨r, hr⟩ := hp.standing.rests.get hp.inv.tiers.btree key
  obtain ⟨hit, hg⟩ : ∃ hit, s.btreeGet key = some hit := ⟨_, by unfold btreeGet; rw [hr]; rfl⟩
  have hwal : s.walTier key s.stableLsn = none := by
    unfold ShardEngine.walTier tryWalSnapshotFloor
    rw [if_pos (.inr (.inl hp.steady.hot))]
  have hlast := (hp.tiered.committed_find? key).symm.trans hf
  have hfound := found_iff hg
  unfold resolveAtSnapshot
  rw [hp.memTier_none he, Option.none_or, hc, hg, hwal]
  simp only [Option.map_some, Option.or_none]
  refine ⟨_, rfl, ?_⟩
  cases hb : s.btreeTier hit s.stableLsn with
  | some x =>
    rw [hb] at hfound
    rcases btreeTier_cases hb with ⟨v, rfl⟩ | hx
    · exact .inl ⟨hfound.2 ⟨v, rfl⟩, rfl⟩
    · refine .inr ⟨fun hs => ?_, hx⟩
      obtain ⟨v, hv⟩ := hfound.1 hs
      rw [Option.some.inj hv] at hx
      cases hx
  | none =>
    rw [hb] at hfound
    refine .inr ⟨fun hs => ?_, ?_⟩
    · obtain ⟨v, hv⟩ := hfound.1 hs
      cases hv
    rw [Option.none_or]
    cases hch : s.chainTier key s.stableLsn with
    | none => exact isNotFound_missing hit _
    | some x =>
      rcases chainTier_cases hch with ⟨v, rfl⟩ | hx
      · exact absurd hch (hp.tiered.chainTier_gone hp.inv hlast)
      · exact hx

end Plain

/-! ## Get -/

/-- The states answer reads of the key alike. -/
structure Alike (key : Key) (s s' : ShardEngine) : Prop where
  steady : Steady s'
  stable : s'.stableLsn = s.stableLsn
  disk : s'.readsDisk = s.readsDisk
  hit : s'.btreeGet key = s.btreeGet key
  found : s'.Found key ↔ s.Found key
  resolve : ∀ ctx, s'.resolveAtSnapshot key ctx = s.resolveAtSnapshot key ctx

theorem Plain.repairSummary (hp : Plain h s rs ds) (key : Key) : Alike key s s.repairSummary := by
  have hhit := btreeGet_repairSummary hp.tiered.memory hp.tiered.committedLsns_named key
  refine ⟨hp.steady.repairSummary, rfl, readsDisk_repairSummary s, hhit, ?_, fun ctx => ?_⟩
  · unfold ShardEngine.Found
    rw [hhit]
    exact Iff.rfl
  · unfold resolveAtSnapshot
    rw [hhit]
    rfl

/-- What the disk adds, once nothing was found. -/
theorem Steady.tryLazyWalOrDisk (hs : Steady s) {hit : Option Nat} (hg : s.btreeGet key = some hit) :
    ∃ r, s.tryLazyWalOrDisk key s.stableLsn = some (s, r) ∧ (r.isSome = true ↔ s.Found key) := by
  have hlazy : ¬ (s.recoveryMode = .kLazy ∨ s.lazyRootCorrupt = true) := by
    rw [hs.hot, hs.root]
    rintro (hc | hc) <;> cases hc
  have hdisk : s.tryLazyWalOrDisk key s.stableLsn = s.tryDisk key s.stableLsn hit := by
    unfold ShardEngine.tryLazyWalOrDisk
    rw [hg, hs.replayed]
    simp only [Bool.false_and]
    split <;> rw [if_neg Bool.false_ne_true]
  have hfound := found_iff hg
  rw [hdisk, hfound]
  unfold ShardEngine.tryDisk btreeTier
  cases hit with
  | none =>
    simp only [if_neg hlazy]
    exact ⟨none, rfl, by simp⟩
  | some lsn =>
    simp only
    by_cases hle : s.stableLsn = 0 ∨ lsn ≤ s.stableLsn
    · simp only [if_pos hle]
      cases hr : s.datafile.readByLsn lsn with
      | ok v => exact ⟨some v, rfl, by simp [decisive]⟩
      | error e =>
        refine ⟨none, by simp only [Except.toOption, if_neg hlazy], ?_⟩
        constructor
        · intro hc
          cases hc
        · rintro ⟨v, hv⟩
          cases decisive_ok hv
    · simp only [if_neg hle, if_neg hlazy]
      exact ⟨none, rfl, by simp⟩

namespace Plain

variable (hp : Plain h s rs ds)
include hp

theorem btreeGet_returns (key : Key) : ∃ hit, s.btreeGet key = some hit := by
  obtain ⟨r, hr⟩ := hp.standing.rests.get hp.inv.tiers.btree key
  exact ⟨_, by unfold btreeGet; rw [hr]; rfl⟩

/-- Under the exclusive lock the answer is the same, unless the disk has one. -/
theorem getExclusive {r : Except Status Version}
    (hr : s.resolveAtSnapshot key ⟨0, s.stableLsn⟩ = some r)
    (hno : r.isOk = false → s.readsDisk = true → ¬ s.Found key) :
    ∃ s', s.getExclusive key = some (s', r) := by
  obtain ⟨s1, ha, he⟩ : ∃ s1, Alike key s s1 ∧
      (if 0 < s.stableLsn ∧ s.btree.summary.summaryLsn < s.stableLsn then s.repairSummary else s) =
        s1 := by
    split
    · exact ⟨_, hp.repairSummary key, rfl⟩
    · exact ⟨s, ⟨hp.steady, rfl, rfl, rfl, Iff.rfl, fun _ => rfl⟩, rfl⟩
  obtain ⟨hit, hg⟩ := hp.btreeGet_returns key
  obtain ⟨x, htry, hx⟩ := ha.steady.tryLazyWalOrDisk (ha.hit.trans hg)
  rw [ha.stable, ha.found] at *
  have hpending : ¬ (s1.walReplayPending = true ∧ s1.recoveryMode ≠ .kLazy) := by
    rw [ha.steady.replayed]
    exact fun hc => Bool.false_ne_true hc.1
  unfold ShardEngine.getExclusive
  simp only [he, if_neg hpending, ha.resolve, hr]
  cases r with
  | ok v => exact ⟨s1, rfl⟩
  | error e =>
    simp only [ha.disk, htry]
    cases hdisk : s.readsDisk with
    | false => exact ⟨s1, rfl⟩
    | true =>
      have hnone : x = none := by
        cases x with
        | none => rfl
        | some v => exact absurd (hx.1 rfl) (hno rfl hdisk)
      rw [hnone]
      exact ⟨s1, rfl⟩

/-- What is answered without the disk. -/
theorem getRest {r : Except Status Version} (stale : Bool)
    (hr : s.resolveAtSnapshot key ⟨0, s.stableLsn⟩ = some r)
    (hno : r.isOk = false → s.readsDisk = true → ¬ s.Found key) :
    ∃ s', s.getRest key r stale = some (s', r) := by
  have hhot : ¬ (s.recoveryMode = .kLazy ∧ isNotFound r = true) := by
    rw [hp.steady.hot]
    rintro ⟨hc, -⟩
    cases hc
  unfold ShardEngine.getRest
  simp only [if_neg hhot]
  split
  · exact ⟨s, rfl⟩
  · exact hp.getExclusive hr hno

/-- **`Get`** returns what the tiers answer, unless the disk is read and has a value for a key that
they have none for. -/
theorem get (hk : key ≠ []) {r : Except Status Version}
    (hr : s.resolveAtSnapshot key ⟨0, s.stableLsn⟩ = some r)
    (hcase : r.isOk = true ∨ isNotFound r = true) :
    ∃ s' r', s.get key = some (s', r') ∧
      ((isNotFound r = true ∧ s.readsDisk = true ∧ s.Found key ∧ r'.isOk = true) ∨
        (¬ (isNotFound r = true ∧ s.readsDisk = true ∧ s.Found key) ∧ r' = r)) := by
  unfold ShardEngine.get
  simp only [if_neg hk, hr]
  split
  · rename_i hok
    rw [Bool.and_eq_true] at hok
    exact ⟨s, r, rfl, .inr ⟨by simp [isNotFound_of_ok hok.1], rfl⟩⟩
  split
  · rename_i hdisk
    rw [Bool.and_eq_true] at hdisk
    obtain ⟨hit, hg⟩ := hp.btreeGet_returns key
    obtain ⟨x, htry, hx⟩ := hp.steady.tryLazyWalOrDisk hg
    rw [htry]
    cases x with
    | some v => exact ⟨s, .ok v, rfl, .inl ⟨hdisk.1, hdisk.2, hx.1 rfl, rfl⟩⟩
    | none =>
      have hno : ¬ s.Found key := fun hf => by cases hx.2 hf
      obtain ⟨s', hs'⟩ := hp.getRest (decide (0 < s.stableLsn ∧
        s.btree.summary.summaryLsn < s.stableLsn)) hr fun _ _ => hno
      exact ⟨s', r, hs', .inr ⟨fun hc => hno hc.2.2, rfl⟩⟩
  · rename_i hdisk
    rw [Bool.and_eq_true] at hdisk
    obtain ⟨s', hs'⟩ := hp.getRest (decide (0 < s.stableLsn ∧
        s.btree.summary.summaryLsn < s.stableLsn)) hr fun hok hd =>
      absurd ⟨hcase.resolve_left (by simp [hok]), hd⟩ hdisk
    exact ⟨s', r, hs', .inr ⟨fun hc => hdisk ⟨hc.1, hc.2.1⟩, rfl⟩⟩

end Plain

/-! ## Runs -/

/-- The value of the newest write of the key, or that there is none. -/
def History.Returns (h : History) (key : Key) (r : Except Status Version) : Prop :=
  match live (h.newest key) with
  | some (value, _) => r.map (·.value) = .ok value
  | none => isNotFound r = true

theorem returns_of_live {value : Value} {lsn : Nat} (hl : live (h.newest key) = some (value, lsn)) :
    h.Returns key (.ok ⟨lsn, value⟩) := by
  unfold History.Returns
  rw [hl]
  rfl

theorem returns_gone (hl : live (h.newest key) = none) (r : Except Status Version) :
    h.Returns key r ↔ isNotFound r = true := by
  unfold History.Returns
  rw [hl]

/-- The answer of the tiers: right, or a value the tree kept of a key that is gone. -/
theorem Plain.resolve (hp : Plain h s rs ds) (key : Key) :
    ∃ r, s.resolveAtSnapshot key ⟨0, s.stableLsn⟩ = some r ∧
      (((live (h.newest key)).isSome = true ∧ r.isOk = true ∧ h.Returns key r) ∨
        (live (h.newest key) = none ∧ isNotFound r = true ∧
          (s.Found key → s.memtable.find? key ≠ none)) ∨
        (live (h.newest key) = none ∧ r.isOk = true ∧ s.Found key ∧
          s.memtable.find? key = none)) := by
  cases he : s.memtable.find? key with
  | some e =>
    refine ⟨_, hp.resolve_entry he _, ?_⟩
    have hn := (hp.current.memtable key e he).2.2.2.2
    have hl := live_memRecord key e
    rw [← hn] at hl
    unfold memAnswer
    cases hd : e.deleted with
    | true =>
      rw [hd, if_pos rfl] at hl
      exact .inr (.inl ⟨hl, rfl, fun _ hc => by cases hc⟩)
    | false =>
      rw [hd, if_neg Bool.false_ne_true] at hl
      exact .inl ⟨by rw [hl]; rfl, rfl, returns_of_live hl⟩
  | none =>
    cases hl : live (h.newest key) with
    | some x =>
      exact ⟨_, hp.resolve_live he hl, .inl ⟨rfl, rfl, returns_of_live hl⟩⟩
    | none =>
      obtain ⟨r, hr, ⟨hf, hok⟩ | ⟨hf, hno⟩⟩ := hp.resolve_gone he hl
      · exact ⟨r, hr, .inr (.inr ⟨rfl, hok, hf, rfl⟩)⟩
      · exact ⟨r, hr, .inr (.inl ⟨rfl, hno, fun hc => absurd hc hf⟩)⟩

/-- **When `Get` reads back.** In every state that autocommit writes, flushes and checkpoints reach
from an empty database, `Get` returns the value of the last put of the key, and `NotFound` after a
deletion or without a put, if and only if the key is not empty and is live, or the tree leads to none
of its versions, or it is in the memtable and nothing is looked up on the disk. -/
theorem Run.reads_back_iff (hr : Run (fun _ _ op => op.plain = true) s h) (key : Key) :
    (∃ s' r, s.get key = some (s', r) ∧ h.Returns key r) ↔
      key ≠ [] ∧ ((live (h.newest key)).isSome = true ∨ ¬ s.Found key ∨
        (s.memtable.find? key ≠ none ∧ s.readsDisk = false)) := by
  obtain ⟨rs, ds, hp⟩ := hr.plain
  by_cases hk : key = []
  · -- the empty key was never written
    subst hk
    refine ⟨?_, fun hc => absurd rfl hc.1⟩
    rintro ⟨s', r, hg, hret⟩
    have hl : live (h.newest []) = none := by
      cases hn : h.newest [] with
      | none => rfl
      | some x =>
        obtain ⟨w, hw, rfl, hx⟩ := newest_mem hn
        exact absurd hx (hp.standing.named w hw).1
    unfold ShardEngine.get at hg
    cases hg
    cases (returns_gone hl _).1 hret
  rw [and_iff_right hk]
  obtain ⟨r, hres, hcases⟩ := hp.resolve key
  have hcase : r.isOk = true ∨ isNotFound r = true := by
    rcases hcases with ⟨-, hok, -⟩ | ⟨-, hno, -⟩ | ⟨-, hok, -⟩
    · exact .inl hok
    · exact .inr hno
    · exact .inl hok
  obtain ⟨s', r', hg, hr'⟩ := hp.get hk hres hcase
  have hiff : (∃ s' r, s.get key = some (s', r) ∧ h.Returns key r) ↔ h.Returns key r' := by
    constructor
    · rintro ⟨s'', r'', hg', hret⟩
      cases hg.symm.trans hg'
      exact hret
    · exact fun hret => ⟨s', r', hg, hret⟩
  rw [hiff]
  rcases hcases with ⟨hl, hok, hret⟩ | ⟨hl, hno, hf⟩ | ⟨hl, hok, hf, he⟩
  · rcases hr' with ⟨hno, -⟩ | ⟨-, rfl⟩
    · rw [isNotFound_of_ok hok] at hno
      cases hno
    · exact iff_of_true hret (.inl hl)
  · rw [returns_gone hl, hl]
    rcases hr' with ⟨-, hdisk, hfound, hok⟩ | ⟨hn, rfl⟩
    · rw [isNotFound_of_ok hok, hdisk]
      simp [hfound]
    · rw [hno]
      refine iff_of_true rfl (.inr ?_)
      by_cases hfound : s.Found key
      · exact .inr ⟨hf hfound, by simpa [hno, hfound] using hn⟩
      · exact .inl hfound
  · rw [returns_gone hl, hl, he]
    rcases hr' with ⟨hno, -⟩ | ⟨-, rfl⟩
    · rw [isNotFound_of_ok hok] at hno
      cases hno
    · rw [isNotFound_of_ok hok]
      simp [hf]

/-- A put. -/
theorem reads_back_put : ∃ (s : ShardEngine) (h : History),
    (∃ s' r, s.get [1] = some (s', r) ∧ h.Returns [1] r) ∧
      live (h.newest [1]) = some ([2], 1) := by
  have hrun : Run (fun _ _ op => op.plain = true)
      ((ShardEngine.open .sync ShardFiles.none).write (firstPut 0)).1
      (History.empty.after (ShardEngine.open .sync ShardFiles.none) (.write (firstPut 0))) :=
    (Run.opened .sync).step (by decide +kernel) rfl rfl
  have hl : live ((History.empty.after (ShardEngine.open .sync ShardFiles.none)
      (.write (firstPut 0))).newest [1]) = some ([2], 1) := by decide +kernel
  exact ⟨_, _, (Run.reads_back_iff hrun [1]).2 ⟨by decide, .inl (by rw [hl]; rfl)⟩, hl⟩

/-- **A key that was deleted behind a checkpoint** is read back with its old value: the deletion is
in the memtable, and what is not found there is looked up in the tree. -/
theorem deleted_key_read_back : ¬ ∀ s h, Run (fun _ _ op => op.plain = true) s h →
    ∀ key, ∃ s' r, s.get key = some (s', r) ∧ h.Returns key r := by
  intro hall
  obtain ⟨⟨s, h⟩, hops, hx⟩ := (Option.any_eq_true _ _).1 (show ((runOps (ShardEngine.open .sync
      ShardFiles.none) History.empty [.write (firstPut 0), .checkpoint .byKey fun _ => false,
        .write ⟨[1], [], true, 0⟩]).any fun x =>
    (x.1.get [1]).all (fun r => r.2.isOk) && (live (x.2.newest [1])).isNone) = true
      by decide +kernel)
  rw [Bool.and_eq_true] at hx
  have hrun := (@Run.opened (fun _ _ op => op.plain = true) .sync).calls
    (by simp [Op.plain, Op.writes, firstPut]) hops
  obtain ⟨s', r, hg, hret⟩ := hall s h hrun [1]
  have hno := (returns_gone (Option.isNone_iff_eq_none.1 hx.2) r).1 hret
  rw [hg] at hx
  rw [isNotFound_of_ok hx.1] at hno
  cases hno

end EBTree.Engine
