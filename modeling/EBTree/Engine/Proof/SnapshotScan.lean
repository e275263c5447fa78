import EBTree.Engine.Proof.ReadBack

/-!
# A snapshot scan against snapshot reads

* `Serves`: the tree holds the committed values of a range and nothing else.
* `versionAt`: the version of a key that the memtable, the committed values and the chains have at a
  snapshot. `Plain.getAtSnapshot`: a snapshot read returns it.
* `Plain.scanPrepared`: the rows of a snapshot scan are these versions, of the keys that the memtable
  or the committed values list.
* `Run.scan_agrees_iff`: **when a snapshot scan returns what snapshot reads do**.
-/

set_option autoImplicit false

namespace EBTree.Engine

open Lib Wal BTree ShardEngine VersionChainStore

/-! ## The tree -/

section

variable {t u : PagedBTree} {m : SortedMap Key Nat} {plan : TypedPlan}

/-- A scan of the pages reads the page file alone. -/
theorem scanFromDiskAt_congr (hfile : u.pageFile = t.pageFile) (plan : TypedPlan) (fuel off : Nat) :
    u.scanFromDiskAt plan fuel off = t.scanFromDiskAt plan fuel off := by
  have hbytes : ∀ off, u.readPageBytes off = t.readPageBytes off := fun off => by
    unfold PagedBTree.readPageBytes
    rw [hfile]
  have hheader : ∀ off, u.readPageHeader off = t.readPageHeader off := fun off => by
    unfold PagedBTree.readPageHeader
    rw [hfile]
  have hpages : ∀ offs, u.readPages offs = t.readPages offs := by
    intro offs
    induction offs with
    | nil => rfl
    | cons off offs ih => simp only [PagedBTree.readPages, hbytes, ih]
  have hwalk : u.walkFuel = t.walkFuel := by
    unfold PagedBTree.walkFuel
    rw [hfile]
  have hchain : ∀ fuel off, u.leafChain fuel off = t.leafChain fuel off := by
    intro fuel
    induction fuel with
    | zero => exact fun _ => rfl
    | succ fuel ih =>
      intro off
      simp only [PagedBTree.leafChain, hheader, ih]
  have hchildren : ∀ visit offs, u.scanChildren plan visit offs = t.scanChildren plan visit offs := by
    intro visit offs
    induction offs with
    | nil => rfl
    | cons off offs ih => simp only [PagedBTree.scanChildren, hheader, ih]
  induction fuel generalizing off with
  | zero => rfl
  | succ fuel ih =>
    have hvisit : u.scanFromDiskAt plan fuel = t.scanFromDiskAt plan fuel := funext ih
    simp only [PagedBTree.scanFromDiskAt, hheader, hbytes, hpages, PagedBTree.scanLeafChain, hwalk,
      hchain, hchildren, hvisit]

/-- What the tree lists in the range of the plan, the map has. -/
structure Listing (t : PagedBTree) (m : SortedMap Key Nat) (plan : TypedPlan) : Prop where
  index : ∀ key lsn, planMatches plan key = true → t.index.find? key = some lsn →
    t.deltaDeleted.contains key = false → (m.find? key).isSome = true
  pages : t.onDiskMode = true → kPageFileHeaderSize ≤ t.rootOffset →
    ∃ out, t.scanFromDiskAt plan t.walkFuel t.rootOffset = some (.ok out) ∧
      ∀ e ∈ out, planMatches plan e.1 = true → t.deltaDeleted.contains e.1 = false →
        (m.find? e.1).isSome = true

theorem mem_mergeDeltaIntoScan {out : List Entry} {e : Entry} (he : e ∈ t.mergeDeltaIntoScan out) :
    t.deltaDeleted.contains e.1 = false ∧ (t.index.find? e.1 = some e.2 ∨ e ∈ out) := by
  have hf := SortedMap.mem_entries_iff.1 he
  rw [SortedMap.find?_foldl_entries (fun m e k hne => by rw [SortedMap.find?_erase, if_neg hne])
    (fun m m' e _ => by rw [SortedMap.find?_erase, SortedMap.find?_erase, if_pos rfl, if_pos rfl])]
    at hf
  rw [SortedMap.contains]
  cases hdel : t.deltaDeleted.find? e.1 with
  | some x => simp [hdel] at hf
  | none =>
    simp only [hdel] at hf
    refine ⟨rfl, ?_⟩
    rcases SortedMap.mem_of_find?_insertAll hf with hf | hf
    · rcases SortedMap.mem_of_find?_insertAll hf with hf | hf
      · cases hf
      · exact .inr hf
    · exact .inl (SortedMap.mem_entries_iff.1 hf)

/-- **A scan of the tree** reports a stale summary, or hits keys of the map. -/
theorem Listing.scan (hl : Listing t m plan) (hop : plan.op = .kRange) :
    (∃ e, t.scan plan = some (.error e) ∧ e.code = .kStaleSummary) ∨
      ∃ hits, t.scan plan = some (.ok hits) ∧ ∀ e ∈ hits, planMatches plan e.1 = true ∧
        (m.find? e.1).isSome = true := by
  suffices hs : (∃ e, t.scan plan = some (.error e) ∧ e.code = .kStaleSummary) ∨
      ∃ hits, t.scan plan = some (.ok hits) ∧ ∀ e ∈ hits, planMatches plan e.1 = true →
        (m.find? e.1).isSome = true from
    hs.imp id fun ⟨hits, hscan, hm⟩ => ⟨hits, hscan, fun e he =>
      ⟨scan_matches hscan he, hm e he (scan_matches hscan he)⟩⟩
  unfold PagedBTree.scan
  split
  · exact .inl ⟨_, rfl, rfl⟩
  simp only [hop]
  split
  · exact .inr ⟨[], rfl, fun e he => absurd he List.not_mem_nil⟩
  split
  · exact .inr ⟨[], rfl, fun e he => absurd he List.not_mem_nil⟩
  split
  · rename_i hdisk
    obtain ⟨out, hout, hm⟩ := hl.pages hdisk.1 hdisk.2
    rw [hout]
    refine .inr ⟨_, rfl, fun e he hmatch => ?_⟩
    have hcut := List.rdropWhile_prefix _ _ |>.subset he
    have he' := (List.dropWhile_sublist _).subset hcut
    obtain ⟨hdel, hidx | hpage⟩ := mem_mergeDeltaIntoScan he'
    · exact hl.index _ _ hmatch hidx hdel
    · exact hm e hpage hmatch hdel
  · refine .inr ⟨_, rfl, fun e he hmatch => ?_⟩
    obtain ⟨he, hdel⟩ := List.mem_filter.1 he
    have he' := (List.dropWhile_sublist _).subset ((List.takeWhile_sublist _).subset he)
    exact hl.index _ _ hmatch (SortedMap.mem_entries_iff.1 he') (by simpa using hdel)

end

variable {h : History} {s s' : ShardEngine} {rs : List WalRecord} {ds : List DataRecord} {key : Key}
  {plan : TypedPlan}

/-- The tree holds the committed values of the range of the plan, and nothing else. -/
structure ShardEngine.Serves (s : ShardEngine) (plan : TypedPlan) : Prop where
  get : ∀ key, planMatches plan key = true → s.btreeGet key = some (s.committedLsns.find? key)
  listing : Listing s.btree s.committedLsns plan

/-- A tree in memory does. -/
theorem Settled.serves (hst : Settled s ds) (hmode : s.btree.onDiskMode = false)
    (plan : TypedPlan) : s.Serves plan := by
  have hm := hst.memory hmode
  refine ⟨fun key _ => ?_, fun key lsn _ hf _ => ?_, fun hdisk => ?_⟩
  · have hg := hm.get key
    unfold ShardEngine.btreeGet
    cases hf : s.committedLsns.find? key with
    | some lsn =>
      rw [hf] at hg
      rw [hg]
      rfl
    | none =>
      rw [hf] at hg
      obtain ⟨msg, hg⟩ := hg
      rw [hg]
      rfl
  · rw [← hm.index_eq, hf]
    rfl
  · rw [hmode] at hdisk
    cases hdisk

theorem Plain.repair (hp : Plain h s rs ds) : Plain h s.repairSummary rs ds where
  inv := hp.inv.repairSummary
  steady := hp.steady.repairSummary
  standing := { hp.standing with
    rests := by
      unfold ShardEngine.repairSummary
      simp only
      split
      · exact (hp.standing.rests.rebuildSummaryFromCommitted _).ensureSummaryLsnAtLeast _
      · exact (hp.standing.rests.loadFromMap _).ensureSummaryLsnAtLeast _ }
  tiered := hp.tiered.calm (Calm.repairSummary s)
  current := hp.current.idle (Idle.repairSummary s)

/-- Repairing the summary changes nothing of what the tree holds. -/
theorem Plain.serves_repair (hp : Plain h s rs ds) (hserves : s.Serves plan) :
    s.repairSummary.Serves plan := by
  refine ⟨fun key hk => ?_, ?_⟩
  · rw [btreeGet_repairSummary hp.tiered.memory hp.tiered.committedLsns_named key]
    exact hserves.get key hk
  cases hmode : s.btree.onDiskMode with
  | false =>
    have hrep : s.repairSummary.btree.onDiskMode = false := by
      unfold ShardEngine.repairSummary
      simp only [hmode, Bool.false_eq_true, if_false]
      rfl
    exact (hp.repair.tiered.serves hrep plan).listing
  | true =>
    have hbtree : s.repairSummary.btree =
        (s.btree.rebuildSummaryFromCommitted s.committedLsns).ensureSummaryLsnAtLeast
          s.stableLsn := by
      unfold ShardEngine.repairSummary
      simp only [hmode, if_true]
    obtain ⟨h1, h2, h3⟩ := rebuildSummaryFromCommitted_fields s.btree s.committedLsns
    have hfile := pageFile_rebuild s.btree s.committedLsns
    have hroot : (s.btree.rebuildSummaryFromCommitted s.committedLsns).rootOffset =
        s.btree.rootOffset := by
      unfold PagedBTree.rebuildSummaryFromCommitted
      split <;> rfl
    generalize s.btree.rebuildSummaryFromCommitted s.committedLsns = u at hbtree h1 h2 h3 hfile hroot
    refine ⟨fun key lsn hk hf hd => ?_, fun hdisk hlo => ?_⟩
    · rw [hbtree] at hf hd
      exact hserves.listing.index key lsn hk (h2 ▸ hf) (h3 ▸ hd)
    · rw [hbtree] at hlo ⊢
      obtain ⟨out, hout, hm⟩ := hserves.listing.pages hmode (hroot ▸ hlo)
      refine ⟨out, ?_, fun e he hk hd => hm e he hk (h3 ▸ hd)⟩
      rw [← hout]
      have hwalk : (u.ensureSummaryLsnAtLeast s.stableLsn).walkFuel = s.btree.walkFuel := by
        unfold PagedBTree.walkFuel
        exact congrArg (fun pf : Option PageFile => (pf.map fun pf => pf.file.length).getD 0 + 1) hfile
      have hr : (u.ensureSummaryLsnAtLeast s.stableLsn).rootOffset = s.btree.rootOffset := hroot
      rw [hwalk, hr]
      have hf : (u.ensureSummaryLsnAtLeast s.stableLsn).pageFile = s.btree.pageFile := hfile
      exact scanFromDiskAt_congr hf plan _ _

/-- **The scan of the tree**, a stale summary repaired, hits committed keys. -/
theorem Plain.btreeScanWithHeal (hp : Plain h s rs ds) (hserves : s.Serves plan)
    (hop : plan.op = .kRange) :
    ∃ s2 hits, s.btreeScanWithHeal plan = some (s2, .ok hits) ∧ (s2 = s ∨ s2 = s.repairSummary) ∧
      ∀ e ∈ hits, planMatches plan e.1 = true ∧ (s.committedLsns.find? e.1).isSome = true := by
  unfold ShardEngine.btreeScanWithHeal
  rcases hserves.listing.scan hop with ⟨e, hscan, he⟩ | ⟨hits, hscan, hm⟩
  · rw [hscan]
    simp only [he, if_true]
    rcases (hp.serves_repair hserves).listing.scan hop with ⟨e', hscan', he'⟩ | ⟨hits, hscan', hm⟩
    · rw [hscan']
      simp only [he', if_true]
      exact ⟨_, _, rfl, .inr rfl, fun e he => absurd he List.not_mem_nil⟩
    · rw [hscan']
      exact ⟨_, _, rfl, .inr rfl, hm⟩
  · rw [hscan]
    exact ⟨_, _, rfl, .inl rfl, hm⟩

/-! ## The version of a key at a snapshot -/

/-- The newest version of the chain at the snapshot, if the data file has its value. -/
def ShardEngine.chainVersion (s : ShardEngine) (key : Key) (snapshotLsn : Nat) : Option Version :=
  if s.vcs.floor key snapshotLsn = 0 then none
  else (s.datafile.readByLsn (s.vcs.floor key snapshotLsn)).toOption

/-- What the memtable has of the key, or the committed values up to the snapshot, or the chains. -/
def ShardEngine.versionAt (s : ShardEngine) (key : Key) (snapshotLsn : Nat) : Option Version :=
  match s.memtable.find? key with
  | some e => if e.deleted then none else some ⟨e.lsn, e.value⟩
  | none =>
    match s.committed.find? key with
    | some (value, lsn) =>
      if lsn ≤ snapshotLsn then some ⟨lsn, value⟩ else s.chainVersion key snapshotLsn
    | none => s.chainVersion key snapshotLsn

/-- The memtable or the committed values list the key. -/
def ShardEngine.Enlisted (s : ShardEngine) (key : Key) : Prop :=
  s.memtable.find? key ≠ none ∨ s.committed.find? key ≠ none

/-- The LSN under which they list it: that of the memtable, if it has no deletion of the key. -/
def ShardEngine.Hits (s : ShardEngine) (key : Key) (lsn : Nat) : Prop :=
  match s.memtable.find? key with
  | some e => e.deleted = false ∧ lsn = e.lsn
  | none => s.committedLsns.find? key = some lsn

theorem committed_of_lsn {lsn : Nat} (hf : s.committedLsns.find? key = some lsn) :
    ∃ value, s.committed.find? key = some (value, lsn) := by
  obtain ⟨⟨value, lsn'⟩, hc, hl⟩ := Option.map_eq_some_iff.1
    ((SortedMap.find?_mapValues s.committed (·.2) key).symm.trans hf)
  have hl : lsn' = lsn := hl
  exact ⟨value, hl ▸ hc⟩

theorem enlisted_of_hits {lsn : Nat} (hh : s.Hits key lsn) : s.Enlisted key := by
  unfold ShardEngine.Hits at hh
  unfold ShardEngine.Enlisted
  cases hmem : s.memtable.find? key with
  | some e => exact .inl (by simp)
  | none =>
    rw [hmem] at hh
    obtain ⟨value, hc⟩ := committed_of_lsn hh
    exact .inr (by simp [hc])

theorem hits_of_versionAt {n : Nat} (hl : s.Enlisted key) {v : Version}
    (hv : s.versionAt key n = some v) : ∃ lsn, s.Hits key lsn := by
  unfold ShardEngine.versionAt at hv
  unfold ShardEngine.Hits
  cases hmem : s.memtable.find? key with
  | some e =>
    rw [hmem] at hv
    simp only at hv
    split at hv
    · cases hv
    · rename_i hd
      exact ⟨e.lsn, by simpa using hd, rfl⟩
  | none =>
    obtain ⟨x, hc⟩ := Option.ne_none_iff_exists'.1 (hl.resolve_left (by simp [hmem]))
    exact ⟨x.2, by simp only [committedLsns, SortedMap.find?_mapValues, hc, Option.map_some]⟩

/-- A read by snapshot takes no other way than the tiers. -/
theorem getAtSnapshotCore_eq (s : ShardEngine) (key : Key) (ctx : SnapshotReadContext) :
    s.getAtSnapshotCore key ctx = s.resolveAtSnapshot key ctx := by
  unfold ShardEngine.getAtSnapshotCore
  cases hor : (s.memTier key ctx).or (s.committedTier key ctx.snapshotLsn) with
  | some r => simp only [ShardEngine.resolveAtSnapshot, hor]
  | none =>
    simp only
    cases hg : s.btreeGet key with
    | none => simp only [ShardEngine.resolveAtSnapshot, hor, hg, Option.map_none]
    | some hit =>
      simp only
      split
      · rfl
      rename_i hne
      cases hd : decisive (s.datafile.readByLsn (s.diskLsn key ctx.snapshotLsn hit)) with
      | none => rfl
      | some r =>
        -- the tier that reads this LSN answers first
        have hfloor : s.btreeTier hit ctx.snapshotLsn = none →
            s.diskLsn key ctx.snapshotLsn hit = s.vcs.floor key ctx.snapshotLsn →
            (s.btreeTier hit ctx.snapshotLsn).or ((s.chainTier key ctx.snapshotLsn).or
              (s.walTier key ctx.snapshotLsn)) = some r := by
          intro hb he
          rw [he] at hne hd
          have hc : s.chainTier key ctx.snapshotLsn = some r := by
            rw [ShardEngine.chainTier, if_pos (Nat.pos_iff_ne_zero.2 hne), hd]
          rw [hb, hc]
          rfl
        have htier : (s.btreeTier hit ctx.snapshotLsn).or ((s.chainTier key ctx.snapshotLsn).or
            (s.walTier key ctx.snapshotLsn)) = some r := by
          cases hit with
          | none => exact hfloor rfl rfl
          | some forward =>
            by_cases hle : ctx.snapshotLsn = 0 ∨ forward ≤ ctx.snapshotLsn
            · have hb : s.btreeTier (some forward) ctx.snapshotLsn = some r := by
                simp only [ShardEngine.diskLsn, if_pos hle] at hd
                simp only [btreeTier, if_pos hle, hd]
              rw [hb, Option.some_or]
            · exact hfloor (by simp only [btreeTier, if_neg hle])
                (by simp only [ShardEngine.diskLsn, if_neg hle])
        simp only [ShardEngine.resolveAtSnapshot, hor, hg, Option.map_some, htier,
          Option.getD_some]

theorem chainTier_version (n : Nat) :
    (∃ r, s.chainTier key n = some r ∧ ∀ v, r = .ok v ↔ s.chainVersion key n = some v) ∨
      (s.chainTier key n = none ∧ s.chainVersion key n = none) := by
  unfold ShardEngine.chainTier ShardEngine.chainVersion
  by_cases h0 : s.vcs.floor key n = 0
  · rw [if_neg (by omega), if_pos h0]
    exact .inr ⟨rfl, rfl⟩
  · rw [if_pos (Nat.pos_iff_ne_zero.2 h0), if_neg h0]
    cases hr : s.datafile.readByLsn (s.vcs.floor key n) with
    | ok v => exact .inl ⟨_, rfl, fun v' => by simp [Except.toOption]⟩
    | error e =>
      unfold decisive
      split
      · rename_i hv
        cases hv
      · rename_i hv
        cases hv
        split
        · exact .inl ⟨_, rfl, fun v' => by simp [Except.toOption]⟩
        · exact .inr ⟨rfl, rfl⟩

namespace Plain

variable (hp : Plain h s rs ds)
include hp

/-- **What the tiers answer** at a snapshot is the version of the key there. -/
theorem resolve_version (hget : s.btreeGet key = some (s.committedLsns.find? key)) {n : Nat}
    (hpos : 0 < n) :
    ∃ r, s.resolveAtSnapshot key ⟨0, n⟩ = some r ∧ ∀ v, r = .ok v ↔ s.versionAt key n = some v := by
  unfold ShardEngine.versionAt
  cases he : s.memtable.find? key with
  | some e =>
    refine ⟨_, hp.resolve_entry he n, fun v => ?_⟩
    unfold memAnswer
    cases hd : e.deleted <;> simp [hd]
  | none =>
    have hwal : s.walTier key n = none := by
      unfold ShardEngine.walTier tryWalSnapshotFloor
      rw [if_pos (.inr (.inl hp.steady.hot))]
    -- neither the committed values nor the tree have a version up to the snapshot
    have hbelow : s.committedTier key n = none → s.btreeTier (s.committedLsns.find? key) n = none →
        ∃ r, s.resolveAtSnapshot key ⟨0, n⟩ = some r ∧
          ∀ v, r = .ok v ↔ s.chainVersion key n = some v := by
      intro hc hb
      unfold resolveAtSnapshot
      rw [hp.memTier_none he, Option.none_or, hc, hget]
      simp only [Option.map_some, hb, hwal, Option.none_or, Option.or_none]
      refine ⟨_, rfl, ?_⟩
      rcases @chainTier_version s key n with ⟨r, hr, hv⟩ | ⟨hr, hv⟩
      · rw [hr]
        exact hv
      · rw [hr, hv]
        intro v
        have hno := isNotFound_missing (s.committedLsns.find? key) n
        refine iff_of_false (fun hc => ?_) (by simp)
        rw [Option.getD_none] at hc
        rw [hc] at hno
        cases hno
    cases hf : s.committed.find? key with
    | none =>
      refine hbelow (by unfold ShardEngine.committedTier; rw [hf]) ?_
      rw [committedLsns, SortedMap.find?_mapValues, hf]
      rfl
    | some x =>
      obtain ⟨value, lsn⟩ := x
      simp only
      by_cases hle : lsn ≤ n
      · rw [if_pos hle]
        have hc : s.committedTier key n = some (.ok ⟨lsn, value⟩) := by
          unfold ShardEngine.committedTier
          rw [hf]
          simp only [hle, or_true, if_true]
        refine ⟨.ok ⟨lsn, value⟩, ?_, fun v => by simp⟩
        unfold resolveAtSnapshot
        rw [hp.memTier_none he, Option.none_or, hc]
      · rw [if_neg hle]
        have hlate : ¬ (n = 0 ∨ lsn ≤ n) := by omega
        refine hbelow ?_ ?_
        · unfold ShardEngine.committedTier
          rw [hf]
          simp only [if_neg hlate]
        · rw [committedLsns, SortedMap.find?_mapValues, hf]
          simp only [Option.map_some, btreeTier, if_neg hlate]

/-- **A snapshot read** returns the version of the key at the snapshot. -/
theorem getAtSnapshot (hk : key ≠ []) (hget : s.btreeGet key = some (s.committedLsns.find? key))
    {n : Nat} (hpos : 0 < n) :
    ∃ s' r, s.getAtSnapshot key ⟨0, n⟩ = some (s', r) ∧
      ∀ v, r = .ok v ↔ s.versionAt key n = some v := by
  obtain ⟨r, hr, hv⟩ := hp.resolve_version hget hpos
  have hread : (s.prepareSnapshotRead n).resolveAtSnapshot key ⟨0, n⟩ = some r := by
    rcases hp.steady.prepareSnapshotRead n with he | he <;> rw [he]
    · exact hr
    · rw [(hp.repairSummary key).resolve, hr]
  refine ⟨s.prepareSnapshotRead n, r, ?_, hv⟩
  unfold ShardEngine.getAtSnapshot
  rw [if_neg hk]
  simp only [getAtSnapshotCore_eq, hread, Option.map_some]

/-! ## The hits -/

/-- **The hits of a snapshot scan** are the keys of the range that the memtable or the committed
values list, without those the memtable has a deletion of. -/
theorem mem_hits {hits : List Hit} (hh : ∀ e ∈ hits, planMatches plan e.1 = true ∧
      (s.committedLsns.find? e.1).isSome = true) (n : Nat) (lsn : Nat) :
    (key, lsn) ∈ s.overlaySnapshotMemTableHits plan ⟨0, n⟩ (s.overlayCommittedHits plan hits) ↔
      planMatches plan key = true ∧ s.Hits key lsn := by
  have hmatches := fun e he => (hh e he).1
  obtain ⟨hall, -⟩ := @overlaySnapshotMemTableHits_spec s ⟨0, n⟩ plan _
    (overlayCommittedHits_matches (s := s) hmatches)
  by_cases hk : planMatches plan key = true
  swap
  · exact iff_of_false (fun hm => hk (hall _ hm)) fun hc => hk hc.1
  rw [and_iff_right hk]
  -- the hits under the memtable are the committed keys
  have hbase : ∀ l : List Hit, l = s.overlayCommittedHits plan hits →
      (SortedMap.empty.insertAll l : SortedMap Key Nat).find? key = s.committedLsns.find? key := by
    rintro l rfl
    unfold ShardEngine.overlayCommittedHits
    rw [SortedMap.insertAll_eq (fun e => Iff.rfl)]
    rw [SortedMap.find?_foldl_entries]
    · cases hf : s.committedLsns.find? key with
      | some l => simp [hk]
      | none =>
        simp only
        cases hb : (SortedMap.empty.insertAll hits : SortedMap Key Nat).find? key with
        | none => rfl
        | some l =>
          rcases SortedMap.mem_of_find?_insertAll hb with hb | hb
          · cases hb
          · have := (hh _ hb).2
            rw [hf] at this
            cases this
    · intro m e k hne
      split
      · simp [hne]
      · rfl
    · intro m m' e he
      split
      · simp
      · exact he
  unfold ShardEngine.overlaySnapshotMemTableHits
  simp only
  rw [SortedMap.mem_entries_iff, find?_overlayLayer, find?_overlayLayer, find?_overlayLayer,
    hp.tiered.immutable, hp.tiered.flushing]
  simp only [SortedMap.find?_empty, hbase _ rfl, ShardEngine.Hits]
  cases he : s.memtable.find? key with
  | none => exact Iff.rfl
  | some e =>
    have hvis : memEntryVisible e ⟨0, n⟩ = true := by
      rw [memEntryVisible_eq_durable e rfl]
      exact (hp.current.memtable key e he).2.2.2.1
    simp only [hk, hvis, and_self, if_true]
    cases e.deleted with
    | true => simp
    | false => simp [eq_comm]

/-! ## The rows -/

/-- A hit whose key the tiers have nothing for leaves no row: what the data file has at the floor of
its chain is a deletion. -/
theorem fillRow_none {n lsn : Nat} (hpos : 0 < n) (hf : s.committedLsns.find? key = some lsn)
    (hmem : s.memtable.find? key = none) (hnone : s.versionAt key n = none) {p : PartialRow}
    (hd : s.diskRow (key, lsn) n = some p) (batchOk : Bool) : (s.fillRow batchOk p).value = [] := by
  by_contra hne
  obtain ⟨value, hc⟩ := committed_of_lsn hf
  have hlate : ¬ lsn ≤ n := by
    intro hle
    simp only [versionAt, hmem, hc, if_pos hle] at hnone
    cases hnone
  have hchain : s.chainVersion key n = none := by
    simpa only [versionAt, hmem, hc, if_neg hlate] using hnone
  have heff : s.effectiveHitLsn (key, lsn) n = s.vcs.floor key n := by
    unfold effectiveHitLsn
    rw [if_neg]
    rintro (h0 | hle)
    · exact Nat.ne_of_gt hpos h0
    · exact hlate hle
  unfold diskRow at hd
  rw [heff] at hd
  simp only at hd
  split at hd
  · cases hd
  rename_i h0
  obtain ⟨off, hoff, rfl⟩ := Option.map_eq_some_iff.1 hd
  obtain ⟨⟨key', w', hw', he'⟩, hlsn⟩ := hp.inv.fillRow hoff batchOk hne
  rw [ShardEngine.chainVersion, if_neg h0] at hchain
  rcases hp.tiered.stores.readByLsn_cases (s.vcs.floor key n) with ⟨hno, -⟩ | ⟨r, hr, hrl, hread⟩
  · rw [hno] at hoff
    cases hoff
  obtain ⟨w, hw, he, -⟩ := hp.inv.tiers.data r hr
  have hww : w = w' := hp.inv.unique hw hw' (by rw [he, he', hrl]; exact hlsn.symm)
  have hrd : r.deleted = false := by rw [← he, hww, he']
  rw [hread, hrd] at hchain
  cases hchain

/-- The rows of hits, where the values are in memory. -/
theorem committedRow {n lsn : Nat} (hpos : 0 < n) (hh : s.Hits key lsn) :
    s.committedRow ⟨0, n⟩ (key, lsn) = (s.versionAt key n).map (key, ·) := by
  unfold ShardEngine.committedRow versionAt
  simp only [hp.lookupMemTable]
  unfold ShardEngine.Hits at hh
  cases hmem : s.memtable.find? key with
  | some e =>
    rw [hmem] at hh
    have hvis : memEntryVisible e ⟨0, n⟩ = true := by
      rw [memEntryVisible_eq_durable e rfl]
      exact (hp.current.memtable key e hmem).2.2.2.1
    simp [hh.1, hvis]
  | none =>
    rw [hmem] at hh
    obtain ⟨value, hc⟩ := committed_of_lsn hh
    simp only [hc]
    by_cases hle : lsn ≤ n
    · rw [if_neg (by omega), if_pos hle]
      rfl
    · rw [if_pos (by omega), if_neg hle, ShardEngine.chainVersion]
      split <;> rfl

/-- The loop over the hits returns, and keeps their order. -/
theorem partialRows {n : Nat} (hpos : 0 < n) {hits : List Hit}
    (hget : ∀ hit ∈ hits, s.btreeGet hit.1 = some (s.committedLsns.find? hit.1)) :
    ∃ rows, s.partialRows ⟨0, n⟩ hits = some rows ∧
      (rows.map (·.1)).Sublist (hits.map (·.1)) := by
  induction hits with
  | nil => exact ⟨[], rfl, List.Sublist.slnil⟩
  | cons hit hits ih =>
    obtain ⟨rows, hrows, hsub⟩ := ih fun hit' hm => hget hit' (List.mem_cons_of_mem _ hm)
    obtain ⟨r, hr, -⟩ := hp.resolve_version (hget hit List.mem_cons_self) hpos
    rw [ShardEngine.partialRows, hr, hrows]
    cases r with
    | ok v => exact ⟨_, rfl, hsub.cons_cons hit.1⟩
    | error e =>
      refine ⟨_, rfl, ?_⟩
      cases (if s.readsDisk = true then s.diskRow hit n else none) with
      | none => exact hsub.cons hit.1
      | some row => exact hsub.cons_cons hit.1

/-- **The rows of a scan** are the versions at the snapshot of the keys that are listed; empty values
are left out where the values are not in memory. -/
theorem resolveScanValues {n : Nat} (hpos : 0 < n) (hserves : s.Serves plan) {hits : List Hit}
    (hhits : ∀ key lsn, (key, lsn) ∈ hits ↔ planMatches plan key = true ∧ s.Hits key lsn) :
    ∃ rows, s.resolveScanValues hits ⟨0, n⟩ = some rows ∧
      (rows.map (·.1)).Sublist (hits.map (·.1)) ∧
      ∀ key v, (key, v) ∈ rows ↔ planMatches plan key = true ∧ s.Enlisted key ∧
        s.versionAt key n = some v ∧ (v.value ≠ [] ∨ s.ScansCommitted) := by
  unfold ShardEngine.resolveScanValues
  split
  · -- nothing is listed
    rename_i hc
    have hnone : ∀ key, ¬ s.Enlisted key := by
      have hmem := hc.2.1
      simp only [memTablesEmpty, Bool.and_eq_true, SortedMap.isEmpty_iff] at hmem
      have hcom := SortedMap.isEmpty_iff.1 hc.2.2
      rintro key (hk | hk)
      · exact hk (SortedMap.find?_eq_none_iff.2 (by simp [hmem.1.1]))
      · exact hk (SortedMap.find?_eq_none_iff.2 (by simp [hcom]))
    have hnil : hits = [] := by
      refine List.eq_nil_iff_forall_not_mem.2 fun hit hm => ?_
      exact hnone hit.1 (enlisted_of_hits ((hhits hit.1 hit.2).1 hm).2)
    subst hnil
    exact ⟨[], rfl, List.Sublist.slnil, fun key v =>
      iff_of_false List.not_mem_nil fun hk => hnone key hk.2.1⟩
  split
  · rename_i hc
    have hsc : s.ScansCommitted := ⟨by simpa using hc.1, by simpa using hc.2⟩
    have hrow : ∀ hit ∈ hits, s.committedRow ⟨0, n⟩ hit = (s.versionAt hit.1 n).map (hit.1, ·) :=
      fun hit hm => hp.committedRow hpos ((hhits hit.1 hit.2).1 hm).2
    refine ⟨_, rfl, ?_, fun key v => ?_⟩
    · clear hhits
      induction hits with
      | nil => exact List.Sublist.slnil
      | cons hit hits ih =>
        have hrest := ih fun hit' hm => hrow hit' (List.mem_cons_of_mem _ hm)
        rw [List.filterMap_cons, hrow hit List.mem_cons_self]
        cases s.versionAt hit.1 n with
        | none => exact hrest.cons hit.1
        | some v => exact hrest.cons_cons hit.1
    · rw [List.mem_filterMap]
      constructor
      · rintro ⟨⟨key', lsn⟩, hm, hr⟩
        rw [hrow _ hm] at hr
        obtain ⟨v', hv, he⟩ := Option.map_eq_some_iff.1 hr
        cases he
        obtain ⟨hk, hh⟩ := (hhits _ _).1 hm
        exact ⟨hk, enlisted_of_hits hh, hv, .inr hsc⟩
      · rintro ⟨hk, hl, hv, -⟩
        obtain ⟨lsn, hh⟩ := hits_of_versionAt hl hv
        have hm := (hhits key lsn).2 ⟨hk, hh⟩
        exact ⟨_, hm, by rw [hrow _ hm, hv]; rfl⟩
  · rename_i hc
    have hsc : ¬ s.ScansCommitted := fun hsc => hc (by simp [hsc.1, hsc.2])
    have hget : ∀ hit ∈ hits, s.btreeGet hit.1 = some (s.committedLsns.find? hit.1) :=
      fun hit hm => hserves.get _ ((hhits hit.1 hit.2).1 hm).1
    obtain ⟨prows, hprows, hsub⟩ := hp.partialRows hpos hget
    obtain ⟨hfrom, hto⟩ := mem_partialRows hprows
    refine ⟨_, by rw [hprows]; rfl, ?_, fun key v => ?_⟩
    · have hfill : ((s.fillRows prows).map (·.1)).Sublist (prows.map (·.1)) := by
        unfold fillRows
        simp only
        refine (List.filter_sublist.map _).trans ?_
        rw [List.map_map]
        exact List.Sublist.refl _
      exact hfill.trans hsub
    rw [mem_fillRows]
    constructor
    · rintro ⟨hne, p, hmp, hv⟩
      obtain ⟨⟨key', lsn⟩, hm, rfl, ⟨v', hres, hpv⟩ | ⟨⟨e, hres⟩, hdisk⟩⟩ := hfrom _ hmp
      · have hpv : p = .value v' := hpv
        subst hpv
        have hv : v = v' := hv
        subst hv
        obtain ⟨hk, hh⟩ := (hhits _ _).1 hm
        obtain ⟨r, hr, hver⟩ := hp.resolve_version (hget _ hm) hpos
        cases hr.symm.trans hres
        exact ⟨hk, enlisted_of_hits hh, (hver v).1 rfl, .inl hne⟩
      · -- no row comes from the disk alone
        exfalso
        obtain ⟨hk, hh⟩ := (hhits _ _).1 hm
        obtain ⟨r, hr, hver⟩ := hp.resolve_version (hget _ hm) hpos
        cases hr.symm.trans hres
        have hnone : s.versionAt key' n = none := by
          cases hv' : s.versionAt key' n with
          | none => rfl
          | some v' => cases (hver v').2 hv'
        have hmem : s.memtable.find? key' = none := by
          cases he : s.memtable.find? key' with
          | none => rfl
          | some e' =>
            unfold ShardEngine.Hits at hh
            rw [he] at hh
            simp only [versionAt, he, hh.1, Bool.false_eq_true, if_false] at hnone
            cases hnone
        unfold ShardEngine.Hits at hh
        rw [hmem] at hh
        refine hne ?_
        rw [hv]
        exact hp.fillRow_none hpos hh hmem hnone hdisk _
    · rintro ⟨hk, hl, hv, hne⟩
      have hne := hne.resolve_right hsc
      obtain ⟨lsn, hh⟩ := hits_of_versionAt hl hv
      have hm := (hhits key lsn).2 ⟨hk, hh⟩
      obtain ⟨r, hr, hver⟩ := hp.resolve_version (hget _ hm) hpos
      obtain rfl := (hver v).2 hv
      exact ⟨hne, _, hto _ hm v hr, rfl⟩

end Plain

/-! ## Scans -/

theorem versionAt_repairSummary (s : ShardEngine) (key : Key) (n : Nat) :
    s.repairSummary.versionAt key n = s.versionAt key n := rfl

/-- A range that is not inverted is prepared, up to a summary that is behind. -/
theorem prepare_valid (hop : plan.op = .kRange) (hrange : ¬ plan.rangeEnd < plan.key) :
    s.prepare plan = .ok () ∨ ∃ e, s.prepare plan = .error e ∧ e.code = .kStaleSummary := by
  unfold ShardEngine.prepare
  rw [if_neg (by simp [hop]), if_neg (fun hc => hrange hc.2)]
  split
  · exact .inr ⟨_, rfl, rfl⟩
  · exact .inl rfl

theorem prepare_inverted (hop : plan.op = .kRange) (hlt : plan.rangeEnd < plan.key) :
    ∃ e, s.prepare plan = .error e ∧ e.code ≠ .kStaleSummary := by
  unfold ShardEngine.prepare
  rw [if_neg (by simp [hop]), if_pos ⟨hop, hlt⟩]
  exact ⟨_, rfl, by decide⟩

/-- **A snapshot scan** of a range, `hserves` saying that the tree is right. -/
theorem Plain.scanAtSnapshot (hp : Plain h s rs ds) (hop : plan.op = .kRange)
    (hrange : ¬ plan.rangeEnd < plan.key) {n : Nat} (hpos : 0 < n)
    (hserves : s.Serves { plan with snapshotLsn := n }) :
    ∃ s' rows, s.scanAtSnapshot plan ⟨0, n⟩ = some (s', .ok rows) ∧
      (rows.map (·.1)).Pairwise (· < ·) ∧
      ∀ key v, (key, v) ∈ rows ↔ planMatches plan key = true ∧ s.Enlisted key ∧
        s.versionAt key n = some v ∧ (v.value ≠ [] ∨ s.ScansCommitted) := by
  -- the summary is repaired at most, before the scan and in it
  have hrows : ∀ s1, Plain h s1 rs ds → s1.Serves { plan with snapshotLsn := n } →
      (∀ key v, s1.Enlisted key ∧ s1.versionAt key n = some v ∧ (v.value ≠ [] ∨ s1.ScansCommitted) ↔
        s.Enlisted key ∧ s.versionAt key n = some v ∧ (v.value ≠ [] ∨ s.ScansCommitted)) →
      ∃ s' rows, s1.scanPrepared { plan with snapshotLsn := n } ⟨0, n⟩ = some (s', .ok rows) ∧
        (rows.map (·.1)).Pairwise (· < ·) ∧
        ∀ key v, (key, v) ∈ rows ↔ planMatches plan key = true ∧ s.Enlisted key ∧
          s.versionAt key n = some v ∧ (v.value ≠ [] ∨ s.ScansCommitted) := by
    intro s1 hp1 hs1 hsame
    obtain ⟨s2, hits, hscan, hs2, hh⟩ := hp1.btreeScanWithHeal hs1 hop
    obtain ⟨hp2, hserves2, hlsns, hsame2⟩ : Plain h s2 rs ds ∧
        s2.Serves { plan with snapshotLsn := n } ∧ s2.committedLsns = s1.committedLsns ∧
        ∀ key v, s2.Enlisted key ∧ s2.versionAt key n = some v ∧
            (v.value ≠ [] ∨ s2.ScansCommitted) ↔
          s1.Enlisted key ∧ s1.versionAt key n = some v ∧ (v.value ≠ [] ∨ s1.ScansCommitted) := by
      rcases hs2 with rfl | rfl
      · exact ⟨hp1, hs1, rfl, fun _ _ => Iff.rfl⟩
      · refine ⟨hp1.repair, hp1.serves_repair hs1, rfl, fun key v => ?_⟩
        rw [scansCommitted_repairSummary]
        exact Iff.rfl
    rw [← hlsns] at hh
    obtain ⟨rows, hres, hsub, hmem⟩ := hp2.resolveScanValues hpos hserves2
      fun key lsn => @Plain.mem_hits _ s2 _ _ key _ hp2 _ hh n lsn
    refine ⟨s2, rows, ?_, ?_, fun key v => ?_⟩
    · unfold scanPrepared
      rw [hscan]
      simp only [hres, Option.map_some]
    · exact (List.pairwise_map.2 (SortedMap.sorted _)).sublist hsub
    · rw [hmem, hsame2, hsame]
      exact Iff.rfl
  have hprepared : ∃ s' rows, (s.prepareSnapshotRead n).scanPrepared { plan with snapshotLsn := n }
      ⟨0, n⟩ = some (s', .ok rows) ∧ (rows.map (·.1)).Pairwise (· < ·) ∧
        ∀ key v, (key, v) ∈ rows ↔ planMatches plan key = true ∧ s.Enlisted key ∧
          s.versionAt key n = some v ∧ (v.value ≠ [] ∨ s.ScansCommitted) := by
    rcases hp.steady.prepareSnapshotRead n with he | he <;> rw [he]
    · exact hrows s hp hserves fun _ _ => Iff.rfl
    · refine hrows _ hp.repair (hp.serves_repair hserves) fun key v => ?_
      rw [scansCommitted_repairSummary]
      exact Iff.rfl
  unfold ShardEngine.scanAtSnapshot
  simp only
  rcases @prepare_valid (s.prepareSnapshotRead n) { plan with snapshotLsn := n } hop hrange with
    he | ⟨e, he, hc⟩
  · rw [he]
    exact hprepared
  · rw [he]
    simp only [hc, if_true]
    exact hprepared

/-! ## Runs -/

/-- A snapshot scan returns the keys of the range that snapshot reads find, in order, with the values
these return. -/
def ShardEngine.ScanAgrees (s : ShardEngine) (plan : TypedPlan) (n : Nat) : Prop :=
  ∃ s' rows, s.scanAtSnapshot plan ⟨0, n⟩ = some (s', .ok rows) ∧
    (rows.map (·.1)).Pairwise (· < ·) ∧
    ∀ key v, (key, v) ∈ rows ↔ planMatches plan key = true ∧
      ∃ s'', s.getAtSnapshot key ⟨0, n⟩ = some (s'', .ok v)

/-- What the scan needs: a range that is not inverted, no key with a version at the snapshot that
only the chains know, and no empty value unless the values are in memory. -/
structure ShardEngine.ScanLists (s : ShardEngine) (plan : TypedPlan) (n : Nat) : Prop where
  range : ¬ plan.rangeEnd < plan.key
  enlisted : ∀ key v, planMatches plan key = true → s.versionAt key n = some v → s.Enlisted key
  valued : ∀ key v, planMatches plan key = true → s.versionAt key n = some v →
    v.value ≠ [] ∨ s.ScansCommitted

/-- A key with a version was written. -/
theorem Plain.versionAt_wrote (hp : Plain h s rs ds) {n : Nat} {v : Version}
    (hv : s.versionAt key n = some v) : ∃ w ∈ h.writes, w.record.key = key := by
  have hchain : s.chainVersion key n = some v → ∃ w ∈ h.writes, w.record.key = key := by
    intro hc
    unfold ShardEngine.chainVersion at hc
    split at hc
    · cases hc
    · rename_i hne
      obtain ⟨r, ⟨w, hw, rfl, -⟩, hk, -⟩ := hp.inv.floor (Nat.pos_iff_ne_zero.2 hne)
      exact ⟨w, hw, hk⟩
  unfold ShardEngine.versionAt at hv
  cases hmem : s.memtable.find? key with
  | some e =>
    obtain ⟨w, hw, hr, hk⟩ := newest_mem (hp.current.memtable key e hmem).2.2.2.2
    exact ⟨w, hw, by rw [hr, hk]⟩
  | none =>
    rw [hmem] at hv
    cases hcom : s.committed.find? key with
    | none =>
      rw [hcom] at hv
      exact hchain hv
    | some x =>
      obtain ⟨w, hw, he, -⟩ := hp.inv.tiers.committed key x hcom
      exact ⟨w, hw, by rw [he]⟩

/-- **When a snapshot scan agrees with snapshot reads.** In every state that autocommit writes,
flushes, checkpoints and pins reach, where the tree serves the committed values of the range: for
every snapshot, if and only if `ScanLists`. -/
theorem Run.scan_agrees_iff (hr : Run (fun _ _ op => op.plain = true) s h) {plan : TypedPlan}
    (hop : plan.op = .kRange) {n : Nat} (hpos : 0 < n)
    (hserves : s.Serves { plan with snapshotLsn := n }) :
    s.ScanAgrees plan n ↔ s.ScanLists plan n := by
  obtain ⟨rs, ds, hp⟩ := hr.plain
  -- what a read of a key of the range returns
  have hread : ∀ key v, planMatches plan key = true →
      ((∃ s'', s.getAtSnapshot key ⟨0, n⟩ = some (s'', .ok v)) ↔ s.versionAt key n = some v) := by
    intro key v hk
    by_cases hne : key = []
    · subst hne
      refine iff_of_false ?_ fun hv => ?_
      · rintro ⟨s'', hg⟩
        unfold ShardEngine.getAtSnapshot at hg
        cases hg
      · obtain ⟨w, hw, hk'⟩ := hp.versionAt_wrote hv
        exact (hp.standing.named w hw).1 hk'
    · obtain ⟨s', r, hg, hv⟩ := hp.getAtSnapshot hne (hserves.get key hk) hpos
      rw [← hv]
      constructor
      · rintro ⟨s'', hg'⟩
        cases hg.symm.trans hg'
        rfl
      · rintro rfl
        exact ⟨s', hg⟩
  constructor
  · rintro ⟨s', rows, hscan, -, hrows⟩
    have hrange : ¬ plan.rangeEnd < plan.key := by
      intro hlt
      obtain ⟨e, he, hc⟩ := @prepare_inverted (s.prepareSnapshotRead n)
        { plan with snapshotLsn := n } hop hlt
      unfold ShardEngine.scanAtSnapshot at hscan
      simp only [he, if_neg hc] at hscan
      cases hscan
    obtain ⟨s2, rows2, hscan2, -, hrows2⟩ := hp.scanAtSnapshot hop hrange hpos hserves
    cases hscan.symm.trans hscan2
    have hall : ∀ key v, planMatches plan key = true → s.versionAt key n = some v →
        s.Enlisted key ∧ (v.value ≠ [] ∨ s.ScansCommitted) := by
      intro key v hk hv
      obtain ⟨-, hl, -, hne⟩ := (hrows2 key v).1 ((hrows key v).2 ⟨hk, (hread key v hk).2 hv⟩)
      exact ⟨hl, hne⟩
    exact ⟨hrange, fun key v hk hv => (hall key v hk hv).1, fun key v hk hv => (hall key v hk hv).2⟩
  · intro hl
    obtain ⟨s', rows, hscan, hsorted, hrows⟩ := hp.scanAtSnapshot hop hl.range hpos hserves
    refine ⟨s', rows, hscan, hsorted, fun key v => ?_⟩
    rw [hrows]
    constructor
    · rintro ⟨hk, -, hv, -⟩
      exact ⟨hk, (hread key v hk).2 hv⟩
    · rintro ⟨hk, hg⟩
      have hv := (hread key v hk).1 hg
      exact ⟨hk, hl.enlisted key v hk hv, hv, hl.valued key v hk hv⟩

/-- A put, read at its LSN. -/
theorem scan_agrees_put :
    ((ShardEngine.open .sync ShardFiles.none).write (firstPut 0)).1.ScanAgrees
      ⟨.kRange, [1], [3], 0⟩ 1 := by
  have hrun : Run (fun _ _ op => op.plain = true)
      ((ShardEngine.open .sync ShardFiles.none).write (firstPut 0)).1
      (History.empty.after (ShardEngine.open .sync ShardFiles.none) (.write (firstPut 0))) :=
    (Run.opened .sync).step (by decide +kernel) rfl rfl
  obtain ⟨rs, ds, hp⟩ := hrun.plain
  have hwrites : (History.empty.after (ShardEngine.open .sync ShardFiles.none)
      (.write (firstPut 0))).writes = [⟨0, ⟨1, [1], [2], false⟩⟩] := by decide +kernel
  have hmem : ((ShardEngine.open .sync ShardFiles.none).write
      (firstPut 0)).1.memtable.find? [1] = some ⟨[2], 1, false, 0, true⟩ := by decide +kernel
  refine (Run.scan_agrees_iff hrun rfl (by decide) (hp.tiered.serves (by decide +kernel) _)).2 ?_
  -- what has a version was written
  have hkey : ∀ key v, ((ShardEngine.open .sync ShardFiles.none).write
      (firstPut 0)).1.versionAt key 1 = some v → key = [1] := by
    intro key v hv
    obtain ⟨w, hw, rfl⟩ := hp.versionAt_wrote hv
    rw [hwrites, List.mem_singleton] at hw
    rw [hw]
  refine ⟨by decide, fun key v _ hv => ?_, fun key v _ hv => ?_⟩
  · obtain rfl := hkey key v hv
    exact .inl (by rw [hmem]; simp)
  · obtain rfl := hkey key v hv
    simp only [versionAt, hmem, Bool.false_eq_true, if_false] at hv
    cases hv
    exact .inl (by decide)

/-- **A key that was deleted and flushed behind the pin** is read at the pinned snapshot, through its
chain, and is in no scan of it. -/
theorem scan_misses_deleted : ¬ ∀ s h, Run (fun _ _ op => op.plain = true) s h →
    ∀ plan n, plan.op = .kRange → 0 < n → ¬ plan.rangeEnd < plan.key → s.ScanAgrees plan n := by
  intro hall
  obtain ⟨⟨s, h⟩, hops, hx⟩ := (Option.any_eq_true _ _).1 (show ((runOps (ShardEngine.open .sync
      ShardFiles.none) History.empty [.write (firstPut 0), .flush .byKey, .pinSnapshot 1,
        .write ⟨[1], [], true, 0⟩, .flush .byKey]).any fun x =>
    (x.1.scanAtSnapshot ⟨.kRange, [1], [3], 0⟩ ⟨0, 1⟩).all (fun r => r.2.toOption.all (·.isEmpty)) &&
      (x.1.getAtSnapshot [1] ⟨0, 1⟩).any fun r => r.2.isOk) = true
      by decide +kernel)
  rw [Bool.and_eq_true] at hx
  have hrun := (@Run.opened (fun _ _ op => op.plain = true) .sync).calls
    (by simp [Op.plain, Op.writes, firstPut]) hops
  obtain ⟨s', rows, hscan, -, hrows⟩ := hall s h hrun ⟨.kRange, [1], [3], 0⟩ 1 rfl (by decide)
    (by decide)
  obtain ⟨⟨s'', r⟩, hg, hok⟩ := (Option.any_eq_true _ _).1 hx.2
  cases r with
  | error e => cases hok
  | ok v =>
    have hm := (hrows [1] v).2 ⟨by decide, s'', hg⟩
    rw [hscan] at hx
    have hnil : rows = [] := List.isEmpty_iff.1 hx.1
    rw [hnil] at hm
    exact absurd hm List.not_mem_nil

end EBTree.Engine
