import EBTree.BTree.Proof.Walks
import EBTree.Engine.DiskTrace
import EBTree.Engine.Proof.Tiers

/-!
# What stands through crashes

In runs of the calls that write, with crashes at any phase of a checkpoint and reopenings between
them, the pages, the superblock and the chains stay such that the next call finds its way.

* `Standing h s`: every root a superblock names lies in the page file, whose walks end; the chains
  and their sidecar grow; what was written has a key and an LSN.
* `Standing.write`, `Standing.flush`, `Standing.checkpoint`, `FilesStand.standing`: the calls, and the
  opening of the files.
* `Run.standing`: **a run**.
-/

set_option autoImplicit false

namespace EBTree.Engine

open Lib Wal BTree ShardEngine VersionChainStore

/-- The root of the superblock is a page of the file, or no superblock was ever committed. -/
def RootHeld (sb : SuperBlock) (pf : PageFile) : Prop :=
  (sb.epoch = 0 ∧ sb.activeRoot = 0) ∨
    (PageOffset sb.activeRoot ∧ sb.activeRoot + kPageSize ≤ pf.file.length)

theorem RootHeld.mono {sb : SuperBlock} {pf pf' : PageFile} (h : RootHeld sb pf)
    (hle : pf.file.length ≤ pf'.file.length) : RootHeld sb pf' :=
  h.imp id fun ⟨hroot, hend⟩ => ⟨hroot, Nat.le_trans hend hle⟩

/-- The pages of the tree, under the superblock. -/
structure Rests (sb : SuperBlock) (t : PagedBTree) : Prop where
  pages : ∃ pf, t.pageFile = some pf ∧ Placed pf ∧ RootHeld sb pf

/-- A write has a key and an LSN. -/
def History.Named (h : History) : Prop := ∀ w ∈ h.writes, w.record.key ≠ [] ∧ 0 < w.record.lsn

structure Standing (h : History) (s : ShardEngine) : Prop where
  hot : s.recoveryMode = .kHot
  root : s.lazyRootCorrupt = false
  rests : Rests s.superblock s.btree
  vcs : Ordered s.vcs
  vidx : ∀ v, s.vidx = some v → Ordered v
  named : h.Named

variable {h h' : History} {s s' : ShardEngine} {rs : List WalRecord} {ds : List DataRecord}

/-! ## The tree -/

namespace Rests

variable {sb : SuperBlock} {t u : PagedBTree}

theorem of_pageFile (hr : Rests sb t) (hp : u.pageFile = t.pageFile) : Rests sb u := by
  obtain ⟨pf, ht, hpf⟩ := hr.pages
  exact ⟨pf, hp.trans ht, hpf⟩

theorem put (hr : Rests sb t) (key : Key) (lsn : Nat) : Rests sb (t.put key lsn) :=
  hr.of_pageFile rfl

theorem deleteKey (hr : Rests sb t) (key : Key) (lsn : Nat) : Rests sb (t.deleteKey key lsn) :=
  hr.of_pageFile (Overlaid.deleteKey_fields t key lsn).1

theorem loadFromMap (hr : Rests sb t) (m : SortedMap Key Nat) : Rests sb (t.loadFromMap m) :=
  hr.of_pageFile (pageFile_loadFromMap t m)

theorem rebuildSummaryFromCommitted (hr : Rests sb t) (m : SortedMap Key Nat) :
    Rests sb (t.rebuildSummaryFromCommitted m) :=
  hr.of_pageFile (pageFile_rebuild t m)

theorem ensureSummaryLsnAtLeast (hr : Rests sb t) (lsn : Nat) :
    Rests sb (t.ensureSummaryLsnAtLeast lsn) := hr.of_pageFile rfl

theorem loadRoot (hr : Rests sb t) (root : Nat) : Rests sb (t.loadRoot root).1 :=
  hr.of_pageFile (pageFile_loadRoot t root)

/-- **A lookup** in the tree returns. -/
theorem get (hr : Rests sb t) {Q : Entry → Prop} (ht : SoundTree Q t) (key : Key) :
    ∃ r, t.get key = some r := by
  obtain ⟨pf, hpf, hplaced, -⟩ := hr.pages
  exact hplaced.get hpf ht.root key

/-- Persisting a map leaves the roots that are there. -/
theorem persistRootFromMap (hr : Rests sb t) {Q : Entry → Prop} (ht : SoundTree Q t)
    {m : SortedMap Key Nat} (hm : Writable m) (hq : ∀ e ∈ m.entries, Q e)
    {st : Except Status Nat} (h : t.persistRootFromMap m = some (u, st)) :
    Rests sb u ∧ ∀ {sb' : SuperBlock}, st = .ok sb'.activeRoot →
      m.isEmpty = false ∨ kPageFileHeaderSize ≤ sb'.activeRoot → Rests sb' u := by
  obtain ⟨pf, hpf, hplaced, hroot⟩ := hr.pages
  have hgood := ht.pages pf hpf
  obtain ⟨pf', hpf', -⟩ := persistRootImpl_good hpf paged_pageOffset hgood hm hq h
  have hplaced' := persistRootImpl_placed hpf hgood.whole hplaced hm h hpf'
  refine ⟨⟨pf', hpf', hplaced', hroot.mono (persistRootImpl_longer hpf h hpf')⟩, ?_⟩
  intro sb' hst hlo
  subst hst
  exact ⟨pf', hpf', hplaced', .inr (persistRootImpl_root hpf hgood hm hq h hpf' hlo)⟩

end Rests

namespace Standing

/-! ## Writing -/

theorem ensureWalReplayed (hs : Standing h s) : Standing h s.ensureWalReplayed := by
  obtain ⟨_, _, he⟩ := ensureWalReplayed_eq s
  rw [he]
  exact { hs with }

theorem groupCommitNow (hs : Standing h s) : Standing h s.groupCommitNow := by
  unfold ShardEngine.groupCommitNow
  split
  · exact hs
  · exact { hs with }

theorem acknowledge (hs : Standing h s) (lsn : Nat) : Standing h (s.acknowledge lsn) := by
  rw [acknowledge_frame]
  exact { hs with }

theorem of_named (hs : Standing h s) (hn : h'.Named) : Standing h' s := { hs with named := hn }

/-- What a write adds to the history has a key and an LSN. -/
theorem named_wrote (hi : Inv true h s rs ds) (hc : s.wal.maxLsn + 1 < kWalMagicV2)
    (r : WriteRequest) : ∀ w ∈ s.wrote r, w.record.key ≠ [] ∧ 0 < w.record.lsn := by
  unfold ShardEngine.wrote
  split
  · exact fun w hw => absurd hw List.not_mem_nil
  rename_i hkey
  by_cases hb : (r.item s.opts.logsTxn).InBounds
  · obtain ⟨w', ha, -⟩ := hi.log.logs.append hb hc
    rw [ha]
    intro w hw
    rw [List.mem_singleton.1 hw]
    exact ⟨hkey, Nat.succ_pos _⟩
  · obtain ⟨w', e, ha, -⟩ := hi.log.logs.append_tooLarge hb hc
    rw [ha]
    exact fun w hw => absurd hw List.not_mem_nil

theorem write (hs : Standing h s) (hi : Inv true h s rs ds) (hc : s.wal.maxLsn + 1 < kWalMagicV2)
    (r : WriteRequest) : Standing (h.after s (.write r)) (s.write r).1 := by
  have hnamed : (h.after s (.write r)).Named := by
    intro w hw
    rcases List.mem_append.1 hw with hw | hw
    · exact hs.named w hw
    · exact named_wrote hi hc r w hw
  suffices hs' : Standing h (s.write r).1 from hs'.of_named hnamed
  rcases write_cases s r with ⟨-, hw⟩ | ⟨-, ⟨w, e, -, hw⟩ | ⟨w, lsn, -, hw⟩⟩ <;> rw [hw]
  · exact hs
  · exact { hs.ensureWalReplayed with }
  · apply acknowledge
    exact { hs.ensureWalReplayed with }

/-! ## Flushing -/

theorem flushEntry (hs : Standing h s) {key : Key} {e : MemTableEntry} {st : Except Status Unit}
    (hf : s.flushEntry key e = some (s', st)) : Standing h s' := by
  obtain ⟨prevLsn, vcs, ha, rfl⟩ := flushEntry_cases hf
  have hrests : Rests s.superblock
      (if e.deleted then s.btree.deleteKey key e.lsn else s.btree.put key e.lsn) := by
    split
    · exact hs.rests.deleteKey key e.lsn
    · exact hs.rests.put key e.lsn
  exact { hs with rests := hrests, vcs := hs.vcs.append ha }

theorem flushInternal (hs : Standing h s) {ord : IterOrder} {st : Except Status Unit}
    (hf : s.flushInternal ord = some (s', st)) : Standing h s' := by
  obtain ⟨s1, hes, rfl⟩ := flushInternal_cases hf
  have hsync : Standing h { s with wal := s.wal.fsync } := { hs with }
  have hs1 : Standing h s1 := by
    refine flushEntries_induction (P := Standing h) ?_ hsync hes
    intro s2 s3 key e st' _ hs2 hfe
    exact hs2.flushEntry hfe
  split
  · exact { hs1 with }
  · exact hs1

theorem rotate (hs : Standing h s) : Standing h s.rotateMemTableForFlush := { hs with }

theorem flush (hs : Standing h s) {ord : IterOrder} {st : Except Status Unit}
    (hf : s.flush ord = some (s', st)) : Standing h s' :=
  hs.ensureWalReplayed.rotate.flushInternal hf

/-! ## Checkpoints -/

theorem beforeFlush (hs : Standing h s) : Standing h s.beforeFlush := by
  unfold ShardEngine.beforeFlush
  split
  · exact hs.ensureWalReplayed.groupCommitNow
  · exact hs.ensureWalReplayed

theorem foldWalToVcs (hs : Standing h s) : Standing h s.foldWalToVcs.1 := by
  obtain ⟨vcs, he, hv⟩ := foldWalToVcs_eq s
  have hordered : Ordered vcs := by
    rcases hv with rfl | rfl
    · exact hs.vcs
    · exact foldInto_induction (P := Ordered) (fun v v' r prevLsn st _ ho ha => ho.append ha) hs.vcs
  rw [he]
  exact { hs with vcs := hordered }

/-- The tree with which a superblock is committed. -/
theorem rests_summary (hs : Standing h s) : Rests s.superblock
    ((s.btree.rebuildSummaryFromCommitted s.committedLsns).ensureSummaryLsnAtLeast s.stableLsn) :=
  (hs.rests.rebuildSummaryFromCommitted _).ensureSummaryLsnAtLeast _

theorem commitSuperBlockInternal (hs : Standing h s) (hi : Inv true h s rs ds)
    {st : Except Status Unit} (hc : s.commitSuperBlockInternal = some (s', st)) :
    Standing h s' := by
  rcases commitSuperBlockInternal_cases hc with ⟨hcor, -⟩ | ⟨-, btree, pst, hp, hrest⟩
  · exact absurd (hs.root.symm.trans hcor) Bool.false_ne_true
  have htree := (hi.tiers.btree.rebuildSummaryFromCommitted s.committedLsns).ensureSummaryLsnAtLeast
    s.stableLsn
  obtain ⟨hrests, hroot⟩ := hs.rests_summary.persistRootFromMap htree hi.writable_committedLsns
    (fun e he => hi.hasVersion_committedLsns e.1 e.2 (SortedMap.mem_entries_iff.1 he)) hp
  rcases hrest with ⟨e, -, -, rfl⟩ | ⟨root, rfl, ⟨e, -, -, rfl⟩ | ⟨hl, -, rfl⟩⟩
  · exact { hs with rests := hrests }
  · exact { hs with rests := hrests.loadRoot root }
  · -- a root that loads lies behind the header
    have hlo : kPageFileHeaderSize ≤ root := by
      by_contra hlt
      obtain ⟨pf, hpf, -⟩ := hrests.pages
      simp only [PagedBTree.loadRoot, hpf, if_pos (not_le.1 hlt)] at hl
      cases hl
    refine { hs with rests := ?_ }
    exact (((@hroot _ rfl (.inr hlo)).loadRoot root).ensureSummaryLsnAtLeast s.stableLsn)

theorem saveSidecars (hs : Standing h s) : Standing h s.saveSidecars where
  hot := hs.hot
  root := hs.root
  rests := hs.rests
  vcs := by
    unfold ShardEngine.saveSidecars
    simp only
    split
    · exact hs.vcs.compactBelow _
    · exact hs.vcs
  vidx v hv := by
    cases hv
    exact hs.vcs
  named := hs.named

theorem truncateWal (hs : Standing h s) : Standing h s.truncateWal := { hs with }

theorem checkpointCommit (hs : Standing h s) (hi : Inv true h s rs ds)
    {hook : CheckpointPhase → Bool} {st : Except Status Unit}
    (hc : s.checkpointCommit hook = some (s', st)) : Standing h s' := by
  obtain ⟨s1, st1, hcs, hrest⟩ := checkpointCommit_cases hc
  have hs1 := hs.commitSuperBlockInternal hi hcs
  rcases hrest with ⟨e, -, rfl⟩ | ⟨-, rfl | rfl⟩
  · exact hs1
  · exact hs1.saveSidecars
  · exact hs1.saveSidecars.truncateWal

/-- Every version was written by someone, which is all that is asked for here. -/
theorem memCounts (hi : Inv true h s rs ds) : MemCounts true h s.memtable := by
  intro key e he
  exact (hi.memtable key e he).1.counts (.inl rfl)

theorem truncatesAll (hs : Standing h s) : s.TruncatesAll := by
  intro hc
  rw [hs.root] at hc
  exact absurd hc Bool.false_ne_true

theorem checkpoint (hs : Standing h s) (hi : Inv true h s rs ds) {ord : IterOrder}
    {hook : CheckpointPhase → Bool} {st : Except Status Unit}
    (hcp : s.checkpoint ord hook = some (s', st)) : Standing h s' := by
  obtain ⟨s1, st1, hflush, hrest⟩ := checkpoint_cases hcp
  have hi0 : Inv true h s.beforeFlush rs ds := by
    unfold ShardEngine.beforeFlush
    split
    · exact hi.ensureWalReplayed.groupCommitNow
    · exact hi.ensureWalReplayed
  have hs1 := hs.beforeFlush.rotate.flushInternal hflush
  obtain ⟨ds', hi1⟩ := hi0.rotateMemTableForFlush.flushInternal (memCounts hi0) hflush
  rcases hrest with rfl | rfl | ⟨stc, hcommit⟩
  · exact hs1
  · exact hs1.foldWalToVcs
  · exact hs1.foldWalToVcs.checkpointCommit hi1.foldWalToVcs hcommit

end Standing

/-! ## Reopening -/

/-- The files of a shard that stands. -/
structure FilesStand (h : History) (f : ShardFiles) : Prop where
  placed : Placed (PageFile.open f.pages)
  root : RootHeld f.superblock (PageFile.open f.pages)
  vidx : ∀ v, f.vidx = some v → Ordered v
  named : h.Named

theorem FilesStand.none : FilesStand History.empty ShardFiles.none where
  placed := placed_new.open whole_new
  root := .inl ⟨rfl, rfl⟩
  vidx v hv := by cases hv
  named w hw := absurd hw List.not_mem_nil

theorem Standing.files (hs : Standing h s) (hi : Inv true h s rs ds) : FilesStand h s.files := by
  obtain ⟨pf, hpf, hplaced, hroot⟩ := hs.rests.pages
  have hwhole := (hi.tiers.btree.pages pf hpf).whole
  obtain ⟨-, hfile⟩ := hwhole.open
  have hpages : s.files.pages = pf.file := by
    simp only [ShardEngine.files, hpf]
    rfl
  refine ⟨?_, ?_, hs.vidx, hs.named⟩
  · rw [hpages]
    exact hplaced.open hwhole
  · rw [hpages]
    exact hroot.mono (Nat.le_of_eq (by rw [hfile]))

namespace FilesStand

variable {f : ShardFiles}

/-- **The root of a shard that stands loads** when the files are opened. -/
theorem followed (hf : FilesStand h f) (opts : EngineOptions) : Followed (loading opts f) := by
  have hpf : (loading opts f).btree.pageFile = some (PageFile.open f.pages) := rfl
  refine ⟨fun hlo => ?_, fun hnone => ?_⟩
  · rcases hf.root with ⟨-, h0⟩ | ⟨hoff, hend⟩
    · exact absurd (show kPageFileHeaderSize ≤ f.superblock.activeRoot from hlo) (by rw [h0]; decide)
    · exact hf.placed.loadRoot hpf hoff hend
  · obtain ⟨hpos, h0⟩ : 0 < f.superblock.epoch ∧ f.superblock.activeRoot = 0 := hnone
    rcases hf.root with ⟨he, -⟩ | ⟨hoff, -⟩
    · omega
    · exact absurd (h0 ▸ hoff.2) (by decide)

/-- The tiers of the shard. -/
theorem recoverTiers (hf : FilesStand h f) (opts : EngineOptions) :
    let s1 := EBTree.Engine.recoverTiers (loading opts f)
    s1.recoveryMode = .kHot ∧ s1.lazyRootCorrupt = false ∧ Rests f.superblock s1.btree := by
  have hfollowed := hf.followed opts
  have hrests : Rests f.superblock (loading opts f).btree := ⟨_, rfl, hf.placed, hf.root⟩
  generalize loading opts f = s0 at hfollowed hrests
  have htree : ∀ t, Rests f.superblock t → Rests f.superblock (loadedTree s0 t) := by
    intro t ht
    unfold loadedTree
    split
    · exact (hrests.loadRoot _).ensureSummaryLsnAtLeast _
    · exact ht
  unfold EBTree.Engine.recoverTiers
  split
  · rw [recoverLazy_followed hfollowed]
    exact ⟨rfl, rfl, htree _ hrests⟩
  · rw [recoverEager_followed hfollowed]
    exact ⟨rfl, rfl, htree _ (hrests.loadFromMap _)⟩

/-- **A shard that is opened** on such files stands. -/
theorem standing (hf : FilesStand h f) (opts : EngineOptions) :
    Standing h (ShardEngine.open opts f) := by
  obtain ⟨hhot, hroot, hrests⟩ := hf.recoverTiers opts
  obtain ⟨state, hopen⟩ := open_eq opts f
  have hframe := recoverTiers_frame (loading opts f)
  generalize EBTree.Engine.recoverTiers (loading opts f) = s1 at hhot hroot hrests hopen hframe
  have hsuper : s1.superblock = f.superblock := by
    rw [hframe]
    rfl
  have hvidx : s1.vidx = f.vidx := by
    rw [hframe]
    rfl
  rw [hopen]
  refine ⟨hhot, hroot, ?_, ?_, ?_, hf.named⟩
  · simp only [hsuper]
    exact hrests
  · show Ordered (f.vidx.getD (rebuildFromDataFile s1.datafile))
    cases hv : f.vidx with
    | none => exact ordered_rebuildFromDataFile _
    | some v => exact hf.vidx v hv
  · simp only [hvidx]
    exact hf.vidx

end FilesStand

/-! ## Runs -/

/-- The calls that write, and the opening of the files. -/
def Op.endures : Op → Bool
  | .reopen _ => true
  | op => op.writes

namespace Standing

theorem promoteTxn (hs : Standing h s) (txnId : UInt32) : Standing h (s.promoteTxn txnId) :=
  { hs with }

theorem clearTxn (hs : Standing h s) (txnId : UInt32) : Standing h (s.clearTxn txnId) :=
  { hs with }

/-- The call is one the invariant of the versions allows. -/
theorem allowed (hs : Standing h s) (hi : Inv true h s rs ds) {op : Op} (hop : op.endures = true) :
    Allowed true s h op where
  write _ _ := .inl rfl
  flush _ := memCounts hi.ensureWalReplayed
  checkpoint _ _ _ := hs.truncatesAll
  get key he := by
    subst he
    cases hop

/-- **One call.** -/
theorem step (hs : Standing h s) (hi : Inv true h s rs ds) {op : Op} (hc : Client s h op)
    (hop : op.endures = true) (hstep : s.step op = some s') : Standing (h.after s op) s' := by
  cases op with
  | write r =>
    cases hstep
    exact hs.write hi hc.counter r
  | appendTxnBegin txnId snapshotLsn =>
    cases hstep
    exact { hs with }
  | appendTxnCommit txnId =>
    cases hstep
    exact { hs with }
  | appendTxnAbort txnId =>
    cases hstep
    exact { hs with }
  | promoteTxn txnId =>
    cases hstep
    exact hs.promoteTxn txnId
  | clearTxn txnId =>
    cases hstep
    exact hs.clearTxn txnId
  | pinSnapshot lsn =>
    cases hstep
    exact { hs with }
  | releaseSnapshot =>
    cases hstep
    exact { hs with }
  | flush ord =>
    obtain ⟨⟨s1, st⟩, hf, rfl⟩ := Option.map_eq_some_iff.1 hstep
    exact hs.flush hf
  | tryFlushBackground ord =>
    obtain ⟨⟨s1, st⟩, hf, rfl⟩ := Option.map_eq_some_iff.1 hstep
    unfold ShardEngine.tryFlushBackground at hf
    split at hf
    · cases hf
      exact hs
    · exact hs.flush hf
  | checkpoint ord hook =>
    obtain ⟨⟨s1, st⟩, hf, rfl⟩ := Option.map_eq_some_iff.1 hstep
    exact hs.checkpoint hi hf
  | groupCommit =>
    cases hstep
    exact hs.groupCommitNow
  | reopen opts =>
    cases hstep
    exact (hs.files hi).standing opts
  | _ => cases hop

end Standing

/-- **In every run** of such calls. -/
theorem Run.standing {ok : ShardEngine → History → Op → Prop}
    (hok : ∀ s h op, ok s h op → op.endures = true) (hr : Run ok s h) :
    (∃ rs ds, Inv true h s rs ds) ∧ Standing h s := by
  induction hr with
  | opened opts => exact ⟨⟨[], [], FilesFrom.none.open opts⟩, FilesStand.none.standing opts⟩
  | step _ hc ho hstep ih =>
    obtain ⟨⟨rs, ds, hi⟩, hs⟩ := ih
    have hop := hok _ _ _ ho
    exact ⟨hi.step hc (hs.allowed hi hop) hstep, hs.step hi hc hop hstep⟩

end EBTree.Engine
