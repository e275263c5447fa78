import EBTree.BTree.Proof.Walks
import EBTree.Engine.Proof.Frames
import EBTree.Engine.Proof.Reopen

/-!
# The summary over runs

The summary of a shard's tree is narrowed by a put into an empty delta, by a delete of one of its
ends, by `RepairSummary` and by loading a root whose header ends in front of the last key.

* `SummaryKept s op`: none of these happens in the call, in a tree that finds keys beyond. It is read
  off the state before each of them.
* `InBounds s`: the keys the tree finds lie within its summary, and so do those under the root that
  the files are opened with.
* `SummaryRun.covers_found`: **in a run of such calls and repairs the summary covers every key the tree
  finds**, in any mode.
* `repair_hides_key`: a repair after a lazy opening hides a key from the scans.
-/

set_option autoImplicit false

namespace EBTree.Engine

open Lib Wal BTree ShardEngine

/-! ## What narrows the summary -/

namespace ShardEngine

/-- A repair of the tree on disk has the ends of the committed values that are loaded. -/
def RepairKeeps (s : ShardEngine) : Prop :=
  s.btree.onDiskMode = true → s.btree.RebuildKeeps s.committedLsns

/-- A read at the snapshot repairs the summary only where it is stale. -/
def MendKeeps (s : ShardEngine) (snapshotLsn : Nat) : Prop := s.Stale snapshotLsn → s.RepairKeeps

/-- A flushed entry. -/
def EntryKeeps (t : PagedBTree) (key : Key) (e : MemTableEntry) : Prop :=
  if e.deleted then t.DeleteKeeps key else t.PutKeeps key

/-- The entries of a flush, each on the tree the ones in front of it leave. -/
def EntriesKeep : ShardEngine → List (Key × MemTableEntry) → Prop
  | _, [] => True
  | s, (key, e) :: es =>
    EntryKeeps s.btree key e ∧ ∀ s', s.flushEntry key e = some (s', .ok ()) → s'.EntriesKeep es

def FlushKeeps (s : ShardEngine) (ord : IterOrder) : Prop :=
  EntriesKeep { s with wal := s.wal.fsync } (ord.order s.flushing)

/-- The pages written for the committed values end within the reach of four bytes. -/
def PagesFit (s : ShardEngine) : Prop :=
  ∀ t' st pf', ((s.btree.rebuildSummaryFromCommitted s.committedLsns).ensureSummaryLsnAtLeast
    s.stableLsn).persistRootFromMap s.committedLsns = some (t', st) → t'.pageFile = some pf' →
    pf'.nextOffset ≤ 2 ^ 32

/-- The root written for the committed values has a header that holds their ends. -/
def CommitKeeps (s : ShardEngine) : Prop :=
  s.lazyRootCorrupt = false → s.committedLsns.entries ≠ [] →
    Storable s.committedLsns ∧ (∀ e ∈ s.committedLsns.entries, e.1 ≤ reach s.committedLsns) ∧
      s.PagesFit

def CheckpointKeeps (s : ShardEngine) (ord : IterOrder) (hook : CheckpointPhase → Bool) : Prop :=
  s.beforeFlush.rotateMemTableForFlush.FlushKeeps ord ∧
    ∀ s1, s.beforeFlush.rotateMemTableForFlush.flushInternal ord = some (s1, .ok ()) →
      commits hook = true → s1.foldWalToVcs.1.CommitKeeps

/-- Nothing in the call narrows the summary of a tree that finds keys beyond. -/
def SummaryKept (s : ShardEngine) : Op → Prop
  | .flush ord => s.ensureWalReplayed.rotateMemTableForFlush.FlushKeeps ord
  | .tryFlushBackground ord =>
    ¬ 0 < s.snapshotPinCount → s.ensureWalReplayed.rotateMemTableForFlush.FlushKeeps ord
  | .checkpoint ord hook => s.CheckpointKeeps ord hook
  | .get _ => s.MendKeeps s.stableLsn
  | .getAtSnapshot _ ctx => s.MendKeeps ctx.snapshotLsn
  | .scan plan => s.MendKeeps plan.snapshotLsn
  | .scanAtSnapshot _ ctx => s.MendKeeps ctx.snapshotLsn
  | _ => True

end ShardEngine

/-- The states that calls and repairs reach from an empty database, in any mode. -/
inductive SummaryRun (okCall : ShardEngine → Op → Prop) (okRepair : ShardEngine → Prop) :
    ShardEngine → Prop
  | opened (opts : EngineOptions) : SummaryRun okCall okRepair (ShardEngine.open opts ShardFiles.none)
  | call {s s' : ShardEngine} {op : Op} : SummaryRun okCall okRepair s → okCall s op →
      s.step op = some s' → SummaryRun okCall okRepair s'
  | repair {s : ShardEngine} : SummaryRun okCall okRepair s → okRepair s →
      SummaryRun okCall okRepair s.repairSummary

/-! ## The invariant -/

/-- The root leads to a tree whose header holds the ends of its keys, if it is a root at all. -/
def RootReaches (pf : PageFile) (root : Nat) : Prop :=
  kPageFileHeaderSize ≤ root → ∃ m, Persisted pf m root ∧ Storable m ∧ ∀ e ∈ m.entries, e.1 ≤ reach m

/-- The pages of a shard, and the root its files are opened with. -/
structure RootedPages (pages : Option PageFile) (root : Nat) : Prop where
  file : ∃ pf, pages = some pf ∧ Headed pf ∧ pf.nextOffset ≤ 2 ^ 32 ∧ RootReaches pf root

structure InBounds (s : ShardEngine) : Prop where
  bounded : s.btree.Bounded
  rooted : RootedPages s.btree.pageFile s.superblock.activeRoot

variable {s s' : ShardEngine}

theorem InBounds.of_eq (h : InBounds s) (ht : s'.btree = s.btree)
    (hsb : s'.superblock = s.superblock) : InBounds s' :=
  ⟨ht ▸ h.bounded, by rw [ht, hsb]; exact h.rooted⟩

/-! ## Repairs and reads -/

/-- A repair that keeps the summary leaves another one that does. -/
theorem InBounds.repairSummary (h : InBounds s) (hk : s.RepairKeeps) :
    InBounds s.repairSummary ∧ s.repairSummary.RepairKeeps := by
  have hpages : s.repairSummary.btree.pageFile = s.btree.pageFile := by
    unfold ShardEngine.repairSummary
    simp only
    split
    · exact pageFile_rebuild _ _
    · exact pageFile_loadFromMap _ _
  have hrooted : RootedPages s.repairSummary.btree.pageFile s.repairSummary.superblock.activeRoot := by
    rw [hpages]
    exact h.rooted
  by_cases hmode : s.btree.onDiskMode = true
  · have htree : s.repairSummary.btree
        = (s.btree.rebuildSummaryFromCommitted s.committedLsns).ensureSummaryLsnAtLeast
          s.stableLsn := by
      unfold ShardEngine.repairSummary
      simp only [hmode, if_true]
    have hfinds : ∀ k, s.repairSummary.btree.Finds k ↔ s.btree.Finds k := by
      intro k
      rw [htree]
      unfold PagedBTree.Finds
      rw [← (summary_rebuild s.btree s.committedLsns).1 k]
      exact exists_congr fun lsn => by rw [get_congr] <;> rfl
    refine ⟨⟨?_, hrooted⟩, fun _ first last hf hl k hk' => ?_⟩
    · rw [htree, bounded_ensure]
      exact (bounded_rebuild_iff h.bounded _).2 (hk hmode)
    · exact hk hmode first last hf hl k ((hfinds k).1 hk')
  · have htree : s.repairSummary.btree
        = (s.btree.loadFromMap s.committedLsns).ensureSummaryLsnAtLeast s.stableLsn := by
      unfold ShardEngine.repairSummary
      simp only [hmode, Bool.false_eq_true, if_false]
    refine ⟨⟨?_, hrooted⟩, fun hdisk => ?_⟩
    · rw [htree, bounded_ensure]
      exact bounded_loadFromMap _ _
    · rw [htree] at hdisk
      cases hdisk

/-- What a read at a snapshot keeps: a repair that it comes to keeps the summary. -/
theorem InBounds.readKeeps {snapshot : ShardEngine → Nat} {n : Nat}
    (hn : ∀ u : ShardEngine, u.stableLsn = s.stableLsn → snapshot u = n) :
    ReadKeeps snapshot fun u => InBounds u ∧ u.stableLsn = s.stableLsn ∧ u.MendKeeps n where
  restore := by
    rintro u u' key ⟨hb, hlsn, hk⟩ hr
    obtain ⟨r, -, rfl⟩ := Option.map_eq_some_iff.1 hr
    exact ⟨hb.of_eq rfl rfl, hlsn, hk⟩
  replay := by
    rintro u ⟨hb, hlsn, hk⟩
    obtain ⟨pending, state, he⟩ := ensureWalReplayed_eq u
    rw [he]
    exact ⟨hb.of_eq rfl rfl, hlsn, hk⟩
  repair := by
    rintro u ⟨hb, hlsn, hk⟩ hstale
    rw [hn u hlsn] at hstale
    obtain ⟨hb', hk'⟩ := hb.repairSummary (hk hstale)
    exact ⟨hb', hlsn, fun _ => hk'⟩

/-! ## Flushes -/

theorem InBounds.flushEntry (h : InBounds s) {key : Key} {e : MemTableEntry}
    (hk : EntryKeeps s.btree key e) {st : Except Status Unit}
    (hf : s.flushEntry key e = some (s', st)) : InBounds s' := by
  obtain ⟨prevLsn, vcs, -, rfl⟩ := flushEntry_cases hf
  unfold EntryKeeps at hk
  show InBounds { s with
    datafile := _, committed := _, vcs := _, stableLsn := _
    btree := if e.deleted then s.btree.deleteKey key e.lsn else s.btree.put key e.lsn }
  cases hd : e.deleted with
  | true =>
    rw [hd, if_pos rfl] at hk
    exact ⟨(bounded_deleteKey_iff h.bounded key e.lsn).2 hk,
      by rw [if_pos rfl, (Overlaid.deleteKey_fields s.btree key e.lsn).1]; exact h.rooted⟩
  | false =>
    rw [hd, if_neg Bool.false_ne_true] at hk
    exact ⟨(bounded_put_iff h.bounded key e.lsn).2 hk, h.rooted⟩

theorem InBounds.flushEntries (h : InBounds s) {es : List (Key × MemTableEntry)}
    (hk : s.EntriesKeep es) {st : Except Status Unit}
    (hf : s.flushEntries es = some (s', st)) : InBounds s' := by
  induction es generalizing s with
  | nil =>
    cases hf
    exact h
  | cons x es ih =>
    obtain ⟨key, e⟩ := x
    obtain ⟨hentry, hrest⟩ := hk
    unfold ShardEngine.flushEntries at hf
    split at hf
    · cases hf
    · rename_i s1 err he
      cases hf
      exact h.flushEntry hentry he
    · rename_i s1 he
      exact ih (h.flushEntry hentry he) (hrest s1 he) hf

theorem InBounds.flushInternal (h : InBounds s) {ord : IterOrder} (hk : s.FlushKeeps ord)
    {st : Except Status Unit} (hf : s.flushInternal ord = some (s', st)) : InBounds s' := by
  obtain ⟨s1, hes, rfl⟩ := flushInternal_cases hf
  have h1 : InBounds s1 := (h.of_eq rfl rfl : InBounds { s with wal := s.wal.fsync }).flushEntries hk hes
  split
  · exact h1.of_eq rfl rfl
  · exact h1

theorem InBounds.flush (h : InBounds s) {ord : IterOrder}
    (hk : s.ensureWalReplayed.rotateMemTableForFlush.FlushKeeps ord) {st : Except Status Unit}
    (hf : s.flush ord = some (s', st)) : InBounds s' := by
  obtain ⟨pending, state, he⟩ := ensureWalReplayed_eq s
  have h1 : InBounds s.ensureWalReplayed.rotateMemTableForFlush := by
    refine h.of_eq ?_ ?_
    · rw [he]
      rfl
    · rw [he]
      rfl
  exact h1.flushInternal hk hf

/-! ## Checkpoints -/

theorem InBounds.beforeFlush (h : InBounds s) : InBounds s.beforeFlush := by
  obtain ⟨pending, state, he⟩ := ensureWalReplayed_eq s
  have h1 : InBounds s.ensureWalReplayed := by
    rw [he]
    exact h.of_eq rfl rfl
  unfold ShardEngine.beforeFlush
  split
  · unfold ShardEngine.groupCommitNow
    split
    · exact h1
    · exact h1.of_eq rfl rfl
  · exact h1

theorem InBounds.foldWalToVcs (h : InBounds s) : InBounds s.foldWalToVcs.1 := by
  obtain ⟨vcs, he, -⟩ := foldWalToVcs_eq s
  rw [he]
  exact h.of_eq rfl rfl

/-- A tree that loses its root finds the keys of its delta only. -/
theorem bounded_unrooted {t : PagedBTree} (h : t.Bounded) {root : Nat}
    (hroot : root < kPageFileHeaderSize) :
    ({ t with rootOffset := root } : PagedBTree).Bounded := by
  rintro key ⟨lsn, hget⟩
  refine h key ⟨lsn, ?_⟩
  simp only [PagedBTree.get] at hget ⊢
  split at hget
  · simp at hget
  · rename_i hdel
    rw [if_neg hdel]
    cases hf : t.index.find? key with
    | none =>
      simp only [hf, if_neg (fun hd : t.onDiskMode = true ∧ kPageFileHeaderSize ≤ root =>
        absurd hd.2 (not_le.2 hroot))] at hget
      simp at hget
    | some lsn' => simpa [hf] using hget

/-- **The superblock**: the tree is persisted and loaded again, and its root committed. -/
theorem InBounds.commitSuperBlockInternal (h : InBounds s) (hk : s.CommitKeeps)
    {st : Except Status Unit} (hc : s.commitSuperBlockInternal = some (s', st)) : InBounds s' := by
  obtain ⟨pf, hpf, hhead, hsize, hroot⟩ := h.rooted.file
  rcases commitSuperBlockInternal_cases hc with ⟨-, -, rfl⟩ | ⟨hlazy, btree, pst, hp, hcase⟩
  · refine ⟨h.bounded, ⟨pf, hpf, hhead, hsize, fun hlo => ?_⟩⟩
    exact absurd (show kPageFileHeaderSize ≤ 0 from hlo) (by decide)
  obtain ⟨t, ht⟩ : ∃ t, (s.btree.rebuildSummaryFromCommitted s.committedLsns).ensureSummaryLsnAtLeast
      s.stableLsn = t := ⟨_, rfl⟩
  have htpf : t.pageFile = some pf := by
    rw [← ht, ← hpf]
    exact pageFile_rebuild s.btree s.committedLsns
  by_cases hnil : s.committedLsns.entries = []
  · -- nothing is committed: the root is none that loads
    have htree : t = s.btree.ensureSummaryLsnAtLeast s.stableLsn := by
      obtain ⟨-, ⟨first, last, hf, -⟩ | ⟨-, he⟩⟩ := summary_rebuild s.btree s.committedLsns
      · rw [hnil] at hf
        cases hf
      · rw [← ht, he]
    have hempty : t.persistRootFromMap s.committedLsns
        = some ({ t with rootOffset := kLegacyMapRoot }, .ok kLegacyMapRoot) := by
      unfold PagedBTree.persistRootFromMap PagedBTree.persistRootImpl
      rw [htpf, SortedMap.isEmpty, hnil]
      rfl
    rw [ht, hempty] at hp
    cases hp
    have hload : ({ t with rootOffset := kLegacyMapRoot } : PagedBTree).loadRoot kLegacyMapRoot
        = ({ t with rootOffset := kLegacyMapRoot },
          .error (Status.invalidArgument "invalid root offset")) := by
      unfold PagedBTree.loadRoot
      simp only [htpf]
      exact if_pos (by decide)
    have hb : ({ t with rootOffset := kLegacyMapRoot } : PagedBTree).Bounded := by
      refine bounded_unrooted ?_ (by decide)
      rw [htree, bounded_ensure]
      exact h.bounded
    rcases hcase with ⟨e, hpe, -⟩ | ⟨root, hr, ⟨e, -, -, rfl⟩ | ⟨hok, -⟩⟩
    · cases hpe
    · cases hr
      rw [hload]
      exact ⟨hb, ⟨pf, htpf, hhead, hsize, hroot⟩⟩
    · cases hr
      rw [hload] at hok
      cases hok
  · obtain ⟨hm, hreach, hfit⟩ := hk hlazy hnil
    obtain ⟨pf', root, hpersist, hext, hpersisted⟩ := persistRootImpl_spec t htpf hnil hm
    have hpersist' : t.persistRootFromMap s.committedLsns = _ := hpersist
    have hsize' : pf'.nextOffset ≤ 2 ^ 32 := hfit _ _ pf' (ht ▸ hpersist') rfl
    have hhead' : Headed pf' := persistRootImpl_headed htpf hhead hpersist rfl
    obtain ⟨hok, hloaded⟩ := @loadRoot_spec { t with
      pageFile := some pf'
      rootOffset := root
      index := SortedMap.empty
      deltaDeleted := SortedMap.empty
      onDiskMode := true } pf' rfl s.committedLsns root (hpersisted hsize')
    rw [ht, hpersist'] at hp
    cases hp
    rcases hcase with ⟨e, hpe, -⟩ | ⟨root', hr, ⟨e, hbad, -⟩ | ⟨-, -, rfl⟩⟩
    · cases hpe
    · cases hr
      rw [hok] at hbad
      cases hbad
    · cases hr
      refine ⟨(bounded_ensure _).2 (hloaded.bounded hm hreach), ⟨pf', hloaded.file, hhead', hsize',
        fun _ => ⟨s.committedLsns, hpersisted hsize', hm, hreach⟩⟩⟩

theorem InBounds.checkpoint (h : InBounds s) {ord : IterOrder} {hook : CheckpointPhase → Bool}
    (hk : s.CheckpointKeeps ord hook) {st : Except Status Unit}
    (hc : s.checkpoint ord hook = some (s', st)) : InBounds s' := by
  obtain ⟨hflush, hcommit⟩ := hk
  have hrotated : InBounds s.beforeFlush.rotateMemTableForFlush := h.beforeFlush.of_eq rfl rfl
  obtain ⟨s1, st1, hf, hrest⟩ := checkpoint_parts hc
  have h1 := hrotated.flushInternal hflush hf
  rcases hrest with rfl | rfl | ⟨rfl, hh, stc, hcc⟩
  · exact h1
  · exact h1.foldWalToVcs
  obtain ⟨s2, st2, hs2, hend⟩ := checkpointCommit_cases hcc
  have h2 := h1.foldWalToVcs.commitSuperBlockInternal (hcommit s1 hf hh) hs2
  rcases hend with ⟨e, -, rfl⟩ | ⟨-, rfl | rfl⟩
  · exact h2
  · exact h2.of_eq rfl rfl
  · exact h2.of_eq rfl rfl

/-! ## Opening the files -/

theorem inBounds_recoverTiers {f : ShardFiles} (hf : RootedPages (some (PageFile.open f.pages))
    f.superblock.activeRoot) (opts : EngineOptions) :
    (recoverTiers (loading opts f)).btree.Bounded ∧
      (recoverTiers (loading opts f)).btree.pageFile = some (PageFile.open f.pages) := by
  obtain ⟨s, hs⟩ : ∃ s, loading opts f = s := ⟨_, rfl⟩
  have hpages : s.btree.pageFile = some (PageFile.open f.pages) := by
    rw [← hs]
    rfl
  have hsb : s.sb = f.superblock := by
    rw [← hs]
    rfl
  have hnew : s.btree.Bounded := by
    rw [← hs]
    exact bounded_of_empty rfl (fun h => by cases h.1)
  have hload : kPageFileHeaderSize ≤ s.sb.activeRoot →
      (s.btree.loadRoot s.sb.activeRoot).2 = .ok () ∧
        (s.btree.loadRoot s.sb.activeRoot).1.Bounded := by
    intro hlo
    obtain ⟨pf, hpf, -, -, hroot⟩ := hf.file
    rw [hsb] at hlo ⊢
    obtain ⟨m, hpersisted, hm, hreach⟩ := hroot hlo
    obtain ⟨hok, hloaded⟩ := loadRoot_spec (hpages.trans hpf) hpersisted
    exact ⟨hok, hloaded.bounded hm hreach⟩
  rw [hs]
  unfold recoverTiers
  split
  · unfold ShardEngine.recoverLazy ShardEngine.healed
    simp only
    split
    · rename_i hlo
      obtain ⟨hok, hb⟩ := hload hlo
      have hfile := pageFile_loadRoot s.btree s.sb.activeRoot
      split
      · rename_i hbad
        rw [hbad] at hok
        cases hok
      · rename_i hgood
        rw [hgood] at hb hfile
        exact ⟨(bounded_ensure _).2 hb, hfile.trans hpages⟩
    · split
      · exact ⟨bounded_loadFromMap _ _, (pageFile_loadFromMap _ _).trans hpages⟩
      · exact ⟨hnew, hpages⟩
  · unfold ShardEngine.recoverEager
    simp only
    split
    · rename_i hlo
      obtain ⟨hok, hb⟩ := hload hlo
      have hfile := pageFile_loadRoot s.btree s.sb.activeRoot
      split
      · rename_i hbad
        rw [hbad] at hok
        cases hok
      · rename_i hgood
        rw [hgood] at hb hfile
        exact ⟨(bounded_ensure _).2 hb, hfile.trans hpages⟩
    · exact ⟨bounded_loadFromMap _ _, (pageFile_loadFromMap _ _).trans hpages⟩

/-- **A shard is opened in bounds.** -/
theorem inBounds_open {f : ShardFiles} (hf : RootedPages (some (PageFile.open f.pages))
    f.superblock.activeRoot) (opts : EngineOptions) : InBounds (ShardEngine.open opts f) := by
  obtain ⟨hb, hpages⟩ := inBounds_recoverTiers hf opts
  obtain ⟨state, he⟩ := open_eq opts f
  have hsb : (recoverTiers (loading opts f)).superblock = f.superblock := by
    rw [recoverTiers_frame]
    rfl
  rw [he]
  exact ⟨hb, by simp only [hpages, hsb]; exact hf⟩

theorem rootedPages_none : RootedPages (some (PageFile.open ShardFiles.none.pages))
    ShardFiles.none.superblock.activeRoot :=
  ⟨PageFile.new, rfl, headed_new, by decide, fun hlo => absurd hlo (by decide)⟩

/-- The files of a shard in bounds are opened as they were. -/
theorem InBounds.files (h : InBounds s) :
    RootedPages (some (PageFile.open s.files.pages)) s.files.superblock.activeRoot := by
  obtain ⟨pf, hpf, hhead, hsize, hroot⟩ := h.rooted.file
  have hpages : s.files.pages = pf.file := by
    simp only [ShardEngine.files, hpf]
    rfl
  rw [hpages, hhead.open (Nat.lt_of_le_of_lt hsize (by decide))]
  exact ⟨pf, rfl, hhead, hsize, hroot⟩

/-! ## Calls -/

theorem InBounds.write (h : InBounds s) (r : WriteRequest) : InBounds (s.write r).1 := by
  obtain ⟨pending, state, he⟩ := ensureWalReplayed_eq s
  have hreplayed : s.ensureWalReplayed.btree = s.btree ∧
      s.ensureWalReplayed.superblock = s.superblock := by
    rw [he]
    exact ⟨rfl, rfl⟩
  rcases write_cases s r with ⟨-, hw⟩ | ⟨-, ⟨w, e, -, hw⟩ | ⟨w, lsn, -, hw⟩⟩
  · rw [hw]
    exact h
  · rw [hw]
    exact h.of_eq hreplayed.1 hreplayed.2
  · rw [hw, acknowledge_frame]
    exact h.of_eq hreplayed.1 hreplayed.2

theorem InBounds.reads (h : InBounds s) (hr : Reads s s') (ht : s'.btree = s.btree) :
    InBounds s' := h.of_eq ht (by rw [hr])

/-- **One call** that narrows the summary of no tree that finds keys beyond. -/
theorem InBounds.step (h : InBounds s) {op : Op} (hk : s.SummaryKept op)
    (hs : s.step op = some s') : InBounds s' := by
  have hreplay : InBounds s.ensureWalReplayed := by
    obtain ⟨pending, state, he⟩ := ensureWalReplayed_eq s
    rw [he]
    exact h.of_eq rfl rfl
  cases op with
  | write r =>
    cases hs
    exact h.write r
  | appendTxnBegin txnId snapshotLsn =>
    cases hs
    exact h.of_eq rfl rfl
  | appendTxnCommit txnId =>
    cases hs
    exact h.of_eq rfl rfl
  | appendTxnAbort txnId =>
    cases hs
    exact h.of_eq rfl rfl
  | promoteTxn txnId =>
    cases hs
    exact h.of_eq rfl rfl
  | clearTxn txnId =>
    cases hs
    exact h.of_eq rfl rfl
  | pinSnapshot lsn =>
    cases hs
    exact h.of_eq rfl rfl
  | releaseSnapshot =>
    cases hs
    exact h.of_eq rfl rfl
  | flush ord =>
    obtain ⟨⟨s1, st⟩, hf, rfl⟩ := Option.map_eq_some_iff.1 hs
    exact h.flush hk hf
  | tryFlushBackground ord =>
    obtain ⟨⟨s1, st⟩, hf, rfl⟩ := Option.map_eq_some_iff.1 hs
    unfold ShardEngine.tryFlushBackground at hf
    split at hf
    · cases hf
      exact h
    · rename_i hpin
      exact h.flush (hk hpin) hf
  | checkpoint ord hook =>
    obtain ⟨⟨s1, st⟩, hf, rfl⟩ := Option.map_eq_some_iff.1 hs
    exact h.checkpoint hk hf
  | groupCommit =>
    cases hs
    unfold ShardEngine.groupCommitNow
    split
    · exact h
    · exact h.of_eq rfl rfl
  | recoverFull =>
    cases hs
    obtain ⟨pending, state, he⟩ := ensureWalReplayed_eq { s with walReplayPending := false }
    refine h.of_eq ?_ ?_
    · show (ensureWalReplayed { s with walReplayPending := false }).btree = _
      rw [he]
    · show (ensureWalReplayed { s with walReplayPending := false }).superblock = _
      rw [he]
  | get key =>
    obtain ⟨⟨s1, st⟩, hf, rfl⟩ := Option.map_eq_some_iff.1 hs
    exact ((InBounds.readKeeps fun u hu => hu).get ⟨h, rfl, hk⟩ hf).1
  | getAtSnapshot key ctx =>
    obtain ⟨⟨s1, st⟩, hf, rfl⟩ := Option.map_eq_some_iff.1 hs
    exact ((InBounds.readKeeps fun _ _ => rfl).getAtSnapshot ⟨h, rfl, hk⟩ hf).1
  | scan plan =>
    obtain ⟨⟨s1, st⟩, hf, rfl⟩ := Option.map_eq_some_iff.1 hs
    exact ((InBounds.readKeeps fun _ _ => rfl).scan ⟨h, rfl, hk⟩ hf).1
  | scanAtSnapshot plan ctx =>
    obtain ⟨⟨s1, st⟩, hf, rfl⟩ := Option.map_eq_some_iff.1 hs
    exact ((InBounds.readKeeps fun _ _ => rfl).scanAtSnapshot ⟨h, rfl, hk⟩ hf).1
  | resolveLsnAtSnapshot key snapshotLsn =>
    obtain ⟨⟨s1, st⟩, hf, rfl⟩ := Option.map_eq_some_iff.1 hs
    obtain ⟨cache, rfl⟩ := resolveLsnAtSnapshot_state hf
    exact h.of_eq rfl rfl
  | resolveCurrentCommittedLsn key =>
    obtain ⟨⟨s1, st⟩, hf, rfl⟩ := Option.map_eq_some_iff.1 hs
    rw [resolveCurrentCommittedLsn_state hf]
    unfold ShardEngine.refreshExternalWalIfPending
    simp only
    split
    · exact h.of_eq rfl rfl
    · obtain ⟨pending, state, he⟩ := ensureWalReplayed_eq { s with
        wal := s.wal.syncExternalTailLocked
        walReplayPending := s.walReplayPending ||
          decide (s.sb.walLsn < s.wal.syncExternalTailLocked.maxLsn) }
      rw [he]
      exact h.of_eq rfl rfl
  | reopen opts =>
    cases hs
    exact inBounds_open h.files opts

/-- **The summary covers every key the tree finds**, and no scan is pruned away from one, in every
run in which no call and no repair narrows the summary of a tree that finds keys beyond. -/
theorem SummaryRun.covers_found (hr : SummaryRun SummaryKept RepairKeeps s) :
    s.btree.Bounded ∧ ∀ key plan, s.btree.Finds key → planMatches plan key = true →
      prunes s.btree.summary plan = false := by
  have h : InBounds s := by
    induction hr with
    | opened opts => exact inBounds_open rootedPages_none opts
    | call _ hk hs ih => exact ih.step hk hs
    | repair _ hk ih => exact (ih.repairSummary hk).1
  exact ⟨h.bounded, fun key plan hf hp => h.bounded.not_pruned hf hp⟩

/-- One key is written and flushed. -/
theorem bounded_one_key : ∃ s : ShardEngine, s.btree.Finds [1] ∧ s.btree.Bounded ∧
    ∀ key plan, s.btree.Finds key → planMatches plan key = true →
      prunes s.btree.summary plan = false := by
  obtain ⟨s0, hs0⟩ : ∃ s0, ((ShardEngine.open .sync ShardFiles.none).write
    ⟨[1], [9], false, 0⟩).1 = s0 := ⟨_, rfl⟩
  have hwritten : SummaryRun SummaryKept RepairKeeps s0 := hs0 ▸ @SummaryRun.call SummaryKept
    RepairKeeps _ _ (.write ⟨[1], [9], false, 0⟩) (.opened .sync) trivial rfl
  -- one entry is flushed, into a tree that finds nothing
  have hentry : IterOrder.byKey.order s0.ensureWalReplayed.rotateMemTableForFlush.flushing
      = [([1], ⟨[9], 1, false, 0, true⟩)] := by
    rw [← hs0]
    decide +kernel
  have hnone : ∀ k, ¬ s0.ensureWalReplayed.rotateMemTableForFlush.btree.Finds k := by
    have htree : s0.ensureWalReplayed.rotateMemTableForFlush.btree.index.isEmpty = true ∧
        s0.ensureWalReplayed.rotateMemTableForFlush.btree.onDiskMode = false := by
      rw [← hs0]
      decide +kernel
    rintro k ⟨lsn, hget⟩
    generalize s0.ensureWalReplayed.rotateMemTableForFlush.btree = t at htree hget
    have hidx : t.index.find? k = none := by
      rw [SortedMap.find?_eq_none_iff, SortedMap.isEmpty_iff.1 htree.1]
      exact fun e he => by cases he
    rw [PagedBTree.get, hidx, htree.2] at hget
    split at hget <;> simp at hget
  have hkept : s0.SummaryKept (.flush IterOrder.byKey) := by
    show EntriesKeep _ _
    rw [hentry]
    refine ⟨?_, fun _ _ => trivial⟩
    show PagedBTree.PutKeeps _ _
    exact fun k hk => absurd hk (hnone k)
  obtain ⟨s, hs, hget⟩ := (Option.any_eq_true _ _).1 (show ((s0.step (.flush IterOrder.byKey)).any
      fun s => (s.btree.get [1]).any (·.toOption.isSome)) = true by
    rw [← hs0]
    decide +kernel)
  obtain ⟨r, hr, hok⟩ := (Option.any_eq_true _ _).1 hget
  refine ⟨s, ?_, (hwritten.call hkept hs).covers_found⟩
  cases r with
  | error e => cases hok
  | ok lsn => exact ⟨lsn, hr⟩

theorem SummaryRun.calls {s0 : ShardEngine} (h0 : SummaryRun (fun _ _ => True) (fun _ => True) s0)
    {ops : List Op} (h : ops.foldlM (fun s op => s.step op) s0 = some s) :
    SummaryRun (fun _ _ => True) (fun _ => True) s := by
  induction ops generalizing s0 with
  | nil =>
    cases h
    exact h0
  | cons op ops ih =>
    rw [List.foldlM_cons] at h
    obtain ⟨s1, h1, h2⟩ := Option.bind_eq_some_iff.1 h
    exact ih (h0.call trivial h1) h2

/-- A shard is opened lazily over the keys 1 and 2, the key 2 is deleted and 3 written: no summary
was narrowed. A scan at a later snapshot then repairs the summary from the key 3 alone, while the
tree still finds the key 1. -/
theorem repair_hides_key : ¬ ∀ s, SummaryRun (fun _ _ => True) (fun _ => True) s →
    s.btree.Bounded := by
  intro hall
  obtain ⟨s, hs, hbad⟩ := (Option.any_eq_true _ _).1 (show (([
      .write ⟨[1], [9], false, 0⟩, .write ⟨[2], [9], false, 0⟩,
      .checkpoint IterOrder.byKey fun _ => false,
      .reopen { EngineOptions.sync with lazyCommittedLoad := true },
      .write ⟨[2], [], true, 0⟩, .write ⟨[3], [9], false, 0⟩, .flush IterOrder.byKey,
      .scan ⟨.kRange, [1], [9], 100⟩].foldlM (fun s op => ShardEngine.step s op)
        (ShardEngine.open .sync ShardFiles.none)).any fun s =>
      (s.btree.get [1]).any (·.toOption.isSome) && decide ([1] < s.btree.summary.minKey)) = true
    by decide +kernel)
  obtain ⟨hget, hlow⟩ := Bool.and_eq_true_iff.1 hbad
  obtain ⟨r, hr, hok⟩ := (Option.any_eq_true _ _).1 hget
  cases r with
  | error e => cases hok
  | ok lsn =>
    have hb := hall s ((SummaryRun.opened .sync).calls hs) [1] ⟨lsn, hr⟩
    exact absurd hb.1 (not_le.2 (of_decide_eq_true hlow))

end EBTree.Engine
