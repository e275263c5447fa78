import EBTree.Engine.Proof.Current
import EBTree.Engine.TLog

/-!
# A read at a timestamp

The data file only grows, so what it held at a checkpoint is a start of what it holds now; the
entries of the snapshot log are in the order of the clock.

* `parseRecords_upTo`, `findSnapshotAt_latest`: loading up to a size, and the entry that is found.
* `run_reads_as_of`: in every run without a reopening, a read at a timestamp finds the values that
  were committed at the latest checkpoint by then, **except** where this one was made with an empty
  data file: its size zero stands for no limit, and the read finds what is committed now.
* `read_before_first_flush`: such a read.
-/

set_option autoImplicit false

namespace EBTree.Engine

open Lib Wal BTree ShardEngine

/-! ## Loading up to a size -/

theorem dataBytes_append (ds ds' : List DataRecord) :
    dataBytes (ds ++ ds') = dataBytes ds ++ dataBytes ds' := by
  simp [dataBytes]

/-- **Loading** stops behind the records that lie below the size; size zero is no limit. -/
theorem parseRecords_upTo {byteCap : Nat} (mid : List DataRecord) {back : List DataRecord}
    (hin : ∀ r ∈ mid, r.InRange) {done : List DataRecord} {fuel : Nat}
    (hfuel : (dataBytes mid).length ≤ fuel)
    (hcap : (0 < byteCap ∧ byteCap = (dataBytes (done ++ mid)).length) ∨ (byteCap = 0 ∧ back = []))
    (out : SortedMap Key (Value × Nat)) :
    DataFile.parseRecords (dataBytes (done ++ mid ++ back)) byteCap fuel (dataBytes done).length out
      = .ok (mid.foldl DataFile.loadStep out) := by
  induction mid generalizing done fuel out with
  | nil =>
    cases fuel with
    | zero => rfl
    | succ fuel =>
      rw [DataFile.parseRecords, if_pos]
      · rfl
      rcases hcap with ⟨hpos, hcap⟩ | ⟨-, rfl⟩
      · exact .inr ⟨hpos, by rw [hcap, List.append_nil]⟩
      · exact .inl (by simp)
  | cons r mid ih =>
    have hlen : (dataBytes (r :: mid)).length = r.size + (dataBytes mid).length := by
      simp [dataBytes]
    have hsize := r.size_pos
    cases fuel with
    | zero => omega
    | succ fuel =>
      have hr := hin r List.mem_cons_self
      have hfile : dataBytes (done ++ (r :: mid) ++ back) =
          dataBytes done ++ (r.encode ++ dataBytes (mid ++ back)) := by
        simp [dataBytes]
      have hnext : ∀ n, n + kDataHeaderSize + r.header.keyLen + r.header.valueLen = n + r.size := by
        intro n
        simp [DataRecord.size, DataRecord.header, Nat.add_assoc]
      have hhdr : kDataHeaderSize ≤ r.size := by
        rw [DataRecord.size, Nat.add_assoc]
        exact Nat.le_add_right _ _
      -- the limit, if there is one, lies behind the record
      have hbelow : ∀ n, n ≤ r.size → ¬ (0 < byteCap ∧ byteCap < (dataBytes done).length + n) := by
        rintro n hn ⟨hpos, hlt⟩
        rcases hcap with ⟨-, hcap⟩ | ⟨h0, -⟩
        · rw [dataBytes_append, List.length_append, hlen] at hcap
          omega
        · omega
      have hgo : ¬ ((dataBytes (done ++ (r :: mid) ++ back)).length ≤ (dataBytes done).length ∨
          (0 < byteCap ∧ byteCap ≤ (dataBytes done).length)) := by
        rintro (hle | ⟨hpos, hle⟩)
        · rw [hfile] at hle
          simp only [List.length_append, DataRecord.length_encode] at hle
          omega
        · exact hbelow 1 hsize ⟨hpos, Nat.lt_succ_of_le hle⟩
      have hrest : DataFile.parseRecords (dataBytes (done ++ (r :: mid) ++ back)) byteCap fuel
          ((dataBytes done).length + r.size) (DataFile.loadStep out r) =
          .ok (mid.foldl DataFile.loadStep (DataFile.loadStep out r)) := by
        have hdone : (dataBytes (done ++ [r])).length = (dataBytes done).length + r.size := by
          simp [dataBytes]
        have := @ih (fun x hx => hin x (List.mem_cons_of_mem _ hx)) (done ++ [r]) fuel
          (by omega) (by simpa using hcap) (DataFile.loadStep out r)
        rw [hdone] at this
        simpa using this
      obtain ⟨hread, -, -⟩ := DataFile.readAt?_encode (dataBytes done) (dataBytes (mid ++ back)) r
      have hraw := DataFile.readRawAt_encode (dataBytes done) (dataBytes (mid ++ back)) hr
      rw [← hfile] at hread hraw
      rw [DataFile.parseRecords, if_neg hgo, hread]
      simp only [hr.decode_header, hnext, if_neg (hbelow _ hhdr), if_neg (hbelow _ (Nat.le_refl _)),
        DataRecordHeader.verifyCrc_encode, Bool.not_true, Bool.false_eq_true, if_false, hraw]
      exact hrest

/-- The data file loaded up to the end of some of its records. -/
theorem loadDatafile_upTo {d : DataFile} {front back : List DataRecord}
    (hst : Stores d (front ++ back)) : d.loadDatafile (dataBytes front).length =
      .ok (if (dataBytes front).length = 0 then d.load
        else front.foldl DataFile.loadStep SortedMap.empty) := by
  have hlen : (dataBytes front).length ≤ (dataBytes (front ++ back)).length := by
    rw [dataBytes_append, List.length_append]
    exact Nat.le_add_right _ _
  rw [DataFile.loadDatafile, hst.file_eq]
  split
  · rename_i h0
    have hall := @parseRecords_upTo 0 (front ++ back) [] hst.inRange [] _ (Nat.le_refl _)
      (.inr ⟨rfl, rfl⟩) SortedMap.empty
    rw [List.nil_append, List.append_nil] at hall
    rw [h0, DataFile.load, hst.loadRecords_eq]
    exact hall
  · rename_i h0
    exact @parseRecords_upTo _ front back
      (fun r hr => hst.inRange r (List.mem_append_left _ hr)) [] _ hlen
      (.inl ⟨Nat.pos_of_ne_zero h0, rfl⟩) SortedMap.empty

/-! ## Finding the snapshot -/

/-- **The entry that is found** in a log in the order of the clock is the last one by then. -/
theorem foldl_better {l : List TLogIndexEntry}
    (hs : l.Pairwise fun a b => a.timestampSec ≤ b.timestampSec) (ts : UInt32) :
    l.foldl (TLog.better ts) none = (l.filter fun e => e.timestampSec ≤ ts).getLast? := by
  induction l using List.reverseRecOn with
  | nil => rfl
  | append_singleton l e ih =>
    rw [List.pairwise_append] at hs
    rw [List.foldl_append, ih hs.1, List.foldl_cons, List.foldl_nil, List.filter_append]
    unfold TLog.better
    by_cases he : e.timestampSec ≤ ts
    · rw [if_pos he, List.filter_cons_of_pos (by simpa using he), List.filter_nil,
        List.getLast?_concat]
      cases hb : (l.filter fun e => e.timestampSec ≤ ts).getLast? with
      | none => rfl
      | some b =>
        have hmem := List.mem_filter.1 (List.mem_of_getLast? hb)
        exact if_pos (hs.2.2 b hmem.1 e (List.mem_singleton_self e))
    · rw [if_neg he, List.filter_cons_of_neg (by simpa using he), List.filter_nil, List.append_nil]

/-! ## The invariant -/

/-- The log of the snapshots is in the order of the clock, and each of them notes how long the data
file was when these values were committed. -/
structure Noted (t : TimedEngine) (now : UInt32) (cs : List Checkpointed) : Prop where
  index : t.tlog.index.map (fun e => (e.timestampSec, e.datafileSize)) =
    cs.map fun c => (c.timestamp, c.datafileSize)
  ordered : cs.Pairwise fun a b => a.timestamp ≤ b.timestamp
  past : ∀ c ∈ cs, c.timestamp ≤ now
  start : ∀ c ∈ cs, ∃ front back, Stores t.shard.datafile (front ++ back) ∧
    c.datafileSize = (dataBytes front).length ∧
    c.committed = front.foldl DataFile.loadStep SortedMap.empty
  current : ∀ c ∈ cs, c.history.Autocommit → ∀ key,
    c.committed.find? key = live (c.history.newest key)

variable {t t' : TimedEngine} {now now' : UInt32} {h : History} {cs : List Checkpointed} {op : Op}

/-- A checkpoint is the one of the shard, and notes the size of the data file or nothing. -/
theorem checkpoint_shard {ord : IterOrder} {hook : CheckpointPhase → Bool} {st : Except Status Unit}
    (hc : t.checkpoint ord hook now = some (t', st)) :
    t.shard.checkpoint ord hook = some (t'.shard, st) ∧
      (t'.tlog.index = t.tlog.index ∨ ∃ e, t'.tlog.index = t.tlog.index ++ [e] ∧
        e.timestampSec = now ∧ e.datafileSize = t'.shard.datafile.file.length) := by
  unfold TimedEngine.checkpoint at hc
  unfold ShardEngine.checkpoint
  simp only at hc ⊢
  generalize ShardEngine.flushInternal _ ord = flushed at hc ⊢
  rcases flushed with _ | ⟨s1, e | u⟩
  · cases hc
  · cases hc
    exact ⟨rfl, .inl rfl⟩
  simp only at hc ⊢
  split at hc
  · rename_i hhook
    cases hc
    rw [if_pos hhook]
    exact ⟨rfl, .inl rfl⟩
  rename_i hhook
  rw [if_neg hhook]
  generalize s1.foldWalToVcs = folded at hc ⊢
  rcases folded with ⟨s2, e | u⟩
  · cases hc
    exact ⟨rfl, .inl rfl⟩
  simp only at hc ⊢
  split at hc
  · rename_i hhook
    cases hc
    rw [if_pos (.inl hhook)]
    exact ⟨rfl, .inl rfl⟩
  rename_i hfoldhook
  split at hc
  · rename_i hhook
    cases hc
    rw [if_pos (.inr hhook)]
    exact ⟨rfl, .inr ⟨_, rfl, rfl, rfl⟩⟩
  · rename_i hhook
    rw [if_neg (by simpa [hfoldhook] using hhook)]
    obtain ⟨⟨s3, st3⟩, hcommit, hx⟩ := Option.map_eq_some_iff.1 hc
    cases hx
    have hdata : s3.datafile = s2.datafile := (checkpointCommit_tables hcommit).1.datafile
    exact ⟨hcommit, .inr ⟨_, rfl, rfl, by rw [hdata]⟩⟩

/-- A step is one of the shard, and only a checkpoint notes anything. -/
theorem TimedEngine.step_shard (hs : t.step now op = some t') :
    t.shard.step op = some t'.shard ∧
      (t'.tlog.index = t.tlog.index ∨ ((∃ ord hook, op = .checkpoint ord hook) ∧
        ∃ e, t'.tlog.index = t.tlog.index ++ [e] ∧ e.timestampSec = now ∧
          e.datafileSize = t'.shard.datafile.file.length)) := by
  cases op with
  | checkpoint ord hook =>
    obtain ⟨⟨t1, st⟩, hc, rfl⟩ := Option.map_eq_some_iff.1 hs
    obtain ⟨hshard, hidx⟩ := checkpoint_shard hc
    refine ⟨?_, hidx.imp id fun he => ⟨⟨ord, hook, rfl⟩, he⟩⟩
    show (t.shard.checkpoint ord hook).map (·.1) = _
    rw [hshard]
    rfl
  | _ =>
    simp only [TimedEngine.step] at hs
    obtain ⟨s1, hf, rfl⟩ := Option.map_eq_some_iff.1 hs
    exact ⟨hf, .inl rfl⟩

/-- The data file only grows. -/
theorem Steady.grows {s s' : ShardEngine} {rs : List WalRecord} {ds : List DataRecord}
    (hs : Steady s) (hi : Inv true h s rs ds) (hop : op.stays = true) (hstep : s.step op = some s') :
    ∃ more, Stores s'.datafile (ds ++ more) := by
  have hsame : s'.datafile = s.datafile → ∃ more, Stores s'.datafile (ds ++ more) := fun he =>
    ⟨[], by rw [he, List.append_nil]; exact hi.tiers.stores⟩
  cases hs.effect hop hstep with
  | idle hid _ => exact hsame hid.datafile
  | write _ _ hid => exact hsame hid.datafile
  | promote txnId => exact hsame rfl
  | clear txnId => exact hsame rfl
  | @flush _ ord s0 s1 _ st _ h0 hf htables =>
    obtain ⟨done, rest, he, -, -, hdata, -⟩ := flushInternal_writes hf
    change ord.order s0.memtable = done ++ rest at he
    change s1.datafile = List.foldl DataFile.append s0.datafile _ at hdata
    rw [h0.memtable] at he
    refine ⟨memRecords done, ?_⟩
    rw [htables.datafile, hdata, h0.datafile]
    exact (foldl_append_load hi.tiers.stores (hi.flushed_inRange he)).1

theorem Noted.step (hn : Noted t now cs) {rs : List WalRecord} {ds : List DataRecord}
    (hi : Inv true h t.shard rs ds) (hs : Steady t.shard) (hle : now ≤ now')
    (hop : op.stays = true) (hstep : t.step now' op = some t')
    (hcommitted : t'.shard.committed = t'.shard.datafile.load)
    (hcur : (h.after t.shard op).Autocommit → Current (h.after t.shard op) t'.shard ∧
      ((∃ ord hook, op = .checkpoint ord hook) → t'.shard.memtable = SortedMap.empty)) :
    Noted t' now' (cs ++ noted t t' (h.after t.shard op)) := by
  obtain ⟨hshard, hidx⟩ := TimedEngine.step_shard hstep
  obtain ⟨more, hst'⟩ := hs.grows hi hop hshard
  have hstart : ∀ c ∈ cs, ∃ front back, Stores t'.shard.datafile (front ++ back) ∧
      c.datafileSize = (dataBytes front).length ∧
      c.committed = front.foldl DataFile.loadStep SortedMap.empty := by
    intro c hc
    obtain ⟨front, back, hst, hsize, hcom⟩ := hn.start c hc
    have hds : ds = front ++ back := hi.tiers.stores.unique hst
    exact ⟨front, back ++ more, by rw [← List.append_assoc, ← hds]; exact hst', hsize, hcom⟩
  rcases hidx with he | ⟨hcp, e, he, hts, hsize⟩
  · have hnone : noted t t' (h.after t.shard op) = [] := by simp [noted, he]
    rw [hnone, List.append_nil]
    exact ⟨he ▸ hn.index, hn.ordered, fun c hc => UInt32.le_trans (hn.past c hc) hle, hstart,
      hn.current⟩
  · have hnew : noted t t' (h.after t.shard op) = [⟨e.timestampSec,
        t'.shard.datafile.file.length, t'.shard.committed, h.after t.shard op⟩] := by
      simp [noted, he]
    rw [hnew]
    refine ⟨?_, ?_, ?_, ?_, ?_⟩
    · rw [he, List.map_append, List.map_append, hn.index]
      simp [hsize]
    · refine List.pairwise_append.2 ⟨hn.ordered, List.pairwise_singleton _ _, fun a ha b hb => ?_⟩
      rw [List.mem_singleton.1 hb, hts]
      exact UInt32.le_trans (hn.past a ha) hle
    · intro c hc
      rcases List.mem_append.1 hc with hc | hc
      · exact UInt32.le_trans (hn.past c hc) hle
      · rw [List.mem_singleton.1 hc, hts]
        exact UInt32.le_refl _
    · intro c hc
      rcases List.mem_append.1 hc with hc | hc
      · exact hstart c hc
      · rw [List.mem_singleton.1 hc]
        refine ⟨ds ++ more, [], by rwa [List.append_nil], by rw [hst'.file_eq], ?_⟩
        rw [hcommitted, DataFile.load, hst'.loadRecords_eq]
    · intro c hc ha key
      rcases List.mem_append.1 hc with hc | hc
      · exact hn.current c hc ha key
      · rw [List.mem_singleton.1 hc] at ha ⊢
        obtain ⟨hcurrent, hmem⟩ := hcur ha
        exact hcurrent.committed key (by rw [hmem hcp, SortedMap.find?_empty])

/-! ## Reading at a timestamp -/

/-- The entry that is found is the one of the latest checkpoint. -/
theorem Noted.foldl_better (hn : Noted t now cs) (ts : UInt32) :
    (t.tlog.index.foldl (TLog.better ts) none).map (fun e => (e.timestampSec, e.datafileSize)) =
      (latest cs ts).map fun c => (c.timestamp, c.datafileSize) := by
  have hsorted : t.tlog.index.Pairwise fun a b => a.timestampSec ≤ b.timestampSec := by
    have hpairs : (cs.map fun c => (c.timestamp, c.datafileSize)).Pairwise fun a b => a.1 ≤ b.1 :=
      List.pairwise_map.2 hn.ordered
    rw [← hn.index, List.pairwise_map] at hpairs
    exact hpairs
  have hfilter : ((t.tlog.index.filter fun e => e.timestampSec ≤ ts).map
      fun e => (e.timestampSec, e.datafileSize)) =
      (cs.filter fun c => c.timestamp ≤ ts).map fun c => (c.timestamp, c.datafileSize) := by
    have hindex := congrArg (List.filter fun p : UInt32 × Nat => decide (p.1 ≤ ts)) hn.index
    rw [List.filter_map, List.filter_map] at hindex
    exact hindex
  rw [Engine.foldl_better hsorted, latest, ← List.getLast?_map, ← List.getLast?_map, hfilter]

theorem Noted.findSnapshotAt_none (hn : Noted t now cs) {ts : UInt32} (hl : latest cs ts = none) :
    ∃ m, t.tlog.findSnapshotAt ts = .error (Status.notFound m) := by
  have hb := hn.foldl_better ts
  rw [hl, Option.map_none, Option.map_eq_none_iff] at hb
  unfold TLog.findSnapshotAt
  split
  · exact ⟨_, rfl⟩
  · rw [hb]
    exact ⟨_, rfl⟩

theorem Noted.findSnapshotAt_some (hn : Noted t now cs) {ts : UInt32} {c : Checkpointed}
    (hl : latest cs ts = some c) :
    ∃ snap, t.tlog.findSnapshotAt ts = .ok snap ∧ snap.datafileSize = c.datafileSize := by
  have hb := hn.foldl_better ts
  rw [hl, Option.map_some] at hb
  obtain ⟨snap, hsnap, hpair⟩ := Option.map_eq_some_iff.1 hb
  refine ⟨snap, ?_, congrArg Prod.snd hpair⟩
  unfold TLog.findSnapshotAt
  rw [if_neg, hsnap]
  intro hnil
  rw [hnil] at hsnap
  cases hsnap

theorem latest_mem {ts : UInt32} {c : Checkpointed} (hl : latest cs ts = some c) : c ∈ cs :=
  (List.mem_filter.1 (List.mem_of_getLast? hl)).1

/-- What is loaded at a timestamp with a checkpoint. -/
theorem Noted.loadAsOfCommitted (hn : Noted t now cs) {ts : UInt32} {c : Checkpointed}
    (hl : latest cs ts = some c) : t.loadAsOfCommitted ts =
      .ok (if c.datafileSize = 0 then t.shard.datafile.load else c.committed) := by
  obtain ⟨snap, hsnap, hsize⟩ := hn.findSnapshotAt_some hl
  obtain ⟨front, back, hst, hlen, hcommitted⟩ := hn.start c (latest_mem hl)
  have hload := loadDatafile_upTo hst
  rw [← hlen] at hload
  rw [TimedEngine.loadAsOfCommitted, hsnap]
  simp only [hsize]
  rw [hload, hcommitted]

/-- A checkpoint with an empty data file had nothing committed. -/
theorem Noted.committed_empty (hn : Noted t now cs) {c : Checkpointed} (hc : c ∈ cs)
    (h0 : c.datafileSize = 0) : c.committed = SortedMap.empty := by
  obtain ⟨front, back, -, hlen, hcommitted⟩ := hn.start c hc
  cases front with
  | nil => exact hcommitted
  | cons r front =>
    have hpos := r.size_pos
    have hsum : (dataBytes (r :: front)).length = r.size + (dataBytes front).length := by
      simp [dataBytes]
    omega

/-- A read finds what it loads. -/
theorem readsAsOf_of_load {ts : UInt32} {c : Checkpointed}
    (hl : t.loadAsOfCommitted ts = .ok c.committed) : ReadsAsOf t ts (some c) := by
  refine ⟨fun key hk => ?_, fun plan => ?_⟩
  · rw [TimedEngine.getAsOf, if_neg hk, hl]
  · rw [TimedEngine.scanAsOf, hl]

/-- The plan that asks for one key. -/
def eqPlan (key : Key) : TypedPlan := ⟨.kEq, key, [], 0⟩

/-- What a read finds, it loads. -/
theorem load_of_readsAsOf {ts : UInt32} {c : Checkpointed} {m : SortedMap Key (Value × Nat)}
    (hl : t.loadAsOfCommitted ts = .ok m) (hr : ReadsAsOf t ts (some c))
    (hc : c.committed = SortedMap.empty) : m = SortedMap.empty := by
  refine SortedMap.ext_find? fun key => ?_
  rw [SortedMap.find?_empty]
  cases hx : m.find? key with
  | none => rfl
  | some x =>
    have hscan := hr.2 (eqPlan key)
    rw [TimedEngine.scanAsOf, hl, hc] at hscan
    simp only [Except.ok.injEq] at hscan
    have hmem : (key, x.1) ∈ (m.entries.filter fun e => planMatches (eqPlan key) e.1).map
        fun e => (e.1, e.2.1) :=
      List.mem_map.2 ⟨(key, x), List.mem_filter.2 ⟨SortedMap.mem_entries_iff.2 hx, by
        simp [planMatches, eqPlan]⟩, rfl⟩
    rw [hscan] at hmem
    exact absurd hmem List.not_mem_nil

/-- **Reading at a timestamp**, in a state whose log of snapshots is in order. -/
theorem Noted.readsAsOf_iff (hn : Noted t now cs)
    (hm : t.shard.committed = t.shard.datafile.load) (ts : UInt32) :
    ReadsAsOf t ts (latest cs ts) ↔
      ∀ c, latest cs ts = some c → c.datafileSize = 0 → t.shard.committed = SortedMap.empty := by
  cases hl : latest cs ts with
  | none =>
    refine ⟨fun _ c hc => (by cases hc), fun _ => ?_⟩
    obtain ⟨m, hf⟩ := hn.findSnapshotAt_none hl
    have hload : t.loadAsOfCommitted ts = .error (Status.notFound m) := by
      rw [TimedEngine.loadAsOfCommitted, hf]
    refine ⟨fun key hk => ⟨m, ?_⟩, fun plan => ⟨m, ?_⟩⟩
    · rw [TimedEngine.getAsOf, if_neg hk, hload]
    · rw [TimedEngine.scanAsOf, hload]
  | some c =>
    have hload := hn.loadAsOfCommitted hl
    constructor
    · intro hr c' hc' h0
      cases hc'
      rw [if_pos h0, ← hm] at hload
      exact load_of_readsAsOf hload hr (hn.committed_empty (latest_mem hl) h0)
    · intro hcond
      refine readsAsOf_of_load ?_
      rw [hload]
      split
      · rename_i h0
        rw [← hm, hcond c rfl h0, hn.committed_empty (latest_mem hl) h0]
      · rfl

/-! ## Runs -/

theorem TimedRun.shard {ok : ShardEngine → History → Op → Prop} (hr : TimedRun ok t now h cs) :
    Run ok t.shard h := by
  induction hr with
  | opened opts now => exact Run.opened opts
  | step _ _ hc ho hs ih => exact ih.step hc ho (TimedEngine.step_shard hs).1

/-- A checkpoint that notes something has flushed the memtable. -/
theorem Current.checkpointed {s s' : ShardEngine} (hc : Current h s) (hs : Steady s)
    {ord : IterOrder} {hook : CheckpointPhase → Bool} (hstep : s.step (.checkpoint ord hook) = some s') :
    s'.memtable = SortedMap.empty := by
  obtain ⟨⟨s1, st⟩, hcp, rfl⟩ := Option.map_eq_some_iff.1 hstep
  obtain ⟨s2, st2, hflush, htail⟩ := checkpoint_tail hcp
  exact ((hc.idle (Calm.beforeFlush hs).toIdle).flush hflush htail.toSameTables).2.2

/-- **Every run** keeps the log of the snapshots. -/
theorem TimedRun.noted {ok : ShardEngine → History → Op → Prop}
    (hok : ∀ s h op, ok s h op → op.stays = true) (hr : TimedRun ok t now h cs) :
    Noted t now cs := by
  induction hr with
  | opened opts now =>
    exact ⟨rfl, List.Pairwise.nil, by simp, by simp, by simp⟩
  | @step t t' now now' h cs op hr hle hcl ho hs ih =>
    obtain ⟨⟨rs, ds, hi⟩, hst⟩ := hr.shard.steady hok
    have hshard := (TimedEngine.step_shard hs).1
    have hrun := hr.shard.step hcl ho hshard
    refine ih.step hi hst hle (hok _ _ _ ho) hs (hrun.mirrors hok) fun ha => ?_
    refine ⟨hrun.current hok ha, ?_⟩
    rintro ⟨ord, hook, rfl⟩
    exact (hr.shard.current hok (Autocommit.before ha)).checkpointed hst hshard

/-- **A read at a timestamp** finds the values committed at the latest checkpoint by then, if and
only if that checkpoint found something in the data file, or nothing is committed now. What was
committed at a checkpoint is, without transactions, the newest write of every key. -/
theorem run_reads_as_of (hr : TimedRun (fun _ _ op => op.stays = true) t now h cs) :
    (∀ c ∈ cs, c.history.Autocommit → ∀ key,
      c.committed.find? key = live (c.history.newest key)) ∧
    ∀ ts, ReadsAsOf t ts (latest cs ts) ↔
      ∀ c, latest cs ts = some c → c.datafileSize = 0 → t.shard.committed = SortedMap.empty := by
  have hok : ∀ (s : ShardEngine) (h : History) (op : Op), op.stays = true → op.stays = true :=
    fun _ _ _ ho => ho
  have hn := hr.noted hok
  exact ⟨hn.current, hn.readsAsOf_iff (hr.shard.mirrors hok)⟩

/-- A put of `[1]`, a checkpoint at `5`, another put of it, and a checkpoint at `9`. -/
def twoCheckpoints : List (UInt32 × Op) :=
  [(3, .write ⟨[1], [2], false, 0⟩), (5, .checkpoint IterOrder.byKey fun _ => false),
    (7, .write ⟨[1], [3], false, 0⟩), (9, .checkpoint IterOrder.byKey fun _ => false)]

theorem run_reads_as_of_between : ∃ t now h cs,
    TimedRun (fun _ _ op => op.stays = true) t now h cs ∧ t.getAsOf [1] 8 = .ok [2] ∧
      ReadsAsOf t 8 (latest cs 8) := by
  have hrun := (Option.any_eq_true _ _).1 (show ((runTimed (TimedEngine.open .sync) 0
      History.empty [] twoCheckpoints).any fun x => x.1.getAsOf [1] 8 = .ok [2] ∧
    (latest x.2.2.2 8).all fun c => c.datafileSize ≠ 0) = true by decide +kernel)
  obtain ⟨⟨t, now, h, cs⟩, hops, hx⟩ := hrun
  obtain ⟨hget, hsize⟩ := of_decide_eq_true hx
  have hr := (TimedRun.opened .sync 0).ops hops
  refine ⟨t, now, h, cs, hr, hget, ((run_reads_as_of hr).2 8).2 fun c hc h0 => ?_⟩
  rw [hc] at hsize
  exact absurd h0 (of_decide_eq_true hsize)

/-- **A read before the first flush**: the checkpoint at `5` found nothing, and the read at `5` finds
what is put later. -/
theorem read_before_first_flush : ¬ ∀ t now h cs,
    TimedRun (fun _ _ op => op.stays = true) t now h cs → ∀ ts, ReadsAsOf t ts (latest cs ts) := by
  intro hall
  have hrun := (Option.any_eq_true _ _).1 (show ((runTimed (TimedEngine.open .sync) 0
      History.empty [] [(5, .checkpoint IterOrder.byKey fun _ => false),
        (7, .write ⟨[1], [2], false, 0⟩), (7, .flush IterOrder.byKey)]).any fun x =>
    x.1.getAsOf [1] 5 = .ok [2] ∧ (latest x.2.2.2 5).any fun c => (c.committed.find? [1]).isNone)
      = true by decide +kernel)
  obtain ⟨⟨t, now, h, cs⟩, hops, hx⟩ := hrun
  obtain ⟨hget, hlatest⟩ := of_decide_eq_true hx
  have hreads := hall t now h cs ((TimedRun.opened .sync 0).ops hops) 5
  obtain ⟨c, hc, hnone⟩ := (Option.any_eq_true _ _).1 hlatest
  rw [hc] at hreads
  have hread := hreads.1 [1] (by decide)
  rw [Option.isNone_iff_eq_none.1 hnone, hget] at hread
  cases hread

end EBTree.Engine
