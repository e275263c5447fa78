import EBTree.Engine.Proof.Tiers
import EBTree.Lib.MaxFold

/-!
# The order of the data file

A flush appends the frozen memtable in the order its hash table is walked in.

* `Steady.flush_effect`: the order a call walks the memtable in, and what it freezes.
* `run_datafile_order`: the records lie in the order of the log, and the stable LSN is that of the
  last of them, in every run whose flushes walk the memtable in the order of the LSNs and find nothing
  stable that is not in it; and the first flush that does not breaks this.
* `flush_out_of_order`: two puts and a flush.
-/

set_option autoImplicit false

namespace EBTree.Engine

open Lib Wal BTree ShardEngine

/-- The LSNs in the data file, from its front. -/
def ShardEngine.datafileLsns (s : ShardEngine) : List Nat := s.datafile.loadRecords.map (·.lsn)

/-- The order in which a call walks the memtable, if it flushes. -/
def Op.iterOrder (s : ShardEngine) : Op → Option IterOrder
  | .flush ord => some ord
  | .tryFlushBackground ord => if s.snapshotPinCount = 0 then some ord else none
  | .checkpoint ord _ => some ord
  | _ => none

/-- The state a call freezes: a checkpoint commits a group first. -/
def Op.frozen (s : ShardEngine) : Op → ShardEngine
  | .checkpoint _ _ => s.beforeFlush
  | _ => s

/-- The LSNs a flush appends. -/
def flushLsns (s : ShardEngine) (ord : IterOrder) : List Nat :=
  (ord.order s.memtable).map (·.2.lsn)

/-- A flush walks the memtable in the order of the LSNs, and its last record is as new as what is
stable. -/
def FlushesInOrder (s : ShardEngine) (op : Op) : Prop :=
  ∀ ord, op.iterOrder s = some ord → (flushLsns s ord).Pairwise (· < ·) ∧
    ∀ lsn, (s.datafileLsns ++ flushLsns s ord).getLast? = some lsn → (op.frozen s).stableLsn ≤ lsn

/-- The records lie in the order of the log. -/
def DatafileOrdered (s : ShardEngine) : Prop := s.datafileLsns.Pairwise (· < ·)

/-- What a call is to leave behind: a flush leaves the LSN of the last record stable. -/
def KeepsOrder (s : ShardEngine) (op : Op) (s' : ShardEngine) : Prop :=
  DatafileOrdered s' ∧ ∀ ord, op.iterOrder s = some ord →
    ∀ lsn, s'.datafileLsns.getLast? = some lsn → s'.stableLsn = lsn

section
variable {s s' : ShardEngine} {h : History} {rs : List WalRecord} {ds : List DataRecord} {op : Op}

/-! ## Flushes -/

/-- A call that flushes, and what it walks. -/
theorem Steady.flush_effect (hs : Steady s) {ord : IterOrder} (hord : op.iterOrder s = some ord)
    (hstep : s.step op = some s') : ∃ s1 st, Calm s (op.frozen s) ∧
      (op.frozen s).rotateMemTableForFlush.flushInternal ord = some (s1, st) ∧ Tail s1 s' := by
  have hplain : ∀ {st : Except Status Unit}, s.flush ord = some (s', st) →
      s.rotateMemTableForFlush.flushInternal ord = some (s', st) := by
    intro st hf
    unfold ShardEngine.flush at hf
    rwa [hs.ensureWalReplayed] at hf
  cases op with
  | flush o =>
    cases hord
    obtain ⟨⟨s1, st⟩, hf, rfl⟩ := Option.map_eq_some_iff.1 hstep
    exact ⟨_, st, Calm.refl s, hplain hf, Tail.refl _⟩
  | tryFlushBackground o =>
    simp only [Op.iterOrder] at hord
    split at hord
    · rename_i hpin
      cases hord
      obtain ⟨⟨s1, st⟩, hf, rfl⟩ := Option.map_eq_some_iff.1 hstep
      unfold ShardEngine.tryFlushBackground at hf
      rw [hpin, if_neg (by decide)] at hf
      exact ⟨_, st, Calm.refl s, hplain hf, Tail.refl _⟩
    · cases hord
  | checkpoint o hook =>
    cases hord
    obtain ⟨⟨s1, st⟩, hf, rfl⟩ := Option.map_eq_some_iff.1 hstep
    obtain ⟨s2, st2, hflush, htail⟩ := checkpoint_tail hf
    exact ⟨s2, st2, Calm.beforeFlush hs, hflush, htail⟩
  | _ => cases hord

theorem iterOrder_none (hord : op.iterOrder s = none) : op.flushes s = false := by
  cases op with
  | tryFlushBackground o =>
    simp only [Op.iterOrder] at hord
    split at hord
    · cases hord
    · rename_i hpin
      exact decide_eq_false hpin
  | flush o => cases hord
  | checkpoint o hook => cases hord
  | _ => rfl

/-- The stable LSN after a flush that wrote all its entries. -/
theorem flushEntries_stable {es : List (Key × MemTableEntry)}
    (hf : s.flushEntries es = some (s', .ok ())) :
    s'.stableLsn = (es.map (·.2.lsn)).foldl max s.stableLsn := by
  induction es generalizing s with
  | nil =>
    cases hf
    rfl
  | cons x es ih =>
    obtain ⟨key, e⟩ := x
    rw [flushEntries] at hf
    cases he : s.flushEntry key e with
    | none =>
      rw [he] at hf
      cases hf
    | some y =>
      obtain ⟨s1, st1⟩ := y
      obtain ⟨prevLsn, vcs, -, hs1⟩ := flushEntry_cases he
      rw [he] at hf
      cases st1 with
      | error err => cases hf
      | ok u =>
        rw [ih hf, hs1]
        rfl

/-! ## The invariant -/

/-- The entries of the memtable are newer than every record of the data file. -/
def AboveFile (s : ShardEngine) (ds : List DataRecord) : Prop :=
  ∀ r ∈ ds, ∀ e ∈ s.memtable.entries, r.lsn < e.2.lsn

theorem Tiered.datafileLsns_eq (ht : Tiered s ds) : s.datafileLsns = ds.map (·.lsn) := by
  rw [datafileLsns, ht.stores.loadRecords_eq]

/-- The records were logged. -/
theorem Tiered.record_le (ht : Tiered s ds) (hi : Inv true h s rs ds) {r : DataRecord}
    (hr : r ∈ ds) : r.lsn ≤ s.wal.maxLsn := by
  obtain ⟨n, hn, hle⟩ := ht.chains.reached r hr
  obtain ⟨x, ⟨y, hy, hyx, -⟩, -, hxl⟩ := hi.tiers.chains _ n hn
  have := hi.log.bound hy
  rw [hyx, hxl] at this
  omega

theorem memtable_mem {ord : IterOrder} {x : Key × MemTableEntry} :
    x ∈ ord.order s.memtable ↔ x ∈ s.memtable.entries := (ord.perm _).mem_iff

/-- What a flush leaves. -/
theorem Tiered.flush_order (ht : Tiered s ds) (hi : Inv true h s rs ds) (hs : Steady s)
    {ord : IterOrder} (hord : op.iterOrder s = some ord) (hstep : s.step op = some s') :
    Tiered s' (ds ++ memRecords (ord.order s.memtable)) ∧ s'.memtable = SortedMap.empty ∧
      s'.datafileLsns = s.datafileLsns ++ flushLsns s ord ∧
      s'.stableLsn = (flushLsns s ord).foldl max (op.frozen s).stableLsn := by
  obtain ⟨s1, st, hcalm, hf, htail⟩ := hs.flush_effect hord hstep
  have ht0 := ht.calm hcalm
  have hfits : Fits (op.frozen s).memtable.entries := by
    rw [hcalm.memtable]
    exact fun key e he => hi.memRecord_inRange (SortedMap.mem_entries_iff.1 he)
  obtain ⟨rfl, ht'⟩ := ht0.flush hfits hf htail
  rw [hcalm.memtable] at ht'
  refine ⟨ht', ?_, ?_, ?_⟩
  · rw [htail.memtable, flushInternal_frame hf]
    exact ht0.immutable
  · rw [ht'.datafileLsns_eq, ht.datafileLsns_eq, List.map_append, flushLsns, memRecords, List.map_map]
    rfl
  · obtain ⟨s2, hes, rfl⟩ := flushInternal_cases hf
    have hstable := flushEntries_stable hes
    rw [htail.stable]
    show s2.stableLsn = _
    rw [hstable, flushLsns, ← hcalm.memtable]
    rfl

/-- A write that is logged gets the next LSN. -/
theorem append_lsn (hi : Inv true h s rs ds) (hcl : Client s h op) {it : WalWriter.Item}
    {w : WalWriter} {lsn : Nat} (ha : s.wal.append it = (w, .ok lsn)) : lsn = s.wal.maxLsn + 1 := by
  have hb : it.InBounds := by
    by_contra hb
    obtain ⟨w', e', ha', -⟩ := hi.log.logs.append_tooLarge hb hcl.counter
    cases ha.symm.trans ha'
  obtain ⟨w', ha', -⟩ := hi.log.logs.append hb hcl.counter
  cases ha.symm.trans ha'
  rfl

/-- **One call** keeps the entries new. -/
theorem AboveFile.step (hfr : AboveFile s ds) (ht : Tiered s ds) (hi : Inv true h s rs ds)
    (hs : Steady s) (hcl : Client s h op) (hop : op.stays = true) (hstep : s.step op = some s') :
    ∃ ds', Tiered s' ds' ∧ AboveFile s' ds' ∧
      (op.iterOrder s = none → s'.datafileLsns = s.datafileLsns) := by
  cases hord : op.iterOrder s with
  | some ord =>
    obtain ⟨ht', hmem, -⟩ := ht.flush_order hi hs hord hstep
    refine ⟨_, ht', fun r _ e he => ?_, fun h => by cases h⟩
    rw [hmem] at he
    cases he
  | none =>
    obtain ⟨ds', ht'⟩ := ht.step hi hs hcl hop hstep
    have hnot := iterOrder_none hord
    suffices hsame : s'.datafile = s.datafile ∧ ∀ e ∈ s'.memtable.entries,
        (∃ e' ∈ s.memtable.entries, e'.2.lsn = e.2.lsn) ∨ s.wal.maxLsn < e.2.lsn by
      have hds : ds' = ds := by
        rw [← ht'.stores.loadRecords_eq, ← ht.stores.loadRecords_eq, hsame.1]
      subst hds
      refine ⟨ds', ht', fun r hr e he => ?_, fun _ => by rw [datafileLsns, datafileLsns, hsame.1]⟩
      rcases hsame.2 e he with ⟨e', he', hl⟩ | hlt
      · exact hl ▸ hfr r hr e' he'
      · exact Nat.lt_of_le_of_lt (ht.record_le hi hr) hlt
    cases hs.effect hop hstep with
    | idle hc _ => exact ⟨hc.datafile, fun e he => .inl ⟨e, hc.memtable ▸ he, rfl⟩⟩
    | @write r lsn w _ hkey ha hack =>
      refine ⟨hack.datafile, fun e he => ?_⟩
      obtain ⟨key, e⟩ := e
      rw [hack.memtable] at he
      have hf := SortedMap.mem_entries_iff.1 he
      rw [SortedMap.find?_insert] at hf
      split at hf
      · cases hf
        refine .inr ?_
        show s.wal.maxLsn < lsn
        rw [append_lsn hi hcl ha]
        exact Nat.lt_succ_self _
      · exact .inl ⟨(key, e), SortedMap.mem_entries_iff.2 hf, rfl⟩
    | promote txnId =>
      refine ⟨rfl, fun e he => .inl ?_⟩
      obtain ⟨key, e⟩ := e
      have hf := SortedMap.mem_entries_iff.1 he
      change (MemTable.promoteTxn s.memtable txnId).find? key = some e at hf
      unfold MemTable.promoteTxn at hf
      split at hf
      · exact ⟨(key, e), SortedMap.mem_entries_iff.2 hf, rfl⟩
      · rw [SortedMap.find?_mapValues] at hf
        obtain ⟨e', he', rfl⟩ := Option.map_eq_some_iff.1 hf
        refine ⟨(key, e'), SortedMap.mem_entries_iff.2 he', ?_⟩
        split <;> rfl
    | clear txnId =>
      refine ⟨rfl, fun e he => .inl ?_⟩
      obtain ⟨key, e⟩ := e
      have hf := SortedMap.mem_entries_iff.1 he
      change (MemTable.clearTxn s.memtable txnId).find? key = some e at hf
      unfold MemTable.clearTxn at hf
      split at hf
      · exact ⟨(key, e), SortedMap.mem_entries_iff.2 hf, rfl⟩
      · rw [SortedMap.find?_filterValues] at hf
        exact ⟨(key, e), SortedMap.mem_entries_iff.2 (Option.filter_eq_some_iff.1 hf).1, rfl⟩
    | flush hflushes => exact absurd (hflushes.symm.trans hnot) (by decide)

/-- **One flush** keeps the order exactly if it walks the memtable in it. -/
theorem Tiered.keepsOrder_iff (ht : Tiered s ds) (hfr : AboveFile s ds)
    (hi : Inv true h s rs ds) (hs : Steady s) (hcl : Client s h op) (hop : op.stays = true)
    (ho : DatafileOrdered s) (hstep : s.step op = some s') :
    KeepsOrder s op s' ↔ FlushesInOrder s op := by
  cases hord : op.iterOrder s with
  | none =>
    obtain ⟨-, -, -, hsame⟩ := hfr.step ht hi hs hcl hop hstep
    refine ⟨fun _ ord he => ?_, fun _ => ⟨?_, fun ord he => ?_⟩⟩
    · rw [hord] at he
      cases he
    · rw [DatafileOrdered, hsame hord]
      exact ho
    · rw [hord] at he
      cases he
  | some ord =>
    obtain ⟨-, -, hlsns, hstable⟩ := ht.flush_order hi hs hord hstep
    have hbelow : ∀ a ∈ s.datafileLsns, ∀ b ∈ flushLsns s ord, a < b := by
      intro a ha b hb
      rw [ht.datafileLsns_eq] at ha
      obtain ⟨r, hr, rfl⟩ := List.mem_map.1 ha
      obtain ⟨e, he, rfl⟩ := List.mem_map.1 hb
      exact hfr r hr e (memtable_mem.1 he)
    have hcalm : s.stableLsn ≤ (op.frozen s).stableLsn := by
      obtain ⟨-, -, hcalm, -⟩ := hs.flush_effect hord hstep
      exact hcalm.stable
    obtain ⟨hge, hall⟩ := le_foldl_max (flushLsns s ord) (op.frozen s).stableLsn
    rw [← hstable] at hge hall
    constructor
    · rintro ⟨hordered, hlast⟩ ord' he
      cases hord.symm.trans he
      rw [DatafileOrdered, hlsns] at hordered
      refine ⟨(List.pairwise_append.1 hordered).2.1, fun lsn hl => ?_⟩
      rw [← hlast ord hord lsn (hlsns ▸ hl)]
      exact hge
    · intro hin
      obtain ⟨hpair, hlast⟩ := hin ord hord
      have hordered : (s.datafileLsns ++ flushLsns s ord).Pairwise (· < ·) :=
        List.pairwise_append.2 ⟨ho, hpair, hbelow⟩
      refine ⟨by rw [DatafileOrdered, hlsns]; exact hordered, fun ord' he lsn hl => ?_⟩
      rw [hlsns] at hl
      refine Nat.le_antisymm ?_ ?_
      · rcases foldl_max_mem (flushLsns s ord) (op.frozen s).stableLsn with hs' | hm
        · rw [hstable, hs']
          exact hlast lsn hl
        · rw [← hstable] at hm
          exact le_getLast hordered (List.mem_append_right _ hm) hl
      · -- the last record is of this flush, or was stable before
        rcases List.mem_append.1 (List.mem_of_getLast? hl) with hold | hnew
        · rw [ht.datafileLsns_eq] at hold
          obtain ⟨r, hr, rfl⟩ := List.mem_map.1 hold
          exact Nat.le_trans (ht.stable r hr).2 (Nat.le_trans hcalm hge)
        · exact hall lsn hnew

/-! ## Runs -/

theorem Run.aboveFile {ok : ShardEngine → History → Op → Prop}
    (hok : ∀ s h op, ok s h op → op.stays = true) (hr : Run ok s h) :
    ∃ rs ds, Inv true h s rs ds ∧ Tiered s ds ∧ AboveFile s ds ∧ Steady s := by
  induction hr with
  | opened opts =>
    refine ⟨[], [], FilesFrom.none.open opts, Tiered.opened opts, fun r hr => ?_, steady_open opts⟩
    cases hr
  | @step s s' h op hr hc ho hstep ih =>
    obtain ⟨rs, ds, hi, ht, hfr, hst⟩ := ih
    obtain ⟨rs', ds1, hi'⟩ := hi.step hc (hst.allowed hi) hstep
    obtain ⟨ds', ht', hfr', -⟩ := hfr.step ht hi hst hc (hok _ _ _ ho) hstep
    have hds := ht'.stores.unique hi'.tiers.stores
    exact ⟨rs', ds', hds ▸ hi', ht', hfr', hst.step (hok _ _ _ ho) hstep⟩

/-- **The data file is in the order of the log**, and a flush leaves the LSN of its last record
stable, in a run whose flushes walk the memtable in the order of the LSNs and find nothing stable that
is not in it; and in such a run the next call keeps this up exactly where it does the same. -/
theorem run_datafile_order
    (hr : Run (fun s _ op => op.stays = true ∧ FlushesInOrder s op) s h) :
    DatafileOrdered s ∧ ∀ op s', op.stays = true → Client s h op → s.step op = some s' →
      (KeepsOrder s op s' ↔ FlushesInOrder s op) := by
  have hok : ∀ (s : ShardEngine) (_ : History) (op : Op),
      op.stays = true ∧ FlushesInOrder s op → op.stays = true := fun _ _ _ ho => ho.1
  have ho : DatafileOrdered s := by
    induction hr with
    | opened opts =>
      rw [DatafileOrdered, (Tiered.opened opts).datafileLsns_eq]
      exact List.Pairwise.nil
    | step hr hc hop hstep ih =>
      obtain ⟨rs, ds, hi, ht, hfr, hst⟩ := hr.aboveFile hok
      exact ((ht.keepsOrder_iff hfr hi hst hc hop.1 ih hstep).2 hop.2).1
  obtain ⟨rs, ds, hi, ht, hfr, hst⟩ := hr.aboveFile hok
  exact ⟨ho, fun op s' hop hc hstep => ht.keepsOrder_iff hfr hi hst hc hop ho hstep⟩

/-- Two puts. -/
def twoPuts : List Op := [.write ⟨[1], [2], false, 0⟩, .write ⟨[2], [3], false, 0⟩]

/-- A flush that walks the memtable in the order of the keys, which is that of the puts. -/
theorem run_datafile_order_flushed : ∃ s h, Run (fun s _ op => op.stays = true ∧ FlushesInOrder s op) s h ∧
    s.datafileLsns = [1, 2] ∧ DatafileOrdered s := by
  have hops : ∃ x, runOps (ShardEngine.open .sync ShardFiles.none) History.empty twoPuts = some x ∧
      (x.1.memtable.entries.map (·.2.lsn) = [1, 2] ∧ x.1.datafileLsns = [] ∧ x.1.stableLsn = 2) ∧
      Client x.1 x.2 (.flush IterOrder.byKey) ∧
      (x.1.step (.flush IterOrder.byKey)).any fun s => s.datafileLsns = [1, 2] := by
    have h := (Option.any_eq_true _ _).1 (show (runOps (ShardEngine.open .sync ShardFiles.none)
      History.empty twoPuts).any (fun x => (x.1.memtable.entries.map (·.2.lsn) = [1, 2] ∧
        x.1.datafileLsns = [] ∧ x.1.stableLsn = 2) ∧ Client x.1 x.2 (.flush IterOrder.byKey) ∧
        (x.1.step (.flush IterOrder.byKey)).any fun s => s.datafileLsns = [1, 2]) = true
          by decide +kernel)
    obtain ⟨x, hx, hp⟩ := h
    exact ⟨x, hx, of_decide_eq_true hp⟩
  obtain ⟨⟨s, h⟩, hops, ⟨hentries, hlsns, hstable⟩, hcl, hstep⟩ := hops
  obtain ⟨s', hs', hl⟩ := (Option.any_eq_true _ _).1 hstep
  have hwrites : ∀ op ∈ twoPuts, ∀ s (_ : History), op.stays = true ∧ FlushesInOrder s op := by
    intro op hop s h
    simp only [twoPuts, List.mem_cons, List.not_mem_nil, or_false] at hop
    rcases hop with rfl | rfl <;> exact ⟨rfl, fun ord he => by cases he⟩
  have hrun := (Run.opened .sync).calls hwrites hops
  have hin : FlushesInOrder s (.flush IterOrder.byKey) := by
    intro ord he
    cases he
    have hf : flushLsns s IterOrder.byKey = [1, 2] := hentries
    rw [hf, hlsns]
    refine ⟨by decide, fun lsn hlast => ?_⟩
    cases hlast
    exact Nat.le_of_eq hstable
  have hrun' := hrun.step hcl ⟨rfl, hin⟩ hs'
  exact ⟨s', _, hrun', of_decide_eq_true hl, (run_datafile_order hrun').1⟩

/-- The iteration in the reverse order of the keys. -/
def IterOrder.reversed : IterOrder := ⟨fun mt => mt.entries.reverse, fun _ => List.reverse_perm _⟩

/-- **A flush out of order**: the table is walked the other way round. -/
theorem flush_out_of_order : ¬ ∀ s h, Run (fun _ _ op => op.stays = true) s h → DatafileOrdered s := by
  intro hall
  have hops := (Option.any_eq_true _ _).1 (show (runOps (ShardEngine.open .sync ShardFiles.none)
    History.empty (twoPuts ++ [.flush IterOrder.reversed])).any
      (fun x => x.1.datafileLsns = [2, 1]) = true by decide +kernel)
  obtain ⟨⟨s, h⟩, hops, hl⟩ := hops
  have hstays : ∀ op ∈ twoPuts ++ [.flush IterOrder.reversed], ∀ (_ : ShardEngine) (_ : History),
      op.stays = true := by
    intro op hop _ _
    simp only [twoPuts, List.cons_append, List.nil_append, List.mem_cons, List.not_mem_nil,
      or_false] at hop
    rcases hop with rfl | rfl | rfl <;> rfl
  have ho := hall s h ((Run.opened .sync).calls hstays hops)
  rw [DatafileOrdered, of_decide_eq_true hl] at ho
  exact absurd ho (by decide)

end

end EBTree.Engine
