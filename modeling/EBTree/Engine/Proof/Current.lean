import EBTree.Engine.Proof.Steady

/-!
# What the newest write is

`Current h s`: while every write is autocommit, the memtable holds the newest write of each of its
keys and the map of committed values the newest write of every other key. The two older memtables
are empty, because no flush fails: the version of an entry is not in the chains yet.

* `flushEntries_ok`: a flush of such entries succeeds.
* `Current.step`, `Run.current`: one call, and a run.
-/

set_option autoImplicit false

namespace EBTree.Engine

open Lib Wal BTree ShardEngine

/-! ## The newest write of a key -/

namespace History

def newest (h : History) (key : Key) : Option DataRecord :=
  (h.writes.reverse.find? fun w => w.record.key = key).map (·.record)

/-- Every write was made outside the transactions. -/
def Autocommit (h : History) : Prop := ∀ w ∈ h.writes, w.txnId = 0

end History

/-- What a read finds of the newest version of a key. -/
def live (r : Option DataRecord) : Option (Value × Nat) :=
  r.bind fun r => if r.deleted then none else some (r.value, r.lsn)

variable {h : History} {s s' : ShardEngine} {rs : List WalRecord} {ds : List DataRecord} {op : Op}

theorem newest_append (ws : List Write) (cs cs' : List UInt32) (w : Write) (key : Key) :
    History.newest ⟨ws ++ [w], cs⟩ key =
      if w.record.key = key then some w.record else History.newest ⟨ws, cs'⟩ key := by
  unfold History.newest
  by_cases hk : w.record.key = key <;> simp [hk]

theorem newest_mem {key : Key} {r : DataRecord} (hn : h.newest key = some r) :
    ∃ w ∈ h.writes, w.record = r ∧ r.key = key := by
  obtain ⟨w, hw, rfl⟩ := Option.map_eq_some_iff.1 hn
  exact ⟨w, List.mem_reverse.1 (List.mem_of_find?_eq_some hw), rfl,
    by simpa using List.find?_some hw⟩

/-- No write of the key is newer. -/
theorem le_newest (ho : h.writes.Pairwise (·.record.lsn < ·.record.lsn)) {key : Key}
    {r : DataRecord} (hn : h.newest key = some r) {w : Write} (hw : w ∈ h.writes)
    (hk : w.record.key = key) : w.record.lsn ≤ r.lsn := by
  obtain ⟨ws, cs⟩ := h
  induction ws using List.reverseRecOn with
  | nil => exact absurd hw List.not_mem_nil
  | append_singleton ws w' ih =>
    rw [newest_append ws cs cs] at hn
    rw [List.pairwise_append] at ho
    split at hn
    · cases hn
      rcases List.mem_append.1 hw with hw | hw
      · exact Nat.le_of_lt (ho.2.2 w hw w' (List.mem_singleton_self w'))
      · exact Nat.le_of_eq (by rw [List.mem_singleton.1 hw])
    · rename_i hk'
      rcases List.mem_append.1 hw with hw | hw
      · exact ih ho.1 hn hw
      · exact absurd (List.mem_singleton.1 hw ▸ hk) hk'

theorem live_memRecord (key : Key) (e : MemTableEntry) :
    live (some (memRecord key e)) = if e.deleted then none else some (e.value, e.lsn) := by
  unfold live memRecord
  cases hd : e.deleted <;> simp

/-! ## Loading the records of a table -/

/-- Each key has one entry at most. -/
abbrev OneEach (es : List (Key × MemTableEntry)) : Prop := (es.map (·.1)).Nodup

theorem loadStep_find? (m : SortedMap Key (Value × Nat)) (k key : Key) (e : MemTableEntry) :
    (DataFile.loadStep m (memRecord k e)).find? key =
      if key = k then live (some (memRecord k e)) else m.find? key := by
  rw [live_memRecord]
  unfold DataFile.loadStep memRecord
  cases hd : e.deleted <;> simp

/-- The last record of a key. -/
def lastOf (rs : List DataRecord) (key : Key) : Option DataRecord :=
  rs.reverse.find? fun r => r.key = key

theorem lastOf_append (rs rs' : List DataRecord) (key : Key) :
    lastOf (rs ++ rs') key = (lastOf rs' key).or (lastOf rs key) := by
  rw [lastOf, List.reverse_append, List.find?_append]
  rfl

theorem lastOf_eq_none {rs : List DataRecord} {key : Key} :
    lastOf rs key = none ↔ ∀ r ∈ rs, r.key ≠ key := by
  simp [lastOf]

/-- **What records load as** is, for each key, what the last of them says. -/
theorem foldl_loadStep_find? (rs : List DataRecord) (key : Key) :
    (rs.foldl DataFile.loadStep SortedMap.empty).find? key = live (lastOf rs key) := by
  induction rs using List.reverseRecOn with
  | nil => exact SortedMap.find?_empty key
  | append_singleton rs r ih =>
    rw [List.foldl_append, List.foldl_cons, List.foldl_nil, lastOf_append, DataFile.loadStep]
    by_cases hk : r.key = key
    · have hlast : lastOf [r] key = some r := by simp [lastOf, hk]
      rw [hlast, Option.some_or, live, Option.bind_some]
      split <;> simp [hk]
    · have hlast : lastOf [r] key = none := by simp [lastOf, hk]
      rw [hlast, Option.none_or, ← ih]
      split <;> simp [Ne.symm hk]

/-- **The records of a table** over a map: the map keeps what the table does not have. -/
theorem foldl_memRecords {es : List (Key × MemTableEntry)} (hes : OneEach es)
    (m : SortedMap Key (Value × Nat)) (key : Key) :
    (∀ e, (key, e) ∈ es →
      ((memRecords es).foldl DataFile.loadStep m).find? key = live (some (memRecord key e))) ∧
    ((∀ e, (key, e) ∉ es) →
      ((memRecords es).foldl DataFile.loadStep m).find? key = m.find? key) := by
  induction es generalizing m with
  | nil => exact ⟨fun e he => absurd he List.not_mem_nil, fun _ => rfl⟩
  | cons x es ih =>
    obtain ⟨k, e0⟩ := x
    rw [OneEach, List.map_cons, List.nodup_cons] at hes
    obtain ⟨hin, hout⟩ := ih hes.2 (DataFile.loadStep m (memRecord k e0))
    have hnot : (∀ e, (k, e) ∉ es) := fun e he => hes.1 (List.mem_map.2 ⟨(k, e), he, rfl⟩)
    refine ⟨fun e he => ?_, fun hno => ?_⟩
    · rcases List.mem_cons.1 he with he | he
      · cases he
        exact (hout hnot).trans (by rw [loadStep_find?, if_pos rfl])
      · exact hin e he
    · have hk : key ≠ k := fun hk => hno e0 (hk ▸ List.mem_cons_self)
      refine (hout fun e he => hno e (List.mem_cons_of_mem _ he)).trans ?_
      rw [loadStep_find?, if_neg hk]

theorem oneEach_order (ord : IterOrder) (mt : MemTable) : OneEach (ord.order mt) := by
  rw [OneEach, ((ord.perm mt).map _).nodup_iff, List.nodup_iff_pairwise_ne, List.pairwise_map]
  exact mt.sorted.imp fun hlt => ne_of_lt hlt

theorem mem_order {ord : IterOrder} {mt : MemTable} {key : Key} {e : MemTableEntry} :
    (key, e) ∈ ord.order mt ↔ mt.find? key = some e := by
  rw [(ord.perm mt).mem_iff, SortedMap.mem_entries_iff]

/-! ## A flush that succeeds -/

/-- The chains have no version of the entries that is as new. -/
def Ahead (v : VersionChainStore) (es : List (Key × MemTableEntry)) : Prop :=
  ∀ key e, (key, e) ∈ es → key ≠ [] ∧ 0 < e.lsn ∧ ∀ n ∈ v.mergedChain key, n.lsn < e.lsn

theorem append_ahead {v : VersionChainStore} {key : Key} {lsn prevLsn : Nat} (hk : key ≠ [])
    (h0 : 0 < lsn) (hn : ∀ n ∈ v.mergedChain key, n.lsn < lsn) :
    (v.append key lsn prevLsn).2 = .ok () := by
  have hlast : ¬ (v.mergedChain key ≠ [] ∧ lsn ≤ VersionChainStore.lastLsn (v.mergedChain key)) := by
    rintro ⟨-, hle⟩
    obtain ⟨n, hm, hl⟩ := VersionChainStore.lastLsn_mem (Nat.lt_of_lt_of_le h0 hle)
    have := hn n hm
    omega
  rw [VersionChainStore.append, if_neg hk, if_neg (by omega), if_neg hlast]

/-- **A flush** of entries that are newer than what the chains have succeeds. -/
theorem flushEntries_ok {es : List (Key × MemTableEntry)} (hes : OneEach es)
    (ha : Ahead s.vcs es) {st : Except Status Unit} (h : s.flushEntries es = some (s', st)) :
    st = .ok () := by
  induction es generalizing s with
  | nil =>
    cases h
    rfl
  | cons x es ih =>
    obtain ⟨key, e⟩ := x
    rw [OneEach, List.map_cons, List.nodup_cons] at hes
    obtain ⟨hk, h0, hn⟩ := ha key e List.mem_cons_self
    rw [flushEntries] at h
    cases hf : s.flushEntry key e with
    | none =>
      rw [hf] at h
      cases h
    | some y =>
      obtain ⟨s1, st1⟩ := y
      obtain ⟨prevLsn, vcs, happ, rfl⟩ := flushEntry_cases hf
      have hst1 : st1 = .ok () := by
        have hok : (s.vcs.append key e.lsn prevLsn).2 = .ok () := append_ahead hk h0 hn
        rwa [happ] at hok
      subst hst1
      rw [hf] at h
      refine ih hes.2 (fun k' e' he' => ?_) h
      obtain ⟨hk', h0', hn'⟩ := ha k' e' (List.mem_cons_of_mem _ he')
      refine ⟨hk', h0', fun n hm => ?_⟩
      rcases VersionChainStore.mergedChain_append happ k' with hc | ⟨rfl, -⟩
      · exact hn' n (hc ▸ hm)
      · exact absurd (List.mem_map.2 ⟨(k', e'), he', rfl⟩) hes.1

theorem flushInternal_ok {ord : IterOrder} (ha : Ahead s.vcs (ord.order s.flushing))
    {st : Except Status Unit} (h : s.flushInternal ord = some (s', st)) : st = .ok () := by
  obtain ⟨s1, hes, -⟩ := flushInternal_cases h
  refine flushEntries_ok (oneEach_order ord _) ?_ hes
  exact ha

/-! ## The invariant -/

structure Current (h : History) (s : ShardEngine) : Prop where
  immutable : s.immutable = SortedMap.empty
  flushing : s.flushing = SortedMap.empty
  memtable : ∀ key e, s.memtable.find? key = some e → key ≠ [] ∧ 0 < e.lsn ∧ e.txnId = 0 ∧
    e.durable = true ∧ h.newest key = some (memRecord key e)
  committed : ∀ key, s.memtable.find? key = none → s.committed.find? key = live (h.newest key)
  chains : ∀ key e, s.memtable.find? key = some e → ∀ n ∈ s.vcs.mergedChain key, n.lsn < e.lsn

namespace Current

theorem idle (hc : Current h s) (hi : Idle s s') : Current h s' where
  immutable := hi.immutable.trans hc.immutable
  flushing := hi.flushing.trans hc.flushing
  memtable := hi.memtable ▸ hc.memtable
  committed := hi.memtable ▸ hi.committed ▸ hc.committed
  chains := hi.memtable ▸ hi.vcs ▸ hc.chains

/-- The history of a call that writes nothing has the same newest writes. -/
theorem of_newest (hc : Current h s) {h' : History} (hn : ∀ key, h'.newest key = h.newest key) :
    Current h' s where
  immutable := hc.immutable
  flushing := hc.flushing
  memtable key e he := by
    rw [hn]
    exact hc.memtable key e he
  committed key he := by
    rw [hn]
    exact hc.committed key he
  chains := hc.chains

/-- **A write** is the newest of its key. -/
theorem write (hc : Current h s) (hi : Inv true h s rs ds) {r : WriteRequest} {lsn : Nat}
    {w : WalWriter} {cs : List UInt32} (hkey : r.key ≠ []) (htxn : r.txnId = 0)
    (hlsn : lsn = s.wal.maxLsn + 1) :
    Current ⟨h.writes ++ [⟨r.txnId, r.record lsn⟩], cs⟩
      { s with wal := w, memtable := s.memtable.insert r.key (written r lsn) } where
  immutable := hc.immutable
  flushing := hc.flushing
  memtable key e he := by
    change (s.memtable.insert r.key (written r lsn)).find? key = some e at he
    rw [newest_append _ _ h.commits]
    rw [SortedMap.find?_insert] at he
    split at he
    · rename_i hk
      cases he
      refine ⟨hk ▸ hkey, by simp only [written]; omega, htxn, decide_eq_true htxn, ?_⟩
      rw [if_pos (show (r.record lsn).key = key from hk.symm), hk, memRecord_written]
    · rename_i hk
      rw [if_neg (fun hk' : (r.record lsn).key = key => hk hk'.symm)]
      exact hc.memtable key e he
  committed key he := by
    change (s.memtable.insert r.key (written r lsn)).find? key = none at he
    rw [newest_append _ _ h.commits]
    rw [SortedMap.find?_insert] at he
    split at he
    · cases he
    · rename_i hk
      rw [if_neg (fun hk' : (r.record lsn).key = key => hk hk'.symm)]
      exact hc.committed key he
  chains key e he n hn := by
    change (s.memtable.insert r.key (written r lsn)).find? key = some e at he
    rw [SortedMap.find?_insert] at he
    split at he
    · cases he
      obtain ⟨x, ⟨y, hy, hyx, -⟩, -, hxl⟩ := hi.tiers.chains key n hn
      have := hi.log.bound hy
      rw [hyx, hxl] at this
      simp only [written]
      omega
    · exact hc.chains key e he n hn

theorem promoteTxn (hc : Current h s) (txnId : UInt32) : Current h (s.promoteTxn txnId) := by
  have hm : MemTable.promoteTxn s.memtable txnId = s.memtable := by
    unfold MemTable.promoteTxn
    split
    · rfl
    rename_i h0
    refine SortedMap.ext_find? fun key => ?_
    rw [SortedMap.find?_mapValues]
    cases he : s.memtable.find? key with
    | none => rfl
    | some e =>
      have ht := (hc.memtable key e he).2.2.1
      have hne : e.txnId ≠ txnId := fun hx => h0 (hx ▸ ht)
      simp [hne]
  have hempty : MemTable.promoteTxn SortedMap.empty txnId = SortedMap.empty := by
    unfold MemTable.promoteTxn
    split <;> rfl
  exact
    { immutable := by simp only [ShardEngine.promoteTxn, hc.immutable, hempty]
      flushing := by simp only [ShardEngine.promoteTxn, hc.flushing, hempty]
      memtable := by simpa only [ShardEngine.promoteTxn, hm] using hc.memtable
      committed := by simpa only [ShardEngine.promoteTxn, hm] using hc.committed
      chains := by simpa only [ShardEngine.promoteTxn, hm] using hc.chains }

theorem clearTxn (hc : Current h s) (txnId : UInt32) : Current h (s.clearTxn txnId) := by
  have hm : MemTable.clearTxn s.memtable txnId = s.memtable := by
    unfold MemTable.clearTxn
    split
    · rfl
    rename_i h0
    refine SortedMap.ext_find? fun key => ?_
    rw [SortedMap.find?_filterValues]
    cases he : s.memtable.find? key with
    | none => rfl
    | some e =>
      have ht := (hc.memtable key e he).2.2.1
      have hne : e.txnId ≠ txnId := fun hx => h0 (hx ▸ ht)
      simp [hne]
  have hempty : MemTable.clearTxn SortedMap.empty txnId = SortedMap.empty := by
    unfold MemTable.clearTxn
    split <;> rfl
  exact
    { immutable := by simp only [ShardEngine.clearTxn, hc.immutable, hempty]
      flushing := by simp only [ShardEngine.clearTxn, hc.flushing, hempty]
      memtable := by simpa only [ShardEngine.clearTxn, hm] using hc.memtable
      committed := by simpa only [ShardEngine.clearTxn, hm] using hc.committed
      chains := by simpa only [ShardEngine.clearTxn, hm] using hc.chains }

theorem ahead (hc : Current h s) (ord : IterOrder) : Ahead s.vcs (ord.order s.memtable) := by
  intro key e he
  have he := mem_order.1 he
  obtain ⟨hk, h0, -⟩ := hc.memtable key e he
  exact ⟨hk, h0, hc.chains key e he⟩

/-- **A flush** succeeds and leaves the memtables empty. -/
theorem flush (hc : Current h s) {ord : IterOrder} {s1 : ShardEngine} {st : Except Status Unit}
    (hf : s.rotateMemTableForFlush.flushInternal ord = some (s1, st)) (ht : SameTables s1 s') :
    st = .ok () ∧ Current h s' ∧ s'.memtable = SortedMap.empty := by
  have hst := flushInternal_ok (hc.ahead ord) hf
  subst hst
  obtain ⟨done, rest, he, hrest, hflushing, -, hcommitted⟩ := flushInternal_writes hf
  rw [hrest rfl, List.append_nil] at he
  have hframe := flushInternal_frame hf
  have hmem : s'.memtable = SortedMap.empty := by
    rw [ht.memtable, hframe]
    exact hc.immutable
  have himm : s'.immutable = SortedMap.empty := by
    rw [ht.immutable, hframe]
    exact hc.flushing
  refine ⟨rfl, ?_, hmem⟩
  refine ⟨himm, by rw [ht.flushing, hflushing]; rfl, fun key e hf => ?_, fun key _ => ?_,
    fun key e hf => ?_⟩
  · rw [hmem, SortedMap.find?_empty] at hf
    cases hf
  · rw [ht.committed, hcommitted, ← he]
    obtain ⟨hin, hout⟩ := foldl_memRecords (oneEach_order ord s.memtable) s.committed key
    cases hfind : s.memtable.find? key with
    | some e =>
      rw [(hc.memtable key e hfind).2.2.2.2]
      exact hin e (mem_order.2 hfind)
    | none =>
      refine (hout fun e he => ?_).trans (hc.committed key hfind)
      rw [mem_order.1 he] at hfind
      cases hfind
  · rw [hmem, SortedMap.find?_empty] at hf
    cases hf

/-- **One call.** -/
theorem step (hc : Current h s) (hi : Inv true h s rs ds) (hs : Steady s) (hcl : Client s h op)
    (hop : op.stays = true) (hstep : s.step op = some s')
    (hauto : (h.after s op).Autocommit) : Current (h.after s op) s' := by
  have hsame : (∀ r, op = .write r → s.wrote r = []) → Current (h.after s op) s := by
    intro hw
    refine hc.of_newest fun key => ?_
    cases op with
    | write r => simp only [History.after, hw r rfl, List.append_nil]
    | _ => rfl
  cases hs.effect hop hstep with
  | idle hid hw => exact (hsame hw).idle hid.toIdle
  | @write r lsn w _ hkey ha hid =>
    have hb : (r.item s.opts.logsTxn).InBounds := by
      by_contra hb
      obtain ⟨w', e', ha', -⟩ := hi.log.logs.append_tooLarge hb hcl.counter
      cases ha.symm.trans ha'
    obtain ⟨w', ha', -⟩ := hi.log.logs.append hb hcl.counter
    cases ha.symm.trans ha'
    have hafter : h.after s (.write r) = ⟨h.writes ++
        [⟨r.txnId, r.record (s.wal.maxLsn + 1)⟩], h.commits⟩ := by
      simp [History.after, ShardEngine.wrote, hkey, ha]
    rw [hafter] at hauto ⊢
    have htxn : r.txnId = 0 := hauto ⟨r.txnId, _⟩ (List.mem_append_right _ (List.mem_singleton_self _))
    exact (hc.write hi hkey htxn rfl).idle hid.toIdle
  | promote txnId => exact (hsame fun r hr => by cases hr).promoteTxn txnId
  | clear txnId => exact (hsame fun r hr => by cases hr).clearTxn txnId
  | flush hfl h0 hf ht =>
    have hw : ∀ r, op = .write r → s.wrote r = [] := by
      rintro r rfl
      cases hfl
    exact (((hsame hw).idle h0.toIdle).flush hf ht.toSameTables).2.1

theorem opened (opts : EngineOptions) :
    Current History.empty (ShardEngine.open opts ShardFiles.none) := by
  have hi : Inv true History.empty (ShardEngine.open opts ShardFiles.none) [] [] :=
    FilesFrom.none.open opts
  have hnone : ∀ {mt : MemTable}, MemFrom true History.empty mt → ∀ key, mt.find? key = none := by
    intro mt hm key
    cases he : mt.find? key with
    | none => rfl
    | some e =>
      obtain ⟨⟨w, hw, -⟩, -⟩ := hm key e he
      exact absurd hw List.not_mem_nil
  have hempty : ∀ {mt : MemTable}, MemFrom true History.empty mt → mt = SortedMap.empty := fun hm =>
    SortedMap.ext_find? fun key => by rw [hnone hm key, SortedMap.find?_empty]
  refine ⟨hempty hi.immutable, hempty hi.flushing, fun key e he => ?_, fun key _ => ?_,
    fun key e he => ?_⟩
  · rw [hnone hi.memtable key] at he
    cases he
  · cases hx : (ShardEngine.open opts ShardFiles.none).committed.find? key with
    | none => rfl
    | some x =>
      obtain ⟨w, hw, -⟩ := hi.tiers.committed key x hx
      exact absurd hw List.not_mem_nil
  · rw [hnone hi.memtable key] at he
    cases he

end Current

theorem Autocommit.before {hist : History} (ha : (hist.after s op).Autocommit) :
    hist.Autocommit := by
  intro w hw
  refine ha w ?_
  cases op with
  | write r => exact List.mem_append_left _ hw
  | _ => exact hw

/-- **A run** whose writes are all autocommit. -/
theorem Run.current {ok : ShardEngine → History → Op → Prop}
    (hok : ∀ s h op, ok s h op → op.stays = true) (hr : Run ok s h) (ha : h.Autocommit) :
    Current h s := by
  induction hr with
  | opened opts => exact Current.opened opts
  | step hr hcl ho hs ih =>
    obtain ⟨⟨rs, ds, hi⟩, hst⟩ := hr.steady hok
    exact (ih (Autocommit.before ha)).step hi hst hcl (hok _ _ _ ho) hs ha

end EBTree.Engine
