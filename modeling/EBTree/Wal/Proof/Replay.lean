import EBTree.Wal.Proof.Append
import EBTree.Wal.Replay

/-!
# Replay and the committed history

What `ReplayPending` makes visible, against the fold of the committed records.

* `History rs`: a log of autocommit records and of transactions that end at most once.
* `committedEffect`: what the committed records of a key after an LSN make of it, in LSN order.
* `find?_replay`: a slot of the memtable holds the last record of its key that no abort record
  takes back, durable or not.
* `replay_matches_iff`: **the replay shows the committed history exactly when every record of an
  open transaction behind a committed one of its key is itself overwritten**.
-/

set_option autoImplicit false

namespace EBTree.Wal

open Lib

/-! ## Histories -/

/-- A log of autocommit records and of transactions: control records belong to a transaction, and
one that has ended writes nothing more. -/
structure History (rs : List WalRecord) : Prop where
  fits : ∀ r ∈ rs, r.Fits
  sorted : rs.Pairwise (·.lsn < ·.lsn)
  control : ∀ r ∈ rs, r.isData = false → r.txnId ≠ 0
  ended : rs.Pairwise fun a b => a.op = .kTxnCommit ∨ a.op = .kTxnAbort → b.txnId ≠ a.txnId

variable (rs : List WalRecord)

def Committed (t : UInt32) : Prop := ∃ c ∈ rs, c.op = .kTxnCommit ∧ c.txnId = t

def Aborted (t : UInt32) : Prop := ∃ c ∈ rs, c.op = .kTxnAbort ∧ c.txnId = t

instance (t : UInt32) : Decidable (Committed rs t) := by unfold Committed; infer_instance

instance (t : UInt32) : Decidable (Aborted rs t) := by unfold Aborted; infer_instance

/-- An autocommit record, or a record of a committed transaction. -/
def Durable (r : WalRecord) : Prop := r.txnId = 0 ∨ Committed rs r.txnId

instance (r : WalRecord) : Decidable (Durable rs r) := by unfold Durable; infer_instance

/-- A record of a transaction that was left open at the crash. -/
def OpenAtCrash (r : WalRecord) : Prop :=
  r.txnId ≠ 0 ∧ ¬ Committed rs r.txnId ∧ ¬ Aborted rs r.txnId

instance (r : WalRecord) : Decidable (OpenAtCrash rs r) := by unfold OpenAtCrash; infer_instance

/-- The puts and deletes of `key` after an LSN, in LSN order. -/
def dataFor (afterLsn : Nat) (key : Key) : List WalRecord :=
  rs.filter fun r => r.isData && decide (afterLsn < r.lsn) && decide (r.key = key)

/-- What a put or a delete makes of its key: a value, or none. -/
def WalRecord.effect (r : WalRecord) : Option Value :=
  if r.op = .kDelete then none else some r.value

/-- The committed records of `key` after an LSN, folded; `none` when there are none. -/
def committedEffect (afterLsn : Nat) (key : Key) : Option (Option Value) :=
  ((dataFor rs afterLsn key).filter (Durable rs ·)).foldl (fun _ r => some r.effect) none

/-- What a reader sees of `key` in a memtable: nothing, a deletion or a value. -/
def visibleIn (mt : MemTable) (ctx : SnapshotReadContext) (key : Key) : Option (Option Value) :=
  match MemTable.get mt key with
  | some e => if memEntryVisible e ctx then some (if e.deleted then none else some e.value) else none
  | none => none

/-- The replay of the log into an empty memtable shows a reader outside every transaction just the
committed history. -/
def ReplayMatches (afterLsn : Nat) : Prop :=
  ∀ (ctx : SnapshotReadContext) (key : Key), ctx.readerTxnId = 0 →
    visibleIn (replayPending (logFile rs) .empty afterLsn) ctx key
      = committedEffect rs afterLsn key

/-- A record of an open transaction behind a committed record of its key has another committed
record of the key behind it. -/
def OpenRecordsOverwritten (afterLsn : Nat) : Prop :=
  ∀ d ∈ rs, d.isData = true → afterLsn < d.lsn → Durable rs d →
    ∀ o ∈ rs, o.isData = true → OpenAtCrash rs o → o.key = d.key → d.lsn < o.lsn →
      ∃ d' ∈ rs, d'.isData = true ∧ Durable rs d' ∧ d'.key = d.key ∧ o.lsn < d'.lsn

variable {rs}

/-! ## The fold and the memtable -/

/-- Folding a history keeps what its last record did. -/
theorem foldl_effect (ds : List WalRecord) :
    ds.foldl (fun _ r => some r.effect) none = ds.getLast?.map WalRecord.effect := by
  rcases List.eq_nil_or_concat ds with rfl | ⟨ds, d, rfl⟩
  · rfl
  · simp

/-- The entry the replay makes of a data record. -/
def entryOf (durable : Bool) (r : WalRecord) : MemTableEntry :=
  ⟨if r.op = .kDelete then [] else r.value, r.lsn, decide (r.op = .kDelete), r.txnId, durable⟩

/-- **A slot after the replay**: the last record of the key whose transaction was not aborted. -/
theorem find?_replay (committed aborted : List UInt32) (ds : List WalRecord) (key : Key)
    (mt : MemTable) :
    (ds.foldl (replayV2 committed aborted) mt).find? key =
      (((ds.filter fun r => decide (r.key = key) && decide (r.txnId ∉ aborted)).getLast?).map
        fun r => entryOf (r.txnId = 0 ∨ r.txnId ∈ committed) r).or (mt.find? key) := by
  induction ds using List.reverseRecOn with
  | nil => rfl
  | append_singleton ds d ih =>
    rw [List.foldl_append, List.foldl_cons, List.foldl_nil, List.filter_append]
    by_cases ha : d.txnId ∈ aborted
    · simp [replayV2, ha, ih]
    by_cases hk : d.key = key
    · by_cases hop : d.op = .kDelete <;>
        simp [replayV2, ha, hk, hop, MemTable.deleteKey, MemTable.put, entryOf]
    · have hk' : ¬ key = d.key := fun h => hk h.symm
      by_cases hop : d.op = .kDelete <;>
        simp [replayV2, ha, hk, hk', hop, MemTable.deleteKey, MemTable.put, ih]

namespace History

variable (h : History rs)
include h

/-- Two records of one transaction: the end of it is not the earlier one. -/
theorem end_last {c d : WalRecord} (hc : c ∈ rs) (hd : d ∈ rs)
    (hop : c.op = .kTxnCommit ∨ c.op = .kTxnAbort) (ht : c.txnId = d.txnId) : d.lsn ≤ c.lsn := by
  by_contra hlt
  obtain ⟨i, hi, rfl⟩ := List.getElem_of_mem hc
  obtain ⟨j, hj, rfl⟩ := List.getElem_of_mem hd
  rcases Nat.lt_trichotomy i j with hij | hij | hij
  · exact List.pairwise_iff_getElem.1 h.ended i j hi hj hij hop ht.symm
  · subst hij; exact hlt le_rfl
  · have := List.pairwise_iff_getElem.1 h.sorted j i hj hi hij
    omega

theorem eq_of_lsn {a b : WalRecord} (ha : a ∈ rs) (hb : b ∈ rs) (hl : a.lsn = b.lsn) : a = b := by
  obtain ⟨i, hi, rfl⟩ := List.getElem_of_mem ha
  obtain ⟨j, hj, rfl⟩ := List.getElem_of_mem hb
  rcases Nat.lt_trichotomy i j with hij | hij | hij
  · have := List.pairwise_iff_getElem.1 h.sorted i j hi hj hij; omega
  · subst hij; rfl
  · have := List.pairwise_iff_getElem.1 h.sorted j i hj hi hij; omega

/-- A transaction is not both committed and aborted. -/
theorem not_aborted {t : UInt32} (hc : Committed rs t) : ¬ Aborted rs t := by
  rintro ⟨a, ha, hao, rfl⟩
  obtain ⟨c, hc, hco, ht⟩ := hc
  have h1 := h.end_last hc ha (.inl hco) ht
  have h2 := h.end_last ha hc (.inr hao) ht.symm
  have := h.eq_of_lsn hc ha (by omega)
  rw [this, hao] at hco
  cases hco

theorem zero_not_aborted : ¬ Aborted rs 0 := by
  rintro ⟨a, ha, hao, ht⟩
  exact h.control a ha (by simp [WalRecord.isData, hao]) ht

theorem durable_not_aborted {r : WalRecord} (hr : Durable rs r) : ¬ Aborted rs r.txnId := by
  rcases hr with h0 | hc
  · rw [h0]; exact h.zero_not_aborted
  · exact h.not_aborted hc

/-- The transactions of a data record after the LSN end after the LSN. -/
theorem mem_outcomes {r : WalRecord} (hr : r ∈ rs) {afterLsn : Nat} (hl : afterLsn < r.lsn)
    {op : WalOp} (hop : op = .kTxnCommit ∨ op = .kTxnAbort) :
    r.txnId ∈ (((rs.filter (afterLsn < ·.lsn)).filter (·.op = op)).map (·.txnId)) ↔
      ∃ c ∈ rs, c.op = op ∧ c.txnId = r.txnId := by
  simp only [List.mem_map, List.mem_filter, decide_eq_true_eq]
  constructor
  · rintro ⟨c, ⟨⟨hc, -⟩, ho⟩, ht⟩
    exact ⟨c, hc, ho, ht⟩
  · rintro ⟨c, hc, ho, ht⟩
    have := h.end_last hc hr (ho ▸ hop) ht
    exact ⟨c, ⟨⟨hc, by omega⟩, ho⟩, ht⟩

end History

/-- The records of a key the replay puts into its slot, in order. -/
def keptFor (rs : List WalRecord) (afterLsn : Nat) (key : Key) : List WalRecord :=
  (dataFor rs afterLsn key).filter fun r => ¬ Aborted rs r.txnId

theorem mem_keptFor {afterLsn : Nat} {key : Key} {r : WalRecord} :
    r ∈ keptFor rs afterLsn key ↔
      r ∈ rs ∧ r.isData = true ∧ afterLsn < r.lsn ∧ r.key = key ∧ ¬ Aborted rs r.txnId := by
  simp only [keptFor, dataFor, List.mem_filter, Bool.and_eq_true, decide_eq_true_eq, and_assoc]

/-- The replay of a history, slot by slot. -/
theorem History.find?_replayPending (h : History rs) (afterLsn : Nat) (key : Key) :
    (replayPending (logFile rs) .empty afterLsn).find? key =
      (keptFor rs afterLsn key).getLast?.map fun r => entryOf (Durable rs r) r := by
  have hd : detectFormatV2OnDisk (logFile rs) = true := detectFormatV2OnDisk_magic _
  have hscan : scanWalV2Sparse (logFile rs) afterLsn = rs.filter (afterLsn < ·.lsn) := by
    rw [scanWalV2Sparse, acceptedV2_logFile h.fits, layout_map_snd]
  simp only [replayPending, hd, if_true, scanWalV2Records, hscan, find?_replay,
    SortedMap.find?_empty, Option.or_none, List.filter_filter]
  have hmem : ∀ r ∈ rs, afterLsn < r.lsn → ∀ op : WalOp, op = .kTxnCommit ∨ op = .kTxnAbort →
      (r.txnId ∈ ((rs.filter fun x => decide (x.op = op) && decide (afterLsn < x.lsn)).map
        (·.txnId)) ↔ ∃ c ∈ rs, c.op = op ∧ c.txnId = r.txnId) := by
    intro r hr hl op hop
    have := h.mem_outcomes hr hl hop
    rwa [List.filter_filter] at this
  -- the two lists of transactions agree with the log's outcomes on every record they are asked for
  have hkept : (rs.filter fun r => (decide (r.key = key) && decide (r.txnId ∉
        (rs.filter fun x => decide (x.op = .kTxnAbort) && decide (afterLsn < x.lsn)).map (·.txnId)))
        && (r.isData && decide (afterLsn < r.lsn))) = keptFor rs afterLsn key := by
    rw [keptFor, dataFor, List.filter_filter]
    refine List.filter_congr fun r hr => ?_
    by_cases hl : afterLsn < r.lsn
    · have ha := hmem r hr hl .kTxnAbort (.inr rfl)
      simp only [ha, Aborted]
      by_cases hk : r.key = key <;> cases r.isData <;> simp [hk, hl]
    · simp [hl]
  rw [hkept]
  cases hl : (keptFor rs afterLsn key).getLast? with
  | none => rfl
  | some r =>
    obtain ⟨hr, -, hlsn, -⟩ := mem_keptFor.1 (List.mem_of_getLast? hl)
    have hc : (r.txnId = 0 ∨ _) ↔ Durable rs r :=
      or_congr Iff.rfl (hmem r hr hlsn .kTxnCommit (.inl rfl))
    exact congrArg (fun b => some (entryOf b r)) (decide_eq_decide.2 hc)

/-- What the replay shows of a key: its last kept record, if that is durable. -/
theorem History.visibleIn_replay (h : History rs) (afterLsn : Nat) {ctx : SnapshotReadContext}
    (hctx : ctx.readerTxnId = 0) (key : Key) :
    visibleIn (replayPending (logFile rs) .empty afterLsn) ctx key =
      ((keptFor rs afterLsn key).getLast?.filter (Durable rs ·)).map WalRecord.effect := by
  rw [visibleIn, MemTable.get, h.find?_replayPending]
  cases (keptFor rs afterLsn key).getLast? with
  | none => rfl
  | some r =>
    simp only [Option.map_some, memEntryVisible_eq_durable _ hctx, entryOf, Option.filter_some]
    by_cases hr : Durable rs r <;> by_cases hop : r.op = .kDelete <;>
      simp [hr, hop, WalRecord.effect]

/-- The committed records are the durable ones among the kept. -/
theorem History.committedEffect_eq (h : History rs) (afterLsn : Nat) (key : Key) :
    committedEffect rs afterLsn key =
      ((keptFor rs afterLsn key).filter (Durable rs ·)).getLast?.map WalRecord.effect := by
  rw [committedEffect, foldl_effect, keptFor, List.filter_filter]
  congr 2
  refine List.filter_congr fun r _ => ?_
  by_cases hr : Durable rs r
  · simp [hr, h.durable_not_aborted hr]
  · simp [hr]

/-! ## The condition -/

/-- The last kept record of a key has the largest LSN among them. -/
theorem History.le_last_kept (h : History rs) {afterLsn : Nat} {key : Key} {r r' : WalRecord}
    (hl : (keptFor rs afterLsn key).getLast? = some r) (hr' : r' ∈ keptFor rs afterLsn key) :
    r'.lsn ≤ r.lsn := by
  obtain ⟨init, hi⟩ := List.getLast?_eq_some_iff.1 hl
  have hs : (keptFor rs afterLsn key).Pairwise (·.lsn < ·.lsn) :=
    (h.sorted.filter _).filter _
  rw [hi] at hs hr'
  rcases List.mem_append.1 hr' with hm | hm
  · exact Nat.le_of_lt ((List.pairwise_append.1 hs).2.2 _ hm _ List.mem_cons_self)
  · rw [List.mem_singleton.1 hm]

/-- A key's slot shows its committed history exactly when its last kept record is durable, or no
kept record is. -/
theorem slot_matches_iff (ks : List WalRecord) :
    ((ks.getLast?.filter (Durable rs ·)).map WalRecord.effect
        = (ks.filter (Durable rs ·)).getLast?.map WalRecord.effect) ↔
      ∀ r, ks.getLast? = some r → (∃ d ∈ ks, Durable rs d) → Durable rs r := by
  rcases List.eq_nil_or_concat ks with rfl | ⟨init, r, rfl⟩
  · simp
  rw [List.concat_eq_append, List.getLast?_append, List.filter_append]
  by_cases hr : Durable rs r
  · simp [hr]
  · simp [hr, Option.filter_some, eq_comm (a := none)]

/-- **Replay.** A reader sees the committed history of every key exactly when no record of a
transaction left open stays on top of a committed one. -/
theorem replay_matches_iff {rs : List WalRecord} (h : History rs) (afterLsn : Nat) :
    ReplayMatches rs afterLsn ↔ OpenRecordsOverwritten rs afterLsn := by
  have hslot : ReplayMatches rs afterLsn ↔ ∀ key r,
      (keptFor rs afterLsn key).getLast? = some r →
        (∃ d ∈ keptFor rs afterLsn key, Durable rs d) → Durable rs r := by
    constructor
    · intro hm key
      have := hm ⟨0, 0⟩ key rfl
      rw [h.visibleIn_replay _ rfl, h.committedEffect_eq] at this
      exact (slot_matches_iff _).1 this
    · intro hs ctx key hctx
      rw [h.visibleIn_replay _ hctx, h.committedEffect_eq]
      exact (slot_matches_iff _).2 (hs key)
  rw [hslot]
  constructor
  · -- the last kept record of the key is the one that overwrites
    intro hs d hd hdd hdl hdur o ho hod hopen hkey hlt
    have hdk : d ∈ keptFor rs afterLsn d.key :=
      mem_keptFor.2 ⟨hd, hdd, hdl, rfl, h.durable_not_aborted hdur⟩
    have hok : o ∈ keptFor rs afterLsn d.key :=
      mem_keptFor.2 ⟨ho, hod, by omega, hkey, hopen.2.2⟩
    cases hl : (keptFor rs afterLsn d.key).getLast? with
    | none => simp [List.getLast?_eq_none_iff.1 hl] at hdk
    | some r =>
      have hr := hs d.key r hl ⟨d, hdk, hdur⟩
      obtain ⟨hrm, hrd, -, hrk, -⟩ := mem_keptFor.1 (List.mem_of_getLast? hl)
      have hle := h.le_last_kept hl hok
      have hne : o.lsn ≠ r.lsn := by
        intro he
        rw [h.eq_of_lsn ho hrm he] at hopen
        exact hr.elim hopen.1 hopen.2.1
      exact ⟨r, hrm, hrd, hr, hrk, by omega⟩
  · rintro hov key r hl ⟨d, hdk, hdur⟩
    by_contra hr
    obtain ⟨hd, hdd, hdl, rfl, -⟩ := mem_keptFor.1 hdk
    obtain ⟨hrm, hrd, hrl, hrk, hra⟩ := mem_keptFor.1 (List.mem_of_getLast? hl)
    have hopen : OpenAtCrash rs r := ⟨fun h0 => hr (.inl h0), fun hc => hr (.inr hc), hra⟩
    have hle := h.le_last_kept hl hdk
    have hne : d.lsn ≠ r.lsn := by
      intro he
      exact hr (h.eq_of_lsn hd hrm he ▸ hdur)
    obtain ⟨d', hd', hdd', hdur', hk', hlt'⟩ :=
      hov d hd hdd hdl hdur r hrm hrd hopen hrk (by omega)
    have := h.le_last_kept hl
      (mem_keptFor.2 ⟨hd', hdd', by omega, hk', h.durable_not_aborted hdur'⟩)
    omega

/-- An autocommit put, and a put, a begin and a commit record of two transactions: the second is
left open, on another key. -/
def mixedHistory : List WalRecord :=
  [⟨1, .kPut, [1], [10], 0⟩, ⟨2, .kTxnBegin, [], [], 7⟩, ⟨3, .kPut, [1], [11], 7⟩,
    ⟨4, .kPut, [2], [20], 9⟩, ⟨5, .kTxnCommit, [], [], 7⟩]

/-- An autocommit put that a transaction left open writes over. -/
def overwrittenHistory : List WalRecord := [⟨1, .kPut, [1], [10], 0⟩, ⟨2, .kPut, [1], [11], 9⟩]

theorem replay_matches_mixed : ReplayMatches mixedHistory 0 := by
  have h : History mixedHistory :=
    ⟨by decide, by decide, by decide, by decide⟩
  exact (replay_matches_iff h 0).2 (by unfold OpenRecordsOverwritten; decide)

theorem replay_hides_committed : ¬ ReplayMatches overwrittenHistory 0 := by
  intro hm
  have := hm ⟨0, 0⟩ [1] rfl
  revert this
  decide +kernel

end EBTree.Wal
