import EBTree.Engine.Proof.Frames
import EBTree.Engine.Proof.Reopen
import EBTree.Sql.Session

/-!
# What a session does to the shards

A relation between a shard before and after some calls that is `Closed` under the calls of sessions
holds, shard by shard, between the engines before and after a step (`Over`). It is graded by the
number of records the calls append at most.

* `Over.onShard`, `Over.onOpened`: the two ways an engine reaches its shards.
* `readKey_over`, `recordWriteIntent_over`, …: one lemma for each call of a transaction, which also
  says that the transaction stays what it was.
* `commit_cases`, `rollback_cases`: a transaction ends by releasing its snapshot.
-/

set_option autoImplicit false

namespace EBTree.Sql

open Lib Sharded EBTree.Engine EBTree.Engine.ShardEngine TransactionState

/-- The relation is a preorder, and opening a shard keeps to it. -/
structure Graded (R : Nat → Shard → Shard → Prop) : Prop where
  refl : ∀ sh, R 0 sh sh
  trans : ∀ {n m sh sh' sh''}, R n sh sh' → R m sh' sh'' → R (n + m) sh sh''
  mono : ∀ {n m sh sh'}, n ≤ m → R n sh sh' → R m sh sh'
  ensure : ∀ opts sh, R 0 sh (.opened (sh.ensure opts))

/-- The relation holds over what is read. -/
structure Reading (R : Nat → Shard → Shard → Prop) : Prop extends Graded R where
  reads : ∀ {s s'}, Reads s s' → R 0 (.opened s) (.opened s')
  sync : ∀ s : ShardEngine,
    R 0 (.opened s) (.opened { s with wal := s.wal.syncExternalTailLocked })

/-- The relation holds over every call a session makes, for a transaction whose id is `mine` or for
none, except pinning and releasing its snapshot. -/
structure Closed (R : Nat → Shard → Shard → Prop) (mine : UInt32) : Prop extends Reading R where
  groupCommit : ∀ s : ShardEngine, R 0 (.opened s) (.opened s.groupCommitNow)
  write : ∀ (s : ShardEngine) r, r.txnId = mine ∨ r.txnId = 0 →
    R 1 (.opened s) (.opened (s.write r).1)
  commit : ∀ s : ShardEngine, R 1 (.opened s) (.opened (s.appendTxnCommit mine))
  abort : ∀ s : ShardEngine, R 1 (.opened s) (.opened (s.appendTxnAbort mine))
  promote : ∀ s : ShardEngine, R 0 (.opened s) (.opened (s.promoteTxn mine))
  clear : ∀ s : ShardEngine, R 0 (.opened s) (.opened (s.clearTxn mine))

/-- The relation holds shard by shard. -/
structure Over (R : Nat → Shard → Shard → Prop) (n : Nat) (e e' : Sharded.Engine) : Prop where
  opts : e'.opts = e.opts
  shards : List.Forall₂ (R n) e.shards e'.shards

/-- A transaction that goes on is the same one. -/
structure Same (t t' : TransactionState) : Prop where
  active : t'.active = t.active
  txnId : t'.txnId = t.txnId

theorem Same.refl (t : TransactionState) : Same t t := ⟨rfl, rfl⟩

variable {R : Nat → Shard → Shard → Prop} {mine : UInt32} {n m : Nat} {e e' e'' : Sharded.Engine}
  {key : Key} {t t' : TransactionState}

/-! ## The engine -/

namespace Over

theorem refl (hR : Graded R) (e : Sharded.Engine) : Over R 0 e e :=
  ⟨rfl, List.forall₂_same.2 fun sh _ => hR.refl sh⟩

theorem trans (hR : Graded R) (h : Over R n e e') (h' : Over R m e' e'') :
    Over R (n + m) e e'' := by
  refine ⟨h'.opts.trans h.opts, ?_⟩
  have h1 := h.shards
  have h2 := h'.shards
  generalize e.shards = l1 at h1
  generalize e'.shards = l2 at h1 h2
  generalize e''.shards = l3 at h2
  induction h1 generalizing l3 with
  | nil =>
    cases h2
    exact .nil
  | cons hab _ ih =>
    cases h2 with
    | cons hbc hl => exact .cons (hR.trans hab hbc) (ih _ hl)

theorem mono (hR : Graded R) (hle : n ≤ m) (h : Over R n e e') : Over R m e e' :=
  ⟨h.opts, h.shards.imp fun _ _ => hR.mono hle⟩

/-- A call on one shard, which is opened for it. -/
theorem onShard (hR : Graded R) {α : Type} {id : Nat}
    {f : ShardEngine → Option (ShardEngine × Except Status α)} {r : Except Status α}
    (hf : ∀ s s' r, f s = some (s', r) → R n (.opened s) (.opened s'))
    (h : e.onShard id f = some (e', r)) : Over R n e e' := by
  unfold Engine.onShard at h
  split at h
  · cases h
    exact (refl hR e).mono hR (Nat.zero_le n)
  · rename_i sh hsh
    obtain ⟨⟨s', r'⟩, hs, h⟩ := Option.map_eq_some_iff.1 h
    cases h
    refine ⟨rfl, List.forall₂_iff_get.2 ⟨(List.length_set ..).symm, fun i hi hi' => ?_⟩⟩
    simp only [List.get_eq_getElem, List.getElem_set]
    split
    · rename_i hid
      subst hid
      have hget : e.shards[id] = sh := (List.getElem?_eq_some_iff.1 hsh).2
      rw [hget, ← Nat.zero_add n]
      exact hR.trans (hR.ensure e.opts sh) (hf _ _ _ hs)
    · exact hR.mono (Nat.zero_le n) (hR.refl _)

/-- The loops over the open shards. -/
theorem onOpened (hR : Graded R) {f : Nat → ShardEngine → ShardEngine}
    (hf : ∀ i s, R n (.opened s) (.opened (f i s))) : Over R n e (e.onOpened f) := by
  refine ⟨rfl, List.forall₂_iff_get.2 ⟨List.length_mapIdx.symm, fun i hi hi' => ?_⟩⟩
  simp only [List.get_eq_getElem, Engine.onOpened, List.getElem_mapIdx]
  cases e.shards[i] with
  | closed files => exact hR.mono (Nat.zero_le n) (hR.refl _)
  | opened s => exact hf i s

/-- The memtables of the engine, which are those of shard 0. -/
theorem modify (hR : Graded R) {f : ShardEngine → ShardEngine}
    (hf : ∀ s, R n (.opened s) (.opened (f s))) :
    Over R n e { e with shards := e.shards.modify 0 (Shard.onOpened f) } := by
  refine ⟨rfl, List.forall₂_iff_get.2 ⟨(List.length_modify ..).symm, fun i hi hi' => ?_⟩⟩
  simp only [List.get_eq_getElem, List.getElem_modify]
  split
  · cases e.shards[i] with
    | closed files => exact hR.mono (Nat.zero_le n) (hR.refl _)
    | opened s => exact hf s
  · exact hR.mono (Nat.zero_le n) (hR.refl _)

/-- What the engine keeps beside its shards does not matter. -/
theorem withTickets (hR : Graded R) (tickets : List ActiveRangeTicket) :
    Over R 0 e { e with tickets := tickets } :=
  ⟨rfl, (refl hR e).shards⟩

end Over

/-- Two engines whose shards are paired by a relation. -/
theorem forall₂_getElem? {R : Shard → Shard → Prop} {l l' : List Shard} (h : List.Forall₂ R l l')
    {i : Nat} {sh' : Shard} (hsh : l'[i]? = some sh') : ∃ sh, l[i]? = some sh ∧ R sh sh' := by
  induction h generalizing i with
  | nil => simp at hsh
  | @cons a b l l' hab _ ih =>
    cases i with
    | zero =>
      rw [List.getElem?_cons_zero] at hsh
      exact ⟨a, List.getElem?_cons_zero, Option.some.inj hsh ▸ hab⟩
    | succ i =>
      rw [List.getElem?_cons_succ] at hsh ⊢
      exact ih hsh

/-- A call on one shard leaves the others as they are. -/
theorem onShard_getElem? {α : Type} {id : Nat}
    {f : ShardEngine → Option (ShardEngine × Except Status α)} {r : Except Status α}
    (h : e.onShard id f = some (e', r)) {i : Nat} {sh' : Shard} (hsh : e'.shards[i]? = some sh') :
    ∃ sh, e.shards[i]? = some sh ∧
      (sh' = sh ∨ (i = id ∧ ∃ s' r', f (sh.ensure e.opts) = some (s', r') ∧ sh' = .opened s')) := by
  unfold Engine.onShard at h
  split at h
  · cases h
    exact ⟨sh', hsh, .inl rfl⟩
  · rename_i sh hid
    obtain ⟨⟨s', r'⟩, hf, h⟩ := Option.map_eq_some_iff.1 h
    cases h
    rw [List.getElem?_set] at hsh
    split at hsh
    · rename_i hi
      split at hsh
      · cases hsh
        exact ⟨sh, hi ▸ hid, .inr ⟨hi.symm, s', r', hf, rfl⟩⟩
      · cases hsh
    · exact ⟨sh', hsh, .inl rfl⟩

/-! ## Reading and writing -/

theorem put_over (hR : Graded R) {value : Value} {txnId : UInt32} {r : Except Status Unit}
    (hw : ∀ s : ShardEngine,
      R 1 (.opened s) (.opened (s.write ⟨key, value, false, txnId⟩).1))
    (h : e.put key value txnId = some (e', r)) : Over R 1 e e' := by
  unfold Engine.put Engine.onKey at h
  refine Over.onShard hR (fun s s' r hs => ?_) h
  have hs : (s.write ⟨key, value, false, txnId⟩).1 = s' :=
    congrArg (·.1) (Option.some.inj hs)
  exact hs ▸ hw s

theorem delete_over (hR : Graded R) {txnId : UInt32} {r : Except Status Unit}
    (hw : ∀ s : ShardEngine, R 1 (.opened s) (.opened (s.write ⟨key, [], true, txnId⟩).1))
    (h : e.delete key txnId = some (e', r)) : Over R 1 e e' := by
  unfold Engine.delete Engine.onKey at h
  refine Over.onShard hR (fun s s' r hs => ?_) h
  have hs : (s.write ⟨key, [], true, txnId⟩).1 = s' := congrArg (·.1) (Option.some.inj hs)
  exact hs ▸ hw s

theorem get_over (hR : Reading R) {r : Except Status Version} (h : e.get key = some (e', r)) :
    Over R 0 e e' :=
  Over.onShard hR.toGraded (fun _ _ _ hs => hR.reads (get_reads hs)) h

theorem getAtSnapshot_over (hR : Reading R) {token : SnapshotToken} {txnId : UInt32}
    {r : Except Status Version} (h : e.getAtSnapshot key token txnId = some (e', r)) :
    Over R 0 e e' :=
  Over.onShard hR.toGraded (fun _ _ _ hs => hR.reads (getAtSnapshot_reads hs)) h

theorem sampleReadVersion_over (hR : Reading R) {r : Except Status Nat}
    (h : t.sampleReadVersion e key = some (e', r)) : Over R 0 e e' :=
  Over.onShard hR.toGraded (fun _ _ _ hs => hR.reads (resolveLsnAtSnapshot_reads hs)) h

theorem refresh_over (hR : Reading R) (s : ShardEngine) :
    R 0 (.opened s) (.opened s.refreshExternalWalIfPending) :=
  hR.trans (hR.sync s) (hR.reads (reads_refreshExternalWalIfPending s))

theorem resolveCurrentCommittedLsn_over (hR : Reading R) {r : Except Status Nat}
    (h : e.resolveCurrentCommittedLsn key = some (e', r)) : Over R 0 e e' :=
  Over.onShard hR.toGraded (fun s _ _ hs => resolveCurrentCommittedLsn_state hs ▸ refresh_over hR s) h

/-! ## The calls of a transaction -/

theorem readKey_over (hR : Reading R) {r : Except Status Version}
    (h : t.readKey e key = some (t', e', r)) : Over R 0 e e' ∧ Same t t' := by
  unfold readKey at h
  split at h
  · obtain ⟨⟨e1, r1⟩, h1, h⟩ := Option.map_eq_some_iff.1 h
    cases h
    exact ⟨get_over hR h1, Same.refl t⟩
  split at h
  · cases h
  · rename_i e1 visibleLsn hs
    obtain ⟨⟨e2, r2⟩, h2, h⟩ := Option.map_eq_some_iff.1 h
    cases h
    exact ⟨(sampleReadVersion_over hR hs).trans hR.toGraded (getAtSnapshot_over hR h2), ⟨rfl, rfl⟩⟩
  · rename_i e1 sample hs
    have h1 := sampleReadVersion_over hR hs
    split at h
    · cases h
      exact ⟨h1, Same.refl t⟩
    split at h
    · cases h
    · rename_i e2 committed hc
      obtain ⟨⟨e3, r3⟩, h3, h⟩ := Option.map_eq_some_iff.1 h
      cases h
      have h2 := h1.trans hR.toGraded (resolveCurrentCommittedLsn_over hR hc)
      exact ⟨h2.trans hR.toGraded (getAtSnapshot_over hR h3), ⟨rfl, rfl⟩⟩

theorem sampleWrite_over (hR : Reading R) (h : t.sampleWrite e key = some (t', e')) :
    Over R 0 e e' ∧ Same t t' := by
  obtain ⟨⟨e1, r⟩, h1, h⟩ := Option.map_eq_some_iff.1 h
  have hover := sampleReadVersion_over hR h1
  cases r with
  | ok lsn =>
    cases h
    exact ⟨hover, ⟨rfl, rfl⟩⟩
  | error sample =>
    simp only at h
    split at h
    · cases h
      exact ⟨hover, ⟨rfl, rfl⟩⟩
    · cases h
      exact ⟨hover, Same.refl t⟩

theorem recordWriteIntent_over (hR : Reading R)
    (h : t.recordWriteIntent e key = some (t', e')) : Over R 0 e e' ∧ Same t t' := by
  unfold recordWriteIntent at h
  split at h
  · cases h
    exact ⟨Over.refl hR.toGraded e, Same.refl t⟩
  split at h
  · exact sampleWrite_over hR h
  · obtain ⟨⟨e1, r⟩, h1, h⟩ := Option.map_eq_some_iff.1 h
    have hover := resolveCurrentCommittedLsn_over hR h1
    cases r with
    | ok lsn =>
      cases h
      exact ⟨hover, ⟨rfl, rfl⟩⟩
    | error st =>
      cases h
      exact ⟨hover, ⟨rfl, rfl⟩⟩
  · cases h
    exact ⟨Over.refl hR.toGraded e, ⟨rfl, rfl⟩⟩

theorem recordReadSample_over (hR : Reading R)
    (h : t.recordReadSample e key = some (t', e')) : Over R 0 e e' ∧ Same t t' := by
  unfold recordReadSample at h
  split at h
  · cases h
    exact ⟨Over.refl hR.toGraded e, Same.refl t⟩
  obtain ⟨⟨e1, r⟩, h1, h⟩ := Option.map_eq_some_iff.1 h
  have hover := sampleReadVersion_over hR h1
  cases r with
  | ok lsn =>
    cases h
    exact ⟨hover, ⟨rfl, rfl⟩⟩
  | error sample =>
    simp only at h
    split at h
    · cases h
      exact ⟨hover, ⟨rfl, rfl⟩⟩
    · cases h
      exact ⟨hover, Same.refl t⟩

theorem registerRangeScan_over (hR : Reading R) (keyLo keyHi : Key) :
    Over R 0 e (t.registerRangeScan e keyLo keyHi).2 ∧
      Same t (t.registerRangeScan e keyLo keyHi).1 := by
  unfold registerRangeScan
  split
  · exact ⟨Over.refl hR.toGraded e, Same.refl t⟩
  · exact ⟨Over.withTickets hR.toGraded _, ⟨rfl, rfl⟩⟩

theorem recordBeforePut_over (hR : Reading R)
    (h : t.recordBeforePut e key = some (t', e')) : Over R 0 e e' ∧ Same t t' := by
  unfold recordBeforePut at h
  split at h
  · cases h
    exact ⟨Over.refl hR.toGraded e, Same.refl t⟩
  · obtain ⟨⟨t1, e1, r⟩, h1, h⟩ := Option.map_eq_some_iff.1 h
    cases h
    obtain ⟨hover, hsame⟩ := readKey_over hR h1
    exact ⟨hover, ⟨hsame.active, hsame.txnId⟩⟩

theorem savepoint_same (t : TransactionState) (name : String) : Same t (t.savepoint name).1 := by
  unfold savepoint
  split
  · exact Same.refl t
  · exact ⟨rfl, rfl⟩

theorem releaseSavepoint_same (t : TransactionState) (name : String) :
    Same t (t.releaseSavepoint name).1 := by
  unfold releaseSavepoint
  split
  · exact Same.refl t
  split
  · exact Same.refl t
  · exact ⟨rfl, rfl⟩

/-! ## The begin of a transaction -/

/-- A transaction that has begun. -/
def began (e : Sharded.Engine) (txnId : UInt32) : TransactionState :=
  { idle with
    active := true
    txnId := txnId
    snapshotToken := e.captureSnapshot }

/-- The begin of a transaction in the log of every shard. -/
theorem appendTxnBegin_over (hR : Graded R) {txnId : UInt32} {token : SnapshotToken}
    (hb : ∀ lsn s, R n (.opened s) (.opened (s.appendTxnBegin txnId lsn))) :
    Over R n e (e.appendTxnBegin txnId token) := by
  refine ⟨rfl, List.forall₂_iff_get.2 ⟨List.length_mapIdx.symm, fun i hi hi' => ?_⟩⟩
  simp only [List.get_eq_getElem, Engine.appendTxnBegin, List.getElem_mapIdx]
  rw [← Nat.zero_add n]
  exact hR.trans (hR.ensure e.opts _) (hb _ _)

/-- **A begin** fails in a session whose transaction goes on. -/
theorem begin_cases (t : TransactionState) (e : Sharded.Engine) (txnId : UInt32) :
    (t.active = true ∧ (t.begin e txnId).1 = t ∧ (t.begin e txnId).2.1 = e) ∨
      (t.active = false ∧ (t.begin e txnId).1 = began e txnId ∧
        (t.begin e txnId).2.1 =
          (e.pinSnapshot e.captureSnapshot).appendTxnBegin txnId e.captureSnapshot) := by
  unfold TransactionState.begin
  split
  · rename_i hact
    exact .inl ⟨hact, rfl, rfl⟩
  · rename_i hact
    exact .inr ⟨by simpa using hact, rfl, rfl⟩

/-! ## The end of a transaction -/

theorem currentLsn_over (hR : Reading R) {r : Except Status Nat}
    (h : currentLsn e key = some (e', r)) : Over R 0 e e' := by
  obtain ⟨⟨e1, r1⟩, h1, h⟩ := Option.map_eq_some_iff.1 h
  have hover := resolveCurrentCommittedLsn_over hR h1
  cases r1 with
  | ok lsn =>
    cases h
    exact hover
  | error st =>
    simp only at h
    split at h <;> (cases h; exact hover)

theorem validateLsns_over (hR : Reading R) {msg : String} {kvs : List (Key × Nat)}
    {r : Except Status Unit} (h : validateLsns msg e kvs = some (e', r)) : Over R 0 e e' := by
  induction kvs generalizing e with
  | nil =>
    cases h
    exact Over.refl hR.toGraded _
  | cons kv kvs ih =>
    rw [validateLsns] at h
    split at h
    · cases h
    · rename_i hc
      cases h
      exact currentLsn_over hR hc
    · rename_i hc
      split at h
      · cases h
        exact currentLsn_over hR hc
      · exact (currentLsn_over hR hc).trans hR.toGraded (ih h)

theorem validateCommitOCC_over (hR : Reading R) {r : Except Status Unit}
    (h : t.validateCommitOCC e = some (e', r)) : Over R 0 e e' := by
  have hrefresh : Over R 0 e e.refreshExternalWalForOCC :=
    Over.onOpened hR.toGraded fun _ s => refresh_over hR s
  unfold validateCommitOCC at h
  simp only at h
  split at h
  · cases h
  · rename_i hv
    cases h
    exact hrefresh.trans hR.toGraded (validateLsns_over hR hv)
  · rename_i hv
    have hreads := hrefresh.trans hR.toGraded (validateLsns_over hR hv)
    split at h
    · cases h
    · rename_i hw
      cases h
      exact hreads.trans hR.toGraded (validateLsns_over hR hw)
    · rename_i hw
      cases h
      exact hreads.trans hR.toGraded (validateLsns_over hR hw)

/-- **A commit** fails, the transaction going on, or ends the transaction. -/
theorem commit_cases (hread : Reading R) (hR : t.active = true → Closed R t.txnId)
    {tier : DurabilityClass} {r : Except Status Unit}
    (h : t.commit e tier = some (t', e', r)) :
    (t' = t ∧ Over R 0 e e') ∨
      (t.active = true ∧ t' = idle ∧
        ∃ e1, Over R 1 e e1 ∧ Over R 0 e1.releaseSnapshot e') := by
  unfold TransactionState.commit at h
  split at h
  · cases h
    exact .inl ⟨rfl, Over.refl hread.toGraded e⟩
  rename_i hact
  have hact : t.active = true := by simpa using hact
  have hR := hR hact
  split at h
  · cases h
  · rename_i hv
    cases h
    exact .inl ⟨rfl, validateCommitOCC_over hread hv⟩
  · rename_i e1 hv
    cases h
    have hended : Over R 1 e (((e1.appendTxnCommit t.txnId).promoteTxn
        t.txnId).unregisterRangeTickets t.txnId) :=
      (((validateCommitOCC_over hread hv).trans hR.toGraded (Over.onOpened hR.toGraded fun _ s =>
        hR.commit s)).trans hR.toGraded (Over.modify hR.toGraded fun s => hR.promote s)).trans
          hR.toGraded (Over.withTickets hR.toGraded _)
    refine .inr ⟨hact, rfl, _, hended, ?_⟩
    split
    · exact Over.onOpened hR.toGraded fun _ s => hR.groupCommit s
    · exact Over.refl hR.toGraded _

theorem undo_over (hR : Closed R mine) {txnId : UInt32} (hid : txnId = mine ∨ txnId = 0)
    {entry : TxnJournalEntry} (h : undo e entry txnId = some e') : Over R 1 e e' := by
  obtain ⟨⟨e1, r⟩, h1, rfl⟩ := Option.map_eq_some_iff.1 h
  split at h1
  · exact put_over hR.toGraded (fun s => hR.write s _ (.inr rfl)) h1
  · exact delete_over hR.toGraded (fun s => hR.write s _ hid) h1

theorem undoAll_over (hR : Closed R mine) {txnId : UInt32} (hid : txnId = mine ∨ txnId = 0)
    {entries : List TxnJournalEntry} (h : undoAll e txnId entries = some e') :
    Over R entries.length e e' := by
  induction entries generalizing e with
  | nil =>
    cases h
    exact Over.refl hR.toGraded _
  | cons entry entries ih =>
    rw [undoAll] at h
    split at h
    · cases h
    · rename_i hu
      rw [List.length_cons, Nat.add_comm]
      exact (undo_over hR hid hu).trans hR.toGraded (ih h)

/-- **A rollback** ends the transaction. -/
theorem rollback_cases (hR : t.active = true → Closed R t.txnId) {r : Except Status Unit}
    (h : t.rollback e = some (t', e', r)) :
    (t.active = false ∧ t' = t ∧ e' = e) ∨
      (t.active = true ∧ t' = idle ∧
        ∃ e1, Over R (1 + t.journal.length) e e1 ∧ e' = e1.releaseSnapshot) := by
  unfold rollback at h
  split at h
  · rename_i hact
    cases h
    exact .inl ⟨by simpa using hact, rfl, rfl⟩
  rename_i hact
  have hact : t.active = true := by simpa using hact
  have hR := hR hact
  obtain ⟨e1, hu, h⟩ := Option.map_eq_some_iff.1 h
  cases h
  refine .inr ⟨hact, rfl, e1, ?_, rfl⟩
  have habort : Over R 1 e ((e.appendTxnAbort t.txnId).clearTxn t.txnId) :=
    (Over.onOpened hR.toGraded fun _ s => hR.abort s).trans hR.toGraded
      (Over.modify hR.toGraded fun s => hR.clear s)
  have hundo := undoAll_over hR (.inr rfl) hu
  rw [List.length_reverse] at hundo
  exact (habort.trans hR.toGraded (Over.withTickets hR.toGraded _)).trans hR.toGraded hundo

theorem rollbackToSavepoint_over (hR : Graded R) (hact : t.active = true → Closed R t.txnId)
    {name : String} {r : Except Status Unit}
    (h : t.rollbackToSavepoint e name = some (t', e', r)) :
    Over R t.journal.length e e' ∧ Same t t' := by
  have hsame : Over R t.journal.length e e := (Over.refl hR e).mono hR (Nat.zero_le _)
  unfold rollbackToSavepoint at h
  split at h
  · cases h
    exact ⟨hsame, Same.refl t⟩
  rename_i ha
  split at h
  · cases h
    exact ⟨hsame, Same.refl t⟩
  · obtain ⟨e1, hu, h⟩ := Option.map_eq_some_iff.1 h
    cases h
    refine ⟨(undoAll_over (hact (by simpa using ha)) (.inl rfl) hu).mono hR ?_, ⟨rfl, rfl⟩⟩
    rw [List.length_reverse, List.length_drop]
    exact Nat.sub_le _ _

end EBTree.Sql
