import EBTree.Sql.Proof.Frames

/-!
# Range tickets

An open transaction leaves a ticket in the registry of the engine for every range it scans, and a
commit looks there for the ranges of the others.

* `step_change`: what a step does to the registry, to the transactions and to what is noted.
* `Registry.change`: the registry holds the ranges of the transactions that go on, and no others.
* `run_registry`: so it is in every run in which no id is given to two transactions at once.
* `run_ranges_kept`: nothing that had no version is committed into a range that another transaction
  scanned before and still holds.
* `run_commit_iff`: a transaction whose versions are current is refused for such a key only.
-/

set_option autoImplicit false

namespace EBTree.Sql

open Lib Sharded EBTree.Engine EBTree.Engine.ShardEngine TransactionState

/-! ## The registry under the calls -/

/-- The transaction and the ranges it has scanned. -/
structure SameRanges (t t' : TransactionState) : Prop extends Same t t' where
  rangeTickets : t'.rangeTickets = t.rangeTickets

theorem SameRanges.refl (t : TransactionState) : SameRanges t t := ⟨Same.refl t, rfl⟩

theorem SameRanges.trans {t t' t'' : TransactionState} (h : SameRanges t t')
    (h' : SameRanges t' t'') : SameRanges t t'' :=
  ⟨⟨h'.active.trans h.active, h'.txnId.trans h.txnId⟩, h'.rangeTickets.trans h.rangeTickets⟩

variable {e e' : Sharded.Engine} {key : Key} {t t' : TransactionState}

/-- A shard does not see the registry. -/
theorem onShard_tickets {α : Type} {id : Nat}
    {f : ShardEngine → Option (ShardEngine × Except Status α)} {r : Except Status α}
    (h : e.onShard id f = some (e', r)) : e'.tickets = e.tickets := by
  unfold Engine.onShard at h
  split at h
  · cases h
    rfl
  · obtain ⟨x, -, h⟩ := Option.map_eq_some_iff.1 h
    cases h
    rfl

theorem put_tickets {value : Value} {txnId : UInt32} {r : Except Status Unit}
    (h : e.put key value txnId = some (e', r)) : e'.tickets = e.tickets := by
  unfold Engine.put Engine.onKey at h
  exact onShard_tickets h

theorem delete_tickets {txnId : UInt32} {r : Except Status Unit}
    (h : e.delete key txnId = some (e', r)) : e'.tickets = e.tickets := by
  unfold Engine.delete Engine.onKey at h
  exact onShard_tickets h

theorem get_tickets {r : Except Status Version} (h : e.get key = some (e', r)) :
    e'.tickets = e.tickets := by
  unfold Engine.get Engine.onKey at h
  exact onShard_tickets h

theorem getAtSnapshot_tickets {token : SnapshotToken} {txnId : UInt32} {r : Except Status Version}
    (h : e.getAtSnapshot key token txnId = some (e', r)) : e'.tickets = e.tickets := by
  unfold Engine.getAtSnapshot Engine.onKey at h
  exact onShard_tickets h

theorem sampleReadVersion_tickets {r : Except Status Nat}
    (h : t.sampleReadVersion e key = some (e', r)) : e'.tickets = e.tickets := by
  unfold sampleReadVersion Engine.resolveLsnAtSnapshot Engine.onKey at h
  exact onShard_tickets h

theorem resolveCurrentCommittedLsn_tickets {r : Except Status Nat}
    (h : e.resolveCurrentCommittedLsn key = some (e', r)) : e'.tickets = e.tickets := by
  unfold Engine.resolveCurrentCommittedLsn Engine.onKey at h
  exact onShard_tickets h

theorem readKey_ranges {r : Except Status Version} (h : t.readKey e key = some (t', e', r)) :
    e'.tickets = e.tickets ∧ SameRanges t t' := by
  unfold readKey at h
  split at h
  · obtain ⟨⟨e1, r1⟩, h1, h⟩ := Option.map_eq_some_iff.1 h
    cases h
    exact ⟨get_tickets h1, SameRanges.refl t⟩
  split at h
  · cases h
  · rename_i e1 visibleLsn hs
    obtain ⟨⟨e2, r2⟩, h2, h⟩ := Option.map_eq_some_iff.1 h
    cases h
    exact ⟨(getAtSnapshot_tickets h2).trans (sampleReadVersion_tickets hs), ⟨⟨rfl, rfl⟩, rfl⟩⟩
  · rename_i e1 sample hs
    split at h
    · cases h
      exact ⟨sampleReadVersion_tickets hs, SameRanges.refl t⟩
    split at h
    · cases h
    · rename_i e2 committed hc
      obtain ⟨⟨e3, r3⟩, h3, h⟩ := Option.map_eq_some_iff.1 h
      cases h
      have h2 := (resolveCurrentCommittedLsn_tickets hc).trans (sampleReadVersion_tickets hs)
      exact ⟨(getAtSnapshot_tickets h3).trans h2, ⟨⟨rfl, rfl⟩, rfl⟩⟩

theorem recordReadSample_ranges (h : t.recordReadSample e key = some (t', e')) :
    e'.tickets = e.tickets ∧ SameRanges t t' := by
  unfold recordReadSample at h
  split at h
  · cases h
    exact ⟨rfl, SameRanges.refl t⟩
  obtain ⟨⟨e1, r⟩, h1, h⟩ := Option.map_eq_some_iff.1 h
  have htickets := sampleReadVersion_tickets h1
  cases r with
  | ok lsn =>
    cases h
    exact ⟨htickets, ⟨⟨rfl, rfl⟩, rfl⟩⟩
  | error sample =>
    simp only at h
    split at h
    · cases h
      exact ⟨htickets, ⟨⟨rfl, rfl⟩, rfl⟩⟩
    · cases h
      exact ⟨htickets, SameRanges.refl t⟩

theorem sampleWrite_ranges (h : t.sampleWrite e key = some (t', e')) :
    e'.tickets = e.tickets ∧ SameRanges t t' := by
  obtain ⟨⟨e1, r⟩, h1, h⟩ := Option.map_eq_some_iff.1 h
  have htickets := sampleReadVersion_tickets h1
  cases r with
  | ok lsn =>
    cases h
    exact ⟨htickets, ⟨⟨rfl, rfl⟩, rfl⟩⟩
  | error sample =>
    simp only at h
    split at h
    · cases h
      exact ⟨htickets, ⟨⟨rfl, rfl⟩, rfl⟩⟩
    · cases h
      exact ⟨htickets, SameRanges.refl t⟩

theorem recordWriteIntent_ranges (h : t.recordWriteIntent e key = some (t', e')) :
    e'.tickets = e.tickets ∧ SameRanges t t' := by
  unfold recordWriteIntent at h
  split at h
  · cases h
    exact ⟨rfl, SameRanges.refl t⟩
  split at h
  · exact sampleWrite_ranges h
  · obtain ⟨⟨e1, r⟩, h1, h⟩ := Option.map_eq_some_iff.1 h
    have htickets := resolveCurrentCommittedLsn_tickets h1
    cases r with
    | ok lsn =>
      cases h
      exact ⟨htickets, ⟨⟨rfl, rfl⟩, rfl⟩⟩
    | error st =>
      cases h
      exact ⟨htickets, ⟨⟨rfl, rfl⟩, rfl⟩⟩
  · cases h
    exact ⟨rfl, ⟨⟨rfl, rfl⟩, rfl⟩⟩

theorem recordBeforePut_ranges (h : t.recordBeforePut e key = some (t', e')) :
    e'.tickets = e.tickets ∧ SameRanges t t' := by
  unfold recordBeforePut at h
  split at h
  · cases h
    exact ⟨rfl, SameRanges.refl t⟩
  · obtain ⟨⟨t1, e1, r⟩, h1, h⟩ := Option.map_eq_some_iff.1 h
    cases h
    obtain ⟨htickets, hsame⟩ := readKey_ranges h1
    exact ⟨htickets, hsame.trans ⟨⟨rfl, rfl⟩, rfl⟩⟩

theorem savepoint_ranges (t : TransactionState) (name : String) :
    SameRanges t (t.savepoint name).1 := by
  refine ⟨savepoint_same t name, ?_⟩
  unfold savepoint
  split <;> rfl

theorem releaseSavepoint_ranges (t : TransactionState) (name : String) :
    SameRanges t (t.releaseSavepoint name).1 := by
  refine ⟨releaseSavepoint_same t name, ?_⟩
  unfold releaseSavepoint
  split
  · rfl
  split <;> rfl

theorem undoAll_tickets {txnId : UInt32} {entries : List TxnJournalEntry}
    (h : undoAll e txnId entries = some e') : e'.tickets = e.tickets := by
  induction entries generalizing e with
  | nil =>
    cases h
    rfl
  | cons entry entries ih =>
    rw [undoAll] at h
    split at h
    · cases h
    · rename_i e1 hu
      obtain ⟨⟨e2, r⟩, h2, rfl⟩ := Option.map_eq_some_iff.1 hu
      refine (ih h).trans ?_
      split at h2
      · exact put_tickets h2
      · exact delete_tickets h2

theorem rollbackToSavepoint_ranges {name : String} {r : Except Status Unit}
    (h : t.rollbackToSavepoint e name = some (t', e', r)) :
    e'.tickets = e.tickets ∧ SameRanges t t' := by
  unfold rollbackToSavepoint at h
  split at h
  · cases h
    exact ⟨rfl, SameRanges.refl t⟩
  split at h
  · cases h
    exact ⟨rfl, SameRanges.refl t⟩
  · obtain ⟨e1, hu, h⟩ := Option.map_eq_some_iff.1 h
    cases h
    exact ⟨undoAll_tickets hu, ⟨⟨rfl, rfl⟩, rfl⟩⟩

/-! ## The end of a transaction -/

/-- A write set has no key in a range that had no version when it was written. -/
def Spares (writeSet : SortedMap Key Nat) (keyLo keyHi : Key) : Prop :=
  ∀ key, writeSet.find? key = some 0 → keyInRange key keyLo keyHi = false

theorem validateTickets_iff {tickets : List ActiveRangeTicket} {txnId : UInt32}
    {writeSet : SortedMap Key Nat} : validateTickets tickets txnId writeSet = .ok () ↔
      ∀ k ∈ tickets, k.txnId ≠ txnId → Spares writeSet k.keyLo k.keyHi := by
  unfold validateTickets
  have hfresh : ∀ k : ActiveRangeTicket, (writeSet.entries.any fun w =>
      keyInRange w.1 k.keyLo k.keyHi ∧ w.2 = 0) = false ↔ Spares writeSet k.keyLo k.keyHi := by
    intro k
    rw [List.any_eq_false]
    constructor
    · intro h key hkey
      have hno := h (key, 0) (SortedMap.mem_entries_iff.2 hkey)
      simpa using hno
    · intro h w hw hin
      obtain ⟨hin, hzero⟩ := of_decide_eq_true hin
      have hout := h w.1 (SortedMap.mem_entries_iff.1 (by rw [← hzero]; exact hw))
      exact Bool.false_ne_true (hout.symm.trans hin)
  constructor
  · intro h k hk hid
    split at h
    · cases h
    · rename_i hnone
      rw [Bool.not_eq_true, List.any_eq_false] at hnone
      rw [← hfresh, Bool.eq_false_iff]
      exact fun hany => hnone k hk (decide_eq_true ⟨hid, hany⟩)
  · intro h
    rw [if_neg]
    rw [Bool.not_eq_true, List.any_eq_false]
    intro k hk hbad
    obtain ⟨hid, hany⟩ := of_decide_eq_true hbad
    exact Bool.false_ne_true (((hfresh k).2 (h k hk hid)).symm.trans hany)

/-- The loops of `ValidateCommitOCC` over the versions, without the look at the registry. -/
def TransactionState.checkLsns (t : TransactionState) (e : Sharded.Engine) :
    Option (Sharded.Engine × Except Status Unit) :=
  match validateLsns "snapshot conflict on key" e.refreshExternalWalForOCC
      (t.readSet.entries.filter fun kv => !t.writeSet.contains kv.1) with
  | some (e, .ok ()) => validateLsns "write ticket stale" e t.writeSet.entries
  | x => x

theorem validateCommitOCC_eq (t : TransactionState) (e : Sharded.Engine) :
    t.validateCommitOCC e = (t.checkLsns e).map fun x =>
      (x.1, x.2.bind fun _ => validateTickets x.1.tickets t.txnId t.writeSet) := by
  unfold validateCommitOCC checkLsns
  simp only
  split
  · rename_i h
    rw [h]
    rfl
  · rename_i h
    rw [h]
    rfl
  · rename_i h
    rw [h]
    simp only
    split
    · rename_i h2
      rw [h2]
      rfl
    · rename_i h2
      rw [h2]
      rfl
    · rename_i h2
      rw [h2]
      rfl

theorem validateLsns_tickets {msg : String} {kvs : List (Key × Nat)} {r : Except Status Unit}
    (h : validateLsns msg e kvs = some (e', r)) : e'.tickets = e.tickets := by
  induction kvs generalizing e with
  | nil =>
    cases h
    rfl
  | cons kv kvs ih =>
    have hcur : ∀ {e1 : Sharded.Engine} {r1 : Except Status Nat},
        currentLsn e kv.1 = some (e1, r1) → e1.tickets = e.tickets := by
      intro e1 r1 hc
      obtain ⟨⟨e2, r2⟩, h2, hc⟩ := Option.map_eq_some_iff.1 hc
      have htickets := resolveCurrentCommittedLsn_tickets h2
      cases r2 with
      | ok lsn =>
        cases hc
        exact htickets
      | error st =>
        simp only at hc
        split at hc <;> (cases hc; exact htickets)
    rw [validateLsns] at h
    split at h
    · cases h
    · rename_i hc
      cases h
      exact hcur hc
    · rename_i hc
      split at h
      · cases h
        exact hcur hc
      · exact (ih h).trans (hcur hc)

theorem checkLsns_tickets {r : Except Status Unit} (h : t.checkLsns e = some (e', r)) :
    e'.tickets = e.tickets := by
  unfold checkLsns at h
  split at h
  · rename_i h1
    have hreads := validateLsns_tickets h1
    exact (validateLsns_tickets h).trans hreads
  · have hreads := validateLsns_tickets h
    exact hreads

/-- **A commit** ends the transaction where the versions and the registry allow it, and leaves the
transaction and the registry alone where they do not. -/
theorem commit_ranges {tier : DurabilityClass} {r : Except Status Unit}
    (h : t.commit e tier = some (t', e', r)) :
    (t' = t ∧ e'.tickets = e.tickets) ∨
      (t.active = true ∧ t' = idle ∧ validateTickets e.tickets t.txnId t.writeSet = .ok () ∧
        e'.tickets = e.tickets.filter fun k => k.txnId ≠ t.txnId) := by
  unfold TransactionState.commit at h
  split at h
  · cases h
    exact .inl ⟨rfl, rfl⟩
  rename_i hact
  rw [validateCommitOCC_eq] at h
  split at h
  · cases h
  · rename_i hv
    cases h
    obtain ⟨x, hx, hv⟩ := Option.map_eq_some_iff.1 hv
    obtain ⟨rfl, -⟩ := Prod.mk.inj hv
    exact .inl ⟨rfl, checkLsns_tickets hx⟩
  · rename_i e1 hv
    cases h
    obtain ⟨⟨e2, r2⟩, hx, hv⟩ := Option.map_eq_some_iff.1 hv
    have htickets := checkLsns_tickets hx
    cases r2 with
    | error st => cases hv
    | ok u =>
      obtain ⟨rfl, hok⟩ := Prod.mk.inj hv
      have hok : validateTickets e2.tickets t.txnId t.writeSet = .ok () := hok
      rw [htickets] at hok
      refine .inr ⟨by simpa using hact, rfl, hok, ?_⟩
      rw [← htickets]
      split <;> rfl

/-- **A rollback** takes the tickets of the transaction back. -/
theorem rollback_ranges {r : Except Status Unit} (h : t.rollback e = some (t', e', r)) :
    (t.active = false ∧ t' = t ∧ e'.tickets = e.tickets) ∨
      (t.active = true ∧ t' = idle ∧
        e'.tickets = e.tickets.filter fun k => k.txnId ≠ t.txnId) := by
  unfold rollback at h
  split at h
  · rename_i hact
    cases h
    exact .inl ⟨by simpa using hact, rfl, rfl⟩
  · rename_i hact
    obtain ⟨e1, hu, h⟩ := Option.map_eq_some_iff.1 h
    cases h
    exact .inr ⟨by simpa using hact, rfl, undoAll_tickets hu⟩

/-! ## What a step does -/

variable {σ : Type} [DecidableEq σ] {d d' : Database σ}

/-- For every session, the ranges its transaction has scanned, each with the write sets that others
have committed since. -/
abbrev Watch (σ : Type) := σ → List (RangeTicket × List (SortedMap Key Nat))

/-- What an observer notes of a transaction that commits. -/
def Watch.committed (w : Watch σ) (t : σ) (writeSet : SortedMap Key Nat) : Watch σ := fun t' =>
  if t' = t then [] else (w t').map fun x => (x.1, x.2 ++ [writeSet])

/-- What an observer notes. -/
def watchAfter (w : Watch σ) (d : Database σ) (st : Step σ) (d' : Database σ) : Watch σ :=
  match st with
  | .registerRangeScan t keyLo keyHi =>
    if (d.sessions t).active then
      Function.update w t
        (w t ++ [(⟨(d.sessions t).snapshotToken.forShard 0, keyLo, keyHi⟩, [])])
    else w
  | .commit t _ =>
    if (d.sessions t).active && !(d'.sessions t).active then
      w.committed t (d.sessions t).writeSet
    else w
  | .rollback t => Function.update w t []
  | .restart _ _ _ => fun _ => []
  | _ => w

/-- No transaction begins under an id that another one has which goes on. -/
def NewId (d : Database σ) (_ : Watch σ) : Step σ → Prop
  | .begin _ => ∀ t, (d.sessions t).active = true → (d.sessions t).txnId ≠ d.nextTxnId
  | _ => True

/-- The kinds of steps, and what is noted of them. -/
inductive Change (d d' : Database σ) : (Watch σ → Watch σ) → Prop
  | quiet : d'.engine.tickets = d.engine.tickets →
      (∀ t, SameRanges (d.sessions t) (d'.sessions t)) → Change d d' id
  | began (t : σ) : (d.sessions t).active = false →
      (∀ t', (d.sessions t').active = true → (d.sessions t').txnId ≠ d.nextTxnId) →
      d'.engine.tickets = d.engine.tickets →
      d'.sessions = Function.update d.sessions t (began d.engine d.nextTxnId) → Change d d' id
  | scanned (t : σ) (range : RangeTicket) : (d.sessions t).active = true →
      d'.engine.tickets = d.engine.tickets ++
        [⟨(d.sessions t).txnId, range.snapshotLsn, range.keyLo, range.keyHi⟩] →
      d'.sessions = Function.update d.sessions t
        { d.sessions t with rangeTickets := (d.sessions t).rangeTickets ++ [range] } →
      Change d d' fun w => Function.update w t (w t ++ [(range, [])])
  | committed (t : σ) : (d.sessions t).active = true →
      validateTickets d.engine.tickets (d.sessions t).txnId (d.sessions t).writeSet = .ok () →
      d'.engine.tickets = d.engine.tickets.filter (fun k => k.txnId ≠ (d.sessions t).txnId) →
      d'.sessions = Function.update d.sessions t idle →
      Change d d' fun w => w.committed t (d.sessions t).writeSet
  | rolledBack (t : σ) : (d.sessions t).active = true →
      d'.engine.tickets = d.engine.tickets.filter (fun k => k.txnId ≠ (d.sessions t).txnId) →
      d'.sessions = Function.update d.sessions t idle →
      Change d d' fun w => Function.update w t []
  | idled (t : σ) : (d.sessions t).active = false → d'.engine.tickets = d.engine.tickets →
      d'.sessions = d.sessions → Change d d' fun w => Function.update w t []
  | restarted : d'.engine.tickets = [] → (∀ t, d'.sessions t = idle) → Change d d' fun _ _ => []

/-- A call of a session that keeps to its transaction. -/
theorem Change.after {t : σ} {x : TransactionState × Sharded.Engine}
    (htickets : x.2.tickets = d.engine.tickets) (hsame : SameRanges (d.sessions t) x.1) :
    Change d (d.after t x) id := by
  refine .quiet htickets fun t' => ?_
  show SameRanges (d.sessions t') (Function.update d.sessions t x.1 t')
  by_cases he : t' = t
  · subst he
    rw [Function.update_self]
    exact hsame
  · rw [Function.update_of_ne he]
    exact SameRanges.refl _

theorem open_tickets {opts : EngineOptions} {eager : Bool} {files : List ShardFiles}
    (h : Engine.open opts eager files = .ok e) : e.tickets = [] := by
  unfold Engine.open at h
  cases hv : validateShardCount files.length with
  | error err =>
    rw [hv] at h
    cases h
  | ok u =>
    rw [hv] at h
    cases h
    rfl

/-- **Every step** is one of these. -/
theorem step_change {st : Step σ} {w : Watch σ} (hnew : NewId d w st) (hs : d.step st = some d') :
    ∃ f, Change d d' f ∧ watchAfter w d st d' = f w := by
  cases st with
  | begin t =>
    cases hs
    rcases begin_cases (d.sessions t) d.engine d.nextTxnId with ⟨ht, hb1, hb2⟩ | ⟨ht, hb1, hb2⟩
    · rw [hb1, hb2]
      refine ⟨id, .quiet rfl fun t' => ?_, rfl⟩
      show SameRanges (d.sessions t') (Function.update d.sessions t (d.sessions t) t')
      rw [Function.update_eq_self]
      exact SameRanges.refl _
    · rw [hb1, hb2]
      exact ⟨id, .began t ht hnew rfl rfl, rfl⟩
  | commit t tier =>
    obtain ⟨⟨t', e', r⟩, hc, rfl⟩ := Option.map_eq_some_iff.1 hs
    rcases commit_ranges hc with ⟨rfl, htickets⟩ | ⟨ht, rfl, hok, htickets⟩
    · refine ⟨id, .after htickets (SameRanges.refl _), ?_⟩
      unfold watchAfter
      simp only [Database.after, Function.update_self]
      rw [if_neg (by cases (d.sessions t).active <;> decide)]
      rfl
    · refine ⟨_, .committed t ht hok htickets rfl, ?_⟩
      unfold watchAfter
      simp only [Database.after, Function.update_self]
      rw [if_pos (by rw [ht]; rfl)]
  | rollback t =>
    obtain ⟨⟨t', e', r⟩, hc, rfl⟩ := Option.map_eq_some_iff.1 hs
    rcases rollback_ranges hc with ⟨ht, rfl, htickets⟩ | ⟨ht, rfl, htickets⟩
    · exact ⟨_, .idled t ht htickets (Function.update_eq_self _ _), rfl⟩
    · exact ⟨_, .rolledBack t ht htickets rfl, rfl⟩
  | savepoint t name =>
    cases hs
    exact ⟨id, .after rfl (savepoint_ranges _ name), rfl⟩
  | releaseSavepoint t name =>
    cases hs
    exact ⟨id, .after rfl (releaseSavepoint_ranges _ name), rfl⟩
  | rollbackToSavepoint t name =>
    obtain ⟨⟨t', e', r⟩, hc, rfl⟩ := Option.map_eq_some_iff.1 hs
    obtain ⟨htickets, hsame⟩ := rollbackToSavepoint_ranges hc
    exact ⟨id, .after htickets hsame, rfl⟩
  | readKey t key =>
    obtain ⟨⟨t', e', r⟩, hc, rfl⟩ := Option.map_eq_some_iff.1 hs
    obtain ⟨htickets, hsame⟩ := readKey_ranges hc
    exact ⟨id, .after htickets hsame, rfl⟩
  | recordWriteIntent t key =>
    obtain ⟨⟨t', e'⟩, hc, rfl⟩ := Option.map_eq_some_iff.1 hs
    obtain ⟨htickets, hsame⟩ := recordWriteIntent_ranges hc
    exact ⟨id, .after htickets hsame, rfl⟩
  | recordReadSample t key =>
    obtain ⟨⟨t', e'⟩, hc, rfl⟩ := Option.map_eq_some_iff.1 hs
    obtain ⟨htickets, hsame⟩ := recordReadSample_ranges hc
    exact ⟨id, .after htickets hsame, rfl⟩
  | recordBeforePut t key =>
    obtain ⟨⟨t', e'⟩, hc, rfl⟩ := Option.map_eq_some_iff.1 hs
    obtain ⟨htickets, hsame⟩ := recordBeforePut_ranges hc
    exact ⟨id, .after htickets hsame, rfl⟩
  | registerRangeScan t keyLo keyHi =>
    cases hs
    by_cases ht : (d.sessions t).active = true
    · refine ⟨_, .scanned t ⟨(d.sessions t).snapshotToken.forShard 0, keyLo, keyHi⟩ ht ?_ ?_, ?_⟩
      · simp only [registerRangeScan, ht]
        rfl
      · simp only [registerRangeScan, ht]
        rfl
      · unfold watchAfter
        simp only [if_pos ht]
    · refine ⟨id, .after ?_ ?_, ?_⟩
      · simp only [registerRangeScan, ht]
        rfl
      · simp only [registerRangeScan, ht]
        exact SameRanges.refl _
      · unfold watchAfter
        simp only [if_neg ht]
        rfl
  | put t key value =>
    obtain ⟨⟨e', r⟩, hc, rfl⟩ := Option.map_eq_some_iff.1 hs
    exact ⟨id, .quiet (put_tickets hc) fun _ => SameRanges.refl _, rfl⟩
  | delete t key =>
    obtain ⟨⟨e', r⟩, hc, rfl⟩ := Option.map_eq_some_iff.1 hs
    exact ⟨id, .quiet (delete_tickets hc) fun _ => SameRanges.refl _, rfl⟩
  | call id op =>
    obtain ⟨⟨e', r⟩, hc, rfl⟩ := Option.map_eq_some_iff.1 hs
    exact ⟨_, .quiet (onShard_tickets hc) fun _ => SameRanges.refl _, rfl⟩
  | restart opts eagerShardOpen left =>
    simp only [Database.step] at hs
    split at hs
    · rename_i e ho
      cases hs
      exact ⟨_, .restarted (open_tickets ho) fun _ => rfl, rfl⟩
    · cases hs

/-! ## The registry -/

/-- The tickets of a transaction. -/
def TransactionState.tickets (t : TransactionState) : List ActiveRangeTicket :=
  t.rangeTickets.map fun r => ⟨t.txnId, r.snapshotLsn, r.keyLo, r.keyHi⟩

/-- The registry holds the ranges of the transactions that go on, and no others. -/
structure Registry (d : Database σ) : Prop where
  held : ∀ t, (d.sessions t).active = true →
    (d.engine.tickets.filter fun k => k.txnId = (d.sessions t).txnId) = (d.sessions t).tickets
  owned : ∀ k ∈ d.engine.tickets, ∃ t, (d.sessions t).active = true ∧
    (d.sessions t).txnId = k.txnId
  apart : ∀ t t', (d.sessions t).active = true → (d.sessions t').active = true →
    (d.sessions t).txnId = (d.sessions t').txnId → t = t'
  idle : ∀ t, (d.sessions t).active = false → (d.sessions t).rangeTickets = []

omit [DecidableEq σ] in
theorem SameRanges.tickets {t t' : TransactionState} (h : SameRanges t t') :
    t'.tickets = t.tickets := by
  rw [TransactionState.tickets, h.rangeTickets, h.txnId]
  rfl

omit [DecidableEq σ] in
/-- No transaction goes on. -/
theorem registry_idle (htickets : d.engine.tickets = []) (h : ∀ t, d.sessions t = .idle) :
    Registry d where
  held t ht := by
    rw [h t] at ht
    cases ht
  owned k hk := by
    rw [htickets] at hk
    cases hk
  apart t t' ht := by
    rw [h t] at ht
    cases ht
  idle t _ := by
    rw [h t]
    rfl

/-- A transaction is over, and its tickets are taken back. -/
theorem Registry.ended (hi : Registry d) {t : σ} (ht : (d.sessions t).active = true)
    (htickets : d'.engine.tickets =
      d.engine.tickets.filter fun k => k.txnId ≠ (d.sessions t).txnId)
    (hsessions : d'.sessions = Function.update d.sessions t .idle) : Registry d' := by
  have hself : d'.sessions t = .idle := by rw [hsessions, Function.update_self]
  have hother : ∀ t', (d'.sessions t').active = true → t' ≠ t ∧ d'.sessions t' = d.sessions t' := by
    intro t' ht'
    have hne : t' ≠ t := by
      rintro rfl
      rw [hself] at ht'
      cases ht'
    exact ⟨hne, by rw [hsessions, Function.update_of_ne hne]⟩
  refine ⟨fun t' ht' => ?_, fun k hk => ?_, fun t1 t2 h1 h2 hid => ?_, fun t' ht' => ?_⟩
  · obtain ⟨hne, he⟩ := hother t' ht'
    rw [he] at ht' ⊢
    rw [htickets, List.filter_filter, ← hi.held t' ht']
    -- the tickets of the others have other ids
    refine List.filter_congr fun k _ => ?_
    by_cases hk : k.txnId = (d.sessions t').txnId
    · have hid : k.txnId ≠ (d.sessions t).txnId :=
        fun h => hne (hi.apart t' t ht' ht (hk.symm.trans h))
      simp [hk, hk ▸ hid]
    · simp [hk]
  · rw [htickets, List.mem_filter] at hk
    obtain ⟨hk, hid⟩ := hk
    obtain ⟨t', ht', hid'⟩ := hi.owned k hk
    have hne : t' ≠ t := by
      rintro rfl
      exact of_decide_eq_true hid hid'.symm
    refine ⟨t', ?_⟩
    rw [hsessions, Function.update_of_ne hne]
    exact ⟨ht', hid'⟩
  · obtain ⟨-, he1⟩ := hother t1 h1
    obtain ⟨-, he2⟩ := hother t2 h2
    rw [he1] at h1 hid
    rw [he2] at h2 hid
    exact hi.apart t1 t2 h1 h2 hid
  · by_cases he : t' = t
    · rw [he, hself]
      rfl
    · rw [hsessions, Function.update_of_ne he] at ht' ⊢
      exact hi.idle t' ht'

/-- A transaction has scanned a range. -/
theorem Registry.scanned (hi : Registry d) {t : σ} {range : RangeTicket}
    (ht : (d.sessions t).active = true)
    (htickets : d'.engine.tickets = d.engine.tickets ++
      [⟨(d.sessions t).txnId, range.snapshotLsn, range.keyLo, range.keyHi⟩])
    (hsessions : d'.sessions = Function.update d.sessions t
      { d.sessions t with rangeTickets := (d.sessions t).rangeTickets ++ [range] }) :
    Registry d' := by
  have hsame : ∀ t', Same (d.sessions t') (d'.sessions t') := by
    intro t'
    rw [hsessions]
    by_cases he : t' = t
    · subst he
      rw [Function.update_self]
      exact ⟨rfl, rfl⟩
    · rw [Function.update_of_ne he]
      exact Same.refl _
  refine ⟨fun t' ht' => ?_, fun k hk => ?_, fun t1 t2 h1 h2 hid => ?_, fun t' ht' => ?_⟩
  · rw [(hsame t').active] at ht'
    rw [htickets, List.filter_append, (hsame t').txnId, hi.held t' ht']
    by_cases he : t' = t
    · subst he
      rw [hsessions, Function.update_self, TransactionState.tickets, TransactionState.tickets,
        List.map_append, List.filter_cons_of_pos (by simp)]
      rfl
    · have hid : (d.sessions t).txnId ≠ (d.sessions t').txnId :=
        fun h => he (hi.apart t' t ht' ht h.symm)
      rw [hsessions, Function.update_of_ne he, List.filter_cons_of_neg (by simpa using hid),
        List.filter_nil, List.append_nil]
  · rw [htickets, List.mem_append, List.mem_singleton] at hk
    rcases hk with hk | rfl
    · obtain ⟨t', ht', hid⟩ := hi.owned k hk
      exact ⟨t', (hsame t').active.trans ht', (hsame t').txnId.trans hid⟩
    · exact ⟨t, (hsame t).active.trans ht, (hsame t).txnId⟩
  · rw [(hsame t1).active] at h1
    rw [(hsame t2).active] at h2
    rw [(hsame t1).txnId, (hsame t2).txnId] at hid
    exact hi.apart t1 t2 h1 h2 hid
  · rw [(hsame t').active] at ht'
    have hne : t' ≠ t := by
      rintro rfl
      rw [ht] at ht'
      cases ht'
    rw [hsessions, Function.update_of_ne hne]
    exact hi.idle t' ht'

/-- A transaction has begun. -/
theorem Registry.began (hi : Registry d) {t : σ} {txnId : UInt32}
    (ht : (d.sessions t).active = false)
    (hnew : ∀ t', (d.sessions t').active = true → (d.sessions t').txnId ≠ txnId)
    (htickets : d'.engine.tickets = d.engine.tickets)
    (hsessions : d'.sessions = Function.update d.sessions t (EBTree.Sql.began d.engine txnId)) :
    Registry d' := by
  have hself : d'.sessions t = EBTree.Sql.began d.engine txnId := by
    rw [hsessions, Function.update_self]
  have hother : ∀ t', t' ≠ t → d'.sessions t' = d.sessions t' := by
    intro t' hne
    rw [hsessions, Function.update_of_ne hne]
  have hnone : (d.engine.tickets.filter fun k => k.txnId = txnId) = [] := by
    rw [List.filter_eq_nil_iff]
    intro k hk hid
    obtain ⟨t', ht', hid'⟩ := hi.owned k hk
    exact hnew t' ht' (hid'.trans (of_decide_eq_true hid))
  refine ⟨fun t' ht' => ?_, fun k hk => ?_, fun t1 t2 h1 h2 hid => ?_, fun t' ht' => ?_⟩
  · rw [htickets]
    by_cases he : t' = t
    · rw [he, hself]
      exact hnone
    · rw [hother t' he] at ht' ⊢
      exact hi.held t' ht'
  · rw [htickets] at hk
    obtain ⟨t', ht', hid⟩ := hi.owned k hk
    have hne : t' ≠ t := by
      rintro rfl
      rw [ht] at ht'
      cases ht'
    rw [← hother t' hne] at ht' hid
    exact ⟨t', ht', hid⟩
  · -- the new one has an id of its own
    by_cases he1 : t1 = t
    · by_cases he2 : t2 = t
      · exact he1.trans he2.symm
      · rw [he1, hself, hother t2 he2] at hid
        rw [hother t2 he2] at h2
        exact absurd hid.symm (hnew t2 h2)
    · rw [hother t1 he1] at h1 hid
      by_cases he2 : t2 = t
      · rw [he2, hself] at hid
        exact absurd hid (hnew t1 h1)
      · rw [hother t2 he2] at h2 hid
        exact hi.apart t1 t2 h1 h2 hid
  · have hne : t' ≠ t := by
      rintro rfl
      rw [hself] at ht'
      cases ht'
    rw [hother t' hne] at ht' ⊢
    exact hi.idle t' ht'

omit [DecidableEq σ] in
theorem Registry.quiet (hi : Registry d) (htickets : d'.engine.tickets = d.engine.tickets)
    (hsame : ∀ t, SameRanges (d.sessions t) (d'.sessions t)) : Registry d' := by
  refine ⟨fun t ht => ?_, fun k hk => ?_, fun t1 t2 h1 h2 hid => ?_, fun t ht => ?_⟩
  · rw [(hsame t).active] at ht
    rw [htickets, (hsame t).txnId, (hsame t).tickets]
    exact hi.held t ht
  · rw [htickets] at hk
    obtain ⟨t, ht, hid⟩ := hi.owned k hk
    exact ⟨t, (hsame t).active.trans ht, (hsame t).txnId.trans hid⟩
  · rw [(hsame t1).active] at h1
    rw [(hsame t2).active] at h2
    rw [(hsame t1).txnId, (hsame t2).txnId] at hid
    exact hi.apart t1 t2 h1 h2 hid
  · rw [(hsame t).active] at ht
    rw [(hsame t).rangeTickets]
    exact hi.idle t ht

/-- **The registry** stays that of the transactions that go on. -/
theorem Registry.change (hi : Registry d) {f : Watch σ → Watch σ} (hc : Change d d' f) :
    Registry d' := by
  cases hc with
  | quiet htickets hsame => exact hi.quiet htickets hsame
  | began t ht hnew htickets hsessions => exact hi.began ht hnew htickets hsessions
  | scanned t range ht htickets hsessions => exact hi.scanned ht htickets hsessions
  | committed t ht _ htickets hsessions => exact hi.ended ht htickets hsessions
  | rolledBack t ht htickets hsessions => exact hi.ended ht htickets hsessions
  | idled t _ htickets hsessions =>
    exact hi.quiet htickets fun t' => hsessions ▸ SameRanges.refl _
  | restarted htickets hidle => exact registry_idle htickets hidle

/-! ## What is noted -/

/-- What was noted is what the transactions have scanned, and no write set has a new key there. -/
structure Watched (d : Database σ) (w : Watch σ) : Prop where
  registry : Registry d
  ranges : ∀ t, (w t).map (·.1) = (d.sessions t).rangeTickets
  spared : ∀ t x, x ∈ w t → ∀ writeSet ∈ x.2, Spares writeSet x.1.keyLo x.1.keyHi

omit [DecidableEq σ] in
/-- What the registry allows spares the ranges of all the others. -/
theorem Registry.validate_iff (hi : Registry d) {t : σ} (ht : (d.sessions t).active = true)
    (writeSet : SortedMap Key Nat) :
    validateTickets d.engine.tickets (d.sessions t).txnId writeSet = .ok () ↔
      ∀ t', t' ≠ t → ∀ range ∈ (d.sessions t').rangeTickets,
        Spares writeSet range.keyLo range.keyHi := by
  rw [validateTickets_iff]
  constructor
  · intro hok t' hne range hrange
    have ht' : (d.sessions t').active = true := by
      rw [← Bool.not_eq_false]
      intro hoff
      rw [hi.idle t' hoff] at hrange
      cases hrange
    have hheld := hi.held t' ht'
    have hmem : (⟨(d.sessions t').txnId, range.snapshotLsn, range.keyLo, range.keyHi⟩ :
        ActiveRangeTicket) ∈ (d.sessions t').tickets := List.mem_map.2 ⟨range, hrange, rfl⟩
    rw [← hheld, List.mem_filter] at hmem
    exact hok _ hmem.1 fun hid => hne (hi.apart t' t ht' ht hid)
  · intro hall k hk hid
    obtain ⟨t', ht', hid'⟩ := hi.owned k hk
    have hmem : k ∈ d.engine.tickets.filter fun k => k.txnId = (d.sessions t').txnId :=
      List.mem_filter.2 ⟨hk, decide_eq_true hid'.symm⟩
    rw [hi.held t' ht'] at hmem
    obtain ⟨range, hrange, rfl⟩ := List.mem_map.1 hmem
    refine hall t' ?_ range hrange
    rintro rfl
    exact hid hid'.symm

theorem Watched.change {w : Watch σ} (hi : Watched d w) {f : Watch σ → Watch σ}
    (hc : Change d d' f) : Watched d' (f w) := by
  refine ⟨hi.registry.change hc, ?_, ?_⟩
  · cases hc with
    | quiet _ hsame => exact fun t => (hi.ranges t).trans (hsame t).rangeTickets.symm
    | began t ht _ _ hsessions =>
      intro t'
      rw [id, hi.ranges t', hsessions]
      by_cases he : t' = t
      · rw [he, Function.update_self, hi.registry.idle t ht]
        rfl
      · rw [Function.update_of_ne he]
    | scanned t range _ _ hsessions =>
      intro t'
      beta_reduce
      rw [hsessions]
      by_cases he : t' = t
      · rw [he, Function.update_self, Function.update_self, List.map_append, hi.ranges t]
        rfl
      · rw [Function.update_of_ne he, Function.update_of_ne he]
        exact hi.ranges t'
    | committed t _ _ _ hsessions =>
      intro t'
      beta_reduce
      rw [hsessions, Watch.committed]
      by_cases he : t' = t
      · rw [he, if_pos rfl, Function.update_self]
        rfl
      · rw [if_neg he, Function.update_of_ne he, List.map_map, ← hi.ranges t']
        rfl
    | rolledBack t _ _ hsessions =>
      intro t'
      beta_reduce
      rw [hsessions]
      by_cases he : t' = t
      · rw [he, Function.update_self, Function.update_self]
        rfl
      · rw [Function.update_of_ne he, Function.update_of_ne he]
        exact hi.ranges t'
    | idled t ht _ hsessions =>
      intro t'
      beta_reduce
      rw [hsessions]
      by_cases he : t' = t
      · rw [he, Function.update_self, hi.registry.idle t ht]
        rfl
      · rw [Function.update_of_ne he]
        exact hi.ranges t'
    | restarted _ hidle =>
      intro t
      rw [hidle t]
      rfl
  · cases hc with
    | quiet _ _ => exact hi.spared
    | began _ _ _ _ _ => exact hi.spared
    | scanned t range _ _ _ =>
      intro t' x hx
      beta_reduce at hx
      by_cases he : t' = t
      · rw [he, Function.update_self, List.mem_append, List.mem_singleton] at hx
        rcases hx with hx | rfl
        · exact hi.spared t x hx
        · exact fun _ hws => absurd hws List.not_mem_nil
      · rw [Function.update_of_ne he] at hx
        exact hi.spared t' x hx
    | committed t ht hok _ _ =>
      intro t' x hx writeSet hws
      beta_reduce at hx
      rw [Watch.committed] at hx
      by_cases he : t' = t
      · rw [if_pos he] at hx
        cases hx
      · rw [if_neg he] at hx
        obtain ⟨y, hy, rfl⟩ := List.mem_map.1 hx
        rcases List.mem_append.1 hws with hws | hws
        · exact hi.spared t' y hy writeSet hws
        · -- the one that commits was let through by the registry
          rw [List.mem_singleton.1 hws]
          have hrange : y.1 ∈ (d.sessions t').rangeTickets :=
            hi.ranges t' ▸ List.mem_map_of_mem hy
          exact (hi.registry.validate_iff ht _).1 hok t' he y.1 hrange
    | rolledBack t _ _ _ =>
      intro t' x hx
      beta_reduce at hx
      by_cases he : t' = t
      · rw [he, Function.update_self] at hx
        cases hx
      · rw [Function.update_of_ne he] at hx
        exact hi.spared t' x hx
    | idled t _ _ _ =>
      intro t' x hx
      beta_reduce at hx
      by_cases he : t' = t
      · rw [he, Function.update_self] at hx
        cases hx
      · rw [Function.update_of_ne he] at hx
        exact hi.spared t' x hx
    | restarted _ _ => exact fun t x hx => absurd hx List.not_mem_nil

theorem run_watched {w : Watch σ} (hr : Run (fun _ => []) watchAfter NewId d w) : Watched d w := by
  induction hr with
  | start ho =>
    exact ⟨registry_idle (open_tickets ho) fun _ => rfl, fun _ => rfl,
      fun _ _ hx => absurd hx List.not_mem_nil⟩
  | step _ _ hnew hs ih =>
    obtain ⟨f, hc, hw⟩ := step_change hnew hs
    rw [hw]
    exact ih.change hc

/-! ## Runs -/

/-- **The registry holds the ranges of the transactions that go on**, for each of them what it
scanned and in that order, and no ticket is left of one that is over. -/
theorem run_registry {w : Watch σ} (hr : Run (fun _ => []) watchAfter NewId d w) :
    (∀ t, (d.sessions t).active = true → (d.engine.tickets.filter fun k =>
      k.txnId = (d.sessions t).txnId) = (d.sessions t).tickets) ∧
    ∀ k ∈ d.engine.tickets, ∃ t, (d.sessions t).active = true ∧ k ∈ (d.sessions t).tickets := by
  have hi := (run_watched hr).registry
  refine ⟨hi.held, fun k hk => ?_⟩
  obtain ⟨t, ht, hid⟩ := hi.owned k hk
  refine ⟨t, ht, ?_⟩
  rw [← hi.held t ht]
  exact List.mem_filter.2 ⟨hk, decide_eq_true hid.symm⟩

/-- **A commit is refused for a new key in a range of another transaction, and for no other
reason** once the versions it read and wrote are current. -/
theorem run_commit_iff {w : Watch σ} (hr : Run (fun _ => []) watchAfter NewId d w) {t : σ}
    (ht : (d.sessions t).active = true) {e : Sharded.Engine}
    (hcurrent : (d.sessions t).checkLsns d.engine = some (e, .ok ())) (tier : DurabilityClass) :
    ((∃ e', (d.sessions t).commit d.engine tier = some (.idle, e', .ok ())) ↔
      ∀ t', t' ≠ t → ∀ range ∈ (d.sessions t').rangeTickets,
        Spares (d.sessions t).writeSet range.keyLo range.keyHi) ∧
    ((¬ ∀ t', t' ≠ t → ∀ range ∈ (d.sessions t').rangeTickets,
        Spares (d.sessions t).writeSet range.keyLo range.keyHi) →
      (d.sessions t).commit d.engine tier =
        some (d.sessions t, e, .error (Status.conflict "phantom range conflict"))) := by
  rw [← (run_watched hr).registry.validate_iff ht, ← checkLsns_tickets hcurrent]
  have hocc : (d.sessions t).validateCommitOCC d.engine =
      some (e, validateTickets e.tickets (d.sessions t).txnId (d.sessions t).writeSet) := by
    rw [validateCommitOCC_eq, hcurrent]
    rfl
  have hcases : validateTickets e.tickets (d.sessions t).txnId (d.sessions t).writeSet = .ok () ∨
      validateTickets e.tickets (d.sessions t).txnId (d.sessions t).writeSet =
        .error (Status.conflict "phantom range conflict") := by
    unfold validateTickets
    split
    · exact .inr rfl
    · exact .inl rfl
  unfold TransactionState.commit
  rw [ht, hocc]
  rcases hcases with hok | hbad
  · rw [hok]
    exact ⟨⟨fun _ => rfl, fun _ => ⟨_, rfl⟩⟩, fun hno => absurd rfl hno⟩
  · rw [hbad]
    refine ⟨⟨fun h => ?_, fun h => nomatch h⟩, fun _ => rfl⟩
    obtain ⟨e', h⟩ := h
    have herr := congrArg (fun x => x.map (·.2.2)) h
    cases herr

/-! ## Two sessions -/

/-- A run goes on with steps that are always allowed. -/
theorem Run.stepsOf {H : Type} {h₀ : H} {next : H → Database σ → Step σ → Database σ → H}
    {ok : Database σ → H → Step σ → Prop} {h h' : H} (hr : Run h₀ next ok d h) {sts : List (Step σ)}
    (hok : ∀ st ∈ sts, ∀ d h, ok d h st) (hs : runSteps next d h sts = some (d', h')) :
    Run h₀ next ok d' h' := by
  induction sts generalizing d h with
  | nil =>
    cases hs
    exact hr
  | cons st sts ih =>
    rw [runSteps] at hs
    split at hs
    · rename_i hposs
      split at hs
      · cases hs
      · rename_i d1 hstep
        have h1 := hr.step hposs (hok st List.mem_cons_self d h) hstep
        exact ih h1 (fun st hst => hok st (List.mem_cons_of_mem _ hst)) hs
    · cases hs

/-- Two sessions on a new engine of one shard, after both have begun a transaction. -/
def bothBegan : Option (Database Bool) :=
  ((Database.start ⟨.sync, [.opened (ShardEngine.open .sync .none)], []⟩).step (.begin false)).bind
    fun d => d.step (.begin true)

theorem run_bothBegan : ∃ d, bothBegan = some d ∧
    Run (fun _ => []) watchAfter NewId d fun _ => [] := by
  have h0 : Run (fun _ => []) watchAfter NewId
      (.start ⟨.sync, [.opened (ShardEngine.open .sync .none)], []⟩ : Database Bool) fun _ => [] :=
    @Run.start _ _ _ _ _ _ .sync false 1 _ rfl
  have h1 := @Run.step _ _ _ _ _ _ _ _ _ (.begin false) h0 trivial
    (by unfold NewId; decide) rfl
  exact ⟨_, rfl, @Run.step _ _ _ _ _ _ _ _ _ (.begin true) h1 trivial
    (by unfold NewId; decide) rfl⟩

theorem run_registry_scanned : ∃ d : Database Bool, d.engine.tickets ≠ [] ∧
    ∀ k ∈ d.engine.tickets, ∃ t, (d.sessions t).active = true ∧ k ∈ (d.sessions t).tickets := by
  obtain ⟨d, hd, hr⟩ := run_bothBegan
  have hr1 := @Run.step _ _ _ _ _ _ _ _ _ (.registerRangeScan false [1] [3]) hr trivial trivial rfl
  refine ⟨_, ?_, (run_registry hr1).2⟩
  cases hd
  decide

/-- One session scans a range, and the other one is refused for a new key in it. -/
theorem run_commit_iff_refused : ∃ (d : Database Bool) (e : Sharded.Engine),
    (d.sessions true).commit d.engine .kSync =
      some (d.sessions true, e, .error (Status.conflict "phantom range conflict")) := by
  obtain ⟨d, hd, hr⟩ := run_bothBegan
  obtain ⟨⟨d', w⟩, hs, hx⟩ := (Option.any_eq_true _ _).1 (show ((bothBegan.bind fun d =>
      runSteps watchAfter d (fun _ => []) [.registerRangeScan false [1] [3],
        .recordWriteIntent true [2]]).any fun x =>
    (x.1.sessions true).active && ((x.1.sessions true).writeSet.find? [2] == some 0) &&
      ((x.1.sessions false).rangeTickets == [⟨0, [1], [3]⟩]) &&
      ((x.1.sessions true).checkLsns x.1.engine).any (·.2.isOk)) = true by decide +kernel)
  rw [hd] at hs
  have hr' := hr.stepsOf (by simp [NewId]) hs
  simp only [Bool.and_eq_true, beq_iff_eq] at hx
  obtain ⟨⟨⟨hact, hfresh⟩, hrange⟩, hcheck⟩ := hx
  obtain ⟨⟨e, r⟩, hcheck, hok⟩ := (Option.any_eq_true _ _).1 hcheck
  cases r with
  | error st => cases hok
  | ok u =>
    refine ⟨d', e, (run_commit_iff hr' hact hcheck .kSync).2 fun hall => ?_⟩
    have hspared := hall false Bool.false_ne_true ⟨0, [1], [3]⟩ (by rw [hrange]; simp) [2] hfresh
    revert hspared
    decide

end EBTree.Sql
