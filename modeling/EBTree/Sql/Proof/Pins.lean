import EBTree.Sql.Proof.Frames

/-!
# Pins and transactions

`live d p i` are the transactions that go on and pinned the shard `i` when they began, as an
observer noted (`p`).

* `PinInv.begin`, `PinInv.ended`, `PinInv.step`: the counter of every shard is the number of these, through
  a transaction that begins, one that ends, and any other call.
* `run_pins_count`: so it is in every run in which the shards that are open when a transaction ends
  were open when it began.
* `pin_count_wraps`: a shard opened in between is released by a transaction that never pinned it.
-/

set_option autoImplicit false

namespace EBTree.Sql

open Lib Sharded EBTree.Engine EBTree.Engine.ShardEngine TransactionState

/-! ## Shards -/

def isOpen (sh : Shard) : Bool := sh.engine?.isSome

/-- `snapshot_pin_count_`, `0` while the shard is closed. -/
def pinCount (sh : Shard) : UInt32 := sh.engine?.elim 0 (·.snapshotPinCount)

/-- The calls that pin nothing. -/
structure KeepsPins (sh sh' : Shard) : Prop where
  pinCount : pinCount sh' = pinCount sh
  isOpen : isOpen sh = true → isOpen sh' = true

theorem KeepsPins.of_eq {s s' : ShardEngine} (h : s'.snapshotPinCount = s.snapshotPinCount) :
    KeepsPins (.opened s) (.opened s') := ⟨h, fun _ => rfl⟩

theorem KeepsPins.refl (sh : Shard) : KeepsPins sh sh := ⟨rfl, id⟩

theorem KeepsPins.trans {sh sh' sh'' : Shard} (h : KeepsPins sh sh') (h' : KeepsPins sh' sh'') :
    KeepsPins sh sh'' := ⟨h'.pinCount.trans h.pinCount, fun ho => h'.isOpen (h.isOpen ho)⟩

theorem keepsPins_ensure (opts : EngineOptions) (sh : Shard) :
    KeepsPins sh (.opened (sh.ensure opts)) := by
  cases sh with
  | closed files => exact ⟨(open_frame opts files).2, fun _ => rfl⟩
  | opened s => exact KeepsPins.refl _

theorem graded_keepsPins : Graded fun _ => KeepsPins where
  refl := KeepsPins.refl
  trans h h' := h.trans h'
  mono _ h := h
  ensure := keepsPins_ensure

theorem reading_keepsPins : Reading fun _ => KeepsPins where
  toGraded := graded_keepsPins
  reads h := .of_eq h.pins
  sync _ := .of_eq rfl

theorem closed_keepsPins (mine : UInt32) : Closed (fun _ => KeepsPins) mine where
  toReading := reading_keepsPins
  groupCommit s := .of_eq (pins_groupCommitNow s)
  write s r _ := .of_eq (pins_write s r)
  commit _ := .of_eq rfl
  abort _ := .of_eq rfl
  promote _ := .of_eq rfl
  clear _ := .of_eq rfl

/-! ## Engines -/

/-- The shards that are open. -/
def openShards (e : Sharded.Engine) : List Nat :=
  (List.range e.shards.length).filter fun i => (e.shards[i]?).any isOpen

theorem mem_openShards {e : Sharded.Engine} {i : Nat} :
    i ∈ openShards e ↔ ∃ sh, e.shards[i]? = some sh ∧ isOpen sh = true := by
  rw [openShards, List.mem_filter, List.mem_range, Option.any_eq_true]
  constructor
  · exact fun h => h.2
  · rintro ⟨sh, hsh, ho⟩
    exact ⟨(List.getElem?_eq_some_iff.1 hsh).1, sh, hsh, ho⟩

/-- What releasing a snapshot does to a shard. -/
theorem releaseSnapshot_getElem? {e : Sharded.Engine} {i : Nat} {sh' : Shard}
    (h : e.releaseSnapshot.shards[i]? = some sh') :
    ∃ sh, e.shards[i]? = some sh ∧ isOpen sh' = isOpen sh ∧
      pinCount sh' = if isOpen sh then pinCount sh - 1 else pinCount sh := by
  rw [Engine.releaseSnapshot, Engine.onOpened, List.getElem?_mapIdx] at h
  obtain ⟨sh, hsh, rfl⟩ := Option.map_eq_some_iff.1 h
  refine ⟨sh, hsh, ?_⟩
  cases sh with
  | closed files => exact ⟨rfl, rfl⟩
  | opened s => exact ⟨rfl, rfl⟩

/-- What beginning a transaction does to a shard: it is open now, and pinned if it was before. -/
theorem begin_getElem? {e : Sharded.Engine} {token : SnapshotToken} {txnId : UInt32} {i : Nat}
    {sh' : Shard} (h : ((e.pinSnapshot token).appendTxnBegin txnId token).shards[i]? = some sh') :
    ∃ sh, e.shards[i]? = some sh ∧ isOpen sh' = true ∧
      pinCount sh' = if isOpen sh then pinCount sh + 1 else pinCount sh := by
  simp only [Engine.appendTxnBegin, Engine.pinSnapshot, Engine.onOpened,
    List.getElem?_mapIdx, Option.map_map] at h
  obtain ⟨sh, hsh, rfl⟩ := Option.map_eq_some_iff.1 h
  refine ⟨sh, hsh, rfl, ?_⟩
  cases sh with
  | closed files => exact (open_frame e.opts files).2
  | opened s => rfl

/-! ## The invariant -/

variable {σ : Type}

/-- What an observer notes: the shards a transaction pins. -/
def pinsAfter [DecidableEq σ] (p : σ → List Nat) (d : Database σ) (st : Step σ) (_ : Database σ) : σ → List Nat :=
  match st with
  | .begin t =>
    if (d.sessions t).active then p else Function.update p t (openShards d.engine)
  | .restart _ _ _ => fun _ => []
  | _ => p

variable [Fintype σ]

/-- The transactions that go on. -/
def going (d : Database σ) : Finset σ := Finset.univ.filter fun t => (d.sessions t).active = true

/-- The transactions that go on and pinned the shard. -/
def live (d : Database σ) (p : σ → List Nat) (i : Nat) : Finset σ :=
  (going d).filter fun t => i ∈ p t

/-- The counter of every shard is the number of transactions that go on and pinned it; the count of
a process fits the counter. -/
structure PinsCount (d : Database σ) (p : σ → List Nat) : Prop where
  counts : ∀ (i : Nat) s, d.engine.shards[i]? = some (.opened s) →
    s.snapshotPinCount.toNat = (live d p i).card
  ended : (∀ t, (d.sessions t).active = false) →
    ∀ (i : Nat) s, d.engine.shards[i]? = some (.opened s) → s.snapshotPinCount = 0

/-- A transaction that ends has pinned every shard that is open, and there are not as many
transactions as a counter of 32 bits cannot count. -/
def Paired (d : Database σ) (p : σ → List Nat) : Step σ → Prop
  | .begin _ => (going d).card + 1 < 2 ^ 32
  | .commit t _ => (d.sessions t).active = true → ∀ i ∈ openShards d.engine, i ∈ p t
  | .rollback t => (d.sessions t).active = true → ∀ i ∈ openShards d.engine, i ∈ p t
  | _ => True

structure PinInv (d : Database σ) (p : σ → List Nat) : Prop where
  counts : ∀ (i : Nat) sh, d.engine.shards[i]? = some sh → pinCount sh = UInt32.ofNat (live d p i).card
  opened : ∀ t, (d.sessions t).active = true →
    ∀ (i : Nat) sh, d.engine.shards[i]? = some sh → isOpen sh = true
  few : (going d).card < 2 ^ 32

variable {d d' : Database σ} {p : σ → List Nat}

theorem mem_going {t : σ} : t ∈ going d ↔ (d.sessions t).active = true := by
  rw [going, Finset.mem_filter]
  exact and_iff_right (Finset.mem_univ t)

theorem mem_live {i : Nat} {t : σ} :
    t ∈ live d p i ↔ (d.sessions t).active = true ∧ i ∈ p t := by
  rw [live, Finset.mem_filter, mem_going]

theorem PinInv.pinsCount (hi : PinInv d p) : PinsCount d p where
  counts i s hs := by
    have hle : (live d p i).card < 2 ^ 32 :=
      Nat.lt_of_le_of_lt (Finset.card_le_card (Finset.filter_subset _ _)) hi.few
    have hc : s.snapshotPinCount = UInt32.ofNat (live d p i).card := hi.counts i _ hs
    rw [hc, UInt32.toNat_ofNat_of_lt' hle]
  ended hall i s hs := by
    have hnone : live d p i = ∅ := by
      apply Finset.eq_empty_of_forall_notMem
      intro t ht
      rw [mem_live, hall t] at ht
      exact absurd ht.1 Bool.false_ne_true
    have hc : s.snapshotPinCount = UInt32.ofNat (live d p i).card := hi.counts i _ hs
    rw [hc, hnone]
    rfl

/-- No transaction goes on, and nothing is pinned. -/
theorem inv_start {e : Sharded.Engine} (h : ∀ sh ∈ e.shards, pinCount sh = 0) :
    PinInv (.start e : Database σ) p where
  counts i sh hsh := by
    have hnone : live (.start e) p i = ∅ := by
      apply Finset.eq_empty_of_forall_notMem
      intro t ht
      exact absurd (mem_live.1 ht).1 Bool.false_ne_true
    rw [hnone]
    exact h sh (List.mem_of_getElem? hsh)
  opened t ht := absurd ht Bool.false_ne_true
  few := by
    have hnone : going (.start e : Database σ) = ∅ := by
      apply Finset.eq_empty_of_forall_notMem
      intro t ht
      exact absurd (mem_going.1 ht) Bool.false_ne_true
    rw [hnone, Finset.card_empty]
    exact Nat.two_pow_pos 32

theorem pinCount_open {opts : EngineOptions} {eager : Bool} {files : List ShardFiles}
    {e : Sharded.Engine} (h : Engine.open opts eager files = .ok e) :
    ∀ sh ∈ e.shards, pinCount sh = 0 := by
  intro sh hsh
  unfold Engine.open at h
  cases hv : validateShardCount files.length with
  | error err =>
    rw [hv] at h
    cases h
  | ok u =>
    rw [hv] at h
    cases h
    obtain ⟨f, -, rfl⟩ := List.mem_map.1 hsh
    split
    · exact (open_frame opts f).2
    · rfl

/-- Calls that pin nothing, for sessions that go on. -/
theorem PinInv.keeps (hi : PinInv d p) (hshards : List.Forall₂ KeepsPins d.engine.shards d'.engine.shards)
    (hactive : ∀ t, (d'.sessions t).active = (d.sessions t).active) : PinInv d' p := by
  have hgoing : going d' = going d := by
    ext t
    rw [mem_going, mem_going, hactive t]
  refine ⟨fun i sh' hsh' => ?_, fun t ht i sh' hsh' => ?_, hgoing ▸ hi.few⟩
  · obtain ⟨sh, hsh, hk⟩ := forall₂_getElem? hshards hsh'
    rw [live, hgoing, hk.pinCount]
    exact hi.counts i sh hsh
  · obtain ⟨sh, hsh, hk⟩ := forall₂_getElem? hshards hsh'
    exact hk.isOpen (hi.opened t (hactive t ▸ ht) i sh hsh)

variable [DecidableEq σ]

/-- **A transaction begins.** -/
theorem PinInv.begin (hi : PinInv d p) {t : σ} (ht : (d.sessions t).active = false)
    (hfew : (going d).card + 1 < 2 ^ 32)
    (hshards : ∀ (i : Nat) sh', d'.engine.shards[i]? = some sh' →
      ∃ sh, d.engine.shards[i]? = some sh ∧ isOpen sh' = true ∧
        pinCount sh' = if isOpen sh then pinCount sh + 1 else pinCount sh)
    (hactive : ∀ t', (d'.sessions t').active = if t' = t then true else (d.sessions t').active) :
    PinInv d' (Function.update p t (openShards d.engine)) := by
  have hgoing : going d' = insert t (going d) := by
    ext t'
    rw [Finset.mem_insert, mem_going, mem_going, hactive t']
    split
    · rename_i he
      simp [he]
    · rename_i he
      simp [he]
  have hnot : t ∉ going d := by
    rw [mem_going, ht]
    exact Bool.false_ne_true
  refine ⟨fun i sh' hsh' => ?_, fun _ _ i sh' hsh' => ?_, ?_⟩
  · obtain ⟨sh, hsh, -, hpin⟩ := hshards i sh' hsh'
    have hold := hi.counts i sh hsh
    have hmem : i ∈ openShards d.engine ↔ isOpen sh = true := by
      rw [mem_openShards]
      constructor
      · rintro ⟨sh2, h2, ho⟩
        cases h2.symm.trans hsh
        exact ho
      · exact fun ho => ⟨sh, hsh, ho⟩
    rw [hpin]
    split
    · rename_i ho
      have hlive : live d' (Function.update p t (openShards d.engine)) i =
          insert t (live d p i) := by
        ext t'
        rw [live, hgoing, Finset.mem_filter, Finset.mem_insert, Finset.mem_insert, live,
          Finset.mem_filter]
        by_cases he : t' = t
        · subst he
          rw [Function.update_self]
          simp [hmem.2 ho]
        · rw [Function.update_of_ne he]
          simp [he]
      have hnew : t ∉ live d p i := fun h => hnot (Finset.mem_filter.1 h).1
      rw [hlive, Finset.card_insert_of_notMem hnew, hold, UInt32.ofNat_add]
      rfl
    · rename_i ho
      have hlive : live d' (Function.update p t (openShards d.engine)) i = live d p i := by
        ext t'
        rw [live, hgoing, Finset.mem_filter, Finset.mem_insert, live, Finset.mem_filter]
        by_cases he : t' = t
        · subst he
          rw [Function.update_self]
          have hout : i ∉ openShards d.engine := fun h => ho (hmem.1 h)
          simp [hout, hnot]
        · rw [Function.update_of_ne he]
          simp [he]
      rw [hlive, hold]
  · obtain ⟨-, -, ho, -⟩ := hshards i sh' hsh'
    exact ho
  · rw [hgoing, Finset.card_insert_of_notMem hnot]
    exact hfew

/-- **A transaction ends**, having pinned every shard. -/
theorem PinInv.ended (hi : PinInv d p) {t : σ} (ht : (d.sessions t).active = true)
    (hp : ∀ i ∈ openShards d.engine, i ∈ p t)
    (hshards : ∀ (i : Nat) sh', d'.engine.shards[i]? = some sh' →
      ∃ sh, d.engine.shards[i]? = some sh ∧ isOpen sh' = true ∧
        pinCount sh' = pinCount sh - 1)
    (hactive : ∀ t', (d'.sessions t').active = if t' = t then false else (d.sessions t').active) :
    PinInv d' p := by
  have hgoing : going d' = (going d).erase t := by
    ext t'
    rw [Finset.mem_erase, mem_going, mem_going, hactive t']
    split
    · rename_i he
      simp [he]
    · rename_i he
      simp [he]
  refine ⟨fun i sh' hsh' => ?_, fun t' ht' i sh' hsh' => ?_, ?_⟩
  · obtain ⟨sh, hsh, -, hpin⟩ := hshards i sh' hsh'
    have hmem : t ∈ live d p i :=
      mem_live.2 ⟨ht, hp i (mem_openShards.2 ⟨sh, hsh, hi.opened t ht i sh hsh⟩)⟩
    have hlive : live d' p i = (live d p i).erase t := by
      rw [live, hgoing, live, Finset.filter_erase]
    have hpos : 1 ≤ (live d p i).card := Finset.card_pos.2 ⟨t, hmem⟩
    rw [hlive, Finset.card_erase_of_mem hmem, hpin, hi.counts i sh hsh, UInt32.ofNat_sub hpos]
    rfl
  · obtain ⟨-, -, ho, -⟩ := hshards i sh' hsh'
    exact ho
  · rw [hgoing]
    exact Nat.lt_of_le_of_lt (Finset.card_le_card (Finset.erase_subset _ _)) hi.few

/-! ## Steps -/

omit [Fintype σ] in
theorem active_update {t t' : σ} {x : TransactionState} {f : σ → TransactionState} :
    (Function.update f t x t').active = if t' = t then x.active else (f t').active := by
  by_cases h : t' = t
  · rw [if_pos h, h, Function.update_self]
  · rw [if_neg h, Function.update_of_ne h]

/-- A call of a transaction that goes on. -/
theorem PinInv.same (hi : PinInv d p) {t : σ} {n : Nat} {t' : TransactionState}
    {e : Sharded.Engine} (hover : Over (fun _ => KeepsPins) n d.engine e)
    (hsame : t'.active = (d.sessions t).active) : PinInv (d.after t (t', e)) p := by
  refine hi.keeps hover.shards fun t1 => ?_
  show (Function.update d.sessions t t' t1).active = _
  rw [active_update]
  split
  · rename_i he
    rw [he, hsame]
  · rfl

omit [DecidableEq σ] in
/-- A call that has nothing to do with the state of a transaction. -/
theorem PinInv.withEngine (hi : PinInv d p) {n : Nat} {e : Sharded.Engine}
    (hover : Over (fun _ => KeepsPins) n d.engine e) : PinInv { d with engine := e } p :=
  hi.keeps hover.shards fun _ => rfl

/-- A transaction is over: its calls pinned nothing, and then its snapshot was released. -/
theorem PinInv.released (hi : PinInv d p) {t : σ} (ht : (d.sessions t).active = true)
    (hp : ∀ i ∈ openShards d.engine, i ∈ p t) {n m : Nat} {e1 e : Sharded.Engine}
    (hover : Over (fun _ => KeepsPins) n d.engine e1)
    (hrest : Over (fun _ => KeepsPins) m e1.releaseSnapshot e) :
    PinInv (d.after t (idle, e)) p := by
  refine hi.ended ht hp (fun i sh' hsh' => ?_) fun t' => active_update
  obtain ⟨sh2, hsh2, hk2⟩ := forall₂_getElem? hrest.shards hsh'
  obtain ⟨sh1, hsh1, ho, hpin⟩ := releaseSnapshot_getElem? hsh2
  obtain ⟨sh, hsh, hk⟩ := forall₂_getElem? hover.shards hsh1
  have hopen : isOpen sh1 = true := hk.isOpen (hi.opened t ht i sh hsh)
  refine ⟨sh, hsh, hk2.isOpen (ho.trans hopen), ?_⟩
  rw [hk2.pinCount, hpin, if_pos hopen, hk.pinCount]

theorem PinInv.step (hi : PinInv d p) {st : Step σ} (hposs : Possible d st) (hp : Paired d p st)
    (hs : d.step st = some d') : PinInv d' (pinsAfter p d st d') := by
  have hread := reading_keepsPins
  have hR := closed_keepsPins
  cases st with
  | begin t =>
    cases hs
    rcases begin_cases (d.sessions t) d.engine d.nextTxnId with ⟨ht, hb1, hb2⟩ | ⟨ht, hb1, hb2⟩
    · rw [hb1, hb2, pinsAfter, if_pos ht, if_pos ht]
      refine hi.keeps (Over.refl graded_keepsPins d.engine).shards fun t' => ?_
      show (Function.update d.sessions t (d.sessions t) t').active = _
      rw [Function.update_eq_self]
    · have hno : ¬ (d.sessions t).active = true := by simp [ht]
      rw [hb1, hb2, pinsAfter, if_neg hno, if_neg hno]
      refine hi.begin ht hp (fun i sh' hsh' => begin_getElem? hsh') fun t' => ?_
      show (Function.update d.sessions t (began d.engine d.nextTxnId) t').active = _
      exact active_update
  | commit t tier =>
    obtain ⟨⟨t', e', r⟩, hc, rfl⟩ := Option.map_eq_some_iff.1 hs
    rcases commit_cases hread (fun _ => hR _) hc with ⟨rfl, hover⟩ | ⟨ht, rfl, e1, hover, hrest⟩
    · exact hi.same hover rfl
    · exact hi.released ht (hp ht) hover hrest
  | rollback t =>
    obtain ⟨⟨t', e', r⟩, hc, rfl⟩ := Option.map_eq_some_iff.1 hs
    rcases rollback_cases (fun _ => hR _) hc with ⟨-, rfl, rfl⟩ | ⟨ht, rfl, e1, hover, rfl⟩
    · exact hi.same (Over.refl graded_keepsPins _) rfl
    · exact hi.released ht (hp ht) hover (Over.refl graded_keepsPins _)
  | savepoint t name =>
    cases hs
    exact hi.same (Over.refl graded_keepsPins _) (savepoint_same _ name).active
  | releaseSavepoint t name =>
    cases hs
    exact hi.same (Over.refl graded_keepsPins _) (releaseSavepoint_same _ name).active
  | rollbackToSavepoint t name =>
    obtain ⟨⟨t', e', r⟩, hc, rfl⟩ := Option.map_eq_some_iff.1 hs
    obtain ⟨hover, hsame⟩ := rollbackToSavepoint_over graded_keepsPins (fun _ => hR _) hc
    exact hi.same hover hsame.active
  | readKey t key =>
    obtain ⟨⟨t', e', r⟩, hc, rfl⟩ := Option.map_eq_some_iff.1 hs
    obtain ⟨hover, hsame⟩ := readKey_over hread hc
    exact hi.same hover hsame.active
  | recordWriteIntent t key =>
    obtain ⟨⟨t', e'⟩, hc, rfl⟩ := Option.map_eq_some_iff.1 hs
    obtain ⟨hover, hsame⟩ := recordWriteIntent_over hread hc
    exact hi.same hover hsame.active
  | recordReadSample t key =>
    obtain ⟨⟨t', e'⟩, hc, rfl⟩ := Option.map_eq_some_iff.1 hs
    obtain ⟨hover, hsame⟩ := recordReadSample_over hread hc
    exact hi.same hover hsame.active
  | recordBeforePut t key =>
    obtain ⟨⟨t', e'⟩, hc, rfl⟩ := Option.map_eq_some_iff.1 hs
    obtain ⟨hover, hsame⟩ := recordBeforePut_over hread hc
    exact hi.same hover hsame.active
  | registerRangeScan t keyLo keyHi =>
    cases hs
    obtain ⟨hover, hsame⟩ := registerRangeScan_over (t := d.sessions t) (e := d.engine) hread
      keyLo keyHi
    exact hi.same hover hsame.active
  | put t key value =>
    obtain ⟨⟨e', r⟩, hc, rfl⟩ := Option.map_eq_some_iff.1 hs
    exact hi.withEngine (put_over graded_keepsPins (fun s => .of_eq (pins_write s _)) hc)
  | delete t key =>
    obtain ⟨⟨e', r⟩, hc, rfl⟩ := Option.map_eq_some_iff.1 hs
    exact hi.withEngine (delete_over graded_keepsPins (fun s => .of_eq (pins_write s _)) hc)
  | call id op =>
    obtain ⟨⟨e', r⟩, hc, rfl⟩ := Option.map_eq_some_iff.1 hs
    refine hi.withEngine (Over.onShard (n := 0) graded_keepsPins (fun s s' r hf => ?_) hc)
    obtain ⟨s1, hs1, hf⟩ := Option.map_eq_some_iff.1 hf
    cases hf
    have hplain : plain op = true := hposs
    apply KeepsPins.of_eq
    apply step_pins _ _ _ hs1
    · rintro lsn rfl
      exact absurd hplain Bool.false_ne_true
    · rintro rfl
      exact absurd hplain Bool.false_ne_true
    · rintro opts rfl
      exact absurd hplain Bool.false_ne_true
  | restart opts eagerShardOpen left =>
    simp only [Database.step] at hs
    split at hs
    · rename_i e ho
      cases hs
      exact inv_start (pinCount_open ho)
    · cases hs

/-- **The pins are counted** in every run where the shards that are open when a transaction ends
were open when it began. -/
theorem run_pins_count (hr : Run (fun _ => []) pinsAfter Paired d p) : PinsCount d p := by
  suffices hi : PinInv d p from hi.pinsCount
  induction hr with
  | start ho => exact inv_start (pinCount_open ho)
  | step _ hposs hp hs ih => exact ih.step hposs hp hs

/-- Empty shards with every write synced, of which one alone is open. -/
def emptyEngine (count : Nat) : Sharded.Engine :=
  ⟨.sync, (List.replicate count .none).map fun f =>
    if count = 1 then .opened (ShardEngine.open .sync f) else .closed f, []⟩

theorem run_pins_count_begin : ∃ d : Database Unit, ∃ p, (live d p 0).card = 1 ∧ PinsCount d p := by
  have hstart : Run (fun _ => []) pinsAfter Paired (.start (emptyEngine 1) : Database Unit)
      fun _ => [] := @Run.start _ _ _ _ _ _ .sync false 1 _ rfl
  have hfew : (going (.start (emptyEngine 1) : Database Unit)).card + 1 < 2 ^ 32 := by decide +kernel
  exact ⟨_, _, by decide +kernel, run_pins_count
    (@Run.step _ _ _ _ _ _ _ _ _ (.begin ()) hstart trivial hfew rfl)⟩

/-- **A counter wraps**: the shards are opened after the pin, and all of them are released. -/
theorem pin_count_wraps : ¬ ∀ (d : Database Unit) p,
    Run (fun _ => []) pinsAfter (fun _ _ _ => True) d p → PinsCount d p := by
  intro hall
  have hstart : Run (fun _ => []) pinsAfter (fun _ _ _ => True)
      (.start (emptyEngine 4) : Database Unit) fun _ => [] := @Run.start _ _ _ _ _ _ .sync false 4 _ rfl
  obtain ⟨⟨d, p⟩, hs, hx⟩ := (Option.any_eq_true _ _).1 (show ((runSteps pinsAfter
      (.start (emptyEngine 4) : Database Unit) (fun _ => []) [.begin (), .rollback ()]).any fun x =>
    (x.1.sessions ()).active = false ∧
      (x.1.engine.shards[0]?).any fun sh => sh.engine?.any (·.snapshotPinCount = 4294967295))
        = true by decide +kernel)
  obtain ⟨hidle, hwrap⟩ := of_decide_eq_true hx
  obtain ⟨sh, hsh, hwrap⟩ := (Option.any_eq_true _ _).1 hwrap
  obtain ⟨s, hs', hpin⟩ := (Option.any_eq_true _ _).1 hwrap
  cases sh with
  | closed files => cases hs'
  | opened s' =>
    cases hs'
    have hzero := (hall d p (hstart.steps (fun _ _ _ => trivial) hs)).ended (fun _ => hidle) 0 s hsh
    rw [of_decide_eq_true hpin] at hzero
    exact absurd hzero (by decide)

end EBTree.Sql
