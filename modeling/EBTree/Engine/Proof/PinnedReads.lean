import EBTree.Engine.Proof.SnapshotScan

/-!
# Reads at a pinned snapshot

What a read at a snapshot returns later, of a key whose writes were all up to the snapshot when it
was pinned. The memtable shows its entry at every snapshot, so that a later write of the key is seen
at the pinned one.

* `Settled.chainTier_gone_at`: a chain leads to no value of a key that is gone.
* `Plain.snapshotAnswer`: a read at the snapshot returns the newest write of the key.
* `Later.keeps`: the calls that leave the key alone.
* `Run.snapshot_read_stable`: **the read returns the same while the key is left alone**.
-/

set_option autoImplicit false

namespace EBTree.Engine

open Lib Wal BTree ShardEngine VersionChainStore

variable {h h0 : History} {s s0 : ShardEngine} {rs : List WalRecord} {ds : List DataRecord}
  {key : Key} {n : Nat}

/-- What a read at a snapshot returns. -/
def ShardEngine.snapshotAnswer (s : ShardEngine) (key : Key) (n : Nat) :
    Option (Except Status Version) :=
  (s.getAtSnapshot key ⟨0, n⟩).map (·.2)

/-! ## The history of a key -/

namespace History

/-- The writes of the key are not newer than the snapshot. -/
def UpTo (h : History) (key : Key) (n : Nat) : Prop :=
  ∀ w ∈ h.writes, w.record.key = key → w.record.lsn ≤ n

/-- The key was deleted, if anything. -/
def NeverPut (h : History) (key : Key) : Prop :=
  ∀ w ∈ h.writes, w.record.key = key → w.record.deleted = true

theorem NeverPut.live (hn : h.NeverPut key) : live (h.newest key) = none := by
  cases hw : h.newest key with
  | none => rfl
  | some r =>
    obtain ⟨w, hmem, rfl, hk⟩ := newest_mem hw
    rw [Engine.live, Option.bind_some, if_pos (hn w hmem hk)]

end History

/-- The call does not write the key, or deletes it where it was never put. -/
def LeavesAlone (key : Key) (h : History) (op : Op) : Prop :=
  ∀ r, op = .write r → r.key = key → r.isDelete = true ∧ h.NeverPut key

theorem mem_wrote {r : WriteRequest} {w : Write} (hw : w ∈ s.wrote r) :
    w.record.key = r.key ∧ w.record.deleted = r.isDelete := by
  unfold ShardEngine.wrote at hw
  split at hw
  · exact absurd hw List.not_mem_nil
  split at hw
  · exact absurd hw List.not_mem_nil
  · rw [List.mem_singleton.1 hw]
    exact ⟨rfl, rfl⟩

/-- A write of another key. -/
theorem newest_wrote {r : WriteRequest} (hk : r.key ≠ key) :
    History.newest { h with writes := h.writes ++ s.wrote r } key = h.newest key := by
  unfold ShardEngine.wrote
  split
  · rw [List.append_nil]
  split
  · rw [List.append_nil]
  · rw [newest_append h.writes h.commits h.commits]
    exact if_neg hk

/-! ## A key that is gone -/

/-- **A chain** leads to no value of a key whose last record is no value, at a snapshot that its
writes are up to. -/
theorem Settled.chainTier_gone_at (hst : Settled s ds) (hi : Inv true h s rs ds)
    (hgone : live (lastOf ds key) = none) (hn : h.UpTo key n ∨ h.NeverPut key) {v : Version} :
    s.chainTier key n ≠ some (.ok v) := by
  intro hc
  obtain ⟨m, hm, x, hx, hxk, hxl, hxd, hlsn⟩ := hst.chainTier_reads hi hc
  obtain ⟨-, -, hmax⟩ := floorOf_spec (s.vcs.mergedChain key) n
  rcases hn with hn | hn
  swap
  · obtain ⟨w, hw, hwr, -⟩ := hi.tiers.data x hx
    have hdel := hn w hw (hwr.symm ▸ hxk)
    rw [hwr, hxd] at hdel
    cases hdel
  obtain ⟨r, hr, hrk, hlast, hrd⟩ := lastOf_gone hgone hx hxk
  -- the node that reaches the last record is up to the snapshot
  obtain ⟨m', hm', hge⟩ := hst.chains.reached r hr
  have hle : m'.lsn ≤ n := by
    obtain ⟨y, ⟨wy, hwy, rfl, -⟩, hyk, hyl⟩ := hi.tiers.chains r.key m' hm'
    have hyl : wy.record.lsn = m'.lsn := hyl
    rw [← hyl]
    exact hn wy hwy (hyk.trans hrk)
  have hfloor := hmax m' (hrk ▸ hm') hle
  have hxf : r.lsn ≤ x.lsn := by
    rw [hxl, hlsn]
    exact Nat.le_trans hge hfloor
  have hxr : x = r := (lastOf_newest hst.increasing hlast hx hxk).resolve_right (by omega)
  rw [hxr, hrd] at hxd
  cases hxd

/-- The tree leads to a value of the key that is up to the snapshot. -/
def ShardEngine.FoundAt (s : ShardEngine) (key : Key) (n : Nat) : Prop :=
  ∃ hit v, s.btreeGet key = some hit ∧ s.btreeTier hit n = some (.ok v)

/-- The tree leads to no value of a key that is gone, where it is asked. -/
def TreeClear (s : ShardEngine) (h : History) (key : Key) (n : Nat) : Prop :=
  live (h.newest key) = none → s.memtable.find? key = none → ¬ s.FoundAt key n

namespace Plain

variable (hp : Plain h s rs ds)
include hp

theorem resolve_gone_at (he : s.memtable.find? key = none) (hl : live (h.newest key) = none)
    (hn : h.UpTo key n ∨ h.NeverPut key) (htree : ¬ s.FoundAt key n) :
    ∃ r, s.resolveAtSnapshot key ⟨0, n⟩ = some r ∧ isNotFound r = true := by
  have hf := (hp.current.committed key he).trans hl
  have hc : s.committedTier key n = none := by
    unfold ShardEngine.committedTier
    rw [hf]
  have hlast := (hp.tiered.committed_find? key).symm.trans hf
  obtain ⟨hit, hg⟩ := hp.btreeGet_returns key
  have hwal : s.walTier key n = none := by
    unfold ShardEngine.walTier tryWalSnapshotFloor
    rw [if_pos (.inr (.inl hp.steady.hot))]
  unfold resolveAtSnapshot
  rw [hp.memTier_none he, Option.none_or, hc, hg, hwal]
  simp only [Option.map_some, Option.or_none]
  refine ⟨_, rfl, ?_⟩
  cases hb : s.btreeTier hit n with
  | some x =>
    rcases btreeTier_cases hb with ⟨v, rfl⟩ | hx
    · exact absurd ⟨hit, v, hg, hb⟩ htree
    · exact hx
  | none =>
    rw [Option.none_or]
    cases hch : s.chainTier key n with
    | none => exact isNotFound_missing hit _
    | some x =>
      rcases chainTier_cases hch with ⟨v, rfl⟩ | hx
      · exact absurd hch (hp.tiered.chainTier_gone_at hp.inv hlast hn)
      · exact hx

theorem resolve_live_at (he : s.memtable.find? key = none) {value : Value} {lsn : Nat}
    (hl : live (h.newest key) = some (value, lsn)) (hle : lsn ≤ n) :
    s.resolveAtSnapshot key ⟨0, n⟩ = some (.ok ⟨lsn, value⟩) := by
  have hc : s.committedTier key n = some (.ok ⟨lsn, value⟩) := by
    unfold ShardEngine.committedTier
    rw [(hp.current.committed key he).trans hl]
    simp only [hle, or_true, if_true]
  unfold resolveAtSnapshot
  rw [hp.memTier_none he, Option.none_or, hc]

/-- **A read at the snapshot** returns the newest write of the key, or finds none. -/
theorem snapshotAnswer (hk : key ≠ []) (hn : h.UpTo key n ∨ h.NeverPut key)
    (htree : TreeClear s h key n) :
    ∃ r, s.snapshotAnswer key n = some r ∧
      ((∃ value lsn, live (h.newest key) = some (value, lsn) ∧ r = .ok ⟨lsn, value⟩) ∨
        (live (h.newest key) = none ∧ isNotFound r = true)) := by
  have hres : ∃ r, s.resolveAtSnapshot key ⟨0, n⟩ = some r ∧
      ((∃ value lsn, live (h.newest key) = some (value, lsn) ∧ r = .ok ⟨lsn, value⟩) ∨
        (live (h.newest key) = none ∧ isNotFound r = true)) := by
    cases he : s.memtable.find? key with
    | some e =>
      refine ⟨_, hp.resolve_entry he n, ?_⟩
      have hl := live_memRecord key e
      rw [← (hp.current.memtable key e he).2.2.2.2] at hl
      unfold memAnswer
      cases hd : e.deleted with
      | true =>
        rw [hd, if_pos rfl] at hl
        exact .inr ⟨hl, rfl⟩
      | false =>
        rw [hd, if_neg Bool.false_ne_true] at hl
        exact .inl ⟨_, _, hl, rfl⟩
    | none =>
      cases hl : live (h.newest key) with
      | none =>
        obtain ⟨r, hr, hno⟩ := hp.resolve_gone_at he hl hn (htree hl he)
        exact ⟨r, hr, .inr ⟨rfl, hno⟩⟩
      | some x =>
        obtain ⟨value, lsn⟩ := x
        have hle : lsn ≤ n := by
          rcases hn with hn | hn
          · obtain ⟨r, hr, hx⟩ := Option.bind_eq_some_iff.1 hl
            obtain ⟨w, hw, rfl, hwk⟩ := newest_mem hr
            split at hx
            · cases hx
            · cases hx
              exact hn w hw hwk
          · rw [hn.live] at hl
            cases hl
        exact ⟨_, hp.resolve_live_at he hl hle, .inl ⟨value, lsn, rfl, rfl⟩⟩
  obtain ⟨r, hr, hcase⟩ := hres
  refine ⟨r, ?_, hcase⟩
  have hread : (s.prepareSnapshotRead n).resolveAtSnapshot key ⟨0, n⟩ = some r := by
    rcases hp.steady.prepareSnapshotRead n with he | he <;> rw [he]
    · exact hr
    · rw [(hp.repairSummary key).resolve, hr]
  unfold ShardEngine.snapshotAnswer ShardEngine.getAtSnapshot
  rw [if_neg hk]
  simp only [getAtSnapshotCore_eq, hread, Option.map_some]

end Plain

/-! ## What follows the pin -/

/-- The states that calls satisfying `ok` reach from a state with its history. -/
inductive Later (ok : ShardEngine → History → Op → Prop) (s0 : ShardEngine) (h0 : History) :
    ShardEngine → History → Prop
  | refl : Later ok s0 h0 s0 h0
  | step {s s' : ShardEngine} {h : History} {op : Op} : Later ok s0 h0 s h → Client s h op →
      ok s h op → s.step op = some s' → Later ok s0 h0 s' (h.after s op)

variable {ok : ShardEngine → History → Op → Prop}

theorem Later.run (hl : Later ok s0 h0 s h) {ok' : ShardEngine → History → Op → Prop}
    (hok : ∀ s h op, ok s h op → ok' s h op) (hr : Run ok' s0 h0) : Run ok' s h := by
  induction hl with
  | refl => exact hr
  | step _ hc ho hs ih => exact ih.step hc (hok _ _ _ ho) hs

/-- **Calls that leave the key alone** leave its newest write, and the others up to the snapshot; or
it was never put. -/
theorem Later.keeps (hl : Later (fun _ h op => op.plain = true ∧ LeavesAlone key h op) s0 h0 s h)
    (hn : h0.UpTo key n) :
    (h.UpTo key n ∧ h.newest key = h0.newest key) ∨
      (h.NeverPut key ∧ live (h0.newest key) = none) := by
  induction hl with
  | refl => exact .inl ⟨hn, rfl⟩
  | @step s s' h op _ _ ho _ ih =>
    cases op with
    | write r =>
      by_cases hk : r.key = key
      · obtain ⟨hdel, hnever⟩ := ho.2 r rfl hk
        refine .inr ⟨?_, ?_⟩
        · intro w hw hwk
          rcases List.mem_append.1 hw with hw | hw
          · exact hnever w hw hwk
          · rw [(mem_wrote hw).2, hdel]
        · rcases ih with ⟨-, hsame⟩ | ⟨-, hlive⟩
          · rw [← hsame, hnever.live]
          · exact hlive
      · have hother : ∀ w ∈ s.wrote r, w.record.key ≠ key := fun w hw =>
          (mem_wrote hw).1.symm ▸ hk
        rcases ih with ⟨hup, hsame⟩ | ⟨hnever, hlive⟩
        · refine .inl ⟨fun w hw hwk => ?_, (newest_wrote hk).trans hsame⟩
          rcases List.mem_append.1 hw with hw | hw
          · exact hup w hw hwk
          · exact absurd hwk (hother w hw)
        · refine .inr ⟨fun w hw hwk => ?_, hlive⟩
          rcases List.mem_append.1 hw with hw | hw
          · exact hnever w hw hwk
          · exact absurd hwk (hother w hw)
    | _ => exact ih

/-! ## Pinned reads -/

/-- The two reads return the same version, the same error, or that there is none. -/
def SameAnswer (a b : Option (Except Status Version)) : Prop :=
  ∃ r r', a = some r ∧ b = some r' ∧ (r = r' ∨ (isNotFound r = true ∧ isNotFound r' = true))

/-- **A read at a snapshot returns the same at every later moment**, in every run in which no call
writes its key, or only deletions do of a key that was never put: where the snapshot was not behind a
write of the key when it was pinned, and the tree leads to no value of the key when it is gone. -/
theorem Run.snapshot_read_stable (hr : Run (fun _ _ op => op.plain = true) s0 h0)
    (hn : h0.UpTo key n) (hclear : TreeClear s0 h0 key n)
    (hl : Later (fun _ h op => op.plain = true ∧ LeavesAlone key h op) s0 h0 s h)
    (hclear' : TreeClear s h key n) :
    SameAnswer (s0.snapshotAnswer key n) (s.snapshotAnswer key n) := by
  by_cases hk : key = []
  · subst hk
    exact ⟨_, _, rfl, rfl, .inl rfl⟩
  obtain ⟨rs0, ds0, hp0⟩ := hr.plain
  obtain ⟨rs, ds, hp⟩ := (hl.run (fun _ _ _ ho => ho.1) hr).plain
  have hkept := hl.keeps hn
  have hsame : live (h.newest key) = live (h0.newest key) := by
    rcases hkept with ⟨-, hsame⟩ | ⟨hnever, hlive⟩
    · rw [hsame]
    · rw [hnever.live, hlive]
  obtain ⟨r0, hr0, hcase0⟩ := hp0.snapshotAnswer hk (.inl hn) hclear
  obtain ⟨r, hr1, hcase⟩ := hp.snapshotAnswer hk (hkept.imp (·.1) (·.1)) hclear'
  refine ⟨r0, r, hr0, hr1, ?_⟩
  rcases hcase0 with ⟨value0, lsn0, hl0, rfl⟩ | ⟨hl0, hno0⟩
  · rcases hcase with ⟨value, lsn, hl1, rfl⟩ | ⟨hl1, -⟩
    · rw [hsame, hl0, Option.some.injEq, Prod.mk.injEq] at hl1
      rw [hl1.1, hl1.2]
      exact .inl rfl
    · rw [hsame, hl0] at hl1
      cases hl1
  · rcases hcase with ⟨value, lsn, hl1, -⟩ | ⟨-, hno⟩
    · rw [hsame, hl0] at hl1
      cases hl1
    · exact .inr ⟨hno0, hno⟩

/-- A put, read at its LSN before and after a write of another key. -/
theorem snapshot_read_stable_put : ∃ s0 s : ShardEngine,
    SameAnswer (s0.snapshotAnswer [1] 1) (s.snapshotAnswer [1] 1) := by
  have hrun : Run (fun _ _ op => op.plain = true)
      ((ShardEngine.open .sync ShardFiles.none).write (firstPut 0)).1
      (History.empty.after (ShardEngine.open .sync ShardFiles.none) (.write (firstPut 0))) :=
    (Run.opened .sync).step (by decide +kernel) rfl rfl
  have hlater : Later (fun _ h op => op.plain = true ∧ LeavesAlone [1] h op)
      ((ShardEngine.open .sync ShardFiles.none).write (firstPut 0)).1
      (History.empty.after (ShardEngine.open .sync ShardFiles.none) (.write (firstPut 0))) _ _ :=
    @Later.step _ _ _ _ _ _ (.write ⟨[2], [3], false, 0⟩) .refl (by decide +kernel)
      ⟨rfl, fun r hr hk => by cases hr; exact absurd hk (by decide)⟩ rfl
  have hlive : live ((History.empty.after (ShardEngine.open .sync ShardFiles.none)
      (.write (firstPut 0))).newest [1]) = some ([2], 1) := by decide +kernel
  have hlive' : live (((History.empty.after (ShardEngine.open .sync ShardFiles.none)
      (.write (firstPut 0))).after
        ((ShardEngine.open .sync ShardFiles.none).write (firstPut 0)).1
        (.write ⟨[2], [3], false, 0⟩)).newest [1]) = some ([2], 1) := by decide +kernel
  refine ⟨_, _, Run.snapshot_read_stable hrun (by unfold History.UpTo; decide +kernel)
    (fun hl => ?_) hlater (fun hl => ?_)⟩
  · rw [hlive] at hl
    cases hl
  · rw [hlive'] at hl
    cases hl

/-- **A put behind the pin** is read at the pinned snapshot. -/
theorem pinned_read_changes : ¬ ∀ s0 h0, Run (fun _ _ op => op.plain = true) s0 h0 →
    ∀ s h, Later (fun _ _ op => op.plain = true) s0 h0 s h → ∀ key n,
      s0.pinnedSnapshotLsn = n → 0 < n → SameAnswer (s0.snapshotAnswer key n)
        (s.snapshotAnswer key n) := by
  intro hall
  obtain ⟨⟨s0, h0⟩, hops, hx⟩ := (Option.any_eq_true _ _).1 (show ((runOps (ShardEngine.open .sync
      ShardFiles.none) History.empty [.write (firstPut 0), .pinSnapshot 1]).any fun x =>
    decide (x.1.pinnedSnapshotLsn = 1) && decide (x.1.wal.maxLsn + 1 < kWalMagicV2) &&
      decide ((x.1.snapshotAnswer [1] 1).map Except.toOption = some (some ⟨1, [2]⟩)) &&
      decide (((x.1.write ⟨[1], [3], false, 0⟩).1.snapshotAnswer [1] 1).map Except.toOption =
        some (some ⟨2, [3]⟩))) = true by decide +kernel)
  simp only [Bool.and_eq_true, decide_eq_true_eq] at hx
  obtain ⟨⟨⟨hpin, hcounter⟩, hbefore⟩, hafter⟩ := hx
  have hrun := (@Run.opened (fun _ _ op => op.plain = true) .sync).calls
    (by simp [Op.plain, Op.writes, firstPut]) hops
  have hlater : Later (fun _ _ op => op.plain = true) s0 h0
      (s0.write ⟨[1], [3], false, 0⟩).1 (h0.after s0 (.write ⟨[1], [3], false, 0⟩)) :=
    Later.refl.step ⟨hcounter, fun _ h => by cases h⟩ rfl rfl
  obtain ⟨r, r', hr, hr', hsame⟩ := hall s0 h0 hrun _ _ hlater [1] 1 hpin (by decide)
  rw [hr, Option.map_some, Option.some.injEq] at hbefore
  rw [hr', Option.map_some, Option.some.injEq] at hafter
  rcases hsame with rfl | ⟨hno, -⟩
  · rw [hbefore] at hafter
    cases hafter
  · cases r with
    | ok v => cases hno
    | error e => cases hbefore

end EBTree.Engine
