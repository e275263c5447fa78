import EBTree.Wal.BatchPipeline
import EBTree.Wal.Proof.Append

/-!
# What an acknowledgement of the batch pipeline means

* `Logged w r`: the record lies in the log, in front of the next one; no later append touches it
  (`Keeps`).
* `appendItemsIo_spec`: which items of one `AppendMany` are appended, and where their records are.
* `drainAndFlush_right_iff`: a drain treats its jobs right exactly when its appends all succeed or
  all fail.
* `run_right_iff`: **the same of every drain of a run**, with the log as the run leaves it.
-/

set_option autoImplicit false

namespace EBTree.Wal

open Lib WalWriter

/-! ## Records that stay -/

/-- The record lies in the log, in front of where the next one goes. -/
def Logged (w : WalWriter) (r : WalRecord) : Prop :=
  ∃ o, o + r.size ≤ w.fileOffset ∧ readAt? w.file o r.size = some r.encode

/-- The record lies in the bytes of a log. -/
def LiesIn (f : Bytes) (r : WalRecord) : Prop := ∃ o, readAt? f o r.size = some r.encode

theorem Logged.liesIn {w : WalWriter} {r : WalRecord} (h : Logged w r) : LiesIn w.file r := by
  obtain ⟨o, -, hr⟩ := h
  exact ⟨o, hr⟩

/-- A formatted log that has stayed formatted and has every record of the other. -/
structure Keeps (w w' : WalWriter) : Prop where
  formatted : w'.formatV2 = true
  logged : ∀ {r}, Logged w r → Logged w' r

theorem Keeps.trans {w w' w'' : WalWriter} (h : Keeps w w') (h' : Keeps w' w'') : Keeps w w'' :=
  ⟨h'.formatted, fun hr => h'.logged (h.logged hr)⟩

theorem Keeps.refl {w : WalWriter} (hv : w.formatV2 = true) : Keeps w w := ⟨hv, fun h => h⟩

/-- Writing at the end of the data, or behind it, keeps what lies in front. -/
theorem Keeps.of_overwrite {w w' : WalWriter} (hv : w'.formatV2 = true) {data : Bytes}
    (hf : w'.file = overwrite w.file w.fileOffset data) (ho : w.fileOffset ≤ w'.fileOffset) :
    Keeps w w' := by
  refine ⟨hv, fun {r} h => ?_⟩
  obtain ⟨o, hle, hr⟩ := h
  refine ⟨o, by omega, ?_⟩
  rw [hf]
  exact readAt?_overwrite_of_le hr hle

theorem Keeps.of_file_eq {w w' : WalWriter} (hv : w'.formatV2 = true) (hf : w'.file = w.file)
    (ho : w.fileOffset ≤ w'.fileOffset) : Keeps w w' := by
  refine ⟨hv, fun {r} h => ?_⟩
  obtain ⟨o, hle, hr⟩ := h
  exact ⟨o, by omega, by rw [hf]; exact hr⟩

theorem Keeps.syncExternalTailLocked {w : WalWriter} (hv : w.formatV2 = true) :
    Keeps w w.syncExternalTailLocked := by
  unfold WalWriter.syncExternalTailLocked
  split
  · exact .refl hv
  · refine .of_file_eq hv rfl ?_
    dsimp only
    split <;> omega

theorem Keeps.fsyncIo {w : WalWriter} (hv : w.formatV2 = true) (out : FsyncOutcome) :
    Keeps w (w.fsyncIo out).1 := by
  cases out with
  | ok => exact .of_file_eq hv rfl (Nat.le_refl _)
  | flushFailed => exact .refl hv
  | fdatasyncFailed => exact .of_file_eq hv rfl (Nat.le_refl _)

/-! ## One `AppendMany` -/

/-- The stream takes the whole record of the item, which fits its header. -/
def Taken (it : Item) (failed : Option Nat) : Prop := it.InBounds ∧ failed = none

/-- One round of the loop appends the record of the item, or fails and appends none. -/
theorem appendItemIo_spec {w : WalWriter} (hv : w.formatV2 = true) (it : Item)
    (failed : Option Nat) :
    Keeps w (w.appendItemIo it failed).1 ∧
      (Taken it failed → ∃ lsn, (w.appendItemIo it failed).2 = .ok lsn ∧
        Logged (w.appendItemIo it failed).1 (it.record lsn)) ∧
      (¬ Taken it failed → ∃ e, (w.appendItemIo it failed).2 = .error e) := by
  by_cases hb : it.InBounds
  · cases failed with
    | none =>
      have hsize := WalRecord.length_encode (it.record (nextLsn w.maxLsn))
      simp only [appendItemIo, appendItem, hb, if_true]
      refine ⟨.of_overwrite hv rfl (Nat.le_add_right _ _), fun _ => ⟨_, rfl, ?_⟩,
        fun h => absurd ⟨hb, rfl⟩ h⟩
      exact ⟨w.fileOffset, Nat.le_refl _,
        readAt?_overwrite_part [] [] (by simp) rfl hsize.symm⟩
    | some n =>
      simp only [appendItemIo, hb, if_true]
      refine ⟨.of_overwrite hv rfl (Nat.le_refl _), fun h => ?_, fun _ => ⟨_, rfl⟩⟩
      exact absurd h.2 (Option.some_ne_none n)
  · have hnot : ¬ Taken it failed := fun h => hb h.1
    refine ⟨?_, fun h => absurd h hnot, fun _ => ?_⟩
    · cases failed <;> simp only [appendItemIo, appendItem, hb, if_false] <;>
        exact .of_file_eq hv rfl (Nat.le_refl _)
    · cases failed <;> simp only [appendItemIo, appendItem, hb, if_false] <;> exact ⟨_, rfl⟩

/-- **The loop of `AppendMany`** appends the records of just the items taken. -/
theorem appendItemsIo_spec {w : WalWriter} (hv : w.formatV2 = true) (write : Nat → Option Nat)
    (i : Nat) (items : List Item) :
    Keeps w (w.appendItemsIo write i items).1 ∧
      (w.appendItemsIo write i items).2.length = items.length ∧
      ∀ k it, items[k]? = some it →
        (Taken it (write (i + k)) → ∃ lsn, (w.appendItemsIo write i items).2[k]? = some (.ok lsn) ∧
          Logged (w.appendItemsIo write i items).1 (it.record lsn)) ∧
        (¬ Taken it (write (i + k)) →
          ∃ e, (w.appendItemsIo write i items).2[k]? = some (.error e)) := by
  induction items generalizing w i with
  | nil => exact ⟨.refl hv, rfl, fun k it h => by cases h⟩
  | cons it0 its ih =>
    obtain ⟨hkeep, hok, herr⟩ := appendItemIo_spec hv it0 (write i)
    obtain ⟨hkeeps, hlen, hits⟩ := ih hkeep.formatted (i + 1)
    refine ⟨hkeep.trans hkeeps, by simp [appendItemsIo, hlen], fun k it hk => ?_⟩
    cases k with
    | zero =>
      obtain rfl : it0 = it := by simpa using hk
      refine ⟨fun ht => ?_, fun ht => ?_⟩
      · obtain ⟨lsn, hst, hlog⟩ := hok ht
        exact ⟨lsn, by simp [appendItemsIo, hst], hkeeps.logged hlog⟩
      · obtain ⟨e, hst⟩ := herr ht
        exact ⟨e, by simp [appendItemsIo, hst]⟩
    | succ k =>
      have := hits k it (by simpa using hk)
      rwa [Nat.add_assoc, Nat.add_comm 1 k] at this

/-! ## One drain -/

section Drain

variable (jobs : List Job) (io : DrainIo)

/-- `AppendMany` comes to the job numbered `i` and appends its record. -/
def Appendable (i : Nat) : Prop :=
  io.prepare = .ok () ∧ ∃ j, jobs[i]? = some j ∧ Taken j.item (io.write i)

/-- The log's end state `f` has the record of an acknowledged job, a successful `Fsync` came after
its append, and the commit hook applied it. -/
structure Acknowledged (d : Drained) (f : Bytes) (j : Job) (lsn : Nat) : Prop where
  logged : LiesIn f (j.item.record lsn)
  fsynced : ∃ g, d.fsynced = some g ∧ LiesIn g (j.item.record lsn)
  applied : ∃ items, d.applied = some items ∧ j.commitItem lsn ∈ items

/-- **What the drain owes its jobs**: it acknowledges only what is logged, synced and applied, it
fails every job it could not append, and no other when the sync and the hook succeed. -/
structure DrainRight (d : Drained) (f : Bytes) : Prop where
  acknowledged : ∀ {i : Nat} {j : Job} {lsn : Nat}, jobs[i]? = some j →
    d.results[i]? = some (.ok lsn) → Acknowledged d f j lsn
  failed : ∀ {i : Nat}, i < jobs.length → ¬ Appendable jobs io i → ∃ e, d.results[i]? = some (.error e)
  alone : ∀ {i : Nat}, Appendable jobs io i → io.fsync = .ok → io.hook = .ok () →
    ∃ lsn, d.results[i]? = some (.ok lsn)

/-- `Fsync` or the commit hook fails. -/
def SyncFails : Prop := io.fsync ≠ .ok ∨ io.hook ≠ .ok ()

/-- Every job of the drain is appended, or none is; and where `AppendMany` does not come to its
jobs, the sync or the hook fails. -/
def AllOrNone : Prop :=
  (∀ i < jobs.length, Appendable jobs io i) ∨
    ((∀ i < jobs.length, ¬ Appendable jobs io i) ∧ (io.prepare = .ok () ∨ SyncFails io))

end Drain

/-- What `AppendMany` answers in a drain, job by job. -/
theorem appendManyIo_spec (w : WalWriter) (jobs : List Job) {io : DrainIo}
    (hp : io.prepare = .ok ()) :
    (w.appendManyIo io (jobs.map Job.item)).1.formatV2 = true ∧
      (w.formatV2 = true → Keeps w (w.appendManyIo io (jobs.map Job.item)).1) ∧
      (w.appendManyIo io (jobs.map Job.item)).2.length = jobs.length ∧
      ∀ i j, jobs[i]? = some j →
        (Appendable jobs io i → ∃ lsn,
          (w.appendManyIo io (jobs.map Job.item)).2[i]? = some (.ok lsn) ∧
          Logged (w.appendManyIo io (jobs.map Job.item)).1 (j.item.record lsn)) ∧
        (¬ Appendable jobs io i →
          ∃ e, (w.appendManyIo io (jobs.map Job.item)).2[i]? = some (.error e)) := by
  have hv := ensureWalMagicLocked_formatV2 w
  have hsync := Keeps.syncExternalTailLocked hv
  obtain ⟨hkeep, hlen, hits⟩ := appendItemsIo_spec hsync.formatted io.write 0 (jobs.map Job.item)
  simp only [appendManyIo, hp]
  refine ⟨hkeep.formatted, fun hw => ?_, by rw [hlen, List.length_map], fun i j hj => ?_⟩
  · rw [ensureWalMagicLocked_of_formatV2 hw] at hsync hkeep ⊢
    exact hsync.trans hkeep
  · have := hits i j.item (by simp [hj])
    rw [Nat.zero_add] at this
    refine ⟨fun ha => ?_, fun ha => this.2 fun ht => ha ⟨hp, j, hj, ht⟩⟩
    obtain ⟨-, j', hj', ht⟩ := ha
    rw [hj, Option.some.injEq] at hj'
    exact this.1 (hj' ▸ ht)

theorem mem_commitItems {jobs : List Job} {sts : List (Except Status Nat)} {i lsn : Nat} {j : Job}
    (hj : jobs[i]? = some j) (hst : sts[i]? = some (.ok lsn)) :
    j.commitItem lsn ∈ commitItems jobs sts := by
  induction jobs generalizing sts i with
  | nil => cases hj
  | cons j0 js ih =>
    cases sts with
    | nil => cases hst
    | cons st sts =>
      cases i with
      | zero =>
        obtain rfl : j0 = j := by simpa using hj
        obtain rfl : st = .ok lsn := by simpa using hst
        exact List.mem_cons_self
      | succ i =>
        have hmem := ih (i := i) (by simpa using hj) (by simpa using hst)
        cases st with
        | ok lsn' => exact List.mem_cons_of_mem _ hmem
        | error e => exact hmem

theorem isOk_iff {st : Except Status Nat} : st.isOk = true ↔ ∃ lsn, st = .ok lsn := by
  cases st <;> simp [Except.isOk, Except.toBool]

section Drain

variable {w : WalWriter} {jobs : List Job} {io : DrainIo}

/-- A drain in which an append failed leaves every job with the status of its own append. -/
theorem drainAndFlush_of_failed (hne : jobs ≠ [])
    (h : (w.appendManyIo io (jobs.map Job.item)).2.all (·.isOk) = false) :
    drainAndFlush w jobs io = ⟨(w.appendManyIo io (jobs.map Job.item)).1, none, none,
      (w.appendManyIo io (jobs.map Job.item)).2⟩ := by
  have : jobs.isEmpty = false := by simpa using hne
  simp [drainAndFlush, this, h]

/-- A drain that appended every job and whose sync or hook fails fails them all. -/
theorem drainAndFlush_of_syncFails (hne : jobs ≠ [])
    (h : (w.appendManyIo io (jobs.map Job.item)).2.all (·.isOk) = true) (hs : SyncFails io) :
    ∃ e, (drainAndFlush w jobs io).results
      = (w.appendManyIo io (jobs.map Job.item)).2.map (completeJob (.error e)) := by
  have hj : jobs.isEmpty = false := by simpa using hne
  cases hf : io.fsync with
  | ok =>
    cases hh : io.hook with
    | ok u => exact absurd hs (by simp [SyncFails, hf, hh])
    | error e =>
      exact ⟨e, by simp [drainAndFlush, hj, h, hf, hh, fsyncIo]⟩
  | flushFailed =>
    exact ⟨Status.ioError "wal flush failed", by simp [drainAndFlush, hj, h, hf, fsyncIo]⟩
  | fdatasyncFailed =>
    exact ⟨Status.ioError "fdatasync failed", by simp [drainAndFlush, hj, h, hf, fsyncIo]⟩

/-- A drain that appended every job and whose sync and hook succeed. -/
theorem drainAndFlush_of_ok (hne : jobs ≠ [])
    (h : (w.appendManyIo io (jobs.map Job.item)).2.all (·.isOk) = true) (hs : ¬ SyncFails io) :
    drainAndFlush w jobs io =
      { wal := (w.appendManyIo io (jobs.map Job.item)).1.fsync
        fsynced := some (w.appendManyIo io (jobs.map Job.item)).1.file
        applied := some (commitItems jobs (w.appendManyIo io (jobs.map Job.item)).2)
        results := (w.appendManyIo io (jobs.map Job.item)).2 } := by
  have hj : jobs.isEmpty = false := by simpa using hne
  have hf : io.fsync = .ok := by
    by_contra hf
    exact hs (.inl hf)
  have hh : io.hook = .ok () := by
    by_contra hh
    exact hs (.inr hh)
  have hid : (w.appendManyIo io (jobs.map Job.item)).2.map (completeJob (.ok ()))
      = (w.appendManyIo io (jobs.map Job.item)).2 := List.map_id' _
  simp [drainAndFlush, hj, h, hf, hh, fsyncIo, hid]

/-- Where the loop of `AppendMany` was not reached no job is appendable. -/
theorem not_appendable_of_prepare {e : Status} (hp : io.prepare = .error e) (i : Nat) :
    ¬ Appendable jobs io i := by
  rintro ⟨h, -⟩
  rw [hp] at h
  cases h

/-- `AppendMany` answers every job with `Ok` when it appends every job. -/
theorem all_isOk_iff (hp : io.prepare = .ok ()) :
    (w.appendManyIo io (jobs.map Job.item)).2.all (·.isOk) = true ↔
      ∀ i < jobs.length, Appendable jobs io i := by
  obtain ⟨-, -, hlen, hits⟩ := appendManyIo_spec w jobs hp
  rw [List.all_eq_true]
  constructor
  · intro h i hi
    by_contra ha
    obtain ⟨e, he⟩ := (hits i jobs[i] (by simp [hi])).2 ha
    have := h _ (List.mem_of_getElem? he)
    simp [Except.isOk, Except.toBool] at this
  · intro h st hst
    obtain ⟨i, hi, rfl⟩ := List.getElem_of_mem hst
    have hi' : i < jobs.length := by omega
    obtain ⟨lsn, hok, -⟩ := (hits i jobs[i] (by simp [hi'])).1 (h i hi')
    rw [List.getElem?_eq_getElem hi, Option.some.injEq] at hok
    exact isOk_iff.2 ⟨lsn, hok⟩

/-- **One drain.** It treats its jobs right, in any later state `f` of the log, exactly when its
appends all succeed or all fail. -/
theorem drainAndFlush_right_iff (w : WalWriter) (jobs : List Job) (io : DrainIo) {f : Bytes}
    (hf : ∀ {r}, (drainAndFlush w jobs io).wal.formatV2 = true →
      Logged (drainAndFlush w jobs io).wal r → LiesIn f r) :
    DrainRight jobs io (drainAndFlush w jobs io) f ↔ AllOrNone jobs io := by
  by_cases hne : jobs = []
  · subst hne
    refine iff_of_true ⟨?_, ?_, ?_⟩ (.inl fun i hi => absurd hi (Nat.not_lt_zero i))
    · intro i j lsn hj
      cases hj
    · intro i hi
      exact absurd hi (Nat.not_lt_zero i)
    · rintro i ⟨-, j, hj, -⟩
      cases hj
  have hpos : 0 < jobs.length := List.length_pos_iff.2 hne
  cases hp : io.prepare with
  | error e =>
    have hnone : ∀ i, ¬ Appendable jobs io i := not_appendable_of_prepare hp
    have happ : (w.appendManyIo io (jobs.map Job.item)).2 = jobs.map fun _ => .ok 0 := by
      simp only [appendManyIo, hp, List.map_map]
      rfl
    have hall : (w.appendManyIo io (jobs.map Job.item)).2.all (·.isOk) = true := by
      rw [happ, List.all_map]
      exact List.all_eq_true.2 fun _ _ => rfl
    by_cases hs : SyncFails io
    · obtain ⟨e', hres⟩ := drainAndFlush_of_syncFails hne hall hs
      rw [happ] at hres
      have herr : ∀ i < jobs.length, (drainAndFlush w jobs io).results[i]? = some (.error e') := by
        intro i hi
        simp [hres, hi, completeJob]
      refine iff_of_true ⟨?_, ?_, ?_⟩ (.inr ⟨fun i _ => hnone i, .inr hs⟩)
      · intro i j lsn hj hr
        rw [herr i (List.getElem?_eq_some_iff.1 hj).1] at hr
        cases hr
      · exact fun {i} hi _ => ⟨e', herr i hi⟩
      · exact fun {i} ha => absurd ha (hnone i)
    · -- every job is acknowledged, with no record at all
      refine iff_of_false (fun hright => ?_) ?_
      · obtain ⟨e', he'⟩ := hright.failed hpos (hnone 0)
        rw [drainAndFlush_of_ok hne hall hs, happ] at he'
        simp [hpos] at he'
      · rintro (ha | ⟨-, hp' | hs'⟩)
        · exact hnone 0 (ha 0 hpos)
        · rw [hp] at hp'
          cases hp'
        · exact hs hs'
  | ok u =>
    obtain ⟨hv, -, hlen, hits⟩ := appendManyIo_spec w jobs hp
    by_cases hall : ∀ i < jobs.length, Appendable jobs io i
    · refine iff_of_true ?_ (.inl hall)
      have hok := (all_isOk_iff (w := w) hp).2 hall
      by_cases hs : SyncFails io
      · obtain ⟨e, hres⟩ := drainAndFlush_of_syncFails hne hok hs
        refine ⟨?_, ?_, ?_⟩
        · intro i j lsn hj hr
          rw [hres, List.getElem?_map, Option.map_eq_some_iff] at hr
          obtain ⟨st, -, hst⟩ := hr
          cases hst
        · exact fun {i} hi ha => absurd (hall i hi) ha
        · intro i ha h1 h2
          exact absurd hs (by simp [SyncFails, h1, h2])
      · rw [drainAndFlush_of_ok hne hok hs] at hf ⊢
        refine ⟨?_, ?_, ?_⟩
        · intro i j lsn hj hr
          have hi := (List.getElem?_eq_some_iff.1 hj).1
          obtain ⟨lsn', hst, hlog⟩ := (hits i j hj).1 (hall i hi)
          obtain rfl : lsn' = lsn := by
            rw [hst] at hr
            simpa using hr
          exact ⟨hf hv hlog, ⟨_, rfl, hlog.liesIn⟩, ⟨_, rfl, mem_commitItems hj hst⟩⟩
        · exact fun {i} hi ha => absurd (hall i hi) ha
        · rintro i ⟨hp', j, hj, ht⟩ - -
          obtain ⟨lsn, hst, -⟩ := (hits i j hj).1 ⟨hp', j, hj, ht⟩
          exact ⟨lsn, hst⟩
    · have hfail : (w.appendManyIo io (jobs.map Job.item)).2.all (·.isOk) = false := by
        rw [← Bool.not_eq_true, all_isOk_iff hp]
        exact hall
      rw [drainAndFlush_of_failed hne hfail]
      constructor
      · -- an appended job among failed ones is acknowledged before any sync
        intro hright
        refine .inr ⟨fun i hi ha => ?_, .inl hp⟩
        have hj : jobs[i]? = some jobs[i] := List.getElem?_eq_getElem hi
        obtain ⟨lsn, hst, -⟩ := (hits i jobs[i] hj).1 ha
        obtain ⟨g, hg, -⟩ := (hright.acknowledged hj hst).fsynced
        cases hg
      · rintro (ha | ⟨hnone, -⟩)
        · exact absurd ha hall
        · refine ⟨?_, ?_, ?_⟩
          · intro i j lsn hj hr
            obtain ⟨e, he⟩ := (hits i j hj).2 (hnone i (List.getElem?_eq_some_iff.1 hj).1)
            rw [he] at hr
            cases hr
          · exact fun {i} hi ha => (hits i jobs[i] (by simp [hi])).2 ha
          · rintro i ⟨hp', j, hj, ht⟩ - -
            exact absurd ⟨hp', j, hj, ht⟩ (hnone i (List.getElem?_eq_some_iff.1 hj).1)

end Drain

/-! ## Runs -/

theorem drainAndFlush_keeps {w : WalWriter} (hv : w.formatV2 = true) (jobs : List Job)
    (io : DrainIo) : Keeps w (drainAndFlush w jobs io).wal := by
  have happ : Keeps w (w.appendManyIo io (jobs.map Job.item)).1 := by
    cases hp : io.prepare with
    | error e =>
      simp only [appendManyIo, hp]
      exact .refl hv
    | ok u => exact (appendManyIo_spec w jobs hp).2.1 hv
  unfold drainAndFlush
  split
  · exact .refl hv
  · have hsync := happ.trans (Keeps.fsyncIo happ.formatted io.fsync)
    dsimp only
    split
    · split <;> rename_i heq <;> rw [heq] at hsync <;> exact hsync
    · exact happ

namespace WalBatchPipeline

theorem run_keeps {p : WalBatchPipeline} (hv : p.wal.formatV2 = true) (steps : List Step) :
    Keeps p.wal (p.run steps).1.wal := by
  induction steps generalizing p with
  | nil => exact .refl hv
  | cons step steps ih =>
    cases step with
    | submit job => exact @ih { p with queue := p.queue ++ [job] } hv
    | drain n io =>
      have hd := drainAndFlush_keeps hv (p.queue.take n) io
      exact hd.trans (@ih ⟨_, p.queue.drop n⟩ hd.formatted)

/-- **The acknowledgements of the pipeline.** In every run of it, over any writer and any queue,
with any jobs submitted and drained in any way, the drains treat their jobs right, in the log the
run ends with, exactly when each of them appends all its jobs or none. -/
theorem run_right_iff (p : WalBatchPipeline) (steps : List Step) :
    (∀ b ∈ (p.run steps).2, DrainRight b.jobs b.io b.drained (p.run steps).1.wal.file) ↔
      ∀ b ∈ (p.run steps).2, AllOrNone b.jobs b.io := by
  induction steps generalizing p with
  | nil => exact ⟨fun _ b hb => absurd hb List.not_mem_nil, fun _ b hb => absurd hb List.not_mem_nil⟩
  | cons step steps ih =>
    cases step with
    | submit job => exact ih _
    | drain n io =>
      have hone := @drainAndFlush_right_iff p.wal (p.queue.take n) io
        (run ⟨(drainAndFlush p.wal (p.queue.take n) io).wal, p.queue.drop n⟩ steps).1.wal.file
        fun hv hr => ((run_keeps hv steps).logged hr).liesIn
      simp only [run, List.forall_mem_cons]
      exact and_congr hone (ih _)

/-- Two puts in one drain, the value of the first too large for its header. -/
def unevenJobs : List Job := [.put [1] (List.replicate 65536 0) 0, .put [2] [3] 0]

def calmIo : DrainIo := ⟨.ok (), fun _ => none, .ok, .ok ()⟩

/-- The second put is acknowledged with nothing synced and nothing applied. -/
theorem uneven_drain_not_right :
    ¬ ∀ b ∈ (WalBatchPipeline.run ⟨«open» [], unevenJobs⟩ [.drain 2 calmIo]).2,
      DrainRight b.jobs b.io b.drained
        (WalBatchPipeline.run ⟨«open» [], unevenJobs⟩ [.drain 2 calmIo]).1.wal.file := by
  rw [run_right_iff]
  intro h
  have hb : AllOrNone unevenJobs calmIo := h ⟨unevenJobs, calmIo, _⟩ (List.mem_singleton.2 rfl)
  have hlarge : ¬ (Job.put [1] (List.replicate 65536 0) 0).item.InBounds := by
    intro hin
    have hle : (List.replicate 65536 (0 : UInt8)).length ≤ 65535 := hin.2
    rw [List.length_replicate] at hle
    omega
  rcases hb with hall | ⟨hnone, -⟩
  · obtain ⟨-, j, hj, hin, -⟩ := hall 0 (by decide)
    obtain rfl : Job.put [1] (List.replicate 65536 0) 0 = j := Option.some.inj hj
    exact hlarge hin
  · exact hnone 1 (by decide) ⟨rfl, _, rfl, by decide, rfl⟩

end WalBatchPipeline
end EBTree.Wal
