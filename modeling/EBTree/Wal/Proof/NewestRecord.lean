import EBTree.Wal.Proof.KeyIndex
import EBTree.Wal.Proof.Truncate
import EBTree.Wal.Proof.TwoWriters

/-!
# The newest record of a key

A run of a writer whose file also grows from outside: calls, refreshes behind records another
writer appended, reopenings and truncations (`WalStep`, `WalRun`).

* `Tracked`: an index that took in its waiting entries would lead to the last record of every key.
  One lemma for each step.
* `newest_of_lastEntry`: the last record of a key is the one with the greatest LSN.
* `index_newest`: **in a run whose steps meet `WalStep.Meets`, a lookup finds the newest record**
  of every key that does not wait, and no refresh replaces an entry by an older one.
-/

set_option autoImplicit false

namespace EBTree.Wal

open Lib Reader WalWriter

/-! ## Steps -/

inductive WalStep
  | call (c : Call)
  /-- Another writer appended these records; `SyncExternalTail`. -/
  | refresh (more : List WalRecord)
  /-- The process ends and the file is opened again. -/
  | reopen
  | truncate (walLsn : Nat)

namespace WalStep

/-- The file with what another writer put behind it. -/
def grown (w : WalWriter) (more : List WalRecord) : WalWriter :=
  { w with file := w.file ++ encodeAll more }

def apply (w : WalWriter) : WalStep → WalWriter
  | call c => (c.run w).1
  | refresh more => (grown w more).syncExternalTailLocked
  | reopen => «open» w.file
  | truncate walLsn => w.truncateTo walLsn

/-- The records in the file behind the step. -/
def records (w : WalWriter) (rs : List WalRecord) : WalStep → List WalRecord
  | call c => rs ++ (c.run w).2.toList
  | refresh more => rs ++ more
  | reopen => rs
  | truncate walLsn => rs.filter (walLsn < ·.lsn)

/-- What can happen: LSNs stay below the magic, and another writer appends records that fit their
headers under later LSNs. -/
def Possible (w : WalWriter) (rs : List WalRecord) : WalStep → Prop
  | call _ => w.maxLsn + 1 < kWalMagicV2
  | refresh more => (∀ r ∈ more, r.Fits) ∧ (rs ++ more).Pairwise (·.lsn < ·.lsn)
  | reopen => True
  | truncate _ => True

/-- Under which the index keeps its promise: what comes from outside finds a writer that knows the
format, knows of no more than the file holds and has no entry waiting for the same key; a truncation
leaves no record and finds no entry. -/
def Meets (w : WalWriter) (rs : List WalRecord) (s : WalStep) : Prop :=
  s.Possible w rs ∧
    match s with
    | call _ => True
    | refresh more => w.formatV2 = true ∧ w.tailDataEnd ≤ max 8 w.file.length ∧
        ∀ e ∈ w.pendingIndex, ∀ r ∈ more, r.isData = true → r.key ≠ e.key
    | reopen => True
    | truncate walLsn => (∀ r ∈ rs, r.lsn ≤ walLsn) ∧ ∀ key, w.keyIndex.find? key = none

end WalStep

/-- Runs on a fresh path whose steps are all `ok`, with the records in the file. -/
inductive WalRun (ok : WalWriter → List WalRecord → WalStep → Prop) :
    WalWriter → List WalRecord → Prop
  | fresh : WalRun ok («open» []) []
  | step {w : WalWriter} {rs : List WalRecord} (s : WalStep) : WalRun ok w rs → ok w rs s →
      WalRun ok (s.apply w) (s.records w rs)

/-! ## Lookups -/

/-- `o` is where the record of `key` with the greatest LSN after `after` stands. -/
def IsNewest (rs : List WalRecord) (key : Key) (after o : Nat) : Prop :=
  ∃ r, (o, r) ∈ dataOf (layout 8 rs) key ∧ after < r.lsn ∧
    ∀ x ∈ dataOf (layout 8 rs) key, x.2.lsn ≤ r.lsn

/-- A lookup finds the newest record of the key, or nothing where there is none. -/
def Finds (w : WalWriter) (rs : List WalRecord) (key : Key) : Prop :=
  ∀ after, (∀ o, w.keyIndex.lookup key after = some o → IsNewest rs key after o) ∧
    (w.keyIndex.lookup key after = none → ∀ x ∈ dataOf (layout 8 rs) key, x.2.lsn ≤ after)

theorem sorted_layout {o : Nat} {rs : List WalRecord} (h : rs.Pairwise (·.lsn < ·.lsn)) :
    (layout o rs).Pairwise fun x y => x.2.lsn < y.2.lsn := by
  rw [← layout_map_snd o rs] at h
  exact (List.pairwise_map (f := fun x : Nat × WalRecord => x.2)).1 h

/-- **The last record of a key is the newest.** -/
theorem newest_of_lastEntry {w : WalWriter} {rs : List WalRecord} {key : Key}
    (hsorted : rs.Pairwise (·.lsn < ·.lsn))
    (h : w.keyIndex.find? key = lastEntry (layout 8 rs) key) : Finds w rs key := by
  have hdata : (dataOf (layout 8 rs) key).Pairwise fun x y => x.2.lsn < y.2.lsn :=
    (sorted_layout hsorted).filter _
  intro after
  unfold WalKeyIndex.lookup
  rw [h, lastEntry]
  rcases List.eq_nil_or_concat (dataOf (layout 8 rs) key) with hnil | ⟨front, last, hlast⟩
  · rw [hnil]
    refine ⟨fun o ho => ?_, fun _ x hx => absurd hx List.not_mem_nil⟩
    cases ho
  · rw [List.concat_eq_append] at hlast
    rw [hlast, List.getLast?_concat, Option.map_some]
    rw [hlast] at hdata
    have hle : ∀ x ∈ front ++ [last], x.2.lsn ≤ last.2.lsn := by
      intro x hx
      rcases List.mem_append.1 hx with hx | hx
      · exact Nat.le_of_lt ((List.pairwise_append.1 hdata).2.2 x hx last (List.mem_singleton_self _))
      · rw [List.mem_singleton.1 hx]
    dsimp only
    by_cases hafter : last.2.lsn ≤ after
    · rw [if_pos hafter]
      refine ⟨fun o ho => ?_, fun _ x hx => Nat.le_trans (hle x hx) hafter⟩
      cases ho
    · rw [if_neg hafter]
      refine ⟨fun o ho => ?_, fun hnone => ?_⟩
      · cases ho
        exact ⟨last.2, by rw [hlast]; simp, by omega, by rw [hlast]; exact hle⟩
      · cases hnone

/-! ## Entries that wait -/

/-- The last entry that waits for a key. -/
def lastPending (ps : List PendingIndexEntry) (key : Key) : Option WalKeyIndexEntry :=
  (ps.filter fun e => decide (e.key = key)).getLast?.map fun e => ⟨e.offset, e.lsn⟩

/-- What a sync makes of a lookup. -/
theorem find?_fsync (w : WalWriter) (key : Key) :
    w.fsync.keyIndex.find? key = (lastPending w.pendingIndex key).or (w.keyIndex.find? key) := by
  rw [WalWriter.fsync]
  dsimp only
  generalize w.pendingIndex = ps
  induction ps using List.reverseRecOn with
  | nil => rfl
  | append_singleton ps e ih =>
    rw [List.foldl_append, List.foldl_cons, List.foldl_nil, WalKeyIndex.update,
      SortedMap.find?_insert, lastPending, List.filter_append]
    by_cases hk : key = e.key
    · simp [hk]
    · simp only [hk, if_false, ih, List.filter_cons, Ne.symm hk, decide_false, Bool.false_eq_true,
        List.filter_nil, List.append_nil]
      rfl

theorem lastPending_eq_none {ps : List PendingIndexEntry} {key : Key}
    (h : ∀ e ∈ ps, e.key ≠ key) : lastPending ps key = none := by
  have hnil : ps.filter (fun e => decide (e.key = key)) = [] :=
    List.filter_eq_nil_iff.2 fun e he => by simpa using h e he
  rw [lastPending, hnil]
  rfl

/-! ## The invariant -/

/-- The writer logs the records, and its index, with what waits, leads to the last of every key. -/
structure Tracked (w : WalWriter) (rs : List WalRecord) : Prop where
  logs : Logs w rs
  last : ∀ key, w.fsync.keyIndex.find? key = lastEntry (layout 8 rs) key

variable {w : WalWriter} {rs more : List WalRecord}

/-- A key that does not wait is looked up right. -/
theorem Tracked.find (h : Tracked w rs) {key : Key} (hk : ∀ e ∈ w.pendingIndex, e.key ≠ key) :
    w.keyIndex.find? key = lastEntry (layout 8 rs) key := by
  have hlast := h.last key
  rwa [find?_fsync, lastPending_eq_none hk, Option.none_or] at hlast

theorem Tracked.fresh : Tracked («open» []) [] := ⟨Logs.fresh, fun _ => rfl⟩

theorem Tracked.fsync (h : Tracked w rs) : Tracked w.fsync rs :=
  ⟨h.logs.fsync, fun key => h.last key⟩

/-- The writer behind an append that is accepted. -/
theorem append_eq (hl : Logs w rs) {it : Item} (hb : it.InBounds) (hn : w.maxLsn + 1 < kWalMagicV2) :
    (w.append it).1 = { w.ensureWalMagicLocked with
      maxLsn := w.maxLsn + 1 }.appendRecordV2 (it.record (w.maxLsn + 1)) := by
  have h64 : kWalMagicV2 < 2 ^ 64 := by decide
  have hnext : nextLsn w.maxLsn = w.maxLsn + 1 := Nat.mod_eq_of_lt (by omega)
  simp only [WalWriter.append, hl.shows.sync, appendItem, hb, if_true,
    ensureWalMagicLocked_maxLsn, hnext]

/-- **An append** waits behind the others. -/
theorem Tracked.append (h : Tracked w rs) {it : Item} (hb : it.InBounds)
    (hn : w.maxLsn + 1 < kWalMagicV2)
    (hl : Logs (w.append it).1 (rs ++ [it.record (w.maxLsn + 1)])) :
    Tracked (w.append it).1 (rs ++ [it.record (w.maxLsn + 1)]) := by
  refine ⟨hl, fun key => ?_⟩
  have hkeep := ensureWalMagicLocked_index w
  have hoff := h.logs.shows.offset_eq
  have hend : 8 + (rs.map WalRecord.size).sum = w.ensureWalMagicLocked.fileOffset := by
    rw [hoff, length_logFile]
  have hold := h.last key
  rw [append_eq h.logs hb hn, layout_snoc, lastEntry_append, ← hold, hend]
  generalize it.record (w.maxLsn + 1) = r
  by_cases hd : r.op = .kPut ∨ r.op = .kDelete
  · have hdata := (isData_iff r).2 hd
    simp only [WalWriter.fsync, appendRecordV2, if_pos hd, hkeep.1, hkeep.2, List.foldl_append,
      List.foldl_cons, List.foldl_nil, WalKeyIndex.update, SortedMap.find?_insert, lastEntry,
      dataOf]
    by_cases hk : key = r.key
    · simp [hk, hdata]
    · simp [hk, Ne.symm hk]
  · have hdata : r.isData = false := by
      rw [← Bool.not_eq_true, isData_iff]
      exact hd
    simp only [WalWriter.fsync, appendRecordV2, if_neg hd, hkeep.1, hkeep.2, lastEntry, dataOf]
    simp [hdata]

/-- A record that is refused leaves no entry. -/
theorem Tracked.append_tooLarge (h : Tracked w rs) {it : Item} (hb : ¬ it.InBounds)
    (hl : Logs (w.append it).1 rs) : Tracked (w.append it).1 rs := by
  have hkeep := ensureWalMagicLocked_index w
  have happ : (w.append it).1 = { w.ensureWalMagicLocked with maxLsn := nextLsn w.maxLsn } := by
    simp only [WalWriter.append, h.logs.shows.sync, appendItem, hb, if_false,
      ensureWalMagicLocked_maxLsn]
  refine ⟨hl, fun key => ?_⟩
  rw [← h.last key, happ]
  simp only [WalWriter.fsync, hkeep.1, hkeep.2]

theorem Tracked.call (h : Tracked w rs) (c : Call) (hn : w.maxLsn + 1 < kWalMagicV2) :
    Tracked (c.run w).1 (rs ++ (c.run w).2.toList) := by
  cases hc : c.item? with
  | none =>
    have hrun : c.run w = (w.fsync, none) := by rw [Call.run, hc]
    rw [hrun]
    simpa using h.fsync
  | some it =>
    by_cases hb : it.InBounds
    · obtain ⟨w', ha, -, hl⟩ := h.logs.append hb hn
      have hrun : c.run w = (w', some (it.record (w.maxLsn + 1))) := by
        simp only [Call.run, hc, ha]
      have ht := h.append hb hn (by rw [ha]; exact hl)
      rw [ha] at ht
      rw [hrun]
      exact ht
    · obtain ⟨w', e, ha, -, hl⟩ := h.logs.append_tooLarge hb hn
      have hrun : c.run w = (w', none) := by simp only [Call.run, hc, ha]
      have ht := h.append_tooLarge hb (by rw [ha]; exact hl)
      rw [ha] at ht
      rw [hrun]
      simpa using ht

/-! ## Refreshes -/

/-- What the writer knows of, when it knows of no more than the file holds. -/
theorem Logs.knows (h : Logs w rs) (hv : w.formatV2 = true)
    (htail : w.tailDataEnd ≤ max 8 w.file.length) : Knows w rs := by
  have hoff := h.shows.offset_eq
  rw [ensureWalMagicLocked_of_formatV2 hv] at hoff
  have hshow := h.shows.tail
  rw [List.append_nil] at hshow
  rw [h.file_eq] at htail
  have hlen := length_logFile rs
  refine ⟨.inl hv, fun _ => hoff, ?_, h.le_max⟩
  by_cases heq : w.tailDataEnd = (logFile rs).length
  · exact .inl heq
  · refine .inr ⟨by omega, ?_⟩
    -- only a file without records is as short as the magic
    by_contra hne
    obtain ⟨r, rs, rfl⟩ := List.exists_cons_of_ne_nil hne
    have hsize := r.size_pos
    rw [List.map_cons, List.sum_cons] at hlen
    omega

/-- What a refresh finds behind the records the writer knows of. -/
theorem extend_found (hfits : ∀ r ∈ more, r.Fits) {start : Nat}
    (hstart : max start 8 = (logFile rs).length) :
    (extendTailFromOffset (logFile (rs ++ more)) start).found =
      (layout (logFile rs).length more).map fun x => (x.1, x.2.raw) := by
  have hdetect := detectFormatV2OnDisk_logFile (rs ++ more) []
  rw [List.append_nil] at hdetect
  have hframes := frames_encodeAll (logFile rs) [] hfits
  rw [List.append_nil] at hframes
  have hend : (logFile rs ++ encodeAll more).length
      = (logFile rs).length + (more.map WalRecord.size).sum := by
    rw [List.length_append, length_encodeAll]
  have hscan := scan_frames hframes (le_of_eq hend.symm)
  rw [scan_of_ge (le_of_eq hend), List.append_nil] at hscan
  simp only [extendTailFromOffset, hdetect, if_true, hstart]
  rw [logFile_append, hscan]
  rfl

/-- What a refresh leaves: the file, what waits, and an index of what came. -/
theorem refresh_eq (h : Logs w rs) (hfits : ∀ r ∈ more, r.Fits) (hv : w.formatV2 = true)
    (htail : w.tailDataEnd ≤ max 8 w.file.length) :
    ((WalStep.refresh more).apply w).file = logFile (rs ++ more) ∧
    ((WalStep.refresh more).apply w).pendingIndex = w.pendingIndex ∧
    ∀ key, ((WalStep.refresh more).apply w).keyIndex.find? key =
      (lastEntry (layout (logFile rs).length more) key).or (w.keyIndex.find? key) := by
  have hfile : (WalStep.grown w more).file = logFile (rs ++ more) := by
    rw [WalStep.grown, h.file_eq, logFile_append]
  have hmax := (h.knows hv htail).max_tail
  rw [WalStep.apply, syncExternalTailLocked]
  split
  · rename_i hshort
    -- nothing came
    have hnil : more = [] := by
      by_contra hne
      obtain ⟨r, more, rfl⟩ := List.exists_cons_of_ne_nil hne
      have hsize := r.size_pos
      rw [hfile, length_logFile, List.map_append, List.sum_append, List.map_cons,
        List.sum_cons] at hshort
      have hlen := length_logFile rs
      change _ ≤ w.tailDataEnd at hshort
      omega
    subst hnil
    exact ⟨hfile, rfl, fun key => rfl⟩
  · refine ⟨hfile, rfl, fun key => ?_⟩
    have hfound := extend_found hfits hmax
    change (indexFrames w.keyIndex ((extendTailFromOffset (WalStep.grown w more).file
      w.tailDataEnd).found.filter (·.2.isData))).find? key = _
    rw [hfile, hfound]
    exact find?_indexFrames _ _ _ _

/-- A refresh of the log. -/
theorem Logs.refresh (h : Logs w rs) (hfits : ∀ r ∈ more, r.Fits) (hv : w.formatV2 = true)
    (htail : w.tailDataEnd ≤ max 8 w.file.length)
    (hsorted : (rs ++ more).Pairwise (·.lsn < ·.lsn)) :
    Logs ((WalStep.refresh more).apply w) (rs ++ more) := by
  have hall : ∀ r ∈ rs ++ more, r.Fits := List.forall_mem_append.2 ⟨h.fits, hfits⟩
  have hfile : (WalStep.grown w more).file = logFile (rs ++ more) := by
    rw [WalStep.grown, h.file_eq, logFile_append]
  have hknows : Knows (WalStep.grown w more) rs := (h.knows hv htail).file _
  obtain ⟨hk, hv', -⟩ := @Knows.sync (WalStep.grown w more) rs more 0 hknows hv hall hfile
  have hkeep := (refresh_eq h hfits hv htail).1
  exact
    { shows := ⟨.of_formatV2 hv' (by rw [List.append_nil]; exact hkeep) (hk.offset hv'),
        .inr hk.max_tail, .of_ge (by rw [List.append_nil])⟩
      file_eq := hkeep
      v2 := .inl hv'
      fits := hall
      sorted := hsorted
      le_max := hk.le_max }

theorem layout_more (rs more : List WalRecord) (key : Key) :
    lastEntry (layout 8 (rs ++ more)) key =
      (lastEntry (layout (logFile rs).length more) key).or (lastEntry (layout 8 rs) key) := by
  rw [layout_append', lastEntry_append]

/-- A key of which no record came. -/
theorem lastEntry_eq_none {o : Nat} {key : Key}
    (h : ∀ r ∈ more, r.isData = true → r.key ≠ key) : lastEntry (layout o more) key = none := by
  have hnil : dataOf (layout o more) key = [] := by
    refine List.filter_eq_nil_iff.2 fun x hx => ?_
    have hr : x.2 ∈ more := by
      rw [← layout_map_snd o more]
      exact List.mem_map_of_mem hx
    simpa using h x.2 hr
  rw [lastEntry, hnil]
  rfl

/-- **A refresh** takes in records under keys that do not wait. -/
theorem Tracked.refresh (h : Tracked w rs) (hfits : ∀ r ∈ more, r.Fits) (hv : w.formatV2 = true)
    (htail : w.tailDataEnd ≤ max 8 w.file.length)
    (hsorted : (rs ++ more).Pairwise (·.lsn < ·.lsn))
    (hwait : ∀ e ∈ w.pendingIndex, ∀ r ∈ more, r.isData = true → r.key ≠ e.key) :
    Tracked ((WalStep.refresh more).apply w) (rs ++ more) := by
  refine ⟨h.logs.refresh hfits hv htail hsorted, fun key => ?_⟩
  obtain ⟨-, hpending, hfind⟩ := refresh_eq h.logs hfits hv htail
  have hlast := h.last key
  rw [find?_fsync] at hlast ⊢
  rw [hpending, hfind, layout_more, ← hlast]
  by_cases hk : ∃ e ∈ w.pendingIndex, e.key = key
  · obtain ⟨e, he, rfl⟩ := hk
    rw [lastEntry_eq_none fun r hr hd => hwait e he r hr hd, Option.none_or, Option.none_or]
  · rw [lastPending_eq_none fun e he heq => hk ⟨e, he, heq⟩, Option.none_or, Option.none_or]

theorem lastEntry_lsn {o : Nat} {key : Key} {e : WalKeyIndexEntry}
    (h : lastEntry (layout o rs) key = some e) : ∃ r ∈ rs, r.lsn = e.lsn := by
  obtain ⟨x, hx, rfl⟩ := Option.map_eq_some_iff.1 h
  have hmem := (List.mem_filter.1 (List.mem_of_getLast? hx)).1
  refine ⟨x.2, ?_, rfl⟩
  rw [← layout_map_snd o rs]
  exact List.mem_map_of_mem hmem

/-- No entry is replaced by an older one. -/
def NeverOlder (w w' : WalWriter) : Prop :=
  ∀ key e, w.keyIndex.find? key = some e →
    ∃ e', w'.keyIndex.find? key = some e' ∧ e.lsn ≤ e'.lsn

theorem Tracked.neverOlder (h : Tracked w rs) (hm : (WalStep.refresh more).Meets w rs) :
    NeverOlder w ((WalStep.refresh more).apply w) := by
  obtain ⟨⟨hfits, hsorted⟩, hv, htail, hwait⟩ := hm
  obtain ⟨-, -, hfind⟩ := refresh_eq h.logs hfits hv htail
  intro key e he
  rw [hfind key]
  by_cases hk : ∃ p ∈ w.pendingIndex, p.key = key
  · obtain ⟨p, hp, rfl⟩ := hk
    rw [lastEntry_eq_none fun r hr hd => hwait p hp r hr hd, Option.none_or]
    exact ⟨e, he, Nat.le_refl _⟩
  · have hold := h.find fun p hp heq => hk ⟨p, hp, heq⟩
    rw [he] at hold
    obtain ⟨r, hr, hlsn⟩ := lastEntry_lsn hold.symm
    cases hnew : lastEntry (layout (logFile rs).length more) key with
    | none => exact ⟨e, he, Nat.le_refl _⟩
    | some e' =>
      obtain ⟨r', hr', hlsn'⟩ := lastEntry_lsn hnew
      have hlt := (List.pairwise_append.1 hsorted).2.2 r hr r' hr'
      exact ⟨e', rfl, by omega⟩

/-! ## Reopening and truncating -/

theorem Tracked.reopen (h : Tracked w rs) : Tracked («open» w.file) rs := by
  have hindex := Indexed.reopen h.logs.fits
  refine ⟨h.logs.reopen.1, fun key => ?_⟩
  rw [h.logs.file_eq, find?_fsync, hindex.pending, hindex.find key]
  rfl

/-- A truncation that leaves no record and finds no entry. -/
theorem Tracked.truncate (h : Tracked w rs) {walLsn : Nat} (hall : ∀ r ∈ rs, r.lsn ≤ walLsn)
    (hempty : ∀ key, w.keyIndex.find? key = none) : Tracked (w.truncateTo walLsn) [] := by
  have hl := (h.logs.truncateTo hall).1
  have hindex : (w.truncateTo walLsn).pendingIndex = [] ∧
      ∀ key, (w.truncateTo walLsn).keyIndex.find? key = none := by
    by_cases hnil : w.truncated walLsn = []
    · have heq : (w.truncateTo walLsn).pendingIndex = [] ∧
          (w.truncateTo walLsn).keyIndex = .empty := by
        simp [WalWriter.truncateTo, hnil, rebuildKeyIndex, ensureWalMagicLocked]
      exact ⟨heq.1, fun key => by rw [heq.2]; exact SortedMap.find?_empty key⟩
    · have hfile : (w.truncateTo walLsn).file = w.truncated walLsn :=
        rebuildKeyIndex_file (List.length_pos_iff.2 hnil)
      rw [truncateTo_all_eq (hfile.symm.trans hl.file_eq)]
      exact ⟨rfl, hempty⟩
  refine ⟨hl, fun key => ?_⟩
  rw [find?_fsync, hindex.1, hindex.2 key]
  rfl

/-! ## Runs -/

/-- **Every step** that meets its condition keeps the index tracked. -/
theorem Tracked.step (h : Tracked w rs) {s : WalStep} (hm : s.Meets w rs) :
    Tracked (s.apply w) (s.records w rs) := by
  cases s with
  | call c => exact h.call c hm.1
  | refresh more =>
    obtain ⟨⟨hfits, hsorted⟩, hv, htail, hwait⟩ := hm
    exact h.refresh hfits hv htail hsorted hwait
  | reopen => exact h.reopen
  | truncate walLsn =>
    obtain ⟨-, hall, hempty⟩ := hm
    have hnil : rs.filter (walLsn < ·.lsn) = [] :=
      List.filter_eq_nil_iff.2 fun r hr => by simpa using hall r hr
    rw [WalStep.records, hnil]
    exact h.truncate hall hempty

theorem WalRun.tracked (h : WalRun WalStep.Meets w rs) : Tracked w rs := by
  induction h with
  | fresh => exact .fresh
  | step s _ hm ih => exact ih.step hm

/-- **The index leads to the newest record** of every key that does not wait, in every state of a
run whose steps meet their conditions, and a refresh never makes an entry older. -/
theorem index_newest (h : WalRun WalStep.Meets w rs) :
    (∀ key, (∀ e ∈ w.pendingIndex, e.key ≠ key) → Finds w rs key) ∧
    ∀ more, (WalStep.refresh more).Meets w rs →
      NeverOlder w ((WalStep.refresh more).apply w) :=
  ⟨fun _ hk => newest_of_lastEntry h.tracked.logs.sorted (h.tracked.find hk),
    fun _ hm => h.tracked.neverOlder hm⟩

/-- A put of a key, and a later one that another writer appends. -/
def firstPut : Item := ⟨.kPut, [97], [98], 0⟩

def laterPut : WalRecord := ⟨2, .kPut, [97], [99], 0⟩

theorem fits_laterPut : ∀ r ∈ [laterPut], r.Fits := by
  intro r hr
  rw [List.mem_singleton.1 hr]
  exact { lsn_lt := by decide, key_le := by decide, value_le := by decide, lsn_pos := by decide,
          lsn_ne := by decide }

/-- A sync before the refresh: the run meets its conditions, and the later put is found. -/
theorem index_newest_synced :
    let w := ((Call.append firstPut).run («open» [])).1.fsync
    Finds ((WalStep.refresh [laterPut]).apply w) [firstPut.record 1, laterPut] [97] := by
  have h1 : WalRun WalStep.Meets _ _ := .step (.call (.append firstPut)) .fresh
    ⟨by change («open» []).maxLsn + 1 < kWalMagicV2; decide +kernel, trivial⟩
  have h2 : WalRun WalStep.Meets _ _ := .step (.call .fsync) h1
    ⟨by change ((Call.append firstPut).run («open» [])).1.maxLsn + 1 < kWalMagicV2
        decide +kernel, trivial⟩
  have h3 : WalRun WalStep.Meets _ _ := .step (.refresh [laterPut]) h2
    ⟨⟨fits_laterPut, by decide +kernel⟩, by decide +kernel, by decide +kernel, by decide +kernel⟩
  exact (index_newest h3).1 [97] (by decide +kernel)

/-- No sync before the refresh: the entry that waited replaces the newer one. -/
theorem index_older : ¬ ∀ w rs, WalRun WalStep.Possible w rs →
    ∀ key, (∀ e ∈ w.pendingIndex, e.key ≠ key) → Finds w rs key := by
  intro hall
  have h1 : WalRun WalStep.Possible _ _ := .step (.call (.append firstPut)) .fresh
    (by change («open» []).maxLsn + 1 < kWalMagicV2; decide +kernel)
  have h2 : WalRun WalStep.Possible _ _ := .step (.refresh [laterPut]) h1
    ⟨fits_laterPut, by decide +kernel⟩
  have h3 : WalRun WalStep.Possible _ _ := .step (.call .fsync) h2
    (by change ((WalStep.refresh [laterPut]).apply
          ((Call.append firstPut).run («open» [])).1).maxLsn + 1 < kWalMagicV2
        decide +kernel)
  obtain ⟨r, hr, -, hmax⟩ := ((hall _ _ h3) [97] (by decide +kernel) 0).1 8 (by decide +kernel)
  have hdata : dataOf (layout 8 [firstPut.record 1, laterPut]) [97] =
      [(8, firstPut.record 1), (8 + (firstPut.record 1).size, laterPut)] := by decide +kernel
  change (8, r) ∈ dataOf (layout 8 [firstPut.record 1, laterPut]) [97] at hr
  change ∀ x ∈ dataOf (layout 8 [firstPut.record 1, laterPut]) [97], x.2.lsn ≤ r.lsn at hmax
  rw [hdata] at hr hmax
  have hlater := hmax _ (List.mem_cons_of_mem _ (List.mem_singleton_self _))
  rcases List.mem_cons.1 hr with h | h
  · cases h
    exact absurd hlater (by decide)
  · have hoff := (Prod.mk.inj (List.mem_singleton.1 h)).1
    exact absurd hoff (by decide)

end EBTree.Wal
