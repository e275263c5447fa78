import EBTree.Audit.Proof.OpLogExpect
import EBTree.Lib.SortedMap

/-!
# False alarms of the contract check

* `contractAttest_clean`: no alarm is given where all that is expected is there and nothing is
  there that is not expected.
* `noFalseAlarm_iff`: **when a log gives no false alarm**. The log keeps an expected key for each
  put, so a key that is put again with another value, or deleted, is missed; and a key that has
  to be escaped is expected under another name.
-/

set_option autoImplicit false

namespace EBTree.Audit

open Lib

open Sql.OpLog (OpLogEntry opLogLine openLog appendEntry appendPut appendDelete)

/-! ## The comparison -/

section Attest

variable {get : Bytes → Option Bytes} {keys : List Bytes}

/-- A key that was asked for is answered. -/
theorem findProbe_attestProbes {key : Bytes} (h : key ∈ keys) :
    findProbe (attestProbes get keys) key =
      some ⟨key, (get key).isSome, ((get key).map sha256HexString).getD []⟩ := by
  unfold findProbe attestProbes
  induction keys with
  | nil => cases h
  | cons k keys ih =>
    rw [List.map_cons, List.find?_cons]
    by_cases hk : k = key
    · subst hk
      simp
    · have hmem : key ∈ keys := by
        rcases List.mem_cons.1 h with h | h
        · exact absurd h.symm hk
        · exact h
      simp only [hk, decide_false]
      exact ih hmem

theorem get_of_findProbe {key : Bytes} {probe : KeyProbeResult}
    (h : (findProbe (attestProbes get keys) key).filter (fun probe => probe.found) = some probe) :
    ∃ value, get key = some value := by
  rw [Option.filter_eq_some_iff] at h
  obtain ⟨hfind, hfound⟩ := h
  have hkey := List.find?_some hfind
  obtain ⟨k, -, rfl⟩ := List.mem_map.1 (List.mem_of_find?_eq_some hfind)
  obtain rfl : k = key := of_decide_eq_true hkey
  exact Option.isSome_iff_exists.1 hfound

theorem expectedMap_some {entries : List ExpectedKeyEntry} {key : Bytes} {e : ExpectedKeyEntry}
    (h : expectedMap entries key = some e) : e ∈ entries :=
  List.mem_reverse.1 (List.mem_of_find?_eq_some h)

theorem expectedMap_ne_none {entries : List ExpectedKeyEntry} {e : ExpectedKeyEntry}
    (h : e ∈ entries) : expectedMap entries e.key ≠ none := by
  intro hnone
  have := List.find?_eq_none.1 hnone e (List.mem_reverse.2 h)
  simp at this

/-- No alarm was given. -/
def ContractReport.Clean (out : ContractReport) : Prop := out.missing = [] ∧ out.unexpected = []

theorem ContractReport.Clean.attestEntry {mode : ContractMode} {out : ContractReport}
    (h : out.Clean) {entry : ExpectedKeyEntry} (hprobed : entry.key ∈ keys)
    (hmet : entry.shouldExpect mode = true →
      ∃ value, get entry.key = some value ∧ sha256HexString value = entry.expectedHash) :
    (attestEntry mode (attestProbes get keys) out entry).Clean := by
  unfold Audit.attestEntry
  split
  · rename_i hexpect
    obtain ⟨value, hget, hhash⟩ := hmet hexpect
    rw [findProbe_attestProbes hprobed, hget]
    simp only [Option.isSome_some, Option.filter_some, if_true, Option.map_some, Option.getD_some,
      hhash, ne_eq, not_true_eq_false, if_false]
    exact h
  · exact h

theorem ContractReport.Clean.attestTouched {expect : ExpectSnapshot} {out : ContractReport}
    (h : out.Clean) {key : Bytes}
    (hexpected : ∀ value, get key = some value → ∃ entry ∈ expect.entries, entry.key = key)
    (hvisible : ∀ entry ∈ expect.entries, entry.inVisibilitySet = true) :
    (attestTouched expect (attestProbes get keys) out key).Clean := by
  simp only [Audit.attestTouched]
  split
  · rename_i probe hprobe
    obtain ⟨value, hget⟩ := get_of_findProbe hprobe
    obtain ⟨entry, hmem, rfl⟩ := hexpected value hget
    cases hlast : expectedMap expect.entries entry.key with
    | none => exact absurd hlast (expectedMap_ne_none hmem)
    | some last =>
      have hlastVisible := hvisible last (expectedMap_some hlast)
      simp only [Option.any_some, hlastVisible, Bool.not_true, Bool.and_false, Bool.or_self,
        Option.isNone_some, Bool.false_eq_true, if_false]
      exact h
  · exact h

theorem ContractReport.Clean.attestPending {mode : ContractMode} {out : ContractReport}
    (h : out.Clean) (probes : List KeyProbeResult) (entry : ExpectedKeyEntry) :
    (attestPending mode probes out entry).Clean := by
  unfold Audit.attestPending
  split
  · exact h
  split
  · exact h
  split
  · exact h
  · exact h

/-- **No alarm is given** where all that is expected is there, and nothing is there that is not. -/
theorem contractAttest_clean {expect : ExpectSnapshot}
    (hprobed : ∀ entry ∈ expect.entries, entry.key ∈ keys)
    (hmet : ∀ entry ∈ expect.entries, entry.shouldExpect expect.mode = true →
      ∃ value, get entry.key = some value ∧ sha256HexString value = entry.expectedHash)
    (hexpected : ∀ key value, get key = some value → ∃ entry ∈ expect.entries, entry.key = key)
    (hvisible : ∀ entry ∈ expect.entries, entry.inVisibilitySet = true) :
    (contractAttest expect (attestProbes get keys)).Clean := by
  simp only [contractAttest]
  apply List.foldlRecOn (motive := ContractReport.Clean)
  · apply List.foldlRecOn (motive := ContractReport.Clean)
    · apply List.foldlRecOn (motive := ContractReport.Clean)
      · exact ⟨rfl, rfl⟩
      · intro out hout entry hentry
        exact hout.attestEntry (hprobed entry hentry) (hmet entry hentry)
    · intro out hout key _
      exact hout.attestTouched (hexpected key) hvisible
  · intro out hout entry _
    exact hout.attestPending _ entry

end Attest

/-! ## Runs -/

inductive SqlOp
  | put (key value : Bytes)
  | delete (key : Bytes)
  deriving DecidableEq, Repr

/-- An operation with what is logged of it besides. -/
structure LoggedOp where
  op : SqlOp
  lsn : UInt64
  tier : Engine.DurabilityClass
  now : Int64
  deriving DecidableEq, Repr

/-- The operation is logged, marked durable. A put is logged with the digest of its value. -/
def LoggedOp.append (log : Option Bytes) (o : LoggedOp) : Option Bytes :=
  match o.op with
  | .put key value => appendPut log key (sha256HexString value) o.lsn true o.tier o.now
  | .delete key => appendDelete log key o.lsn true o.tier o.now

/-- The log of the operations. -/
def logAll (ops : List LoggedOp) : Option Bytes := ops.foldl LoggedOp.append (openLog none)

def SqlOp.apply (state : SortedMap Bytes Bytes) : SqlOp → SortedMap Bytes Bytes
  | .put key value => state.insert key value
  | .delete key => state.erase key

/-- The state that the operations result in. -/
def stateAfter (ops : List LoggedOp) : SortedMap Bytes Bytes :=
  ops.foldl (fun state o => o.op.apply state) SortedMap.empty

/-- What is expected are the keys of the state, with the digests of their values. -/
def ExpectSnapshot.Describes (expect : ExpectSnapshot) (state : SortedMap Bytes Bytes) : Prop :=
  ∀ key hash,
    (∃ entry ∈ expect.entries, entry.shouldExpect expect.mode = true ∧ entry.key = key ∧
      entry.expectedHash = hash) ↔
    ∃ value, state.find? key = some value ∧ sha256HexString value = hash

/-- The log is read as the state it resulted in, and an engine that holds this state passes the
check, in either mode. -/
def NoFalseAlarm (ops : List LoggedOp) : Prop :=
  ∀ mode, ∃ expect, loadOpLogExpectSnapshot (logAll ops) mode = .ok expect ∧
    expect.Describes (stateAfter ops) ∧
    (contractAttest expect
      (attestProbes (stateAfter ops).find? (collectProbeKeysFromExpect expect))).Clean

/-- A put does no harm to the check: either it gives no expected key, its line breaking off
before a quote, and its key is gone in the end; or its key needs no escapes and holds in the end
what was put. -/
def Harmless (state : SortedMap Bytes Bytes) (key value : Bytes) : Prop :=
  (10 ∈ key ∧ 34 ∉ key.takeWhile (· ≠ 10) ∧ state.find? key = none) ∨
  (34 ∉ key ∧ 92 ∉ key ∧ 10 ∉ key ∧
    ∃ last, state.find? key = some last ∧ sha256HexString last = sha256HexString value)

/-! ## The log of a run -/

def LoggedOp.entry (o : LoggedOp) : OpLogEntry :=
  match o.op with
  | .put key value =>
    { op := ascii "put", key := key, valueSha256 := sha256HexString value, lsn := o.lsn,
      durableAtReturn := true, tier := o.tier, tsUnix := o.now }
  | .delete key =>
    { op := ascii "delete", key := key, lsn := o.lsn, durableAtReturn := true, tier := o.tier,
      tsUnix := o.now }

theorem LoggedOp.append_eq (log : Option Bytes) (o : LoggedOp) :
    o.append log = appendEntry log o.entry := by
  unfold LoggedOp.append LoggedOp.entry
  cases o.op <;> rfl

theorem LoggedOp.plainEntry (o : LoggedOp) : PlainEntry o.entry := by
  have hput : ∀ c ∈ ascii "put", c ≠ 34 ∧ c ≠ 92 ∧ c ≠ 10 := by decide +kernel
  have hdelete : ∀ c ∈ ascii "delete", c ≠ 34 ∧ c ≠ 92 ∧ c ≠ 10 := by decide +kernel
  unfold LoggedOp.entry
  cases o.op with
  | put key value =>
    refine ⟨hput, fun c hc => ?_⟩
    have hplain := plain_of_mem_sha256HexString hc
    exact ⟨hplain.1.1, hplain.1.2, hplain.2.1⟩
  | delete key => exact ⟨hdelete, fun c hc => absurd hc List.not_mem_nil⟩

theorem logAll_eq (ops : List LoggedOp) :
    logAll ops = some ((ops.map LoggedOp.entry).flatMap fun e => opLogLine e ++ [10]) := by
  have hrun : ∀ text : Bytes, ops.foldl LoggedOp.append (some text) =
      some (text ++ (ops.map LoggedOp.entry).flatMap fun e => opLogLine e ++ [10]) := by
    induction ops with
    | nil => simp
    | cons o ops ih =>
      intro text
      rw [List.foldl_cons, LoggedOp.append_eq, appendEntry, ih]
      simp
  exact hrun []

/-- The expectation of a run. -/
def expectOf (ops : List LoggedOp) (mode : ContractMode) : ExpectSnapshot :=
  { mode := mode
    keySetSource := "op_log"
    touchedKeys := (ops.map LoggedOp.entry).flatMap fun e => (readKey e.key).toList
    entries := (ops.map LoggedOp.entry).flatMap readEntries }

theorem load_logAll (ops : List LoggedOp) (mode : ContractMode) :
    loadOpLogExpectSnapshot (logAll ops) mode = .ok (expectOf ops mode) := by
  have hplain : ∀ e ∈ ops.map LoggedOp.entry, PlainEntry e := by
    intro e he
    obtain ⟨o, -, rfl⟩ := List.mem_map.1 he
    exact o.plainEntry
  rw [logAll_eq, loadOpLogExpectSnapshot, foldl_log hplain, foldl_note]
  rfl

/-- The expected keys of a run are those its puts are read with. -/
theorem mem_expectOf {ops : List LoggedOp} {mode : ContractMode} {entry : ExpectedKeyEntry} :
    entry ∈ (expectOf ops mode).entries ↔
      ∃ o ∈ ops, ∃ key value, o.op = .put key value ∧ ∃ r, readKey key = some r ∧
        entry =
          { key := r
            expectedValueHash := if 10 ∈ key then [] else sha256HexString value
            inDurableSet := decide (10 ∉ key) } := by
  have hput : ascii "put" ≠ ascii "delete" := by decide
  simp only [expectOf, List.mem_flatMap, List.mem_map, exists_exists_and_eq_and]
  refine exists_congr fun o => and_congr_right fun _ => ?_
  unfold LoggedOp.entry
  cases h : o.op with
  | put key value =>
    simp only [readEntries, if_neg hput, List.mem_map, Option.mem_toList, SqlOp.put.injEq,
      Bool.and_true]
    constructor
    · rintro ⟨r, hr, rfl⟩
      exact ⟨key, value, ⟨rfl, rfl⟩, r, hr, rfl⟩
    · rintro ⟨_, _, ⟨rfl, rfl⟩, r, hr, rfl⟩
      exact ⟨r, hr, rfl⟩
  | delete key =>
    simp [readEntries]

theorem mem_touched_of_put {ops : List LoggedOp} {mode : ContractMode} {o : LoggedOp}
    (ho : o ∈ ops) {key value r : Bytes} (hop : o.op = .put key value)
    (hr : readKey key = some r) : r ∈ (expectOf ops mode).touchedKeys := by
  simp only [expectOf, List.mem_flatMap, List.mem_map, exists_exists_and_eq_and]
  refine ⟨o, ho, ?_⟩
  simp [LoggedOp.entry, hop, hr]

theorem put_of_foldl {ops : List LoggedOp} {state : SortedMap Bytes Bytes} {key value : Bytes}
    (h : (ops.foldl (fun state o => o.op.apply state) state).find? key = some value) :
    (∃ o ∈ ops, o.op = .put key value) ∨ state.find? key = some value := by
  induction ops generalizing state with
  | nil => exact .inr h
  | cons o ops ih =>
    rcases ih h with ⟨o', ho', hop⟩ | h
    · exact .inl ⟨o', List.mem_cons_of_mem _ ho', hop⟩
    · have hstep : (o.op.apply state).find? key = some value := h
      cases hop : o.op with
      | put k v =>
        rw [hop, SqlOp.apply, SortedMap.find?_insert] at hstep
        split at hstep
        · rename_i hk
          rw [hk, ← Option.some.inj hstep]
          exact .inl ⟨o, List.mem_cons_self, hop⟩
        · exact .inr hstep
      | delete k =>
        rw [hop, SqlOp.apply, SortedMap.find?_erase] at hstep
        split at hstep
        · cases hstep
        · exact .inr hstep

/-- What is there was put there. -/
theorem put_of_stateAfter {ops : List LoggedOp} {key value : Bytes}
    (h : (stateAfter ops).find? key = some value) : ∃ o ∈ ops, o.op = .put key value := by
  rcases put_of_foldl h with h | h
  · exact h
  · cases h

/-! ## When there is no false alarm -/

section Alarms

variable {ops : List LoggedOp}

/-- A put that does no harm is read as what is there in the end. -/
theorem met_of_harmless (h : ∀ o ∈ ops, ∀ key value, o.op = .put key value →
      Harmless (stateAfter ops) key value) {mode : ContractMode} {entry : ExpectedKeyEntry}
    (hentry : entry ∈ (expectOf ops mode).entries) :
    ∃ value, (stateAfter ops).find? entry.key = some value ∧
      sha256HexString value = entry.expectedHash := by
  obtain ⟨o, ho, key, value, hop, r, hr, rfl⟩ := mem_expectOf.1 hentry
  rcases h o ho key value hop with ⟨hn, hq, -⟩ | ⟨hq, hb, hn, last, hlast, hhash⟩
  · have hnone : readKey key = none := if_pos ⟨hn, hq⟩
    rw [hnone] at hr
    cases hr
  · rw [readKey_of_no_quote hq hn, escapeBody_of_plain hq hb] at hr
    cases hr
    refine ⟨last, hlast, ?_⟩
    rw [hhash, ExpectedKeyEntry.expectedHash, if_neg hn, if_pos (sha256HexString_ne_nil value)]

/-- What is there in the end is expected, in either mode. -/
theorem expected_of_harmless (h : ∀ o ∈ ops, ∀ key value, o.op = .put key value →
      Harmless (stateAfter ops) key value) (mode : ContractMode) {key value : Bytes}
    (hlive : (stateAfter ops).find? key = some value) :
    ∃ entry ∈ (expectOf ops mode).entries, entry.shouldExpect mode = true ∧ entry.key = key ∧
      entry.expectedHash = sha256HexString value := by
  obtain ⟨o, ho, hop⟩ := put_of_stateAfter hlive
  rcases h o ho key value hop with ⟨-, -, hgone⟩ | ⟨hq, hb, hn, -⟩
  · rw [hgone] at hlive
    cases hlive
  · have hr : readKey key = some key := by
      rw [readKey_of_no_quote hq hn, escapeBody_of_plain hq hb]
    refine ⟨_, mem_expectOf.2 ⟨o, ho, key, value, hop, key, hr, rfl⟩, ?_, rfl, ?_⟩
    · simp [ExpectedKeyEntry.shouldExpect, hn]
    · rw [ExpectedKeyEntry.expectedHash, if_neg hn, if_pos (sha256HexString_ne_nil value)]

/-- What is read for a put is there in the end, if the log describes the state. -/
theorem live_of_describes (h : (expectOf ops .kVisibility).Describes (stateAfter ops))
    {o : LoggedOp} (ho : o ∈ ops) {key value r : Bytes} (hop : o.op = .put key value)
    (hr : readKey key = some r) :
    ∃ last, (stateAfter ops).find? r = some last ∧
      (10 ∉ key → sha256HexString last = sha256HexString value) := by
  obtain ⟨last, hlast, hhash⟩ := (h r _).1
    ⟨_, mem_expectOf.2 ⟨o, ho, key, value, hop, r, hr, rfl⟩, rfl, rfl, rfl⟩
  refine ⟨last, hlast, fun hn => ?_⟩
  rw [hhash, ExpectedKeyEntry.expectedHash, if_neg hn, if_pos (sha256HexString_ne_nil value)]

/-- Keys that are there are keys that were read: they have neither quotes nor newlines. -/
theorem readable_of_describes (h : (expectOf ops .kVisibility).Describes (stateAfter ops))
    {key value : Bytes} (hlive : (stateAfter ops).find? key = some value) :
    34 ∉ key ∧ 10 ∉ key := by
  obtain ⟨entry, hentry, -, hkey, -⟩ := (h key _).2 ⟨value, hlive, rfl⟩
  obtain ⟨o, -, k, v, -, r, hr, rfl⟩ := mem_expectOf.1 hentry
  obtain rfl : r = key := hkey
  exact ⟨quote_not_mem_readKey hr, newline_not_mem_readKey hr⟩

/-- Nor have they backslashes: the longest such key is read as a longer one. -/
theorem no_backslash_of_describes (h : (expectOf ops .kVisibility).Describes (stateAfter ops))
    {key value : Bytes} (hlive : (stateAfter ops).find? key = some value) : 92 ∉ key := by
  intro hback
  obtain ⟨e, he, hmax⟩ := Finset.exists_max_image
    ((stateAfter ops).entries.toFinset.filter fun e => 92 ∈ e.1) (fun e => e.1.length)
    ⟨(key, value), Finset.mem_filter.2
      ⟨List.mem_toFinset.2 (SortedMap.mem_entries_iff.2 hlive), hback⟩⟩
  obtain ⟨hmem, hback⟩ := Finset.mem_filter.1 he
  have hlive := SortedMap.mem_entries_iff.1 (List.mem_toFinset.1 hmem)
  obtain ⟨hq, hn⟩ := readable_of_describes h hlive
  obtain ⟨o, ho, hop⟩ := put_of_stateAfter hlive
  obtain ⟨last, hlast, -⟩ := live_of_describes h ho hop (readKey_of_no_quote hq hn)
  have hlonger := hmax (Sql.OpLog.escapeBody e.1, last) (Finset.mem_filter.2
    ⟨List.mem_toFinset.2 (SortedMap.mem_entries_iff.2 hlast), mem_quoteEscape_of_mem hback⟩)
  have hlt := length_lt_quoteEscape hback
  exact absurd hlonger (Nat.not_le.2 hlt)

end Alarms

/-- **When the check gives no false alarm**: every put that was logged does no harm. -/
theorem noFalseAlarm_iff (ops : List LoggedOp) :
    NoFalseAlarm ops ↔ ∀ o ∈ ops, ∀ key value, o.op = .put key value →
      Harmless (stateAfter ops) key value := by
  constructor
  · intro h o ho key value hop
    obtain ⟨expect, hload, hdescribes, -⟩ := h .kVisibility
    rw [load_logAll] at hload
    cases hload
    cases hr : readKey key with
    | none =>
      -- the line broke off
      by_cases hc : 10 ∈ key ∧ 34 ∉ key.takeWhile (· ≠ 10)
      · refine .inl ⟨hc.1, hc.2, ?_⟩
        cases hlive : (stateAfter ops).find? key with
        | none => rfl
        | some last => exact absurd hc.1 (readable_of_describes hdescribes hlive).2
      · have hsome : readKey key = some _ := if_neg hc
        rw [hsome] at hr
        cases hr
    | some r =>
      obtain ⟨last, hlast, hhash⟩ := live_of_describes hdescribes ho hop hr
      obtain ⟨rfl, hq, hb, hn⟩ := readKey_plain hr (no_backslash_of_describes hdescribes hlast)
      exact .inr ⟨hq, hb, hn, last, hlast, hhash hn⟩
  · intro h mode
    refine ⟨expectOf ops mode, load_logAll ops mode, fun key hash => ⟨?_, ?_⟩, ?_⟩
    · rintro ⟨entry, hentry, -, rfl, rfl⟩
      exact met_of_harmless h hentry
    · rintro ⟨value, hlive, rfl⟩
      exact expected_of_harmless h mode hlive
    · apply contractAttest_clean
      · intro entry hentry
        obtain ⟨o, ho, key, value, hop, r, hr, rfl⟩ := mem_expectOf.1 hentry
        exact mem_touched_of_put ho hop hr
      · exact fun entry hentry _ => met_of_harmless h hentry
      · intro key value hlive
        obtain ⟨entry, hentry, -, hkey, -⟩ := expected_of_harmless h mode hlive
        exact ⟨entry, hentry, hkey⟩
      · intro entry hentry
        obtain ⟨o, -, key, value, -, r, -, rfl⟩ := mem_expectOf.1 hentry
        rfl

/-- A key that is deleted again is reported as missing. -/
theorem deleted_key_missing :
    ¬ NoFalseAlarm [⟨.put (ascii "k") (ascii "v"), 1, .kSync, 0⟩,
      ⟨.delete (ascii "k"), 2, .kSync, 0⟩] := by
  intro h
  obtain ⟨expect, hload, -, hclean, -⟩ := h .kDurable
  rw [load_logAll] at hload
  cases hload
  revert hclean
  decide +kernel

end EBTree.Audit
