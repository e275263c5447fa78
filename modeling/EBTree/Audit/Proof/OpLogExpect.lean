import EBTree.Audit.OpLogExpect
import EBTree.Audit.Proof.Lines
import EBTree.Lib.QuoteEscape
import EBTree.Sql.OpLogWriter

/-!
# What the operation log is read as

* `foldl_log`: **a log is read entry by entry**, whatever its keys hold. The keys are read by
  `readKey`, which does not undo the escapes and stops at the first quote; a key with a newline
  breaks its line, and what stands behind the break is gone over.
* `readKey_plain`: only a key without quotes, backslashes and newlines is read back as it is.
-/

set_option autoImplicit false

namespace EBTree.Audit

open Sql.OpLog (OpLogEntry escapeBody opLogLine tierName)

/-! ## Strings -/

theorem escapeBody_cons (c : UInt8) (s : Bytes) :
    escapeBody (c :: s) = Sql.OpLog.escapeByte c ++ escapeBody s := rfl

theorem escapeBody_append (s t : Bytes) : escapeBody (s ++ t) = escapeBody s ++ escapeBody t :=
  List.flatMap_append

theorem escaped_escapeBody (s : Bytes) : Escaped (escapeBody s) := escaped_quoteEscape s

theorem escapeBody_of_plain {s : Bytes} (h : 34 ∉ s) (h' : 92 ∉ s) : escapeBody s = s :=
  quoteEscape_of_plain h h'

theorem not_mem_escapeBody {s : Bytes} {c : UInt8} (h : c ∉ s) (hc : c ≠ 92) :
    c ∉ escapeBody s := not_mem_quoteEscape h hc

theorem mem_escapeBody_of_mem {s : Bytes} {c : UInt8} (h : c ∈ s) : c ∈ escapeBody s :=
  mem_quoteEscape_of_mem h

/-- A newline is not escaped. -/
theorem escapeBody_newline (s : Bytes) : escapeBody (10 :: s) = 10 :: escapeBody s := by
  have hbreak : Sql.OpLog.escapeByte 10 = [10] := by decide
  rw [escapeBody_cons, hbreak, List.singleton_append]

theorem takeWhile_ne_append {a : Bytes} {c : UInt8} (h : c ∉ a) (t : Bytes) :
    (a ++ c :: t).takeWhile (· ≠ c) = a := by
  have hpre : ∀ x ∈ a, decide (x ≠ c) = true :=
    fun x hx => decide_eq_true fun hxc => h (hxc ▸ hx)
  rw [List.takeWhile_append_of_pos hpre]
  simp

/-- The text before the first quote. -/
def upToQuote (s : Bytes) : Bytes := s.takeWhile (· ≠ 34)

theorem upToQuote_body {s : Bytes} (h : 34 ∉ s) (t : Bytes) : upToQuote (s ++ 34 :: t) = s :=
  takeWhile_ne_append h t

theorem upToQuote_append {s : Bytes} (h : 34 ∈ s) (t : Bytes) :
    upToQuote (s ++ t) = upToQuote s := by
  obtain ⟨a, b, rfl, ha⟩ := List.eq_append_cons_of_mem h
  rw [List.append_assoc, List.cons_append, upToQuote_body ha, upToQuote_body ha]

theorem quote_not_mem_upToQuote (s : Bytes) : 34 ∉ upToQuote s := by
  intro h
  simpa using List.mem_takeWhile_imp h

/-- What is read of a string: up to the first quote, if there is one. -/
theorem extractJsonString_of {line key rest : Bytes}
    (h : behind? (jsonKey key) line = some (34 :: rest)) :
    extractJsonString line key = if 34 ∈ rest then some (upToQuote rest) else none := by
  have hq : behind? [34] (34 :: rest) = some rest := behind?_self [34] rest
  rw [extractJsonString, h, Option.bind_some, hq, Option.bind_some]
  split
  · rename_i hmem
    obtain ⟨a, b, rfl, ha⟩ := List.eq_append_cons_of_mem hmem
    rw [indexOf?_singleton_append ha, upToQuote_body ha, Option.map_some, List.take_left]
  · rename_i hmem
    rw [indexOf?_eq_none_of_not_mem (List.mem_singleton_self _) hmem]
    rfl

/-! ## One line -/

/-- A line up to its key and the quote in front of it. -/
def lineHead (e : OpLogEntry) : Bytes :=
  123 :: (jsonKey (ascii "v") ++ (decimal e.version.toNat ++ 44 ::
    (jsonKey (ascii "op") ++ (34 :: (escapeBody e.op ++ 34 :: 44 ::
    (jsonKey (ascii "key") ++ [34]))))))

/-- A line from behind its mark. -/
def lineEnd (e : OpLogEntry) : Bytes :=
  44 :: (jsonKey (ascii "tier") ++ (34 :: (tierName e.tier ++ 34 :: 44 ::
    (jsonKey (ascii "ts_unix") ++ (signedDecimal e.tsUnix ++ [125])))))

/-- A line from the quote behind its key. -/
def lineTail (e : OpLogEntry) : Bytes :=
  34 :: 44 :: (jsonKey (ascii "value_sha256") ++ (34 :: (escapeBody e.valueSha256 ++ 34 :: 44 ::
    (jsonKey (ascii "lsn") ++ (decimal e.lsn.toNat ++ 44 ::
    (jsonKey (ascii "durable_at_return") ++
    ((if e.durableAtReturn then ascii "true" else ascii "false") ++ lineEnd e)))))))

theorem opLogLine_eq (e : OpLogEntry) :
    opLogLine e = lineHead e ++ (escapeBody e.key ++ lineTail e) := by
  unfold opLogLine lineHead lineTail lineEnd Sql.OpLog.jsonEscape
  simp only [List.append_assoc, List.cons_append, List.nil_append]

section Head

variable (e : OpLogEntry) (s : Bytes)

theorem lineHead_append :
    lineHead e ++ s = 123 :: (jsonKey (ascii "v") ++ (decimal e.version.toNat ++ 44 ::
      (jsonKey (ascii "op") ++ (34 :: (escapeBody e.op ++ 34 :: 44 ::
      (jsonKey (ascii "key") ++ 34 :: s)))))) := by
  simp only [lineHead, List.append_assoc, List.cons_append, List.nil_append]

theorem behind?_op_lineHead :
    behind? (jsonKey (ascii "op")) (lineHead e ++ s) =
      some (34 :: (escapeBody e.op ++ 34 :: 44 :: (jsonKey (ascii "key") ++ 34 :: s))) := by
  rw [lineHead_append, ← List.append_nil (jsonKey (ascii "op")), behind?_skip_one (by decide),
    behind?_skip_number (by decide) (by decide) (by decide) (quote_not_mem_decimal _)]
  simp only [List.append_nil, behind?_key]

/-- The search for another key than the first two goes on at the third. -/
theorem behind?_lineHead {k : Bytes} (hk : PlainKey k) (hv : k ≠ ascii "v")
    (hop : k ≠ ascii "op") :
    behind? (jsonKey k) (lineHead e ++ s) =
      behind? (jsonKey k) (jsonKey (ascii "key") ++ 34 :: s) := by
  rw [lineHead_append, ← List.append_nil (jsonKey k), behind?_skip_one (by decide),
    behind?_skip_number hk (by decide) hv (quote_not_mem_decimal _),
    behind?_skip_stringField hk (by decide) hop (escaped_escapeBody _)]

theorem extract_op_lineHead (h : 34 ∉ e.op) (h' : 92 ∉ e.op) :
    extractJsonString (lineHead e ++ s) (ascii "op") = some e.op := by
  rw [extractJsonString_of (behind?_op_lineHead e s), escapeBody_of_plain h h', if_pos (by simp),
    upToQuote_body h]

theorem extract_key_lineHead :
    extractJsonString (lineHead e ++ s) (ascii "key") =
      if 34 ∈ s then some (upToQuote s) else none := by
  apply extractJsonString_of
  rw [behind?_lineHead e s (by decide) (by decide) (by decide), behind?_key]

end Head

/-! ### What stands behind the key -/

section Tail

variable (e : OpLogEntry) {b s : Bytes}

/-- The line of a key without a newline holds the digest and the mark. -/
theorem extract_value (h : 34 ∉ e.valueSha256) (h' : 92 ∉ e.valueSha256) :
    extractJsonString (lineHead e ++ (escapeBody b ++ lineTail e)) (ascii "value_sha256") =
      some e.valueSha256 := by
  have hbehind : behind? (jsonKey (ascii "value_sha256"))
      (lineHead e ++ (escapeBody b ++ lineTail e)) =
        behind? (jsonKey (ascii "value_sha256")) ((lineTail e).drop 2) := by
    rw [behind?_lineHead e _ (by decide) (by decide) (by decide),
      ← List.append_nil (jsonKey (ascii "value_sha256")), lineTail,
      behind?_skip_stringField (by decide) (by decide) (by decide) (escaped_escapeBody b)]
    rfl
  rw [lineTail, List.drop_succ_cons, List.drop_succ_cons, List.drop_zero, behind?_key,
    ← lineTail] at hbehind
  rw [extractJsonString_of hbehind, escapeBody_of_plain h h', if_pos (by simp), upToQuote_body h]

theorem extract_durable :
    extractJsonBool (lineHead e ++ (escapeBody b ++ lineTail e)) (ascii "durable_at_return") =
      some e.durableAtReturn := by
  have hbehind : behind? (jsonKey (ascii "durable_at_return"))
      (lineHead e ++ (escapeBody b ++ lineTail e)) =
        some ((if e.durableAtReturn then ascii "true" else ascii "false") ++ lineEnd e) := by
    rw [behind?_lineHead e _ (by decide) (by decide) (by decide),
      ← List.append_nil (jsonKey (ascii "durable_at_return")), lineTail,
      behind?_skip_stringField (by decide) (by decide) (by decide) (escaped_escapeBody b),
      behind?_skip_stringField (by decide) (by decide) (by decide) (escaped_escapeBody _),
      behind?_skip_number (by decide) (by decide) (by decide) (quote_not_mem_decimal _)]
    simp only [List.append_nil, behind?_key]
  rw [extractJsonBool, hbehind, Option.bind_some]
  cases e.durableAtReturn with
  | true => exact if_pos (List.prefix_append _ _)
  | false =>
    have hno : ¬ ascii "true" <+: ascii "false" ++ lineEnd e := by
      intro h
      exact absurd (List.cons_prefix_cons.1 h).1 (by decide)
    exact (if_neg hno).trans (if_pos (List.prefix_append _ _))

/-- The line of a key with a newline ends in it, and holds nothing behind it. -/
theorem behind?_cut {k : Bytes} (hk : PlainKey k) (hv : k ≠ ascii "v") (hop : k ≠ ascii "op")
    (hkey : k ≠ ascii "key") : behind? (jsonKey k) (lineHead e ++ escapeBody b) = none := by
  rw [behind?_lineHead e _ hk hv hop]
  apply @behind?_eq_none_of_append [34, 44]
  have hend := @behind?_skip_stringField k (ascii "key") [] [] hk (by decide) hkey _
    (escaped_escapeBody b)
  rw [List.append_nil] at hend
  rw [List.append_assoc]
  refine hend.trans ?_
  exact behind?_eq_none_of_not_mem List.mem_cons_self (by simp)

/-- No operation stands in the rest of a line. -/
theorem behind?_op_rest :
    behind? (jsonKey (ascii "op")) (escapeBody b ++ lineTail e) = none := by
  have hq : 34 ∉ (if e.durableAtReturn then ascii "true" else ascii "false") := by
    cases e.durableAtReturn <;> decide
  have htier : Escaped (tierName e.tier) := by
    apply Escaped.of_plain
    cases e.tier <;> decide +kernel
  have hlast : 34 ∉ signedDecimal e.tsUnix ++ [125] := by
    simpa using quote_not_mem_signedDecimal _
  rw [← List.append_nil (jsonKey (ascii "op")), lineTail, lineEnd,
    (escaped_escapeBody b).behind?_skip_rest (by decide) (by decide) (by decide) (by decide),
    behind?_skip_one (by decide),
    behind?_skip_stringField (by decide) (by decide) (by decide) (escaped_escapeBody _),
    behind?_skip_number (by decide) (by decide) (by decide) (quote_not_mem_decimal _),
    behind?_skip_number (by decide) (by decide) (by decide) hq,
    behind?_skip_stringField (by decide) (by decide) (by decide) htier,
    behind?_skip_key (by decide) (by decide) (by decide) (by decide)]
  exact behind?_eq_none_of_not_mem List.mem_cons_self hlast

theorem behind?_op_body : behind? (jsonKey (ascii "op")) (escapeBody b) = none := by
  apply @behind?_eq_none_of_append [34, 44]
  rw [← List.append_nil (jsonKey (ascii "op")),
    (escaped_escapeBody b).behind?_skip_rest (by decide) (by decide) (by decide) (by decide)]
  exact behind?_eq_none_of_not_mem List.mem_cons_self (by simp)

end Tail

/-! ## All lines of an entry -/

theorem expectLine_of_no_op {line : Bytes} (h : behind? (jsonKey (ascii "op")) line = none)
    (out : ExpectSnapshot) : expectLine out line = out := by
  have hop : extractJsonString line (ascii "op") = none := by
    rw [extractJsonString, h]
    rfl
  unfold expectLine
  split
  · rfl
  · rw [hop]

theorem newline_not_mem_escapeBody {s : Bytes} (h : 10 ∉ s) : 10 ∉ escapeBody s :=
  not_mem_escapeBody h (by decide)

/-- What an entry has besides its key stands on one line and needs no escapes. -/
structure PlainEntry (e : OpLogEntry) : Prop where
  op : ∀ c ∈ e.op, c ≠ 34 ∧ c ≠ 92 ∧ c ≠ 10
  valueSha256 : ∀ c ∈ e.valueSha256, c ≠ 34 ∧ c ≠ 92 ∧ c ≠ 10

theorem newline_not_mem_lineHead {e : OpLogEntry} (he : PlainEntry e) : 10 ∉ lineHead e := by
  have hop : 10 ∉ escapeBody e.op := newline_not_mem_escapeBody fun h => (he.op _ h).2.2 rfl
  have hdec : ∀ n, 10 ∉ decimal n := fun n h => (decimal_no_newline n _ h).1 rfl
  have hv : 10 ∉ jsonKey (ascii "v") := by decide
  have ho : 10 ∉ jsonKey (ascii "op") := by decide
  have hk : 10 ∉ jsonKey (ascii "key") := by decide
  simp [lineHead, hop, hdec, hv, ho, hk]

theorem newline_not_mem_lineTail {e : OpLogEntry} (he : PlainEntry e) : 10 ∉ lineTail e := by
  have hval : 10 ∉ escapeBody e.valueSha256 :=
    newline_not_mem_escapeBody fun h => (he.valueSha256 _ h).2.2 rfl
  have hdec : ∀ n, 10 ∉ decimal n := fun n h => (decimal_no_newline n _ h).1 rfl
  have hts : ∀ v, 10 ∉ signedDecimal v := fun v h => (signedDecimal_no_newline v _ h).1 rfl
  have hflag : 10 ∉ (if e.durableAtReturn then ascii "true" else ascii "false") := by
    cases e.durableAtReturn <;> decide
  have htier : 10 ∉ tierName e.tier := by
    cases e.tier <;> decide
  have hv : 10 ∉ jsonKey (ascii "value_sha256") := by decide
  have hl : 10 ∉ jsonKey (ascii "lsn") := by decide
  have hd : 10 ∉ jsonKey (ascii "durable_at_return") := by decide
  have ht : 10 ∉ jsonKey (ascii "tier") := by decide
  have hu : 10 ∉ jsonKey (ascii "ts_unix") := by decide
  simp only [lineTail, lineEnd, List.mem_cons, List.mem_append, not_or]
  exact ⟨by decide, by decide, hv, by decide, hval, by decide, by decide, hl, hdec _, by decide,
    hd, hflag, by decide, ht, by decide, htier, by decide, by decide, hu, hts _, by decide,
    by simp⟩

/-- The lines behind the first newline of a key are gone over. -/
theorem foldl_rest {e : OpLogEntry} (he : PlainEntry e) (b : Bytes) (out : ExpectSnapshot) :
    (getlines [] (escapeBody b ++ (lineTail e ++ [10]))).foldl expectLine out = out := by
  have hone : ∀ a, 10 ∉ a →
      (getlines [] (escapeBody a ++ (lineTail e ++ [10]))).foldl expectLine out = out := by
    intro a ha
    have hline : 10 ∉ escapeBody a ++ lineTail e := by
      rw [List.mem_append, not_or]
      exact ⟨newline_not_mem_escapeBody ha, newline_not_mem_lineTail he⟩
    rw [← List.append_assoc, getlines_break hline, List.nil_append, List.foldl_cons,
      expectLine_of_no_op (behind?_op_rest e)]
    rfl
  by_cases hb : 10 ∈ b
  · obtain ⟨a, b', rfl, ha⟩ := List.eq_append_cons_of_mem hb
    have hshort : b'.length < (a ++ 10 :: b').length := by simp; omega
    rw [escapeBody_append, escapeBody_newline, List.append_assoc, List.cons_append,
      getlines_break (newline_not_mem_escapeBody ha), List.nil_append,
      List.foldl_cons, expectLine_of_no_op behind?_op_body]
    exact foldl_rest he b' out
  · exact hone b hb
termination_by b.length

/-! ## What an entry is read as -/

/-- What the line of a key gives as its key: nothing where the line breaks off before a quote. -/
def readKey (key : Bytes) : Option Bytes :=
  let first := key.takeWhile (· ≠ 10)
  if 10 ∈ key ∧ 34 ∉ first then none else some (upToQuote (escapeBody first ++ [34]))

theorem readKey_whole {key : Bytes} (h : 10 ∉ key) :
    readKey key = some (upToQuote (escapeBody key ++ [34])) := by
  have hfirst : key.takeWhile (· ≠ 10) = key := by
    rw [List.takeWhile_eq_self_iff]
    exact fun x hx => decide_eq_true fun hx' => h (hx' ▸ hx)
  rw [readKey, hfirst]
  exact if_neg fun hc => h hc.1

theorem readKey_cut {a : Bytes} (ha : 10 ∉ a) (b : Bytes) :
    readKey (a ++ 10 :: b) =
      if 34 ∈ a then some (upToQuote (escapeBody a ++ [34])) else none := by
  have hmem : 10 ∈ a ++ 10 :: b := by simp
  rw [readKey, takeWhile_ne_append ha]
  by_cases hq : 34 ∈ a
  · rw [if_pos hq]
    exact if_neg fun hc => hc.2 hq
  · rw [if_neg hq]
    exact if_pos ⟨hmem, hq⟩

/-- The expected keys that an entry gives. -/
def readEntries (e : OpLogEntry) : List ExpectedKeyEntry :=
  if e.op = ascii "delete" then []
  else (readKey e.key).toList.map fun key =>
    { key := key
      expectedValueHash := if 10 ∈ e.key then [] else e.valueSha256
      inDurableSet := decide (10 ∉ e.key) && e.durableAtReturn }

/-- What an entry adds to the expectation. -/
def ExpectSnapshot.note (out : ExpectSnapshot) (e : OpLogEntry) : ExpectSnapshot :=
  { out with
    touchedKeys := out.touchedKeys ++ (readKey e.key).toList
    entries := out.entries ++ readEntries e }

theorem expectLine_of_key {line op key : Bytes} {value : Option Bytes} {durable : Option Bool}
    (hop : extractJsonString line (ascii "op") = some op)
    (hkey : extractJsonString line (ascii "key") = some key)
    (hvalue : extractJsonString line (ascii "value_sha256") = value)
    (hdurable : extractJsonBool line (ascii "durable_at_return") = durable)
    (out : ExpectSnapshot) :
    expectLine out line =
      { out with
        touchedKeys := out.touchedKeys ++ [key]
        entries := out.entries ++
          if op = ascii "delete" then []
          else [{ key := key, expectedValueHash := value.getD [],
                  inDurableSet := durable.getD false }] } := by
  have hne : line ≠ [] := by
    rintro rfl
    cases hop
  rw [expectLine, if_neg hne, hop, hkey, hvalue, hdurable]
  by_cases hdel : op = ascii "delete"
  · simp only [if_pos hdel, List.append_nil]
  · simp only [if_neg hdel]

theorem expectLine_of_no_key {line : Bytes}
    (h : extractJsonString line (ascii "key") = none) (out : ExpectSnapshot) :
    expectLine out line = out := by
  unfold expectLine
  split
  · rfl
  · rw [h]
    split <;> first | rfl | contradiction

section Entry

variable {e : OpLogEntry} (he : PlainEntry e) (out : ExpectSnapshot)

include he

theorem op_of_line (s : Bytes) :
    extractJsonString (lineHead e ++ s) (ascii "op") = some e.op :=
  extract_op_lineHead e s (fun h => (he.op _ h).1 rfl) (fun h => (he.op _ h).2.1 rfl)

/-- A key on one line. -/
theorem expectLine_whole (h : 10 ∉ e.key) : expectLine out (opLogLine e) = out.note e := by
  have hquote : ∀ s : Bytes, 34 ∈ s ++ lineTail e := by
    simp [lineTail]
  have hkey : extractJsonString (opLogLine e) (ascii "key") =
      some (upToQuote (escapeBody e.key ++ [34])) := by
    have htail : lineTail e = [34] ++ (lineTail e).tail := rfl
    rw [opLogLine_eq, extract_key_lineHead, if_pos (hquote _), htail, ← List.append_assoc,
      upToQuote_append (by simp)]
  have hvalue := @extract_value e e.key (fun h => (he.valueSha256 _ h).1 rfl)
    (fun h => (he.valueSha256 _ h).2.1 rfl)
  have hdurable := @extract_durable e e.key
  have hop := op_of_line he (escapeBody e.key ++ lineTail e)
  rw [← opLogLine_eq] at hvalue hdurable hop
  rw [expectLine_of_key hop hkey hvalue hdurable]
  simp [ExpectSnapshot.note, readEntries, readKey_whole h, h]

/-- A key that breaks its line. -/
theorem expectLine_cut {a b : Bytes} (hab : e.key = a ++ 10 :: b) (ha : 10 ∉ a) :
    expectLine out (lineHead e ++ escapeBody a) = out.note e := by
  have hmem : 10 ∈ e.key := by simp [hab]
  have hread : readKey e.key =
      if 34 ∈ a then some (upToQuote (escapeBody a ++ [34])) else none := by
    rw [hab, readKey_cut ha]
  have hkey := extract_key_lineHead e (escapeBody a)
  by_cases hq : 34 ∈ a
  · rw [if_pos (mem_escapeBody_of_mem hq)] at hkey
    have hvalue : extractJsonString (lineHead e ++ escapeBody a) (ascii "value_sha256") = none := by
      rw [extractJsonString, behind?_cut e (by decide) (by decide) (by decide) (by decide)]
      rfl
    have hdurable : extractJsonBool (lineHead e ++ escapeBody a) (ascii "durable_at_return") =
        none := by
      rw [extractJsonBool, behind?_cut e (by decide) (by decide) (by decide) (by decide)]
      rfl
    rw [expectLine_of_key (op_of_line he _) hkey hvalue hdurable]
    simp [ExpectSnapshot.note, readEntries, hread, hmem, hq,
      upToQuote_append (mem_escapeBody_of_mem hq)]
  · rw [if_neg (not_mem_escapeBody hq (by decide))] at hkey
    rw [expectLine_of_no_key hkey]
    simp [ExpectSnapshot.note, readEntries, hread, hq]

/-- All lines of an entry. -/
theorem foldl_entry :
    (getlines [] (opLogLine e ++ [10])).foldl expectLine out = out.note e := by
  by_cases h : 10 ∈ e.key
  · obtain ⟨a, b, hab, ha⟩ := List.eq_append_cons_of_mem h
    have hline : 10 ∉ lineHead e ++ escapeBody a := by
      rw [List.mem_append, not_or]
      exact ⟨newline_not_mem_lineHead he, newline_not_mem_escapeBody ha⟩
    have hsplit : opLogLine e ++ [10] =
        (lineHead e ++ escapeBody a) ++ 10 :: (escapeBody b ++ (lineTail e ++ [10])) := by
      rw [opLogLine_eq, hab, escapeBody_append, escapeBody_newline]
      simp
    rw [hsplit, getlines_break hline, List.nil_append, List.foldl_cons,
      expectLine_cut he out hab ha, foldl_rest he]
  · have hline : 10 ∉ opLogLine e := by
      rw [opLogLine_eq, List.mem_append, List.mem_append, not_or, not_or]
      exact ⟨newline_not_mem_lineHead he, newline_not_mem_escapeBody h,
        newline_not_mem_lineTail he⟩
    rw [getlines_break hline, List.nil_append, List.foldl_cons, expectLine_whole he out h]
    rfl

end Entry

/-- **A log is read entry by entry**, whatever its keys hold. -/
theorem foldl_log {es : List OpLogEntry} (hes : ∀ e ∈ es, PlainEntry e) (out : ExpectSnapshot) :
    (getlines [] (es.flatMap fun e => opLogLine e ++ [10])).foldl expectLine out =
      es.foldl ExpectSnapshot.note out := by
  induction es generalizing out with
  | nil => rfl
  | cons e es ih =>
    rw [List.flatMap_cons, List.append_assoc, List.singleton_append, getlines_append,
      List.foldl_append, foldl_entry (hes e List.mem_cons_self),
      ih fun x hx => hes x (List.mem_cons_of_mem _ hx)]
    rfl

theorem foldl_note (es : List OpLogEntry) (out : ExpectSnapshot) :
    es.foldl ExpectSnapshot.note out =
      { out with
        touchedKeys := out.touchedKeys ++ es.flatMap fun e => (readKey e.key).toList
        entries := out.entries ++ es.flatMap readEntries } := by
  induction es generalizing out with
  | nil => simp
  | cons e es ih =>
    rw [List.foldl_cons, ih]
    simp only [ExpectSnapshot.note, List.flatMap_cons, List.append_assoc]

/-! ## Keys that are read back -/

theorem newline_not_mem_readKey {key r : Bytes} (h : readKey key = some r) : 10 ∉ r := by
  have hbody : ∀ a : Bytes, 10 ∉ a → 10 ∉ upToQuote (escapeBody a ++ [34]) := by
    intro a ha hm
    have hm := (List.takeWhile_sublist _).subset hm
    rw [List.mem_append, List.mem_singleton] at hm
    rcases hm with hm | hm
    · exact newline_not_mem_escapeBody ha hm
    · exact absurd hm (by decide)
  by_cases hk : 10 ∈ key
  · obtain ⟨a, b, rfl, ha⟩ := List.eq_append_cons_of_mem hk
    rw [readKey_cut ha] at h
    split at h
    · cases h
      exact hbody a ha
    · cases h
  · rw [readKey_whole hk] at h
    cases h
    exact hbody key hk

theorem quote_not_mem_readKey {key r : Bytes} (h : readKey key = some r) : 34 ∉ r := by
  simp only [readKey] at h
  split at h
  · cases h
  · cases h
    exact quote_not_mem_upToQuote _

/-- Backslashes are doubled, nothing else happens to a key without quotes. -/
theorem readKey_of_no_quote {key : Bytes} (hq : 34 ∉ key) (hn : 10 ∉ key) :
    readKey key = some (escapeBody key) := by
  rw [readKey_whole hn, upToQuote_body (not_mem_escapeBody hq (by decide))]

/-- Where no backslash is read there was nothing to escape. -/
theorem plain_of_upToQuote {a : Bytes} (h : 92 ∉ upToQuote (escapeBody a ++ [34])) :
    34 ∉ a ∧ 92 ∉ a := by
  induction a with
  | nil => simp
  | cons c a ih =>
    rw [escapeBody_cons, List.append_assoc] at h
    unfold Sql.OpLog.escapeByte at h
    split at h
    · exact absurd (by simp [upToQuote]) h
    split at h
    · exact absurd (by simp [upToQuote]) h
    · rename_i h34 h92
      have hcons : upToQuote ([c] ++ (escapeBody a ++ [34])) =
          c :: upToQuote (escapeBody a ++ [34]) := by
        simp [upToQuote, h34]
      rw [hcons, List.mem_cons, not_or] at h
      obtain ⟨hq, hb⟩ := ih h.2
      simp only [List.mem_cons, not_or]
      exact ⟨⟨Ne.symm h34, hq⟩, Ne.symm h92, hb⟩

/-- **A key is read without a backslash only if it holds nothing that is escaped**: then it is read
as it is. -/
theorem readKey_plain {key r : Bytes} (h : readKey key = some r) (hr : 92 ∉ r) :
    r = key ∧ 34 ∉ key ∧ 92 ∉ key ∧ 10 ∉ key := by
  by_cases hk : 10 ∈ key
  · obtain ⟨a, b, rfl, ha⟩ := List.eq_append_cons_of_mem hk
    rw [readKey_cut ha] at h
    split at h
    · rename_i hq
      cases h
      exact absurd hq (plain_of_upToQuote hr).1
    · cases h
  · rw [readKey_whole hk] at h
    cases h
    obtain ⟨hq, hb⟩ := plain_of_upToQuote hr
    rw [escapeBody_of_plain hq hb, upToQuote_body hq]
    exact ⟨rfl, hq, hb, hk⟩

end EBTree.Audit
