import EBTree.Audit.RarChain

/-!
# Reading back what was appended

* `parse_chainLine`: **a written line reads back as its entry**, whatever bytes its strings hold;
  only the signature is lost.
* `readLast_append`, `entriesOf_append`: what an append does to what the two readers of a chain
  see, for a chain of whole lines. Appends keep it one (`WholeLines.append`).
* `chain_round_trip`: **what was appended to a new chain is what both readers find**.
-/

set_option autoImplicit false

namespace EBTree.Audit

/-! ## Strings -/

theorem escaped_escapeByte (c : UInt8) : Escaped (escapeByte c) := by
  unfold escapeByte
  split
  · exact .pair .nil
  split
  · exact .pair .nil
  split
  · exact .pair .nil
  split
  · exact .pair .nil
  · exact .plain ‹_› ‹_› .nil

theorem escaped_jsonEscape (s : Bytes) : Escaped (jsonEscape s) := by
  induction s with
  | nil => exact .nil
  | cons c s ih => exact (escaped_escapeByte c).append ih

/-- One escaped byte reads back. -/
theorem stringValue_escapeByte (c x : UInt8) (rest : Bytes) :
    stringValue (escapeByte c ++ x :: rest) = c :: stringValue (x :: rest) := by
  unfold escapeByte
  split
  · rename_i h
    simp [stringValue, h]
  split
  · rename_i h
    simp [stringValue, h]
  split
  · rename_i h
    simp [stringValue, h]
  split
  · rename_i h
    simp [stringValue, h]
  · rename_i h92 h34 _ _
    simp [stringValue, h92, h34]

/-- **A string reads back**, whatever stands behind the quote that ends it. -/
theorem stringValue_jsonEscape (s rest : Bytes) :
    stringValue (jsonEscape s ++ 34 :: rest) = s := by
  induction s with
  | nil => cases rest <;> simp [jsonEscape, stringValue]
  | cons c s ih =>
    have hcons : ∃ x l, jsonEscape s ++ 34 :: rest = x :: l := by
      cases h : jsonEscape s with
      | nil => exact ⟨_, _, rfl⟩
      | cons x l => exact ⟨_, _, rfl⟩
    obtain ⟨x, l, hx⟩ := hcons
    rw [jsonEscape, List.flatMap_cons, List.append_assoc]
    change stringValue (escapeByte c ++ (jsonEscape s ++ 34 :: rest)) = c :: s
    rw [hx, stringValue_escapeByte, ← hx, ih]

/-- An escaped string stands on one line. -/
theorem jsonEscape_no_newline {s : Bytes} {c : UInt8} (h : c ∈ jsonEscape s) :
    c ≠ 10 ∧ c ≠ 13 := by
  obtain ⟨b, -, hc⟩ := List.mem_flatMap.1 h
  unfold escapeByte at hc
  split at hc
  · revert hc
    simp only [List.mem_cons, List.not_mem_nil, or_false]
    rintro (rfl | rfl) <;> decide
  split at hc
  · revert hc
    simp only [List.mem_cons, List.not_mem_nil, or_false]
    rintro (rfl | rfl) <;> decide
  split at hc
  · revert hc
    simp only [List.mem_cons, List.not_mem_nil, or_false]
    rintro (rfl | rfl) <;> decide
  split at hc
  · revert hc
    simp only [List.mem_cons, List.not_mem_nil, or_false]
    rintro (rfl | rfl) <;> decide
  · rename_i h10 h13
    rw [List.mem_singleton.1 hc]
    exact ⟨h10, h13⟩

/-! ## Fields -/

/-- What can be said of a key that is searched for: it holds neither quotes nor backslashes and
begins with none of the bytes that follow a string. -/
structure PlainKey (k : Bytes) : Prop where
  quote : 34 ∉ k
  backslash : 92 ∉ k
  colon : ¬ [58] <+: k ++ [34]
  comma : ¬ [44] <+: k ++ [34]

instance (k : Bytes) : Decidable (PlainKey k) :=
  decidable_of_iff (34 ∉ k ∧ 92 ∉ k ∧ ¬ [58] <+: k ++ [34] ∧ ¬ [44] <+: k ++ [34])
    ⟨fun ⟨a, b, c, d⟩ => ⟨a, b, c, d⟩, fun ⟨a, b, c, d⟩ => ⟨a, b, c, d⟩⟩

section Fields

variable {k w r s t : Bytes}

/-- A search goes over a number that belongs to another key, and the comma behind it. -/
theorem behind?_skip_number (hk : PlainKey k) (hw : 34 ∉ w) (hkw : k ≠ w) {ds : Bytes}
    (hds : 34 ∉ ds) :
    behind? (jsonKey k ++ r) (jsonKey w ++ (ds ++ 44 :: s)) = behind? (jsonKey k ++ r) s := by
  rw [behind?_skip_key hk.quote hw hkw hk.colon, behind?_skip hds, behind?_skip_one (by decide)]

/-- A search goes over a string that belongs to another key, and the comma behind it. -/
theorem behind?_skip_stringField (hk : PlainKey k) (hw : 34 ∉ w) (hkw : k ≠ w) {e : Bytes}
    (he : Escaped e) :
    behind? (jsonKey k ++ r) (jsonKey w ++ (34 :: (e ++ 34 :: 44 :: s))) =
      behind? (jsonKey k ++ r) s := by
  rw [behind?_skip_key hk.quote hw hkw hk.colon,
    behind?_skip_body he hk.quote hk.backslash (by decide) hk.comma,
    behind?_skip_one (by decide)]

end Fields

/-- The fields of a line, one by one: what `chainLine` writes, bracketed to the right. -/
theorem chainLine_eq (e : RarChainEntry) : ∃ tail, chainLine e = 123 ::
    (jsonKey (ascii "sequence") ++ (decimal e.sequence.toNat ++ 44 ::
    (jsonKey (ascii "checkpoint_lsn") ++ (decimal e.checkpointLsn.toNat ++ 44 ::
    (jsonKey (ascii "rar_sha256") ++ (34 :: (jsonEscape e.rarSha256 ++ 34 :: 44 ::
    (jsonKey (ascii "prev_rar_sha256") ++ (34 :: (jsonEscape e.prevRarSha256 ++ 34 :: 44 ::
    (jsonKey (ascii "op_log_head_sha256") ++ (34 :: (jsonEscape e.opLogHeadSha256 ++ 34 :: 44 ::
    (jsonKey (ascii "generated_at_unix") ++ (signedDecimal e.generatedAtUnix ++ 44 ::
    (jsonKey (ascii "body_json") ++ (34 :: (jsonEscape e.bodyJson ++ 34 :: tail)))))))))))))))))) := by
  refine ⟨(if e.signature = [] then [] else
    [44] ++ stringField (ascii "signature") e.signature) ++ [125], ?_⟩
  unfold chainLine stringField
  simp only [List.append_assoc, List.cons_append, List.nil_append]

/-- What an appended entry is read back as. -/
def RarChainEntry.stored (e : RarChainEntry) : RarChainEntry :=
  { e with
    signature := []
    bodyJson := if e.bodyJson = [] then chainLine e else e.bodyJson }

/-- **A written line reads back as its entry.** -/
theorem parse_chainLine (e : RarChainEntry) : parseChainLine (chainLine e) = e.stored := by
  obtain ⟨tail, h⟩ := chainLine_eq e
  have hnum : ∀ n, 34 ∉ decimal n := quote_not_mem_decimal
  have hint : ∀ v, 34 ∉ signedDecimal v := quote_not_mem_signedDecimal
  have hesc : ∀ s, Escaped (jsonEscape s) := escaped_jsonEscape
  have hdig : ¬ IsDigit 44 := by decide
  have hseq : extractJsonUint64Field (chainLine e) (ascii "sequence") = some e.sequence := by
    rw [extractJsonUint64Field, h, ← List.append_nil (jsonKey _), behind?_skip_one (by decide),
      List.append_nil, behind?_key, Option.map_some, strtoull_decimal hdig]
  have hlsn : extractJsonUint64Field (chainLine e) (ascii "checkpoint_lsn") =
      some e.checkpointLsn := by
    rw [extractJsonUint64Field, h, ← List.append_nil (jsonKey (ascii "checkpoint_lsn")),
      behind?_skip_one (by decide),
      behind?_skip_number (by decide) (by decide) (by decide) (hnum _)]
    simp only [List.append_nil, behind?_key, Option.map_some, strtoull_decimal hdig]
  have hrar : extractJsonStringField (chainLine e) (ascii "rar_sha256") = some e.rarSha256 := by
    rw [extractJsonStringField, h, behind?_skip_one (by decide),
      behind?_skip_number (by decide) (by decide) (by decide) (hnum _),
      behind?_skip_number (by decide) (by decide) (by decide) (hnum _),
      behind?_key_string, Option.map_some, stringValue_jsonEscape]
  have hprev : extractJsonStringField (chainLine e) (ascii "prev_rar_sha256") =
      some e.prevRarSha256 := by
    rw [extractJsonStringField, h, behind?_skip_one (by decide),
      behind?_skip_number (by decide) (by decide) (by decide) (hnum _),
      behind?_skip_number (by decide) (by decide) (by decide) (hnum _),
      behind?_skip_stringField (by decide) (by decide) (by decide) (hesc _),
      behind?_key_string, Option.map_some, stringValue_jsonEscape]
  have hop : extractJsonStringField (chainLine e) (ascii "op_log_head_sha256") =
      some e.opLogHeadSha256 := by
    rw [extractJsonStringField, h, behind?_skip_one (by decide),
      behind?_skip_number (by decide) (by decide) (by decide) (hnum _),
      behind?_skip_number (by decide) (by decide) (by decide) (hnum _),
      behind?_skip_stringField (by decide) (by decide) (by decide) (hesc _),
      behind?_skip_stringField (by decide) (by decide) (by decide) (hesc _),
      behind?_key_string, Option.map_some, stringValue_jsonEscape]
  have hgen : extractJsonInt64Field (chainLine e) (ascii "generated_at_unix") =
      some e.generatedAtUnix := by
    rw [extractJsonInt64Field, h, ← List.append_nil (jsonKey (ascii "generated_at_unix")),
      behind?_skip_one (by decide),
      behind?_skip_number (by decide) (by decide) (by decide) (hnum _),
      behind?_skip_number (by decide) (by decide) (by decide) (hnum _),
      behind?_skip_stringField (by decide) (by decide) (by decide) (hesc _),
      behind?_skip_stringField (by decide) (by decide) (by decide) (hesc _),
      behind?_skip_stringField (by decide) (by decide) (by decide) (hesc _)]
    simp only [List.append_nil, behind?_key, Option.map_some, strtoll_signed hdig]
  have hbody : extractJsonStringField (chainLine e) (ascii "body_json") = some e.bodyJson := by
    rw [extractJsonStringField, h, behind?_skip_one (by decide),
      behind?_skip_number (by decide) (by decide) (by decide) (hnum _),
      behind?_skip_number (by decide) (by decide) (by decide) (hnum _),
      behind?_skip_stringField (by decide) (by decide) (by decide) (hesc _),
      behind?_skip_stringField (by decide) (by decide) (by decide) (hesc _),
      behind?_skip_stringField (by decide) (by decide) (by decide) (hesc _),
      behind?_skip_number (by decide) (by decide) (by decide) (hint _),
      behind?_key_string, Option.map_some, stringValue_jsonEscape]
  simp only [parseChainLine, hseq, hlsn, hrar, hprev, hop, hgen, hbody, Option.getD_some,
    RarChainEntry.stored]

theorem decimal_no_newline (n : Nat) : ∀ c ∈ decimal n, c ≠ 10 ∧ c ≠ 13 := by
  intro c hc
  have hd := (isDigit_of_mem_decimal hc).1
  constructor
  · rintro rfl
    exact absurd hd (by decide)
  · rintro rfl
    exact absurd hd (by decide)

theorem signedDecimal_no_newline (v : Int64) : ∀ c ∈ signedDecimal v, c ≠ 10 ∧ c ≠ 13 := by
  intro c hc
  unfold signedDecimal at hc
  split at hc
  · rcases List.mem_cons.1 hc with rfl | hc
    · decide
    · exact decimal_no_newline _ c hc
  · exact decimal_no_newline _ c hc

/-- A written line is one line. -/
theorem chainLine_no_newline (e : RarChainEntry) : ∀ c ∈ chainLine e, c ≠ 10 ∧ c ≠ 13 := by
  have hstr : ∀ {k : Bytes}, (∀ c ∈ jsonKey k, c ≠ 10 ∧ c ≠ 13) → ∀ v,
      ∀ c ∈ stringField k v, c ≠ 10 ∧ c ≠ 13 := by
    intro k hk v c hc
    rcases List.mem_append.1 hc with hc | hc
    · exact hk c hc
    rcases List.mem_cons.1 hc with rfl | hc
    · decide
    rcases List.mem_append.1 hc with hc | hc
    · exact jsonEscape_no_newline hc
    · rw [List.mem_singleton.1 hc]
      decide
  have hsig : ∀ c ∈ (if e.signature = [] then [] else
      [44] ++ stringField (ascii "signature") e.signature), c ≠ 10 ∧ c ≠ 13 := by
    split
    · simp
    · exact List.forall_mem_append.2 ⟨by decide +kernel, hstr (by decide +kernel) _⟩
  simp only [chainLine, List.forall_mem_append, and_assoc]
  exact ⟨by decide +kernel, by decide +kernel, decimal_no_newline _, by decide +kernel,
    by decide +kernel, decimal_no_newline _, by decide +kernel,
    hstr (by decide +kernel) _, by decide +kernel, hstr (by decide +kernel) _, by decide +kernel,
    hstr (by decide +kernel) _, by decide +kernel, by decide +kernel, signedDecimal_no_newline _, by decide +kernel,
    hstr (by decide +kernel) _, hsig, by decide +kernel⟩

theorem chainLine_ne_nil (e : RarChainEntry) : chainLine e ≠ [] := by
  obtain ⟨tail, h⟩ := chainLine_eq e
  rw [h]
  exact List.cons_ne_nil _ _

/-! ## Appends -/

/-- A chain is missing, empty, or ends with a newline: nothing was torn off its last line. -/
def WholeLines (chain : Option Bytes) : Prop :=
  chain.getD [] = [] ∨ ∃ s, chain.getD [] = s ++ [10]

/-- What the lines of a chain say. -/
def entriesOf (chain : Option Bytes) : List RarChainEntry :=
  ((getlines [] (chain.getD [])).filter (· ≠ [])).map parseChainLine

theorem readRarChainEntries_eq {chain : Option Bytes} {es : List RarChainEntry}
    (h : readRarChainEntries chain = .ok es) : entriesOf chain = es := by
  cases chain with
  | none => cases h
  | some s =>
    cases h
    rfl

/-- The chain after some appends. -/
def appendAll (chain : Option Bytes) (es : List RarChainEntry) : Option Bytes :=
  es.foldl appendRarChainEntry chain

theorem WholeLines.append (chain : Option Bytes) (e : RarChainEntry) :
    WholeLines (appendRarChainEntry chain e) :=
  .inr ⟨chain.getD [] ++ chainLine e, rfl⟩

theorem WholeLines.appendAll {chain : Option Bytes} (h : WholeLines chain)
    (es : List RarChainEntry) : WholeLines (appendAll chain es) := by
  induction es generalizing chain with
  | nil => exact h
  | cons e es ih => exact ih (WholeLines.append chain e)

theorem lastLine_reverse {a : Bytes} (ha : ∀ c ∈ a, c ≠ 10 ∧ c ≠ 13) (line rest : Bytes) :
    lastLine line (a.reverse ++ rest) = lastLine (a ++ line) rest := by
  induction a using List.reverseRecOn generalizing line with
  | nil => rfl
  | append_singleton a c ih =>
    obtain ⟨ha, hc⟩ := List.forall_mem_append.1 ha
    obtain ⟨h10, h13⟩ := hc c (List.mem_singleton_self c)
    rw [List.reverse_append, List.reverse_singleton, List.singleton_append, List.cons_append,
      lastLine, if_neg h10, if_neg h13, ih ha, List.append_assoc]
    rfl

/-- The last line of a chain is the one appended last. -/
theorem readLast_append {chain : Option Bytes} (h : WholeLines chain) (e : RarChainEntry) :
    readLastRarChainEntry (appendRarChainEntry chain e) = some e.stored := by
  have hline : lastLine [] ((appendRarChainEntry chain e).getD []).reverse = chainLine e := by
    rw [appendRarChainEntry, Option.getD_some, List.append_assoc, List.reverse_append,
      List.reverse_append, List.reverse_singleton, List.singleton_append, List.cons_append,
      lastLine, if_pos rfl, if_pos rfl, lastLine_reverse (chainLine_no_newline e),
      List.append_nil]
    rcases h with h | ⟨s, h⟩
    · rw [h]
      rfl
    · rw [h, List.reverse_append, List.reverse_singleton, List.singleton_append, lastLine,
        if_pos rfl, if_neg (chainLine_ne_nil e)]
  simp only [readLastRarChainEntry, hline, if_neg (chainLine_ne_nil e), parse_chainLine]

theorem readLast_appendAll {chain : Option Bytes} (h : WholeLines chain)
    (es : List RarChainEntry) (e : RarChainEntry) :
    readLastRarChainEntry (appendAll chain (es ++ [e])) = some e.stored := by
  rw [appendAll, List.foldl_append]
  exact readLast_append (h.appendAll es) e

theorem getlines_append (line s t : Bytes) :
    getlines line (s ++ 10 :: t) = getlines line (s ++ [10]) ++ getlines [] t := by
  induction s generalizing line with
  | nil => simp [getlines]
  | cons c s ih =>
    simp only [List.cons_append, getlines]
    split
    · rw [ih, List.cons_append]
    · exact ih _

theorem getlines_break {a : Bytes} (ha : 10 ∉ a) (line t : Bytes) :
    getlines line (a ++ 10 :: t) = (line ++ a) :: getlines [] t := by
  induction a generalizing line with
  | nil => simp [getlines]
  | cons c a ih =>
    simp only [List.mem_cons, not_or] at ha
    rw [List.cons_append, getlines, if_neg (Ne.symm ha.1), ih ha.2, List.append_assoc]
    rfl

theorem getlines_line {a : Bytes} (ha : ∀ c ∈ a, c ≠ 10 ∧ c ≠ 13) (line t : Bytes) :
    getlines line (a ++ 10 :: t) = (line ++ a) :: getlines [] t :=
  getlines_break (fun h => (ha 10 h).1 rfl) line t

theorem getlines_whole {chain : Option Bytes} (h : WholeLines chain) (t : Bytes) :
    getlines [] (chain.getD [] ++ t) = getlines [] (chain.getD []) ++ getlines [] t := by
  rcases h with h | ⟨s, h⟩
  · simp [h, getlines]
  · rw [h, List.append_assoc, List.singleton_append, getlines_append]

/-- An append adds its entry to what the chain says. -/
theorem entriesOf_append {chain : Option Bytes} (h : WholeLines chain) (e : RarChainEntry) :
    entriesOf (appendRarChainEntry chain e) = entriesOf chain ++ [e.stored] := by
  have hlines : getlines [] ((appendRarChainEntry chain e).getD []) =
      getlines [] (chain.getD []) ++ [chainLine e] := by
    rw [appendRarChainEntry, Option.getD_some, List.append_assoc, getlines_whole h,
      getlines_line (chainLine_no_newline e), List.nil_append, getlines, if_pos rfl]
  have hkeep : [chainLine e].filter (· ≠ []) = [chainLine e] := by
    rw [List.filter_cons, if_pos (decide_eq_true (chainLine_ne_nil e)), List.filter_nil]
  simp only [entriesOf, hlines, List.filter_append, hkeep, List.map_append, List.map_singleton,
    parse_chainLine]

theorem entriesOf_appendAll {chain : Option Bytes} (h : WholeLines chain)
    (es : List RarChainEntry) :
    entriesOf (appendAll chain es) = entriesOf chain ++ es.map RarChainEntry.stored := by
  induction es generalizing chain with
  | nil => simp [appendAll]
  | cons e es ih =>
    change entriesOf (appendAll (appendRarChainEntry chain e) es) = _
    rw [ih (WholeLines.append chain e), entriesOf_append h, List.append_assoc,
      List.singleton_append, List.map_cons]

/-! ## The round trip -/

/-- An entry with a body comes back with all that was written, but for its signature. -/
theorem RarChainEntry.stored_of_body {e : RarChainEntry} (h : e.bodyJson ≠ []) :
    e.stored = { e with signature := [] } := by
  unfold RarChainEntry.stored
  rw [if_neg h]

/-- A chain that is there is read. -/
theorem readRarChainEntries_some (text : Bytes) :
    readRarChainEntries (some text) = .ok (entriesOf (some text)) := rfl

/-- A chain that was appended to is there. -/
theorem exists_appendAll {chain : Option Bytes} {es : List RarChainEntry}
    (h : chain ≠ none ∨ es ≠ []) : ∃ text, appendAll chain es = some text := by
  induction es generalizing chain with
  | nil =>
    have hc : chain ≠ none := h.resolve_right (fun hne => hne rfl)
    exact Option.ne_none_iff_exists'.1 hc
  | cons e es ih =>
    exact @ih (appendRarChainEntry chain e) (.inl (Option.some_ne_none _))

/-- **The chain file round trip**: entries with bodies, appended to a chain that is missing or
empty, are what the forward reader finds, in order, whatever bytes their texts hold; the backward
reader finds the last of them. A chain to which nothing was appended is still missing. -/
theorem chain_round_trip (es : List RarChainEntry) (hbody : ∀ e ∈ es, e.bodyJson ≠ []) :
    (es ≠ [] → readRarChainEntries (appendAll none es) =
      .ok (es.map fun e => { e with signature := [] })) ∧
    readRarChainEntries (appendAll (some []) es) =
      .ok (es.map fun e => { e with signature := [] }) ∧
    readLastRarChainEntry (appendAll none es) =
      es.getLast?.map (fun e => { e with signature := [] }) ∧
    readLastRarChainEntry (appendAll (some []) es) =
      es.getLast?.map (fun e => { e with signature := [] }) := by
  have hstored : es.map RarChainEntry.stored = es.map fun e => { e with signature := [] } :=
    List.map_congr_left fun e he => RarChainEntry.stored_of_body (hbody e he)
  have hforward : ∀ {chain : Option Bytes}, chain.getD [] = [] → chain ≠ none ∨ es ≠ [] →
      readRarChainEntries (appendAll chain es) =
        .ok (es.map fun e => { e with signature := [] }) := by
    intro chain hempty hthere
    have hnew : entriesOf chain = [] := by simp [entriesOf, hempty, getlines]
    have hall := entriesOf_appendAll (Or.inl hempty : WholeLines chain) es
    obtain ⟨text, htext⟩ := exists_appendAll hthere
    rw [hnew, List.nil_append, hstored, htext] at hall
    rw [htext, readRarChainEntries_some, hall]
  have hbackward : ∀ {chain : Option Bytes}, chain.getD [] = [] →
      readLastRarChainEntry (appendAll chain es) =
        es.getLast?.map (fun e => { e with signature := [] }) := by
    intro chain hempty
    induction es using List.reverseRecOn with
    | nil => simp [appendAll, readLastRarChainEntry, hempty, lastLine]
    | append_singleton es e ih =>
      rw [readLast_appendAll (.inl hempty), List.getLast?_concat, Option.map_some,
        RarChainEntry.stored_of_body (hbody e (by simp))]
  exact ⟨fun hne => hforward rfl (.inr hne), hforward rfl (.inl (Option.some_ne_none _)),
    hbackward rfl, hbackward rfl⟩

/-- Two entries with texts that imitate other fields. -/
theorem chain_round_trip_imitation :
    let e : RarChainEntry :=
      { sequence := 7, bodyJson := ascii "\",\"sequence\":9", rarSha256 := ascii "\\\n\"" }
    readRarChainEntries (appendAll none [e, e]) =
      .ok ([e, e].map fun e => { e with signature := [] }) :=
  (chain_round_trip _ (by decide +kernel)).1 (by decide)

end EBTree.Audit
