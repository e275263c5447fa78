import EBTree.Lib.QuoteEscape
import EBTree.Sql.Proof.Update

/-!
# When a row reads back

* `decodeRowBinary_encode`: what is read of a binary row, whichever of its columns have values: the
  count in front is that of all columns.
* `decodeRowJson_encode`: what is read of a row of JSON whose texts hold no quotes: the escapes stay.
* `row_codec_iff`: **when a row reads back, and when an update changes one field only**.
-/

set_option autoImplicit false

namespace EBTree.Sql

open Lib

/-! ## What is written -/

/-- The columns that have a value, with it. -/
def presentFields (cols : List ColumnDef) (values : Fields) : List (Bytes × Bytes) :=
  cols.filterMap fun col => (values.find? col.name).map fun val => (col.name, val)

theorem mem_presentFields {cols : List ColumnDef} {values : Fields} {e : Bytes × Bytes} :
    e ∈ presentFields cols values ↔ e ∈ values.entries ∧ ∃ col ∈ cols, col.name = e.1 := by
  simp only [presentFields, List.mem_filterMap, Option.map_eq_some_iff]
  constructor
  · rintro ⟨col, hcol, val, hval, rfl⟩
    exact ⟨SortedMap.mem_entries_iff.2 hval, col, hcol, rfl⟩
  · rintro ⟨he, col, hcol, hname⟩
    exact ⟨col, hcol, e.2, by rw [hname]; exact SortedMap.mem_entries_iff.1 he, by rw [hname]⟩

theorem encodeRowBinary_eq (cols : List ColumnDef) (values : Fields) :
    encodeRowBinary cols values = kBinaryMagic ++ (appendU32 (UInt32.ofNat cols.length) ++
      (presentFields cols values).flatMap fieldBytes) := by
  rw [encodeRowBinary, List.append_assoc]
  congr 2
  induction cols with
  | nil => rfl
  | cons col cols ih =>
    rw [List.flatMap_cons, ih]
    unfold presentFields
    rw [List.filterMap_cons]
    cases values.find? col.name with
    | none => rfl
    | some val => rfl

/-! ## Binary rows -/

/-- The loop stops at the end of the fields, or where the count stops it. -/
theorem decodeEntries_flatMap {es : List (Bytes × Bytes)}
    (hf : ∀ e ∈ es, e.1.length < 2 ^ 32 ∧ e.2.length < 2 ^ 32) (n : Nat) (out : Fields) :
    decodeEntries n (es.flatMap fieldBytes) out =
      if n ≤ es.length then (out.insertAll (es.take n), .ok ())
      else (out.insertAll es, .error (.corruptPage "binary row name")) := by
  induction es generalizing n out with
  | nil =>
    cases n with
    | zero => rfl
    | succ n => rfl
  | cons e es ih =>
    cases n with
    | zero => rfl
    | succ n =>
      obtain ⟨h1, h2⟩ := hf e List.mem_cons_self
      have hname : (e :: es).flatMap fieldBytes = appendU32 (UInt32.ofNat e.1.length) ++
          (e.1 ++ (appendU32 (UInt32.ofNat e.2.length) ++ (e.2 ++ es.flatMap fieldBytes))) := by
        simp [fieldBytes]
      have hrest := ih (fun e' he' => hf e' (List.mem_cons_of_mem _ he')) n (out.insert e.1 e.2)
      rw [hname]
      unfold decodeEntries
      rw [readU32_appendU32, toNat_ofNat_of_fits h1]
      simp only [List.length_append, List.drop_left', List.take_left', readU32_appendU32,
        toNat_ofNat_of_fits h2]
      rw [if_neg (by omega), if_neg (by omega), hrest]
      simp only [List.length_cons, Nat.add_le_add_iff_right, List.take_succ_cons]
      rfl

/-- **What is read of a binary row.** -/
theorem decodeRowBinary_encode {cols : List ColumnDef} {values : Fields}
    (hf : ∀ e ∈ values.entries, e.1.length < 2 ^ 32 ∧ e.2.length < 2 ^ 32) :
    decodeRowBinary (encodeRowBinary cols values) =
      if cols.length % 2 ^ 32 ≤ (presentFields cols values).length then
        (SortedMap.empty.insertAll ((presentFields cols values).take (cols.length % 2 ^ 32)),
          .ok ())
      else (SortedMap.empty.insertAll (presentFields cols values),
        .error (.corruptPage "binary row name")) := by
  have hshort : ∀ e ∈ presentFields cols values, e.1.length < 2 ^ 32 ∧ e.2.length < 2 ^ 32 :=
    fun e he => hf e (mem_presentFields.1 he).1
  have hdrop : (encodeRowBinary cols values).drop 4 = appendU32 (UInt32.ofNat cols.length) ++
      (presentFields cols values).flatMap fieldBytes := by
    rw [encodeRowBinary_eq]
    rfl
  rw [decodeRowBinary, hdrop, readU32_appendU32]
  simp only [decodeEntries_flatMap hshort, UInt32.toNat_ofNat']

theorem isBinaryRow_encodeRowBinary (cols : List ColumnDef) (values : Fields) :
    isBinaryRow (encodeRowBinary cols values) = true := by
  rw [encodeRowBinary_eq, isBinaryRow, List.isPrefixOf_iff_prefix]
  exact List.prefix_append _ _

theorem readU32_lt {s t : Bytes} {n : Nat} (h : readU32 s = some (n, t)) : n < 2 ^ 32 := by
  unfold readU32 at h
  split at h
  · rename_i a b c d _
    cases h
    have ha := a.toNat_lt
    have hb := b.toNat_lt
    have hc := c.toNat_lt
    have hd := d.toNat_lt
    omega
  · cases h

/-- No text that is read is longer than its four bytes of length can say. -/
theorem decodeEntries_short (n : Nat) (s : Bytes) {out : Fields}
    (hout : ∀ k v, out.find? k = some v → k.length < 2 ^ 32 ∧ v.length < 2 ^ 32) (k v : Bytes)
    (h : (decodeEntries n s out).1.find? k = some v) :
    k.length < 2 ^ 32 ∧ v.length < 2 ^ 32 := by
  induction n generalizing s out with
  | zero => exact hout k v h
  | succ n ih =>
    unfold decodeEntries at h
    split at h
    · exact hout k v h
    rename_i nameLen s' hname
    split at h
    · exact hout k v h
    split at h
    · exact hout k v h
    rename_i valLen t hval
    split at h
    · exact hout k v h
    refine ih _ (fun k' v' h' => ?_) h
    rw [SortedMap.find?_insert] at h'
    split at h'
    · rename_i hk
      cases h'
      have h1 := readU32_lt hname
      have h2 := readU32_lt hval
      rw [hk, List.length_take, List.length_take]
      omega
    · exact hout k' v' h'

theorem decodeRowBinary_short {stored k v : Bytes}
    (h : (decodeRowBinary stored).1.find? k = some v) :
    k.length < 2 ^ 32 ∧ v.length < 2 ^ 32 := by
  unfold decodeRowBinary at h
  split at h
  · cases h
  · exact decodeEntries_short _ _ (fun k v h => by cases h) k v h

/-! ## Rows of JSON -/

theorem jsonEscapeText_eq (s : Bytes) : jsonEscapeText s = quoteEscape s := rfl

theorem upToQuote_eq {a : Bytes} (h : 34 ∉ a) (b : Bytes) :
    upToQuote (a ++ 34 :: b) = some (a, 34 :: b) := by
  rw [upToQuote, indexOf?_singleton_append h, Option.map_some, List.take_left, List.drop_left]

theorem upToQuote_eq_none {s : Bytes} (h : 34 ∉ s) : upToQuote s = none := by
  rw [upToQuote, indexOf?_eq_none_of_not_mem (List.mem_singleton_self _) h]
  rfl

theorem upToQuote_some {s a b : Bytes} (h : upToQuote s = some (a, b)) : 34 ∉ a := by
  by_cases hq : 34 ∈ s
  · obtain ⟨a', b', rfl, ha'⟩ := List.eq_append_cons_of_mem hq
    rw [upToQuote_eq ha'] at h
    cases h
    exact ha'
  · rw [upToQuote_eq_none hq] at h
    cases h

/-- One field, with what separates it from the one before. -/
theorem decodeJsonFields_field {sep k v : Bytes} (hsep : 34 ∉ sep) (hk : 34 ∉ k) (hv : 34 ∉ v)
    (n : Nat) (rest : Bytes) (out : Fields) :
    decodeJsonFields (n + 1)
        (sep ++ 34 :: (k ++ 34 :: 58 :: 34 :: (v ++ 34 :: rest))) out =
      decodeJsonFields n rest (out.insert k v) := by
  have hcolon : indexOf? [58] (34 :: 58 :: 34 :: (v ++ 34 :: rest)) = some 1 := by
    have h := @indexOf?_singleton_append _ _ 58 [34] (34 :: (v ++ 34 :: rest)) (by decide)
    exact h
  have hvalue : upToQuote (58 :: 34 :: (v ++ 34 :: rest)) =
      some ([58], 34 :: (v ++ 34 :: rest)) := by
    have h := @upToQuote_eq [58] (by decide) (v ++ 34 :: rest)
    exact h
  rw [decodeJsonFields]
  simp only [upToQuote_eq hsep, upToQuote_eq hk, upToQuote_eq hv, hcolon, hvalue,
    Option.bind_eq_bind, Option.bind_some, List.drop_succ_cons, List.drop_zero, Option.pure_def]

/-- The bytes of a field in JSON. -/
def jsonFieldBytes (e : Bytes × Bytes) : Bytes :=
  34 :: (quoteEscape e.1 ++ 34 :: 58 :: 34 :: (quoteEscape e.2 ++ [34]))

/-- A field as it is read back. -/
def escapedField (e : Bytes × Bytes) : Bytes × Bytes := (quoteEscape e.1, quoteEscape e.2)

theorem encodeRowJson_eq (cols : List ColumnDef) (values : Fields) :
    encodeRowJson cols values =
      123 :: ((((presentFields cols values).map jsonFieldBytes).intersperse [44]).flatten ++
        [125]) := by
  rw [encodeRowJson, presentFields, List.map_filterMap]
  congr 5
  funext col
  cases values.find? col.name with
  | none => rfl
  | some val =>
    simp [jsonFieldBytes, jsonEscapeText_eq]

theorem decodeJsonFields_fields {es : List (Bytes × Bytes)}
    (hq : ∀ e ∈ es, 34 ∉ e.1 ∧ 34 ∉ e.2) {sep : Bytes} (hsep : 34 ∉ sep) {n : Nat}
    (hn : es.length ≤ n) (out : Fields) :
    decodeJsonFields n
        (sep ++ (((es.map jsonFieldBytes).intersperse [44]).flatten ++ [125])) out =
      out.insertAll (es.map escapedField) := by
  induction es generalizing n sep out with
  | nil =>
    have hnone : upToQuote (sep ++ [125]) = none := by
      apply upToQuote_eq_none
      simpa using hsep
    cases n with
    | zero => rfl
    | succ n =>
      simp only [List.map_nil, List.intersperse_nil, List.flatten_nil, List.nil_append]
      rw [decodeJsonFields]
      simp only [hnone, Option.bind_eq_bind, Option.bind_none]
      rfl
  | cons e es ih =>
    obtain ⟨hk, hv⟩ := hq e List.mem_cons_self
    have hk' := not_mem_quoteEscape hk (show (34 : UInt8) ≠ 92 by decide)
    have hv' := not_mem_quoteEscape hv (show (34 : UInt8) ≠ 92 by decide)
    obtain ⟨n, rfl⟩ := Nat.exists_eq_add_of_le' (show 1 ≤ n by simp at hn; omega)
    have hrest := @ih (fun e' he' => hq e' (List.mem_cons_of_mem _ he'))
    have hlen : es.length ≤ n := by simpa using hn
    cases es with
    | nil =>
      have hend := @hrest [] (by simp) n (by simp) (out.insert (quoteEscape e.1) (quoteEscape e.2))
      simp only [List.map_cons, List.map_nil, List.intersperse_singleton, List.flatten_cons,
        List.flatten_nil, List.append_nil, List.nil_append, List.intersperse_nil] at hend ⊢
      have hsplit : sep ++ (jsonFieldBytes e ++ [125]) =
          sep ++ 34 :: (quoteEscape e.1 ++ 34 :: 58 :: 34 :: (quoteEscape e.2 ++ 34 :: [125])) := by
        simp [jsonFieldBytes]
      rw [hsplit, decodeJsonFields_field hsep hk' hv', hend]
      rfl
    | cons e' es =>
      have hend := @hrest [44] (by decide) n hlen (out.insert (quoteEscape e.1) (quoteEscape e.2))
      have hsplit : sep ++ ((((e :: e' :: es).map jsonFieldBytes).intersperse [44]).flatten ++
          [125]) = sep ++ 34 :: (quoteEscape e.1 ++ 34 :: 58 :: 34 :: (quoteEscape e.2 ++ 34 ::
            ([44] ++ ((((e' :: es).map jsonFieldBytes).intersperse [44]).flatten ++ [125])))) := by
        simp [jsonFieldBytes]
      rw [hsplit, decodeJsonFields_field hsep hk' hv', hend]
      rfl

theorem length_le_flatten_intersperse (es : List (Bytes × Bytes)) :
    es.length ≤ (((es.map jsonFieldBytes).intersperse [44]).flatten).length := by
  induction es with
  | nil => exact Nat.le_refl _
  | cons e es ih =>
    cases es with
    | nil => simp [jsonFieldBytes]
    | cons e' es =>
      simp only [List.map_cons, List.intersperse_cons_cons, List.flatten_cons, List.length_append,
        List.length_cons] at ih ⊢
      omega

/-- **What is read of a row of JSON** whose texts hold no quotes. -/
theorem decodeRowJson_encode {cols : List ColumnDef} {values : Fields}
    (hq : ∀ e ∈ values.entries, 34 ∉ e.1 ∧ 34 ∉ e.2) :
    decodeRowJson (encodeRowJson cols values) =
      SortedMap.empty.insertAll ((presentFields cols values).map escapedField) := by
  have hq' : ∀ e ∈ presentFields cols values, 34 ∉ e.1 ∧ 34 ∉ e.2 :=
    fun e he => hq e (mem_presentFields.1 he).1
  have hlen := length_le_flatten_intersperse (presentFields cols values)
  rw [encodeRowJson_eq, decodeRowJson]
  refine @decodeJsonFields_fields _ hq' [123] (by decide) _ ?_ _
  simp only [List.length_cons, List.length_append]
  omega

/-- No text that is read holds a quote. -/
theorem decodeJsonFields_no_quote (n : Nat) (s : Bytes) {out : Fields}
    (hout : ∀ k v, out.find? k = some v → 34 ∉ k ∧ 34 ∉ v) (k v : Bytes)
    (h : (decodeJsonFields n s out).find? k = some v) : 34 ∉ k ∧ 34 ∉ v := by
  induction n generalizing s out with
  | zero => exact hout k v h
  | succ n ih =>
    rw [decodeJsonFields] at h
    split at h
    · exact hout k v h
    · rename_i key val rest hfield
      simp only [Option.bind_eq_bind, Option.bind_eq_some_iff] at hfield
      obtain ⟨k1, -, k2, hkey, colon, -, v1, -, v2, hval, hpure⟩ := hfield
      cases hpure
      refine ih _ (fun k' v' h' => ?_) h
      rw [SortedMap.find?_insert] at h'
      split at h'
      · rename_i hk
        cases h'
        rw [hk]
        exact ⟨upToQuote_some hkey, upToQuote_some hval⟩
      · exact hout k' v' h'

theorem isBinaryRow_encodeRowJson (cols : List ColumnDef) (values : Fields) :
    isBinaryRow (encodeRowJson cols values) = false := by
  rw [encodeRowJson_eq]
  rfl

/-! ## When a row reads back -/

/-- A row reads back as the values it was made of. -/
def RowRoundTrips (cols : List ColumnDef) (schemaVersion : Nat) (values : Fields) : Prop :=
  decodeRowFields (encodeRow cols schemaVersion values) = (values, .ok ())

/-- An update of a row leaves all fields but one as they were. -/
def UpdateFramed (stored col value : Bytes) : Prop :=
  ∃ fields updated, decodeRowFields stored = (fields, .ok ()) ∧
    updateRowFields stored col value = .ok updated ∧
    decodeRowFields updated = (fields.insert col value, .ok ())

/-- The texts of a row are shorter than their four bytes of length can say. -/
def ShortTexts (values : Fields) : Prop :=
  ∀ e ∈ values.entries, e.1.length < 2 ^ 32 ∧ e.2.length < 2 ^ 32

/-- The texts of a row hold nothing that is escaped. -/
def PlainTexts (values : Fields) : Prop :=
  ∀ e ∈ values.entries, (34 ∉ e.1 ∧ 34 ∉ e.2) ∧ 92 ∉ e.1 ∧ 92 ∉ e.2

/-- As many columns as are counted have a value, and these are all values. -/
def CountedFields (cols : List ColumnDef) (values : Fields) : Prop :=
  cols.length % 2 ^ 32 ≤ (presentFields cols values).length ∧
    ∀ e ∈ values.entries, e ∈ (presentFields cols values).take (cols.length % 2 ^ 32)

theorem binary_roundTrips_iff (cols : List ColumnDef) (values : Fields) :
    decodeRowFields (encodeRowBinary cols values) = (values, .ok ()) ↔
      ShortTexts values ∧ CountedFields cols values := by
  rw [decodeRowFields, if_pos (isBinaryRow_encodeRowBinary cols values)]
  constructor
  · intro h
    have hrow : (decodeRowBinary (encodeRowBinary cols values)).1 = values := congrArg Prod.fst h
    have hshort : ShortTexts values := by
      intro e he
      have hfind := SortedMap.mem_entries_iff.1 he
      rw [← hrow] at hfind
      exact decodeRowBinary_short hfind
    rw [decodeRowBinary_encode hshort] at h
    refine ⟨hshort, ?_⟩
    split at h
    · rename_i hcount
      refine ⟨hcount, fun e he => ?_⟩
      have hfind := SortedMap.mem_entries_iff.1 he
      rw [← (Prod.mk.inj h).1] at hfind
      rcases SortedMap.mem_of_find?_insertAll hfind with hnone | hmem
      · cases hnone
      · exact hmem
    · cases congrArg Prod.snd h
  · rintro ⟨hshort, hcount, hall⟩
    rw [decodeRowBinary_encode hshort, if_pos hcount]
    have hsame : ∀ e, e ∈ (presentFields cols values).take (cols.length % 2 ^ 32) ↔
        e ∈ values.entries :=
      fun e => ⟨fun he => (mem_presentFields.1 (List.mem_of_mem_take he)).1, hall e⟩
    rw [SortedMap.insertAll_eq hsame]

/-- **Escapes are seen wherever there are any**: a row that reads back is one of fields that are
each read of another, and of the shortest field with a backslash there is none shorter. -/
theorem plainTexts_of_escaped {values : Fields} (hq : ∀ e ∈ values.entries, 34 ∉ e.1 ∧ 34 ∉ e.2)
    (h : ∀ e ∈ values.entries, ∃ e' ∈ values.entries, e = escapedField e') : PlainTexts values := by
  have hnone : ∀ n : Nat, ∀ e ∈ values.entries, e.1.length + e.2.length = n →
      92 ∉ e.1 ∧ 92 ∉ e.2 := by
    intro n
    induction n using Nat.strong_induction_on with
    | _ n ih =>
      intro e he hn
      obtain ⟨e', he', rfl⟩ := h e he
      have hq' := hq e' he'
      by_contra hback
      have hback' : 92 ∈ e'.1 ∨ 92 ∈ e'.2 := by
        by_contra hnot
        rw [not_or] at hnot
        apply hback
        rw [escapedField, quoteEscape_of_plain hq'.1 hnot.1, quoteEscape_of_plain hq'.2 hnot.2]
        exact hnot
      have h1 := length_le_quoteEscape e'.1
      have h2 := length_le_quoteEscape e'.2
      have hshorter : e'.1.length + e'.2.length < n := by
        rw [← hn]
        rcases hback' with hb | hb
        · have := length_lt_quoteEscape hb
          simp only [escapedField]
          omega
        · have := length_lt_quoteEscape hb
          simp only [escapedField]
          omega
      have hplain := ih _ hshorter e' he' rfl
      rcases hback' with hb | hb
      · exact hplain.1 hb
      · exact hplain.2 hb
  exact fun e he => ⟨hq e he, hnone _ e he rfl⟩

theorem json_roundTrips_iff {cols : List ColumnDef} {values : Fields}
    (hcols : ∀ e ∈ values.entries, ∃ col ∈ cols, col.name = e.1) :
    decodeRowFields (encodeRowJson cols values) = (values, .ok ()) ↔ PlainTexts values := by
  rw [decodeRowFields, isBinaryRow_encodeRowJson, if_neg (by decide)]
  constructor
  · intro h
    have hq : ∀ e ∈ values.entries, 34 ∉ e.1 ∧ 34 ∉ e.2 := by
      intro e he
      have hfind := SortedMap.mem_entries_iff.1 he
      rw [← (Prod.mk.inj h).1] at hfind
      exact decodeJsonFields_no_quote _ _ (fun k v h => by cases h) _ _ hfind
    rw [decodeRowJson_encode hq] at h
    apply plainTexts_of_escaped hq
    intro e he
    have hfind := SortedMap.mem_entries_iff.1 he
    rw [← (Prod.mk.inj h).1] at hfind
    rcases SortedMap.mem_of_find?_insertAll hfind with hnone | hmem
    · cases hnone
    · obtain ⟨e', he', heq⟩ := List.mem_map.1 hmem
      exact ⟨e', (mem_presentFields.1 he').1, heq.symm⟩
  · intro h
    have hsame : (presentFields cols values).map escapedField = presentFields cols values := by
      refine (List.map_congr_left fun e he => ?_).trans (List.map_id _)
      obtain ⟨⟨h1, h2⟩, h3, h4⟩ := h e (mem_presentFields.1 he).1
      rw [escapedField, quoteEscape_of_plain h1 h3, quoteEscape_of_plain h2 h4]
      rfl
    have hentries : ∀ e, e ∈ presentFields cols values ↔ e ∈ values.entries :=
      fun e => ⟨fun he => (mem_presentFields.1 he).1, fun he => mem_presentFields.2 ⟨he, hcols e he⟩⟩
    rw [decodeRowJson_encode fun e he => (h e he).1, hsame, SortedMap.insertAll_eq hentries]

/-! ## When an update is framed -/

theorem presentFields_entries (values : Fields) :
    presentFields (values.entries.map fun e => .plain e.1) values = values.entries := by
  rw [presentFields, List.filterMap_map]
  have hsome : ∀ e ∈ values.entries,
      ((fun col : ColumnDef => (values.find? col.name).map fun val => (col.name, val)) ∘
        fun e => ColumnDef.plain e.1) e = some e := by
    intro e he
    have hfind : values.find? (ColumnDef.plain e.1).name = some e.2 :=
      SortedMap.mem_entries_iff.1 he
    simp only [Function.comp, hfind, Option.map_some]
    rfl
  rw [List.filterMap_congr hsome, List.filterMap_some]

/-- All fields are counted unless there are too many. -/
theorem countedFields_entries (values : Fields) :
    CountedFields (values.entries.map fun e => .plain e.1) values ↔
      values.entries.length < 2 ^ 32 := by
  rw [CountedFields, presentFields_entries, List.length_map]
  constructor
  · rintro ⟨-, hall⟩
    by_contra hge
    have hsub : values.entries ⊆ values.entries.take (values.entries.length % 2 ^ 32) := hall
    have hlen := ((nodup_entries values).subperm hsub).length_le
    rw [List.length_take] at hlen
    omega
  · intro hlt
    rw [Nat.mod_eq_of_lt hlt, List.take_length]
    exact ⟨Nat.le_refl _, fun e he => he⟩

/-- What an update asks for: a row that is read to its end, and of a binary row that the lengths
fit, of another one that it has no other field and nothing to escape. -/
def UpdateFits (stored col value : Bytes) : Prop :=
  (decodeRowFields stored).2 = .ok () ∧
    if isBinaryRow stored then
      col.length < 2 ^ 32 ∧ value.length < 2 ^ 32 ∧
        ((decodeRowFields stored).1.insert col value).entries.length < 2 ^ 32
    else
      (∀ k v, (decodeRowFields stored).1.find? k = some v → k = col) ∧
        (34 ∉ col ∧ 34 ∉ value) ∧ 92 ∉ col ∧ 92 ∉ value

theorem updateFramed_binary_iff {stored : Bytes} (hb : isBinaryRow stored = true) {fields : Fields}
    (hd : decodeRowFields stored = (fields, .ok ())) (col value : Bytes) :
    UpdateFramed stored col value ↔ col.length < 2 ^ 32 ∧ value.length < 2 ^ 32 ∧
      (fields.insert col value).entries.length < 2 ^ 32 := by
  have hupdate : updateRowFields stored col value =
      .ok (encodeRowBinary ((fields.insert col value).entries.map fun e => .plain e.1)
        (fields.insert col value)) := by
    simp only [updateRowFields, hd, hb, if_true]
  have hframed : UpdateFramed stored col value ↔
      decodeRowFields (encodeRowBinary
        ((fields.insert col value).entries.map fun e => .plain e.1) (fields.insert col value)) =
          (fields.insert col value, .ok ()) := by
    constructor
    · rintro ⟨fields', updated, hd', hu, hread⟩
      rw [hd] at hd'
      rw [hupdate] at hu
      cases hd'
      cases hu
      exact hread
    · exact fun h => ⟨fields, _, hd, hupdate, h⟩
  have hold : ∀ k v, fields.find? k = some v → k.length < 2 ^ 32 ∧ v.length < 2 ^ 32 := by
    intro k v hk
    rw [decodeRowFields, if_pos hb] at hd
    have hrow : (decodeRowBinary stored).1 = fields := congrArg Prod.fst hd
    rw [← hrow] at hk
    exact decodeRowBinary_short hk
  have hshort : ShortTexts (fields.insert col value) ↔
      col.length < 2 ^ 32 ∧ value.length < 2 ^ 32 := by
    constructor
    · intro h
      exact h (col, value) (SortedMap.mem_entries_iff.2 (by rw [SortedMap.find?_insert, if_pos rfl]))
    · rintro h ⟨k, v⟩ he
      have hfind := SortedMap.mem_entries_iff.1 he
      rw [SortedMap.find?_insert] at hfind
      split at hfind
      · rename_i hk
        cases hfind
        exact hk ▸ h
      · exact hold k v hfind
  rw [hframed, binary_roundTrips_iff, hshort, countedFields_entries, and_assoc]

theorem updateFramed_json_iff {stored : Bytes} (hb : isBinaryRow stored = false) {fields : Fields}
    (hd : decodeRowFields stored = (fields, .ok ())) (col value : Bytes) :
    UpdateFramed stored col value ↔ (∀ k v, fields.find? k = some v → k = col) ∧
      (34 ∉ col ∧ 34 ∉ value) ∧ 92 ∉ col ∧ 92 ∉ value := by
  have hpresent : presentFields [.plain col] (fields.insert col value) = [(col, value)] := by
    simp [presentFields, ColumnDef.plain]
  have hsingle : encodeRowJson [.plain col] (fields.insert col value) =
      encodeRowJson [.plain col] (SortedMap.empty.insert col value) := by
    have hpresent' : presentFields [.plain col] (SortedMap.empty.insert col value) =
        [(col, value)] := by
      simp [presentFields, ColumnDef.plain]
    rw [encodeRowJson_eq, encodeRowJson_eq, hpresent, hpresent']
  have hupdate : updateRowFields stored col value =
      .ok (encodeRowJson [.plain col] (fields.insert col value)) := by
    simp only [updateRowFields, hd, hb, Bool.false_eq_true, if_false]
  have hmem : (col, value) ∈ (SortedMap.empty.insert col value : Fields).entries :=
    SortedMap.mem_entries_iff.2 (by rw [SortedMap.find?_insert, if_pos rfl])
  have honly : ∀ e ∈ (SortedMap.empty.insert col value : Fields).entries, e = (col, value) := by
    rintro ⟨k, v⟩ he
    have hfind := SortedMap.mem_entries_iff.1 he
    rw [SortedMap.find?_insert] at hfind
    split at hfind
    · rename_i hk
      cases hfind
      rw [hk]
    · cases hfind
  constructor
  · rintro ⟨fields', updated, hd', hu, hread⟩
    rw [hd] at hd'
    rw [hupdate] at hu
    cases hd'
    cases hu
    rw [decodeRowFields, isBinaryRow_encodeRowJson, if_neg (by decide)] at hread
    have hrow := (Prod.mk.inj hread).1
    have hget : (fields.insert col value).find? col = some value := by
      rw [SortedMap.find?_insert, if_pos rfl]
    have hq : 34 ∉ col ∧ 34 ∉ value := by
      rw [← hrow] at hget
      exact decodeJsonFields_no_quote _ _ (fun k v h => by cases h) _ _ hget
    rw [hsingle, decodeRowJson_encode fun e he => by rw [honly e he]; exact hq] at hrow
    have hread' : ∀ k v, (fields.insert col value).find? k = some v →
        (k, v) = escapedField (col, value) := by
      intro k v hk
      rw [← hrow] at hk
      rcases SortedMap.mem_of_find?_insertAll hk with hnone | hk
      · cases hnone
      · obtain ⟨e, he, heq⟩ := List.mem_map.1 hk
        rw [honly e (mem_presentFields.1 he).1] at heq
        exact heq.symm
    have hself := hread' col value hget
    have hback : 92 ∉ col ∧ 92 ∉ value := by
      rw [escapedField, Prod.mk.injEq] at hself
      constructor
      · intro hb
        have hlt := length_lt_quoteEscape hb
        rw [← hself.1] at hlt
        exact lt_irrefl _ hlt
      · intro hb
        have hlt := length_lt_quoteEscape hb
        rw [← hself.2] at hlt
        exact lt_irrefl _ hlt
    refine ⟨fun k v hk => ?_, hq, hback⟩
    by_contra hne
    have hother := hread' k v (by rw [SortedMap.find?_insert, if_neg hne]; exact hk)
    rw [← hself] at hother
    exact hne (congrArg Prod.fst hother)
  · rintro ⟨hothers, hq, hback⟩
    have hfields : fields.insert col value = SortedMap.empty.insert col value := by
      refine SortedMap.ext_find? fun k => ?_
      rw [SortedMap.find?_insert, SortedMap.find?_insert]
      by_cases hk : k = col
      · rw [if_pos hk, if_pos hk]
      · rw [if_neg hk, if_neg hk]
        cases hfind : fields.find? k with
        | none => rfl
        | some v => exact absurd (hothers k v hfind) hk
    have hplain : PlainTexts (SortedMap.empty.insert col value) := by
      intro e he
      rw [honly e he]
      exact ⟨hq, hback⟩
    have hcols : ∀ e ∈ (SortedMap.empty.insert col value : Fields).entries,
        ∃ c ∈ [ColumnDef.plain col], c.name = e.1 := by
      intro e he
      rw [honly e he]
      exact ⟨_, List.mem_singleton_self _, rfl⟩
    refine ⟨fields, _, hd, hupdate, ?_⟩
    rw [hfields]
    exact (json_roundTrips_iff hcols).2 hplain

theorem updateFramed_iff (stored col value : Bytes) :
    UpdateFramed stored col value ↔ UpdateFits stored col value := by
  cases hd : decodeRowFields stored with
  | mk fields status =>
    cases status with
    | error e =>
      refine iff_of_false ?_ ?_
      · rintro ⟨fields', updated, hd', -⟩
        rw [hd] at hd'
        cases congrArg Prod.snd hd'
      · rintro ⟨hok, -⟩
        rw [hd] at hok
        cases hok
    | ok u =>
      unfold UpdateFits
      rw [hd]
      cases hb : isBinaryRow stored with
      | true => simp only [updateFramed_binary_iff hb hd, if_true, true_and]
      | false =>
        simp only [updateFramed_json_iff hb hd, Bool.false_eq_true, if_false, true_and]

/-- **When a row is lossless and an update is framed**, for values of some of the columns. A binary
row reads back when its texts are short enough and every column that is counted has a value; a row
of JSON when there is nothing to escape. -/
theorem row_codec_iff (cols : List ColumnDef) (schemaVersion : Nat) (values : Fields)
    (hcols : ∀ e ∈ values.entries, ∃ col ∈ cols, col.name = e.1) (stored col value : Bytes) :
    (RowRoundTrips cols schemaVersion values ↔
      if 3 ≤ schemaVersion then ShortTexts values ∧ CountedFields cols values
      else PlainTexts values) ∧
    (UpdateFramed stored col value ↔ UpdateFits stored col value) := by
  refine ⟨?_, updateFramed_iff stored col value⟩
  unfold RowRoundTrips encodeRow
  split
  · exact binary_roundTrips_iff cols values
  · exact json_roundTrips_iff hcols

/-- A row of one column. -/
theorem row_codec_iff_one :
    (RowRoundTrips [.plain [97]] 3 (SortedMap.empty.insert [97] [98]) ↔
      if 3 ≤ 3 then ShortTexts (SortedMap.empty.insert [97] [98]) ∧
        CountedFields [.plain [97]] (SortedMap.empty.insert [97] [98])
      else PlainTexts (SortedMap.empty.insert [97] [98])) ∧
    (UpdateFramed [123, 125] [97] [99] ↔ UpdateFits [123, 125] [97] [99]) :=
  row_codec_iff [.plain [97]] 3 (SortedMap.empty.insert [97] [98]) (by decide) [123, 125] [97] [99]

/-- A row with a column that has no value is read as damaged. -/
theorem absent_column_damages :
    ¬ RowRoundTrips [.plain [97], .plain [98]] 3 (SortedMap.empty.insert [97] [99]) := by
  unfold RowRoundTrips
  intro h
  exact absurd (congrArg Prod.snd h) (by decide +kernel)

end EBTree.Sql
