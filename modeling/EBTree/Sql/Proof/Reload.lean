import EBTree.Sql.Proof.CatalogStore

/-!
# How the reader goes through a saved catalog

Where no text in a catalog has a quote, a backslash or a closing bracket in it, the objects that the
reader finds are known:

* `nameObjects_save`: each table with its first column, each other column, each index.
* `loadTable_tableObj`: of the first kind a table is restored under its id and name.
* `loadTable_saveColumn`: of the second kind a table of id zero may come, named like the column.
* `loadTable_saveIndex`: of the third kind nothing comes.
-/

set_option autoImplicit false

namespace EBTree.Sql.CatalogStore

open Lib

/-! ## Plain catalogs -/

/-- Text that is written as it is, and that the reader takes for nothing else. -/
def PlainText (s : Bytes) : Prop := ∀ b ∈ s, b ≠ 34 ∧ b ≠ 92 ∧ b ≠ 93 ∧ b ≠ 123 ∧ b ≠ 125

instance (s : Bytes) : Decidable (PlainText s) := inferInstanceAs (Decidable (∀ _ ∈ _, _))

def PlainColumn (c : ColumnDef) : Prop :=
  PlainText c.name ∧ PlainText c.type ∧ PlainText c.checkExpr

structure PlainTable (t : TableSchema) : Prop where
  name : PlainText t.name
  keyColumn : PlainText t.keyColumn
  valueColumn : PlainText t.valueColumn
  columns : ∀ c ∈ t.columns, PlainColumn c

/-- An index whose text is plain and is not taken for a table's. -/
structure PlainIndex (x : IndexDef) : Prop where
  name : PlainText x.name ∧ x.name ≠ ascii "key_column"
  table : PlainText x.table ∧ x.table ≠ ascii "key_column"
  columns : ∀ c ∈ x.columns, PlainText c ∧ c ≠ ascii "key_column"

structure PlainCatalog (c : Catalog) : Prop where
  tables : ∀ t ∈ c.tableList, PlainTable t
  indexes : ∀ x ∈ c.indexList, PlainIndex x

theorem PlainText.not_mem_quote {s : Bytes} (h : PlainText s) : (34 : UInt8) ∉ s :=
  fun hm => (h _ hm).1 rfl

theorem PlainText.not_mem_brace {s : Bytes} (h : PlainText s) : (125 : UInt8) ∉ s :=
  fun hm => (h _ hm).2.2.2.2 rfl

theorem PlainText.not_mem_open {s : Bytes} (h : PlainText s) : (123 : UInt8) ∉ s :=
  fun hm => (h _ hm).2.2.2.1 rfl

theorem plainText_decimal (n : Nat) : PlainText (decimal n) := by
  intro b hb
  obtain ⟨h1, h2⟩ := isDigit_of_mem_decimal hb
  refine ⟨?_, ?_, ?_, ?_, ?_⟩ <;> rintro rfl <;> revert h1 h2 <;> decide

theorem plainText_jsonBool (b : Bool) : PlainText (jsonBool b) := by
  cases b <;> decide +kernel

theorem jsonEscape_of_plain {s : Bytes} (h : PlainText s) : jsonEscape s = quoted s := by
  have hmap : (s.flatMap fun c => if c = 34 then [92, 34] else if c = 92 then [92, 92] else [c]) =
      s := by
    induction s with
    | nil => rfl
    | cons c s ih =>
      obtain ⟨h1, h2, -⟩ := h c List.mem_cons_self
      rw [List.flatMap_cons, if_neg h1, if_neg h2, ih fun b hb => h b (List.mem_cons_of_mem _ hb)]
      rfl
  rw [jsonEscape, hmap, quoted]

/-! ## Searching for a quoted string -/

/-- A quoted string with text behind it. -/
def str (w rest : Bytes) : Bytes := 34 :: (w ++ 34 :: rest)

/-- The needle for a key, with what is to follow its closing quote. -/
def needle (k r : Bytes) : Bytes := 34 :: (k ++ 34 :: r)

theorem quoted_eq (k : Bytes) : quoted k = needle k [] := by simp [quoted, needle]

theorem field_eq (k : Bytes) : field k = needle k [58] := by simp [field, needle]

/-- A search finds its needle, with `b` behind it. -/
def Finds (n s b : Bytes) : Prop := ∃ a, s = a ++ (n ++ b) ∧ indexOf? n s = some a.length

/-- A search finds nothing. -/
def Misses (n s : Bytes) : Prop := indexOf? n s = none

section
variable {k r s b : Bytes}

/-- A field is found in front of its value. -/
theorem Finds.field : Finds (needle k [58]) (CatalogStore.str k (58 :: b)) b :=
  ⟨[], by simp [needle, CatalogStore.str], by
    have := indexOf?_self_append (needle k [58]) b
    simpa [needle, CatalogStore.str] using this⟩

theorem Finds.skip {x : Bytes} (hx : (34 : UInt8) ∉ x) (h : Finds (needle k r) s b) :
    Finds (needle k r) (x ++ s) b := by
  obtain ⟨a, rfl, ha⟩ := h
  refine ⟨x ++ a, by simp, ?_⟩
  rw [needle] at ha ⊢
  rw [indexOf?_skip hx, ha]
  simp

theorem Finds.cons {x : UInt8} (hx : x ≠ 34) (h : Finds (needle k r) s b) :
    Finds (needle k r) (x :: s) b :=
  Finds.skip (x := [x]) (by simpa using hx.symm) h

/-- Another string, or the same with something else behind it, is passed over. -/
theorem Finds.str {w : Bytes} {c : UInt8} (hk : PlainText k) (hw : PlainText w)
    (hc : ¬ [c] <+: k ++ 34 :: r) (hne : k ≠ w ∨ ¬ r <+: c :: s)
    (h : Finds (needle k r) (c :: s) b) : Finds (needle k r) (str w (c :: s)) b := by
  obtain ⟨a, hs, ha⟩ := h
  refine ⟨CatalogStore.str w a, by simp [hs, CatalogStore.str], ?_⟩
  rw [needle] at ha ⊢
  rw [CatalogStore.str, indexOf?_skip_string hk.not_mem_quote hw.not_mem_quote hc
    (fun ⟨h1, h2⟩ => hne.elim (fun h => h h1) fun h => h h2), ha]
  simp [CatalogStore.str]
  omega

theorem Misses.skip {x : Bytes} (hx : (34 : UInt8) ∉ x) (h : Misses (needle k r) s) :
    Misses (needle k r) (x ++ s) := by
  unfold Misses needle at h ⊢
  rw [indexOf?_skip hx, h]
  rfl

theorem Misses.cons {x : UInt8} (hx : x ≠ 34) (h : Misses (needle k r) s) :
    Misses (needle k r) (x :: s) :=
  Misses.skip (x := [x]) (by simpa using hx.symm) h

theorem Misses.nil : Misses (needle k r) [] := by simp [Misses, indexOf?, needle]

theorem Misses.str {w : Bytes} {c : UInt8} (hk : PlainText k) (hw : PlainText w)
    (hc : ¬ [c] <+: k ++ 34 :: r) (hne : k ≠ w ∨ ¬ r <+: c :: s)
    (h : Misses (needle k r) (c :: s)) : Misses (needle k r) (str w (c :: s)) := by
  unfold Misses needle at h ⊢
  rw [CatalogStore.str, indexOf?_skip_string hk.not_mem_quote hw.not_mem_quote hc
    (fun ⟨h1, h2⟩ => hne.elim (fun h => h h1) fun h => h h2), h]
  rfl

theorem Finds.isSome (h : Finds (needle k r) s b) (n : Bytes) (hn : n = needle k r) :
    (find s n 0).isSome = true := by
  obtain ⟨a, -, ha⟩ := h
  simp [find, hn, ha]

theorem Misses.isNone (h : Misses (needle k r) s) (n : Bytes) (hn : n = needle k r) :
    find s n 0 = none := by
  unfold Misses at h
  simp [find, hn, h]

end

/-! ## Reading a field -/

theorem extractJsonString_of {s key v rest : Bytes} (h : Finds (needle key [58]) s (str v rest))
    (hv : PlainText v) : extractJsonString s key = some v := by
  obtain ⟨a, hs, ha⟩ := h
  have hpos : find s (field key) 0 = some a.length := by simp [find, field_eq, ha]
  have hlen : a.length + (field key).length = (a ++ field key).length := by simp
  have hs1 : s = (a ++ field key) ++ (34 :: (v ++ 34 :: rest)) := by
    rw [hs, field_eq]
    simp [str]
  have hq1 : find s [34] (a.length + (field key).length) = some (a ++ field key).length := by
    have hself : indexOf? [34] (34 :: (v ++ 34 :: rest)) = some 0 := indexOf?_self_append [34] _
    rw [hlen, hs1, find_length_add, hself]
    rfl
  have hs2 : s = (a ++ field key ++ [34]) ++ (v ++ 34 :: rest) := by
    rw [hs1]
    simp
  have hnext : (a ++ field key).length + 1 = (a ++ field key ++ [34]).length :=
    (@List.length_append _ (a ++ field key) [34]).symm
  have hq2 : find s [34] ((a ++ field key).length + 1) =
      some ((a ++ field key ++ [34]).length + v.length) := by
    rw [hnext, hs2, find_length_add, indexOf?_singleton_append hv.not_mem_quote]
    rfl
  unfold extractJsonString
  simp only [hpos, hq1, hq2]
  have hd : s.drop ((a ++ field key).length + 1) = v ++ 34 :: rest := by
    rw [hnext, hs2, List.drop_left]
  rw [hd]
  have ht : (a ++ field key ++ [34]).length + v.length - (a ++ field key).length - 1 =
      v.length := by simp; omega
  rw [ht, List.take_left]

/-- A number reads back up to what is no digit. -/
theorem stoul_decimal_append {n : Nat} (hn : n < 2 ^ 64) {rest : Bytes}
    (hrest : rest.takeWhile (fun b => decide (IsDigit b)) = []) :
    stoul (decimal n ++ rest) = some n := by
  have hdig : ∀ b ∈ decimal n, decide (IsDigit b) = true := fun b hb => by
    simpa using isDigit_of_mem_decimal hb
  have htake : (decimal n ++ rest).takeWhile (fun b => decide (IsDigit b)) = decimal n := by
    rw [List.takeWhile_append_of_pos hdig, hrest, List.append_nil]
  have hread : stoulDigits false (decimal n ++ rest) = some n := by
    unfold stoulDigits
    simp only [htake, ofDecimal_decimal]
    rw [if_neg (by simpa [decimal_ne_nil] using hn)]
    rfl
  cases hd : decimal n with
  | nil => exact absurd hd (decimal_ne_nil n)
  | cons b ds =>
    obtain ⟨h1, h2⟩ : IsDigit b := isDigit_of_mem_decimal (n := n) (by rw [hd]; simp)
    have hspace : isSpace b = false := by
      have hne : b ≠ 32 := by rintro rfl; exact absurd h1 (by decide)
      have hge : ¬ b ≤ 13 := by
        rw [UInt8.le_iff_toNat_le]
        simp
        omega
      simp [isSpace, hne, hge]
    have hne : b ≠ 45 ∧ b ≠ 43 := by
      constructor <;> rintro rfl <;> exact absurd h1 (by decide)
    rw [hd] at hread
    unfold stoul
    rw [List.cons_append, List.dropWhile_cons]
    simp only [hspace, Bool.false_eq_true, if_false, hne.1, hne.2]
    exact hread

theorem stoul_decimal {n : Nat} (hn : n < 2 ^ 64) {c : UInt8} (hc : ¬ IsDigit c) (rest : Bytes) :
    stoul (decimal n ++ c :: rest) = some n := by
  apply stoul_decimal_append hn
  simp [hc]

theorem extractJsonUint_of {s key rest : Bytes} {id : UInt32} {c : UInt8}
    (h : Finds (needle key [58]) s (decimal id.toNat ++ c :: rest)) (hc : ¬ IsDigit c) :
    extractJsonUint s key = some id := by
  obtain ⟨a, hs, ha⟩ := h
  have hpos : find s (field key) 0 = some a.length := by simp [find, field_eq, ha]
  have hd : s.drop (a.length + (field key).length) = decimal id.toNat ++ c :: rest := by
    have hlen : a.length + (field key).length = (a ++ needle key [58]).length := by
      simp [field_eq]
    rw [hlen, hs, ← List.append_assoc, List.drop_left]
  have hid := id.toNat_lt
  unfold extractJsonUint
  simp only [hpos, hd, stoul_decimal (show id.toNat < 2 ^ 64 by omega) hc]
  simp

theorem extractJsonUint_of_misses {s key : Bytes} (h : Misses (needle key [58]) s) :
    extractJsonUint s key = some 0 := by
  unfold extractJsonUint
  rw [h.isNone _ (field_eq key)]

/-! ## The text of a catalog -/

/-- The text of a column up to its closing brace. -/
def columnFront (c : ColumnDef) : Bytes :=
  123 :: str (ascii "name") (58 :: str c.name (44 :: str (ascii "type") (58 :: str c.type
    (44 :: str (ascii "not_null") (58 :: (jsonBool c.notNull ++
      if c.checkExpr = [] then [] else 44 :: str (ascii "check_expr") (58 :: str c.checkExpr [])))))))

/-- Between the opening brace of a table and its name. -/
def tableMid (t : TableSchema) : Bytes := str (ascii "id") (58 :: (decimal t.id.toNat ++ [44]))

/-- Behind the key `"name"` of a table, with the columns in `rest`. -/
def tableTail (t : TableSchema) (rest : Bytes) : Bytes :=
  58 :: str t.name (44 :: str (ascii "key_column") (58 :: str t.keyColumn
    (44 :: str (ascii "value_column") (58 :: str t.valueColumn (44 :: str (ascii "schema_version")
      (58 :: (decimal t.schemaVersion ++ 44 :: str (ascii "columns") (58 :: 91 :: rest))))))))

/-- A table up to its columns. -/
def tableText (t : TableSchema) (rest : Bytes) : Bytes :=
  123 :: (tableMid t ++ (quoted (ascii "name") ++ tableTail t rest))

/-- The object the reader takes for a table: it ends with the first column. -/
def tableObj (t : TableSchema) (first : ColumnDef) : Bytes := tableText t (saveColumn first)

/-- Behind the key `"name"` of an index, with what follows the index in `rest`. -/
def indexTail (x : IndexDef) (rest : Bytes) : Bytes :=
  58 :: str x.name (44 :: str (ascii "table") (58 :: str x.table (44 :: str (ascii "unique")
    (58 :: (jsonBool x.unique ++ 44 :: str (ascii "columns") (58 :: 91 ::
      (commas (x.columns.map quoted) ++ 93 :: 125 :: rest)))))))

def indexMid (x : IndexDef) : Bytes := str (ascii "id") (58 :: (decimal x.id.toNat ++ [44]))

/-- Items that each have a comma before them. -/
def afterCommas (items : List Bytes) : Bytes := items.flatMap fun x => 44 :: x

theorem str_eq (w a : Bytes) : quoted w ++ a = str w a := by simp [str, quoted]

theorem comma_eq : ascii "," = [44] := by decide
theorem open_eq : ascii "\x7b" = [123] := by decide
theorem close_eq : ascii "\x7d" = [125] := by decide
theorem bracket_eq : ascii "[" = [91] := by decide
theorem arrayEnd_eq : ascii "]\x7d" = [93, 125] := by decide

theorem commas_cons (x : Bytes) (xs : List Bytes) : commas (x :: xs) = x ++ afterCommas xs := by
  induction xs generalizing x with
  | nil => simp [commas, afterCommas]
  | cons y ys ih =>
    have hstep : commas (x :: y :: ys) = x ++ (44 :: commas (y :: ys)) := by
      simp [commas, comma_eq]
    rw [hstep, ih]
    rfl

theorem saveColumn_eq {c : ColumnDef} (h : PlainColumn c) :
    saveColumn c = columnFront c ++ [125] := by
  unfold saveColumn columnFront
  rw [jsonEscape_of_plain h.1, jsonEscape_of_plain h.2.1, jsonEscape_of_plain h.2.2]
  by_cases hc : c.checkExpr = []
  · simp [hc, comma_eq, open_eq, close_eq, List.append_assoc, field, quoted, str]
  · simp [hc, comma_eq, open_eq, close_eq, List.append_assoc, field, quoted, str]

theorem saveTable_eq {t : TableSchema} (h : PlainTable t) :
    saveTable t = tableText t (commas (t.columns.map saveColumn) ++ [93, 125]) := by
  unfold saveTable tableText tableMid tableTail
  rw [jsonEscape_of_plain h.name, jsonEscape_of_plain h.keyColumn,
    jsonEscape_of_plain h.valueColumn]
  simp [comma_eq, open_eq, bracket_eq, arrayEnd_eq, List.append_assoc, field, quoted, str]

theorem saveIndex_eq {x : IndexDef} (h : PlainIndex x) (rest : Bytes) :
    saveIndex x ++ rest =
      123 :: (indexMid x ++ (quoted (ascii "name") ++ indexTail x rest)) := by
  unfold saveIndex indexMid indexTail
  rw [jsonEscape_of_plain h.name.1, jsonEscape_of_plain h.table.1]
  have hcols : x.columns.map jsonEscape = x.columns.map quoted :=
    List.map_congr_left fun c hc => jsonEscape_of_plain (h.columns c hc).1
  rw [hcols]
  simp [comma_eq, open_eq, bracket_eq, arrayEnd_eq, List.append_assoc, field, quoted, str]

theorem tableTail_append (t : TableSchema) (a b : Bytes) :
    tableTail t (a ++ b) = tableTail t a ++ b := by
  simp [tableTail, str]

/-! ## The walk of the reader -/

/-- From the front of `rest` on, the reader goes through these objects. -/
def Walks (rest : Bytes) (objs : List Bytes) : Prop :=
  ∀ before fuel, rest.length < fuel →
    nameObjectsFrom (before ++ rest) fuel before.length = objs

theorem Walks.nameObjects {s : Bytes} {objs : List Bytes} (h : Walks s objs) :
    nameObjects s = objs := h [] _ (Nat.lt_succ_self _)

theorem Walks.stop {rest : Bytes} (h : Misses (needle (ascii "name") []) rest) :
    Walks rest [] := by
  intro before fuel hf
  obtain ⟨fuel, rfl⟩ : ∃ f, fuel = f + 1 := ⟨fuel - 1, by omega⟩
  unfold Misses at h
  rw [nameObjectsFrom, find_length_add, quoted_eq, h]
  rfl

/-- Text in front of which no search stops changes nothing. -/
theorem Walks.skip {g rest : Bytes} {objs : List Bytes}
    (h : indexOf? (needle (ascii "name") []) (g ++ rest) =
      (indexOf? (needle (ascii "name") []) rest).map (g.length + ·)) (hw : Walks rest objs) :
    Walks (g ++ rest) objs := by
  intro before fuel hf
  obtain ⟨fuel, rfl⟩ : ∃ f, fuel = f + 1 := ⟨fuel - 1, by omega⟩
  have hrest := hw (before ++ g) (fuel + 1) (by simp at hf; omega)
  rw [nameObjectsFrom, find_length_add] at hrest ⊢
  rw [quoted_eq] at hrest ⊢
  rw [← hrest, h, List.append_assoc]
  cases indexOf? (needle (ascii "name") []) rest with
  | none => rfl
  | some i => simp [Nat.add_assoc]

theorem Walks.cons {c : UInt8} {rest : Bytes} {objs : List Bytes} (hc : c ≠ 34)
    (hw : Walks rest objs) : Walks (c :: rest) objs :=
  Walks.skip (g := [c]) (indexOf?_skip (by simpa using hc.symm)) hw

theorem Walks.str {w rest : Bytes} {c : UInt8} {objs : List Bytes} (hw : PlainText w)
    (hc : c ≠ 110) (hne : ascii "name" ≠ w) (h : Walks (c :: rest) objs) :
    Walks (str w (c :: rest)) objs := by
  have hsplit : CatalogStore.str w (c :: rest) = (34 :: (w ++ [34])) ++ c :: rest := by
    simp [CatalogStore.str]
  rw [hsplit]
  refine Walks.skip ?_ h
  rw [← hsplit, needle, CatalogStore.str, indexOf?_skip_string (by decide) hw.not_mem_quote ?_
    (fun ⟨h, _⟩ => hne h)]
  · simp
  · rw [show ascii "name" = [110, 97, 109, 101] by decide, List.cons_append, List.cons_prefix_cons]
    exact fun h => hc h.1

/-- One object: from its brace to the first closing brace behind its name. -/
theorem Walks.step {mid body rest : Bytes} {objs : List Bytes}
    (hfind : indexOf? (quoted (ascii "name"))
      (123 :: (mid ++ (quoted (ascii "name") ++ (body ++ 125 :: rest)))) = some (mid.length + 1))
    (hmid : (123 : UInt8) ∉ mid) (hbody : (125 : UInt8) ∉ body) (hw : Walks rest objs) :
    Walks (123 :: (mid ++ (quoted (ascii "name") ++ (body ++ 125 :: rest))))
      ((123 :: (mid ++ (quoted (ascii "name") ++ (body ++ [125])))) :: objs) := by
  intro before fuel hf
  obtain ⟨fuel, rfl⟩ : ∃ f, fuel = f + 1 := ⟨fuel - 1, by omega⟩
  have hstart : rfind (before ++ 123 :: (mid ++ (quoted (ascii "name") ++ (body ++ 125 :: rest))))
      123 (before.length + (mid.length + 1)) = some before.length := by
    have := @rfind_append UInt8 _ 123 34 before mid (ascii "name" ++ 34 :: (body ++ 125 :: rest))
      hmid (by decide)
    rw [Nat.add_assoc] at this
    simpa [quoted] using this
  have hq : (125 : UInt8) ∉ quoted (ascii "name") ++ body := by
    rw [List.mem_append]
    exact fun h => h.elim (by decide) hbody
  have hsplit : before ++ 123 :: (mid ++ (quoted (ascii "name") ++ (body ++ 125 :: rest))) =
      (before ++ 123 :: mid) ++ ((quoted (ascii "name") ++ body) ++ 125 :: rest) := by simp
  have hlen : before.length + (mid.length + 1) = (before ++ 123 :: mid).length := by simp
  have hend : find (before ++ 123 :: (mid ++ (quoted (ascii "name") ++ (body ++ 125 :: rest))))
      [125] (before.length + (mid.length + 1)) =
      some ((before ++ 123 :: mid).length + (quoted (ascii "name") ++ body).length) := by
    rw [hlen, hsplit, find_length_add, indexOf?_singleton_append hq]
    rfl
  have hobj : slice (before ++ 123 :: (mid ++ (quoted (ascii "name") ++ (body ++ 125 :: rest))))
      before.length ((before ++ 123 :: mid).length + (quoted (ascii "name") ++ body).length) =
      123 :: (mid ++ (quoted (ascii "name") ++ (body ++ [125]))) := by
    unfold slice
    rw [List.drop_left]
    have hs : 123 :: (mid ++ (quoted (ascii "name") ++ (body ++ 125 :: rest))) =
        (123 :: (mid ++ (quoted (ascii "name") ++ (body ++ [125])))) ++ rest := by simp
    rw [hs]
    apply List.take_left'
    simp
    omega
  have hnext := hw (before ++ 123 :: (mid ++ (quoted (ascii "name") ++ (body ++ [125])))) fuel (by
    simp at hf
    omega)
  rw [nameObjectsFrom, find_length_add, hfind]
  simp only [Option.map_some, hstart, hend, hobj]
  congr 1
  rw [← hnext]
  congr 1
  · simp
  · simp
    omega

theorem name_needle (b : Bytes) :
    indexOf? (quoted (ascii "name")) (quoted (ascii "name") ++ b) = some 0 :=
  indexOf?_self_append _ _

/-- In front of the name of a table or an index stands its id. -/
theorem indexOf?_idMid (n : Nat) (b : Bytes) :
    indexOf? (quoted (ascii "name"))
      (123 :: (str (ascii "id") (58 :: (decimal n ++ [44])) ++ (quoted (ascii "name") ++ b))) =
      some ((str (ascii "id") (58 :: (decimal n ++ [44]))).length + 1) := by
  have hmid : str (ascii "id") (58 :: (decimal n ++ [44])) ++ (quoted (ascii "name") ++ b) =
      34 :: (ascii "id" ++ 34 :: 58 :: ((decimal n ++ [44]) ++ (quoted (ascii "name") ++ b))) := by
    simp [str]
  have hnum : (34 : UInt8) ∉ 58 :: (decimal n ++ [44]) := by
    simpa using (plainText_decimal n).not_mem_quote
  have hopen : indexOf? (quoted (ascii "name")) (123 ::
      (str (ascii "id") (58 :: (decimal n ++ [44])) ++ (quoted (ascii "name") ++ b))) =
      (indexOf? (quoted (ascii "name"))
        (str (ascii "id") (58 :: (decimal n ++ [44])) ++ (quoted (ascii "name") ++ b))).map
          ([(123 : UInt8)].length + ·) :=
    indexOf?_skip (a := [123]) (by decide)
  have hid : indexOf? (quoted (ascii "name")) (34 :: (ascii "id" ++ 34 :: 58 ::
      ((decimal n ++ [44]) ++ (quoted (ascii "name") ++ b)))) =
      (indexOf? (quoted (ascii "name"))
        (58 :: ((decimal n ++ [44]) ++ (quoted (ascii "name") ++ b)))).map
          ((ascii "id").length + 2 + ·) :=
    indexOf?_skip_string (r := []) (by decide) (by decide) (by decide)
      (fun h => absurd h.1 (by decide))
  have hdec : indexOf? (quoted (ascii "name"))
      (58 :: ((decimal n ++ [44]) ++ (quoted (ascii "name") ++ b))) =
      (indexOf? (quoted (ascii "name")) (quoted (ascii "name") ++ b)).map
        ((58 :: (decimal n ++ [44])).length + ·) := indexOf?_skip hnum
  rw [hopen, hmid, hid, hdec, name_needle]
  simp [str]
  omega

theorem not_mem_open_idMid (n : Nat) :
    (123 : UInt8) ∉ str (ascii "id") (58 :: (decimal n ++ [44])) := by
  have := (plainText_decimal n).not_mem_open
  simp [str, show ascii "id" = [105, 100] by decide, this]

/-- A column is an object. -/
theorem Walks.column {c : ColumnDef} (h : PlainColumn c) {rest : Bytes} {objs : List Bytes}
    (hw : Walks rest objs) : Walks (saveColumn c ++ rest) (saveColumn c :: objs) := by
  obtain ⟨body, hbody, hb⟩ : ∃ body, (125 : UInt8) ∉ body ∧
      columnFront c = 123 :: ([] ++ (quoted (ascii "name") ++ body)) := by
    refine ⟨58 :: CatalogStore.str c.name (44 :: CatalogStore.str (ascii "type")
      (58 :: CatalogStore.str c.type (44 :: CatalogStore.str (ascii "not_null")
      (58 :: (jsonBool c.notNull ++ if c.checkExpr = [] then [] else
        44 :: CatalogStore.str (ascii "check_expr")
          (58 :: CatalogStore.str c.checkExpr [])))))), ?_, ?_⟩
    · have h1 := h.1.not_mem_brace
      have h2 := h.2.1.not_mem_brace
      have h3 := h.2.2.not_mem_brace
      have h4 := (plainText_jsonBool c.notNull).not_mem_brace
      have e1 : (125 : UInt8) ∉ ascii "type" := by decide
      have e2 : (125 : UInt8) ∉ ascii "not_null" := by decide
      have e3 : (125 : UInt8) ∉ ascii "check_expr" := by decide
      split <;> simp [CatalogStore.str, h1, h2, h3, h4, e1, e2, e3]
    · simp [columnFront, str_eq]
  have htext : saveColumn c ++ rest =
      123 :: ([] ++ (quoted (ascii "name") ++ (body ++ 125 :: rest))) := by
    rw [saveColumn_eq h, hb]
    simp
  have hobj : saveColumn c = 123 :: ([] ++ (quoted (ascii "name") ++ (body ++ [125]))) := by
    rw [saveColumn_eq h, hb]
    simp
  rw [htext, hobj]
  refine Walks.step ?_ (by simp) hbody hw
  have hskip : indexOf? (quoted (ascii "name"))
      (123 :: ([] ++ (quoted (ascii "name") ++ (body ++ 125 :: rest)))) =
      (indexOf? (quoted (ascii "name")) (quoted (ascii "name") ++ (body ++ 125 :: rest))).map
        ([(123 : UInt8)].length + ·) := indexOf?_skip (a := [123]) (by decide)
  rw [hskip, name_needle]
  rfl

theorem Walks.columns {cs : List ColumnDef} (h : ∀ c ∈ cs, PlainColumn c) {rest : Bytes}
    {objs : List Bytes} (hw : Walks rest objs) :
    Walks (afterCommas (cs.map saveColumn) ++ rest) (cs.map saveColumn ++ objs) := by
  induction cs with
  | nil => exact hw
  | cons c cs ih =>
    have ih := ih fun x hx => h x (List.mem_cons_of_mem _ hx)
    have hstep := Walks.cons (c := 44) (by decide) (Walks.column (h c List.mem_cons_self) ih)
    simpa [afterCommas] using hstep

/-- A table up to its first column is an object, and so is every further column. -/
theorem Walks.table {t : TableSchema} (h : PlainTable t) {first : ColumnDef}
    {others : List ColumnDef} (ht : t.columns = first :: others) {rest : Bytes}
    {objs : List Bytes} (hw : Walks rest objs) :
    Walks (saveTable t ++ rest) (tableObj t first :: (others.map saveColumn ++ objs)) := by
  have hcols : ∀ c ∈ first :: others, PlainColumn c := ht ▸ h.columns
  have hfirst := hcols first List.mem_cons_self
  have hbody : (125 : UInt8) ∉ tableTail t (columnFront first) := by
    have h1 := h.name.not_mem_brace
    have h2 := h.keyColumn.not_mem_brace
    have h3 := h.valueColumn.not_mem_brace
    have h4 := (plainText_decimal t.schemaVersion).not_mem_brace
    have c1 := hfirst.1.not_mem_brace
    have c2 := hfirst.2.1.not_mem_brace
    have c3 := hfirst.2.2.not_mem_brace
    have c4 := (plainText_jsonBool first.notNull).not_mem_brace
    have e1 : (125 : UInt8) ∉ ascii "key_column" := by decide
    have e2 : (125 : UInt8) ∉ ascii "value_column" := by decide
    have e3 : (125 : UInt8) ∉ ascii "schema_version" := by decide
    have e4 : (125 : UInt8) ∉ ascii "columns" := by decide
    have e5 : (125 : UInt8) ∉ ascii "name" := by decide
    have e6 : (125 : UInt8) ∉ ascii "type" := by decide
    have e7 : (125 : UInt8) ∉ ascii "not_null" := by decide
    have e8 : (125 : UInt8) ∉ ascii "check_expr" := by decide
    unfold tableTail columnFront
    split <;> simp [CatalogStore.str, *]
  have htext : saveTable t ++ rest = 123 :: (tableMid t ++ (quoted (ascii "name") ++
      (tableTail t (columnFront first) ++ 125 ::
        (afterCommas (others.map saveColumn) ++ 93 :: 125 :: rest)))) := by
    rw [saveTable_eq h, ht, List.map_cons, commas_cons, saveColumn_eq hfirst, tableText,
      List.append_assoc, List.append_assoc, tableTail_append]
    simp
  have hobj : tableObj t first = 123 :: (tableMid t ++ (quoted (ascii "name") ++
      (tableTail t (columnFront first) ++ [125]))) := by
    rw [tableObj, tableText, saveColumn_eq hfirst, tableTail_append]
  rw [htext, hobj]
  refine Walks.step (indexOf?_idMid _ _) (not_mem_open_idMid _) hbody ?_
  refine Walks.columns (fun c hc => hcols c (List.mem_cons_of_mem _ hc)) ?_
  exact (hw.cons (by decide)).cons (by decide)

/-- The objects of a table. -/
def tableObjs (t : TableSchema) : List Bytes :=
  match t.columns with
  | [] => []
  | first :: others => tableObj t first :: others.map saveColumn

theorem Walks.tables {ts : List TableSchema} (h : ∀ t ∈ ts, PlainTable t)
    (hne : ∀ t ∈ ts, t.columns ≠ []) {rest : Bytes} {objs : List Bytes} (hw : Walks rest objs) :
    Walks (afterCommas (ts.map saveTable) ++ rest) (ts.flatMap tableObjs ++ objs) := by
  induction ts with
  | nil => exact hw
  | cons t ts ih =>
    have ih := ih (fun x hx => h x (List.mem_cons_of_mem _ hx))
      fun x hx => hne x (List.mem_cons_of_mem _ hx)
    cases hc : t.columns with
    | nil => exact absurd hc (hne t List.mem_cons_self)
    | cons first others =>
      have hstep := Walks.cons (c := 44) (by decide) (Walks.table (h t List.mem_cons_self) hc ih)
      simpa [afterCommas, tableObjs, hc] using hstep

theorem Walks.index {x : IndexDef} (h : PlainIndex x) {rest : Bytes} {objs : List Bytes}
    (hw : Walks rest objs) : Walks (saveIndex x ++ rest) (saveIndex x :: objs) := by
  obtain ⟨body, hbody, hb⟩ : ∃ body, (125 : UInt8) ∉ body ∧
      ∀ r, indexTail x r = body ++ 125 :: r := by
    refine ⟨58 :: CatalogStore.str x.name (44 :: CatalogStore.str (ascii "table")
      (58 :: CatalogStore.str x.table (44 :: CatalogStore.str (ascii "unique")
      (58 :: (jsonBool x.unique ++ 44 :: CatalogStore.str (ascii "columns") (58 :: 91 ::
        (commas (x.columns.map quoted) ++ [93]))))))), ?_, fun r => by
          simp [indexTail, CatalogStore.str]⟩
    have h1 := h.name.1.not_mem_brace
    have h2 := h.table.1.not_mem_brace
    have h3 := (plainText_jsonBool x.unique).not_mem_brace
    have h4 : (125 : UInt8) ∉ commas (x.columns.map quoted) := by
      have hall : ∀ cs : List Bytes, (∀ c ∈ cs, (125 : UInt8) ∉ c) →
          (125 : UInt8) ∉ commas (cs.map quoted) := by
        intro cs hcs
        cases cs with
        | nil => simp [commas]
        | cons c cs =>
          rw [List.map_cons, commas_cons]
          simp only [List.mem_append, afterCommas, List.mem_flatMap, List.mem_map, quoted]
          rintro (hm | ⟨_, ⟨c', hc', rfl⟩, hm⟩)
          · simp [hcs c List.mem_cons_self] at hm
          · simp [hcs c' (List.mem_cons_of_mem _ hc')] at hm
      exact hall _ fun c hc => (h.columns c hc).1.not_mem_brace
    have e1 : (125 : UInt8) ∉ ascii "table" := by decide
    have e2 : (125 : UInt8) ∉ ascii "unique" := by decide
    have e3 : (125 : UInt8) ∉ ascii "columns" := by decide
    simp [CatalogStore.str, *]
  have htext := saveIndex_eq h rest
  have hobj := saveIndex_eq h []
  rw [List.append_nil] at hobj
  rw [hb] at htext hobj
  rw [htext, hobj]
  exact Walks.step (indexOf?_idMid _ _) (not_mem_open_idMid _) hbody hw

theorem Walks.indexes {xs : List IndexDef} (h : ∀ x ∈ xs, PlainIndex x) {rest : Bytes}
    {objs : List Bytes} (hw : Walks rest objs) :
    Walks (afterCommas (xs.map saveIndex) ++ rest) (xs.map saveIndex ++ objs) := by
  induction xs with
  | nil => exact hw
  | cons x xs ih =>
    have ih := ih fun y hy => h y (List.mem_cons_of_mem _ hy)
    have hstep := Walks.cons (c := 44) (by decide) (Walks.index (h x List.mem_cons_self) ih)
    simpa [afterCommas] using hstep

/-- **The objects of a saved catalog**: each table with its first column, the other columns, and
the indexes. -/
theorem nameObjects_save {c : Catalog} (h : PlainCatalog c)
    (hne : ∀ t ∈ c.tableList, t.columns ≠ []) :
    nameObjects (save c) = c.tableList.flatMap tableObjs ++ c.indexList.map saveIndex := by
  have hend : Walks (93 :: 125 :: [10]) [] :=
    ((Walks.stop Misses.nil).cons (c := 10) (by decide)).cons (by decide) |>.cons (by decide)
  have hindexes : Walks (commas (c.indexList.map saveIndex) ++ 93 :: 125 :: [10])
      (c.indexList.map saveIndex ++ []) := by
    cases hx : c.indexList with
    | nil => exact hend
    | cons x xs =>
      have hall : ∀ y ∈ x :: xs, PlainIndex y := hx ▸ h.indexes
      rw [List.map_cons, commas_cons, List.append_assoc]
      exact Walks.index (hall x List.mem_cons_self)
        (Walks.indexes (fun y hy => hall y (List.mem_cons_of_mem _ hy)) hend)
  have hmiddle : Walks (93 :: 44 :: str (ascii "indexes") (58 :: 91 ::
      (commas (c.indexList.map saveIndex) ++ 93 :: 125 :: [10])))
      (c.indexList.map saveIndex ++ []) := by
    refine ((Walks.str ?_ (by decide) (by decide) ?_).cons (by decide)).cons (by decide)
    · decide +kernel
    · exact (hindexes.cons (by decide)).cons (by decide)
  have htables : Walks (commas (c.tableList.map saveTable) ++ 93 :: 44 :: str (ascii "indexes")
      (58 :: 91 :: (commas (c.indexList.map saveIndex) ++ 93 :: 125 :: [10])))
      (c.tableList.flatMap tableObjs ++ (c.indexList.map saveIndex ++ [])) := by
    cases ht : c.tableList with
    | nil => exact hmiddle
    | cons t ts =>
      have hall : ∀ u ∈ t :: ts, PlainTable u := ht ▸ h.tables
      have hcols : ∀ u ∈ t :: ts, u.columns ≠ [] := ht ▸ hne
      cases hc : t.columns with
      | nil => exact absurd hc (hcols t List.mem_cons_self)
      | cons first others =>
        rw [List.map_cons, commas_cons, List.append_assoc]
        have hrest := Walks.tables (fun u hu => hall u (List.mem_cons_of_mem _ hu))
          (fun u hu => hcols u (List.mem_cons_of_mem _ hu)) hmiddle
        have hstep := Walks.table (hall t List.mem_cons_self) hc hrest
        simpa [tableObjs, hc] using hstep
  have htext : save c = 123 :: str (ascii "v") (58 :: 51 :: 44 :: str (ascii "tables")
      (58 :: 91 :: (commas (c.tableList.map saveTable) ++ 93 :: 44 :: str (ascii "indexes")
        (58 :: 91 :: (commas (c.indexList.map saveIndex) ++ 93 :: 125 :: [10]))))) := by
    have e1 : ascii "3," = [51, 44] := by decide
    have e2 : ascii "]," = [93, 44] := by decide
    have e3 : ascii "]\x7d\n" = [93, 125, 10] := by decide
    simp [save, open_eq, bracket_eq, e1, e2, e3, field, str]
  rw [htext]
  have hobjs : c.tableList.flatMap tableObjs ++ c.indexList.map saveIndex =
      c.tableList.flatMap tableObjs ++ (c.indexList.map saveIndex ++ []) := by simp
  rw [hobjs]
  apply Walks.nameObjects
  refine Walks.cons (by decide) (Walks.str (by decide +kernel) (by decide) (by decide) ?_)
  refine Walks.cons (by decide) (Walks.cons (by decide) (Walks.cons (by decide) ?_))
  refine Walks.str (by decide +kernel) (by decide) (by decide) ?_
  exact Walks.cons (by decide) (Walks.cons (by decide) htables)

/-! ## What the reader makes of an object -/

/-- A table is given columns even if none was read. -/
theorem loadColumns_ne_nil (obj keyCol valueCol : Bytes) : loadColumns obj keyCol valueCol ≠ [] := by
  unfold loadColumns
  cases arrayOf obj (ascii "columns") with
  | none => simp
  | some arr =>
    simp only
    split
    · simp
    · assumption

theorem not_isDigit_comma : ¬ IsDigit 44 := by decide

/-- **A table's object restores the table under its id and name**, if there is none of that
name. -/
theorem loadTable_tableObj {t : TableSchema} (h : PlainTable t) {first : ColumnDef}
    (hfirst : PlainColumn first) (c : Catalog) :
    ∃ columns, columns ≠ [] ∧ loadTable c (tableObj t first) =
      some (match c.restoreTableV2 t.id t.name columns with
        | .ok c' => c'
        | .error _ => c) := by
  have htext : tableObj t first = 123 :: str (ascii "id") (58 :: (decimal t.id.toNat ++ 44 ::
      str (ascii "name") (tableTail t (columnFront first ++ [125])))) := by
    simp [tableObj, tableText, tableMid, saveColumn_eq hfirst, str, quoted]
  have hnum := (plainText_decimal t.id.toNat).not_mem_quote
  -- the id comes first, then the name
  have hid : Finds (needle (ascii "id") [58]) (tableObj t first) (decimal t.id.toNat ++ 44 ::
      str (ascii "name") (tableTail t (columnFront first ++ [125]))) := by
    rw [htext]
    exact Finds.cons (by decide) Finds.field
  obtain ⟨rest, hname⟩ : ∃ rest, Finds (needle (ascii "name") [58]) (tableObj t first)
      (str t.name rest) := by
    rw [htext]
    refine ⟨_, Finds.cons (by decide) (Finds.str (by decide +kernel) (by decide +kernel)
      (by decide) (.inl (by decide)) (Finds.cons (by decide) (Finds.skip hnum
        (Finds.cons (by decide) Finds.field))))⟩
  have hkey : (find (tableObj t first) (quoted (ascii "key_column")) 0).isSome = true := by
    have hin : quoted (ascii "key_column") <:+: tableObj t first := by
      refine ⟨123 :: str (ascii "id") (58 :: (decimal t.id.toNat ++ 44 ::
        str (ascii "name") (58 :: str t.name [44]))), 58 :: str t.keyColumn
          (44 :: str (ascii "value_column") (58 :: str t.valueColumn
            (44 :: str (ascii "schema_version") (58 :: (decimal t.schemaVersion ++
              44 :: str (ascii "columns") (58 :: 91 :: (columnFront first ++ [125]))))))), ?_⟩
      rw [htext]
      simp [str, quoted, tableTail]
    simpa [find] using indexOf?_isSome hin
  have hnot : isIndexObject (tableObj t first) = false := by
    obtain ⟨p, hp⟩ := Option.isSome_iff_exists.1 hkey
    simp [isIndexObject, hp]
  refine ⟨loadColumns (tableObj t first)
    ((extractJsonString (tableObj t first) (ascii "key_column")).getD [])
    ((extractJsonString (tableObj t first) (ascii "value_column")).getD []),
    loadColumns_ne_nil _ _ _, ?_⟩
  unfold loadTable
  simp only [hnot, Bool.false_eq_true, if_false, extractJsonString_of hname h.name,
    extractJsonUint_of hid not_isDigit_comma]
  split <;> simp_all

/-- **A column's object restores at most a table of id zero** that is named like the column. -/
theorem loadTable_saveColumn {col : ColumnDef} (h : PlainColumn col) {c c' : Catalog}
    (hl : loadTable c (saveColumn col) = some c') :
    c' = c ∨ ∃ columns, columns ≠ [] ∧ c.restoreTableV2 0 col.name columns = .ok c' := by
  have htext : saveColumn col = 123 :: str (ascii "name") (58 :: str col.name
      (44 :: str (ascii "type") (58 :: str col.type (44 :: str (ascii "not_null")
        (58 :: (jsonBool col.notNull ++ ((if col.checkExpr = [] then [] else
          44 :: str (ascii "check_expr") (58 :: str col.checkExpr [])) ++ [125]))))))) := by
    rw [saveColumn_eq h, columnFront]
    simp [str]
  have hname : extractJsonString (saveColumn col) (ascii "name") = some col.name := by
    rw [htext]
    exact extractJsonString_of (Finds.cons (by decide) Finds.field) h.1
  have hlast : Misses (needle (ascii "id") [58]) [125] := Misses.nil.cons (by decide)
  have hcheck : Misses (needle (ascii "id") [58]) ((if col.checkExpr = [] then [] else
      44 :: str (ascii "check_expr") (58 :: str col.checkExpr [])) ++ [125]) := by
    split
    · exact hlast
    · have hstr : (44 :: str (ascii "check_expr") (58 :: str col.checkExpr [])) ++ [125] =
          44 :: str (ascii "check_expr") (58 :: str col.checkExpr [125]) := by simp [str]
      rw [hstr]
      refine Misses.cons (by decide) (Misses.str (by decide +kernel) (by decide +kernel)
        (by decide) (.inl (by decide)) (Misses.cons (by decide) ?_))
      exact Misses.str (by decide +kernel) h.2.2 (by decide) (.inr (by decide)) hlast
  have hid : extractJsonUint (saveColumn col) (ascii "id") = some 0 := by
    apply extractJsonUint_of_misses
    rw [htext]
    -- every string of the object is passed over, the values because no colon follows them
    refine Misses.cons (by decide) (Misses.str (by decide +kernel) (by decide +kernel)
      (by decide) (.inl (by decide)) (Misses.cons (by decide) ?_))
    refine Misses.str (by decide +kernel) h.1 (by decide) (.inr (by simp))
      (Misses.cons (by decide) ?_)
    refine Misses.str (by decide +kernel) (by decide +kernel) (by decide) (.inl (by decide))
      (Misses.cons (by decide) ?_)
    refine Misses.str (by decide +kernel) h.2.1 (by decide) (.inr (by simp))
      (Misses.cons (by decide) ?_)
    exact Misses.str (by decide +kernel) (by decide +kernel) (by decide) (.inl (by decide))
      (Misses.cons (by decide) (Misses.skip (plainText_jsonBool _).not_mem_quote hcheck))
  unfold loadTable at hl
  split at hl
  · cases hl
    exact .inl rfl
  · simp only [hname, hid] at hl
    split at hl
    · rename_i hr
      cases hl
      exact .inr ⟨_, loadColumns_ne_nil _ _ _, hr⟩
    · cases hl
      exact .inl rfl

/-- **An index's object restores nothing.** -/
theorem loadTable_saveIndex {x : IndexDef} (h : PlainIndex x) (c : Catalog) :
    loadTable c (saveIndex x) = some c := by
  have htext : saveIndex x = 123 :: str (ascii "id") (58 :: (decimal x.id.toNat ++ 44 ::
      str (ascii "name") (58 :: str x.name (44 :: str (ascii "table") (58 :: str x.table
        (44 :: str (ascii "unique") (58 :: (jsonBool x.unique ++ 44 :: str (ascii "columns")
          (58 :: 91 :: (commas (x.columns.map quoted) ++ [93, 125])))))))))) := by
    have := saveIndex_eq h []
    rw [List.append_nil] at this
    rw [this]
    simp [indexMid, indexTail, str, quoted]
  have htable : (find (saveIndex x) (quoted (ascii "table")) 0).isSome = true := by
    have hin : quoted (ascii "table") <:+: saveIndex x := by
      refine ⟨123 :: str (ascii "id") (58 :: (decimal x.id.toNat ++ 44 :: str (ascii "name")
        (58 :: str x.name [44]))), 58 :: str x.table (44 :: str (ascii "unique")
          (58 :: (jsonBool x.unique ++ 44 :: str (ascii "columns")
            (58 :: 91 :: (commas (x.columns.map quoted) ++ [93, 125]))))), ?_⟩
      rw [htext]
      simp [str, quoted]
    simpa [find] using indexOf?_isSome hin
  have hcolumns : (find (saveIndex x) (quoted (ascii "columns")) 0).isSome = true := by
    have hin : quoted (ascii "columns") <:+: saveIndex x := by
      refine ⟨123 :: str (ascii "id") (58 :: (decimal x.id.toNat ++ 44 :: str (ascii "name")
        (58 :: str x.name (44 :: str (ascii "table") (58 :: str x.table (44 :: str
          (ascii "unique") (58 :: (jsonBool x.unique ++ [44])))))))),
        58 :: 91 :: (commas (x.columns.map quoted) ++ [93, 125]), ?_⟩
      rw [htext]
      simp [str, quoted]
    simpa [find] using indexOf?_isSome hin
  have hend : Misses (needle (ascii "key_column") []) [93, 125] :=
    (Misses.nil.cons (by decide)).cons (by decide)
  have hstrings : ∀ (cs : List Bytes) (c : Bytes),
      (∀ y ∈ c :: cs, PlainText y ∧ y ≠ ascii "key_column") →
      Misses (needle (ascii "key_column") []) (quoted c ++ (afterCommas (cs.map quoted) ++
        [93, 125])) := by
    intro cs
    induction cs with
    | nil =>
      intro c hcs
      obtain ⟨hc, hne⟩ := hcs c List.mem_cons_self
      rw [str_eq]
      exact Misses.str (by decide +kernel) hc (by decide) (.inl hne.symm) hend
    | cons c' cs ih =>
      intro c hcs
      obtain ⟨hc, hne⟩ := hcs c List.mem_cons_self
      have hrest := ih c' fun y hy => hcs y (List.mem_cons_of_mem _ hy)
      rw [str_eq]
      have hcomma : afterCommas ((c' :: cs).map quoted) ++ [93, 125] =
          44 :: (quoted c' ++ (afterCommas (cs.map quoted) ++ [93, 125])) := by
        simp [afterCommas]
      rw [hcomma]
      exact Misses.str (by decide +kernel) hc (by decide) (.inl hne.symm)
        (Misses.cons (by decide) hrest)
  have hlist : Misses (needle (ascii "key_column") [])
      (commas (x.columns.map quoted) ++ [93, 125]) := by
    cases hx : x.columns with
    | nil => exact hend
    | cons c cs =>
      rw [List.map_cons, commas_cons, List.append_assoc]
      exact hstrings cs c (hx ▸ h.columns)
  have hkey : find (saveIndex x) (quoted (ascii "key_column")) 0 = none := by
    refine Misses.isNone (k := ascii "key_column") (r := []) ?_ _ (quoted_eq _)
    rw [htext]
    refine Misses.cons (by decide) (Misses.str (by decide +kernel) (by decide +kernel)
      (by decide) (.inl (by decide)) (Misses.cons (by decide) (Misses.skip
        (plainText_decimal _).not_mem_quote (Misses.cons (by decide) ?_))))
    refine Misses.str (by decide +kernel) (by decide +kernel) (by decide) (.inl (by decide))
      (Misses.cons (by decide) ?_)
    refine Misses.str (by decide +kernel) h.name.1 (by decide) (.inl h.name.2.symm)
      (Misses.cons (by decide) ?_)
    refine Misses.str (by decide +kernel) (by decide +kernel) (by decide) (.inl (by decide))
      (Misses.cons (by decide) ?_)
    refine Misses.str (by decide +kernel) h.table.1 (by decide) (.inl h.table.2.symm)
      (Misses.cons (by decide) ?_)
    refine Misses.str (by decide +kernel) (by decide +kernel) (by decide) (.inl (by decide))
      (Misses.cons (by decide) (Misses.skip (plainText_jsonBool _).not_mem_quote
        (Misses.cons (by decide) ?_)))
    exact Misses.str (by decide +kernel) (by decide +kernel) (by decide) (.inl (by decide))
      (Misses.cons (by decide) (Misses.cons (by decide) hlist))
  obtain ⟨p, hp⟩ := Option.isSome_iff_exists.1 htable
  obtain ⟨q, hq⟩ := Option.isSome_iff_exists.1 hcolumns
  have hindex : isIndexObject (saveIndex x) = true := by
    simp [isIndexObject, hp, hq, hkey]
  unfold loadTable
  rw [if_pos hindex]

end EBTree.Sql.CatalogStore
