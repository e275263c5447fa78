import EBTree.Sql.SetOps

/-!
# Set operations against sets of rows

What SQL says of the four operations (`Means`), on rows of all projected columns, against what
`ExecSetOp` makes of the records of two fields.

* `setOp_correct_iff`: **where the two fields show the projected columns under their names, the
  result is right exactly when no two rows that differ have one signature and, for INTERSECT and
  EXCEPT, no row of the left side is returned twice** (`Separated`).
* `union_compares_second_column`: `SELECT a, b ... UNION SELECT a, b ...` compares `b` alone and
  returns it twice.
-/

set_option autoImplicit false

namespace EBTree.Sql

open Lib

/-! ## What is meant -/

/-- The projected rows an operation is to return, for those of the two sides. -/
def Means (op : SetOpKind) (all : Bool) (l r ts : List (List Bytes)) : Prop :=
  match op with
  | .kUnion => if all then ts.Perm (l ++ r) else ts.Nodup ∧ ∀ t, t ∈ ts ↔ t ∈ l ∨ t ∈ r
  | .kIntersect => ts.Nodup ∧ ∀ t, t ∈ ts ↔ t ∈ l ∧ t ∈ r
  | .kExcept => ts.Nodup ∧ ∀ t, t ∈ ts ↔ t ∈ l ∧ t ∉ r

/-- The records returned are those of the rows that are meant, in some order. -/
def SetOpCorrect (op : SetOpKind) (all : Bool) (leftCols : List Bytes) (l r : List ResultRow) :
    Prop :=
  ∃ ts, Means op all (l.map (·.columns)) (r.map (·.columns)) ts ∧
    (execSetOp op all leftCols (l.map (·.row)) (r.map (·.row))).Perm (ts.map shownRow)

/-- The rows that the two fields of a record are made into again. -/
def signature (leftCols : List Bytes) (x : ResultRow) : Bytes :=
  rowSignature (rowFields x.row) (comparedCols leftCols)

/-- The record shows the first two columns of its row, and looking the left side's names up in it
gives the record again. -/
structure Shows (leftCols : List Bytes) (x : ResultRow) : Prop where
  shown : x.row = shownRow x.columns
  named : setOpRow (comparedCols leftCols) (rowFields x.row) = x.row

/-- Rows that differ have different signatures, as far as the operation depends on it, and no row
comes up twice on the left. -/
def Separated (op : SetOpKind) (all : Bool) (leftCols : List Bytes) (l r : List ResultRow) : Prop :=
  match op with
  | .kUnion => all = true ∨ ∀ x ∈ l ++ r, ∀ y ∈ l ++ r,
      signature leftCols x = signature leftCols y → x.columns = y.columns
  | .kIntersect =>
    (∀ x ∈ l, ∀ y ∈ r, signature leftCols x = signature leftCols y →
      x.columns ∈ r.map (·.columns)) ∧
    ((l.filter fun x => x.columns ∈ r.map (·.columns)).map (·.columns)).Nodup
  | .kExcept =>
    (∀ x ∈ l, ∀ y ∈ r, signature leftCols x = signature leftCols y →
      x.columns ∈ r.map (·.columns)) ∧
    ((l.filter fun x => x.columns ∉ r.map (·.columns)).map (·.columns)).Nodup

/-! ## Rows that are kept -/

section

variable {leftCols : List Bytes} {l r : List ResultRow}

theorem signature_eq_of_columns {x y : ResultRow} (hx : Shows leftCols x) (hy : Shows leftCols y)
    (h : x.columns = y.columns) : signature leftCols x = signature leftCols y := by
  rw [signature, signature, hx.shown, hy.shown, h]

/-- The records of rows that are shown. -/
theorem map_setOpRow {m : List ResultRow} (h : ∀ x ∈ m, Shows leftCols x) :
    (m.map fun x => setOpRow (comparedCols leftCols) (rowFields x.row)) =
      (m.map (·.columns)).map shownRow := by
  rw [List.map_map]
  refine List.map_congr_left fun x hx => ?_
  rw [(h x hx).named, (h x hx).shown]
  rfl

/-- What INTERSECT and EXCEPT return, the rows of the left side kept by some test. -/
theorem filter_rows (p : Bytes → Bool) :
    ((((l.map (·.row)).map rowFields).filter fun x =>
        p (rowSignature x (comparedCols leftCols))).map
      (setOpRow (comparedCols leftCols))) =
      (l.filter fun x => p (signature leftCols x)).map fun x =>
        setOpRow (comparedCols leftCols) (rowFields x.row) := by
  rw [List.map_map, List.filter_map, List.map_map]
  rfl

/-- Distinct rows that all come up in `m`, as many as `m` has: `m` has no row twice. -/
theorem perm_of_subset {ts m : List (List Bytes)} (hts : ts.Nodup) (hsub : ts ⊆ m)
    (hlen : ts.length = m.length) : ts.Perm m :=
  (List.subperm_of_subset hts hsub).perm_of_length_le hlen.ge

/-- The signature of a row on the right. -/
theorem mem_signatures {s : Bytes} :
    (((r.map (·.row)).map rowFields).map (rowSignature · (comparedCols leftCols))).contains s =
      true ↔ ∃ y ∈ r, signature leftCols y = s := by
  rw [List.contains_iff_mem, List.map_map, List.map_map, List.mem_map]
  rfl

/-! ## The operations -/

theorem unionAll_correct (h : ∀ x ∈ l ++ r, Shows leftCols x) :
    SetOpCorrect .kUnion true leftCols l r := by
  refine ⟨(l ++ r).map (·.columns), by simp [Means], ?_⟩
  rw [← map_setOpRow h]
  simp only [execSetOp, mergeRows, if_true, List.map_append, List.map_map]
  exact List.Perm.refl _

/-- INTERSECT: the rows kept are those whose signature comes up on the right. -/
theorem intersect_correct_iff (all : Bool) (h : ∀ x ∈ l ++ r, Shows leftCols x) :
    SetOpCorrect .kIntersect all leftCols l r ↔ Separated .kIntersect all leftCols l r := by
  have hl : ∀ x ∈ l, Shows leftCols x := fun x hx => h x (List.mem_append_left _ hx)
  have hr : ∀ x ∈ r, Shows leftCols x := fun x hx => h x (List.mem_append_right _ hx)
  obtain ⟨kept, hkept⟩ : ∃ kept, kept = l.filter fun x =>
      (((r.map (·.row)).map rowFields).map (rowSignature · (comparedCols leftCols))).contains
        (signature leftCols x) := ⟨_, rfl⟩
  have hmem : ∀ x, x ∈ kept ↔ x ∈ l ∧ ∃ y ∈ r, signature leftCols y = signature leftCols x := by
    intro x
    rw [hkept, List.mem_filter, mem_signatures]
  have hout : execSetOp .kIntersect all leftCols (l.map (·.row)) (r.map (·.row)) =
      (kept.map (·.columns)).map shownRow := by
    rw [← map_setOpRow fun x hx => hl x ((hmem x).1 hx).1, hkept]
    exact filter_rows _
  -- with the right signatures the rows kept are those that are on the right
  have hsame : (∀ x ∈ l, ∀ y ∈ r, signature leftCols x = signature leftCols y →
      x.columns ∈ r.map (·.columns)) →
      (l.filter fun x => x.columns ∈ r.map (·.columns)) = kept := by
    intro hsep
    rw [hkept]
    refine List.filter_congr fun x hx => ?_
    rw [Bool.eq_iff_iff, mem_signatures, decide_eq_true_iff]
    constructor
    · intro hc
      obtain ⟨y, hy, hxy⟩ := List.mem_map.1 hc
      exact ⟨y, hy, signature_eq_of_columns (hr y hy) (hl x hx) hxy⟩
    · rintro ⟨y, hy, hxy⟩
      exact hsep x hx y hy hxy.symm
  rw [SetOpCorrect, hout]
  constructor
  · rintro ⟨ts, ⟨hnodup, hts⟩, hperm⟩
    have hsub : ts ⊆ kept.map (·.columns) := by
      intro t ht
      obtain ⟨htl, htr⟩ := (hts t).1 ht
      obtain ⟨x, hx, rfl⟩ := List.mem_map.1 htl
      obtain ⟨y, hy, hxy⟩ := List.mem_map.1 htr
      exact List.mem_map_of_mem
        ((hmem x).2 ⟨hx, y, hy, signature_eq_of_columns (hr y hy) (hl x hx) hxy⟩)
    have hlen : ts.length = (kept.map (·.columns)).length := by
      simpa using hperm.length_eq.symm
    have hall := perm_of_subset hnodup hsub hlen
    have hsep : ∀ x ∈ l, ∀ y ∈ r, signature leftCols x = signature leftCols y →
        x.columns ∈ r.map (·.columns) := by
      intro x hx y hy hxy
      have hk := (hmem x).2 ⟨hx, y, hy, hxy.symm⟩
      exact ((hts _).1 (hall.mem_iff.2 (List.mem_map_of_mem hk))).2
    refine ⟨hsep, ?_⟩
    rw [hsame hsep]
    exact hall.nodup_iff.1 hnodup
  · rintro ⟨hsep, hnodup⟩
    rw [hsame hsep] at hnodup
    refine ⟨kept.map (·.columns), ⟨hnodup, fun t => ?_⟩, List.Perm.refl _⟩
    rw [← hsame hsep, List.mem_map]
    constructor
    · rintro ⟨x, hx, rfl⟩
      obtain ⟨hxl, hxr⟩ := List.mem_filter.1 hx
      exact ⟨List.mem_map_of_mem hxl, by simpa using hxr⟩
    · rintro ⟨htl, htr⟩
      obtain ⟨x, hx, rfl⟩ := List.mem_map.1 htl
      exact ⟨x, List.mem_filter.2 ⟨hx, decide_eq_true htr⟩, rfl⟩

/-- EXCEPT: the rows kept are those whose signature does not come up on the right. -/
theorem except_correct_iff (all : Bool) (h : ∀ x ∈ l ++ r, Shows leftCols x) :
    SetOpCorrect .kExcept all leftCols l r ↔ Separated .kExcept all leftCols l r := by
  have hl : ∀ x ∈ l, Shows leftCols x := fun x hx => h x (List.mem_append_left _ hx)
  have hr : ∀ x ∈ r, Shows leftCols x := fun x hx => h x (List.mem_append_right _ hx)
  obtain ⟨kept, hkept⟩ : ∃ kept, kept = l.filter fun x =>
      !(((r.map (·.row)).map rowFields).map (rowSignature · (comparedCols leftCols))).contains
        (signature leftCols x) := ⟨_, rfl⟩
  have hmem : ∀ x, x ∈ kept ↔
      x ∈ l ∧ ¬ ∃ y ∈ r, signature leftCols y = signature leftCols x := by
    intro x
    rw [hkept, List.mem_filter, Bool.not_eq_true', ← Bool.not_eq_true, mem_signatures]
  have hout : execSetOp .kExcept all leftCols (l.map (·.row)) (r.map (·.row)) =
      (kept.map (·.columns)).map shownRow := by
    rw [← map_setOpRow fun x hx => hl x ((hmem x).1 hx).1, hkept]
    exact filter_rows fun s => !_
  -- with the right signatures the rows kept are those that are not on the right
  have hsame : (∀ x ∈ l, ∀ y ∈ r, signature leftCols x = signature leftCols y →
      x.columns ∈ r.map (·.columns)) →
      (l.filter fun x => x.columns ∉ r.map (·.columns)) = kept := by
    intro hsep
    rw [hkept]
    refine List.filter_congr fun x hx => ?_
    rw [Bool.eq_iff_iff, Bool.not_eq_true', ← Bool.not_eq_true, mem_signatures,
      decide_eq_true_iff]
    refine not_congr ⟨fun hc => ?_, ?_⟩
    · obtain ⟨y, hy, hxy⟩ := List.mem_map.1 hc
      exact ⟨y, hy, signature_eq_of_columns (hr y hy) (hl x hx) hxy⟩
    · rintro ⟨y, hy, hxy⟩
      exact hsep x hx y hy hxy.symm
  rw [SetOpCorrect, hout]
  constructor
  · rintro ⟨ts, ⟨hnodup, hts⟩, hperm⟩
    have hsep : ∀ x ∈ l, ∀ y ∈ r, signature leftCols x = signature leftCols y →
        x.columns ∈ r.map (·.columns) := by
      intro x hx y hy hxy
      by_contra hout
      -- the row is meant, so its record is returned, under its signature
      have hts' := (hts _).2 ⟨List.mem_map_of_mem hx, hout⟩
      have hrec : shownRow x.columns ∈ (kept.map (·.columns)).map shownRow :=
        hperm.mem_iff.2 (List.mem_map_of_mem hts')
      rw [List.map_map] at hrec
      obtain ⟨z, hz, hzx⟩ := List.mem_map.1 hrec
      obtain ⟨hzl, hno⟩ := (hmem z).1 hz
      refine hno ⟨y, hy, ?_⟩
      have hrow : z.row = x.row := by
        rw [(hl z hzl).shown, (hl x hx).shown]
        exact hzx
      rw [← hxy, signature, signature, hrow]
    refine ⟨hsep, ?_⟩
    rw [hsame hsep]
    have hsub : ts ⊆ kept.map (·.columns) := by
      intro t ht
      obtain ⟨htl, htr⟩ := (hts t).1 ht
      obtain ⟨x, hx, rfl⟩ := List.mem_map.1 htl
      rw [← hsame hsep]
      exact List.mem_map_of_mem (List.mem_filter.2 ⟨hx, decide_eq_true htr⟩)
    have hlen : ts.length = (kept.map (·.columns)).length := by
      simpa using hperm.length_eq.symm
    exact (perm_of_subset hnodup hsub hlen).nodup_iff.1 hnodup
  · rintro ⟨hsep, hnodup⟩
    rw [hsame hsep] at hnodup
    refine ⟨kept.map (·.columns), ⟨hnodup, fun t => ?_⟩, List.Perm.refl _⟩
    rw [← hsame hsep, List.mem_map]
    constructor
    · rintro ⟨x, hx, rfl⟩
      obtain ⟨hxl, hxr⟩ := List.mem_filter.1 hx
      exact ⟨List.mem_map_of_mem hxl, by simpa using hxr⟩
    · rintro ⟨htl, htr⟩
      obtain ⟨x, hx, rfl⟩ := List.mem_map.1 htl
      exact ⟨x, List.mem_filter.2 ⟨hx, decide_eq_true htr⟩, rfl⟩

/-- Every element of a list has an origin: the list is a map of origins. -/
theorem exists_map_eq {α β : Type} {f : α → β} {xs : List α} {es : List β}
    (h : ∀ e ∈ es, ∃ x ∈ xs, f x = e) : ∃ ys : List α, (∀ y ∈ ys, y ∈ xs) ∧ ys.map f = es := by
  induction es with
  | nil => exact ⟨[], by simp, rfl⟩
  | cons e es ih =>
    obtain ⟨x, hx, rfl⟩ := h e List.mem_cons_self
    obtain ⟨ys, hys, rfl⟩ := ih fun e he => h e (List.mem_cons_of_mem _ he)
    exact ⟨x :: ys, by simpa [hx] using hys, rfl⟩

/-- A key that is put in is found. -/
theorem find?_insertAll_isSome {m : SortedMap Bytes Fields} {es : List (Bytes × Fields)}
    {k : Bytes} (h : k ∈ es.map (·.1) ∨ (m.find? k).isSome) :
    ((m.insertAll es).find? k).isSome := by
  induction es generalizing m with
  | nil => exact h.resolve_left (by simp)
  | cons e es ih =>
    refine ih ?_
    rw [SortedMap.find?_insert]
    rcases h with h | h
    · rcases List.mem_cons.1 h with rfl | h
      · exact .inr (by simp)
      · exact .inl h
    · right
      split
      · rfl
      · exact h

/-- UNION: one row for each signature. -/
theorem union_rows (xs : List ResultRow) :
    ∃ ys : List ResultRow, (∀ y ∈ ys, y ∈ xs) ∧ (ys.map (signature leftCols)).Nodup ∧
      (∀ x ∈ xs, ∃ y ∈ ys, signature leftCols y = signature leftCols x) ∧
      (SortedMap.empty.insertAll (((xs.map (·.row)).map rowFields).map fun r =>
        (rowSignature r (comparedCols leftCols), r))).entries.map (·.2) =
        ys.map fun y => rowFields y.row := by
  obtain ⟨m, hm⟩ : ∃ m, m = SortedMap.empty.insertAll (((xs.map (·.row)).map rowFields).map
    fun r => (rowSignature r (comparedCols leftCols), r)) := ⟨_, rfl⟩
  have hentry : ∀ e ∈ m.entries, ∃ x ∈ xs,
      (fun x : ResultRow => (signature leftCols x, rowFields x.row)) x = e := by
    intro e he
    have hfind := SortedMap.mem_entries_iff.1 he
    rw [hm] at hfind
    have he := (SortedMap.mem_of_find?_insertAll hfind).resolve_left (by simp)
    rw [List.map_map, List.map_map, List.mem_map] at he
    exact he
  obtain ⟨ys, hys, hmap⟩ := exists_map_eq hentry
  have hkeys : m.entries.map (·.1) = ys.map (signature leftCols) := by
    rw [← hmap, List.map_map]
    rfl
  refine ⟨ys, hys, ?_, ?_, ?_⟩
  · rw [← hkeys]
    have hsorted := List.pairwise_map.2 m.sorted
    exact hsorted.imp fun h => ne_of_lt h
  · intro x hx
    have hsome : (m.find? (signature leftCols x)).isSome := by
      rw [hm]
      refine find?_insertAll_isSome (.inl ?_)
      rw [List.map_map, List.map_map, List.map_map]
      exact List.mem_map_of_mem (f := signature leftCols) hx
    obtain ⟨f, hf⟩ := Option.isSome_iff_exists.1 hsome
    have hmem := List.mem_map_of_mem (f := (·.1)) (SortedMap.mem_entries_iff.2 hf)
    rw [hkeys] at hmem
    exact List.mem_map.1 hmem
  · rw [← hm, ← hmap, List.map_map]
    rfl

theorem union_correct_iff (h : ∀ x ∈ l ++ r, Shows leftCols x) :
    SetOpCorrect .kUnion false leftCols l r ↔ Separated .kUnion false leftCols l r := by
  obtain ⟨ys, hys, hnodup, hcover, hrows⟩ := @union_rows leftCols (l ++ r)
  have hshows : ∀ y ∈ ys, Shows leftCols y := fun y hy => h y (hys y hy)
  have hout : execSetOp .kUnion false leftCols (l.map (·.row)) (r.map (·.row)) =
      (ys.map (·.columns)).map shownRow := by
    rw [← map_setOpRow hshows]
    rw [List.map_append, List.map_append] at hrows
    simp only [execSetOp, mergeRows, Bool.false_eq_true, if_false, hrows]
    rw [List.map_map]
    rfl
  have hmeans : ∀ t, (t ∈ l.map (·.columns) ∨ t ∈ r.map (·.columns)) ↔
      ∃ x ∈ l ++ r, x.columns = t := by
    intro t
    rw [← List.mem_append, ← List.map_append, List.mem_map]
  rw [SetOpCorrect, hout]
  constructor
  · rintro ⟨ts, ⟨-, hts⟩, hperm⟩
    refine .inr fun x hx y hy hxy => ?_
    -- the signatures of the records returned are distinct, so those of the rows that are meant are
    have hsig : (ts.map fun t =>
        rowSignature (rowFields (shownRow t)) (comparedCols leftCols)).Nodup := by
      have hp := hperm.map fun sr => rowSignature (rowFields sr) (comparedCols leftCols)
      rw [List.map_map, List.map_map, List.map_map] at hp
      refine hp.nodup_iff.1 ?_
      have hsame : ys.map (((fun sr => rowSignature (rowFields sr) (comparedCols leftCols)) ∘
          shownRow) ∘ fun y => y.columns) = ys.map (signature leftCols) :=
        List.map_congr_left fun y hy => by
          rw [signature, (hshows y hy).shown]
          rfl
      rw [hsame]
      exact hnodup
    refine List.inj_on_of_nodup_map hsig ((hts _).2 ((hmeans _).2 ⟨x, hx, rfl⟩))
      ((hts _).2 ((hmeans _).2 ⟨y, hy, rfl⟩)) ?_
    rw [← (h x hx).shown, ← (h y hy).shown]
    exact hxy
  · rintro (hall | hsep)
    · cases hall
    refine ⟨ys.map (·.columns), ⟨?_, fun t => ?_⟩, List.Perm.refl _⟩
    · refine List.Nodup.map_on (fun x hx y hy hxy => ?_) (List.Nodup.of_map _ hnodup)
      exact List.inj_on_of_nodup_map hnodup hx hy
        (signature_eq_of_columns (hshows x hx) (hshows y hy) hxy)
    · rw [hmeans, List.mem_map]
      constructor
      · rintro ⟨y, hy, rfl⟩
        exact ⟨y, hys y hy, rfl⟩
      · rintro ⟨x, hx, rfl⟩
        obtain ⟨y, hy, hxy⟩ := hcover x hx
        exact ⟨y, hy, hsep y (hys y hy) x hx hxy⟩

/-- **When the set operations are right.** -/
theorem setOp_correct_iff (op : SetOpKind) (all : Bool)
    (h : ∀ x ∈ l ++ r, Shows leftCols x) :
    SetOpCorrect op all leftCols l r ↔ Separated op all leftCols l r := by
  cases op with
  | kUnion =>
    cases all with
    | true => exact iff_of_true (unionAll_correct h) (.inl rfl)
    | false => exact union_correct_iff h
  | kIntersect => exact intersect_correct_iff all h
  | kExcept => exact except_correct_iff all h

end

/-! ## Two columns with names of their own -/

/-- A row with columns `a` and `b`. -/
def rowAB (a b : String) : Fields :=
  (SortedMap.empty.insert (ascii "a") (ascii a)).insert (ascii "b") (ascii b)

/-- **`b` alone is compared, and returned twice**: `SELECT a, b` over a row (1, 9), united with
`SELECT a, b` over a row (2, 9), gives one row (9, 9). -/
theorem union_compares_second_column :
    execSetOp .kUnion false [ascii "a", ascii "b"]
        [(selectColumns [ascii "a", ascii "b"] (rowAB "1" "9")).row]
        [(selectColumns [ascii "a", ascii "b"] (rowAB "2" "9")).row] =
        [⟨ascii "9", ascii "9"⟩] ∧
      ¬ SetOpCorrect .kUnion false [ascii "a", ascii "b"]
        [selectColumns [ascii "a", ascii "b"] (rowAB "1" "9")]
        [selectColumns [ascii "a", ascii "b"] (rowAB "2" "9")] := by
  have hout : execSetOp .kUnion false [ascii "a", ascii "b"]
      [(selectColumns [ascii "a", ascii "b"] (rowAB "1" "9")).row]
      [(selectColumns [ascii "a", ascii "b"] (rowAB "2" "9")).row] =
      [⟨ascii "9", ascii "9"⟩] := by decide +kernel
  refine ⟨hout, ?_⟩
  rintro ⟨ts, ⟨-, hts⟩, hperm⟩
  have hmem := (hts [ascii "1", ascii "9"]).2 (.inl (by decide +kernel))
  have hrow := hperm.mem_iff.2 (List.mem_map_of_mem (f := shownRow) hmem)
  simp only [List.map_cons, List.map_nil] at hrow
  rw [hout, List.mem_singleton] at hrow
  exact absurd hrow (by decide +kernel)

/-- A row with columns `key` and `value`. -/
def rowKV (key value : String) : Fields :=
  (SortedMap.empty.insert (ascii "key") (ascii key)).insert (ascii "value") (ascii value)

/-- The equivalence for a UNION of columns `key` and `value`. -/
theorem union_key_value :
    SetOpCorrect .kUnion false [ascii "key", ascii "value"]
        [selectColumns [ascii "key", ascii "value"] (rowKV "1" "9")]
        [selectColumns [ascii "key", ascii "value"] (rowKV "2" "9")] ↔
      Separated .kUnion false [ascii "key", ascii "value"]
        [selectColumns [ascii "key", ascii "value"] (rowKV "1" "9")]
        [selectColumns [ascii "key", ascii "value"] (rowKV "2" "9")] := by
  refine setOp_correct_iff .kUnion false fun x hx => ?_
  simp only [List.mem_append, List.mem_singleton] at hx
  rcases hx with rfl | rfl
  · exact ⟨by decide +kernel, by decide +kernel⟩
  · exact ⟨by decide +kernel, by decide +kernel⟩

end EBTree.Sql
