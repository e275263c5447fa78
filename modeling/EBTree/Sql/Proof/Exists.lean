import EBTree.Sql.Subquery

/-!
# EXISTS

What `ExistsMatch` gives is compared with the inner table's rows gone through (`enumerateExists`).
Without the shortcut the two are one unless the rows exceed their budget; with it they are where
the outer row alone has equal texts exactly if some inner row is taken (`exists_iff`). No query
with the shortcut is right on every table.
-/

set_option autoImplicit false

namespace EBTree.Sql

open Lib Engine

variable {rt : Runtime}

/-- The truth of an EXISTS by the rows of the inner table. -/
def enumerateExists (ctx : RunnerContext) (q : InnerQuery rt) (outerRow : Fields) (level : Nat) :
    Bool :=
  match ctx.listRows q.fromTable with
  | .error _ => false
  | .ok rows => rows.any (q.takes level outerRow)

/-- The rows of the inner table are within the budget of the runner. -/
def WithinBudget (ctx : RunnerContext) (fromTable : Bytes) : Prop :=
  ∀ rows, ctx.listRows fromTable = .ok rows → checkRowBudget rows.length ctx.maxPages = .ok ()

/-- When an EXISTS is what its rows say: the rows are within the budget, or none is taken; or, where
the shortcut is, the outer row alone has equal texts exactly if some row is taken. -/
def ExistsFits (ctx : RunnerContext) (q : InnerQuery rt) (outerRow : Fields) (level : Nat) : Prop :=
  let taken := ∃ rows, ctx.listRows q.fromTable = .ok rows ∧ ∃ r ∈ rows, q.takes level outerRow r
  match q.shortcut level with
  | none => WithinBudget ctx q.fromTable ∨ ¬ taken
  | some sides => evalCorrelatedEq sides outerRow ↔ taken

theorem enumerateExists_iff (ctx : RunnerContext) (q : InnerQuery rt) (outerRow : Fields)
    (level : Nat) : enumerateExists ctx q outerRow level = true ↔
      ∃ rows, ctx.listRows q.fromTable = .ok rows ∧ ∃ r ∈ rows, q.takes level outerRow r := by
  unfold enumerateExists
  cases ctx.listRows q.fromTable <;> simp

/-- Without the shortcut the rows are gone through, or are too many. -/
theorem existsMatch_scan {ctx : RunnerContext} {q : InnerQuery rt} {outerRow : Fields}
    {level : Nat} (hlevel : level < kMaxSubqueryDepth) (h : q.shortcut level = none) :
    (existsMatch ctx q outerRow level = enumerateExists ctx q outerRow level ∧
        WithinBudget ctx q.fromTable) ∨
      (existsMatch ctx q outerRow level = false ∧ ¬ WithinBudget ctx q.fromTable) := by
  simp only [existsMatch, if_neg (Nat.not_le.2 hlevel), h, RunnerContext.innerRows,
    enumerateExists, WithinBudget]
  cases hrows : ctx.listRows q.fromTable with
  | error e => simp
  | ok rows =>
    cases hb : checkRowBudget rows.length ctx.maxPages with
    | ok u => simp [hb]
    | error e => simp [hb]

theorem existsMatch_shortcut {ctx : RunnerContext} {q : InnerQuery rt} {outerRow : Fields}
    {level : Nat} {sides : ExprNode rt × ExprNode rt} (hlevel : level < kMaxSubqueryDepth)
    (h : q.shortcut level = some sides) :
    existsMatch ctx q outerRow level = evalCorrelatedEq sides outerRow := by
  simp only [existsMatch, if_neg (Nat.not_le.2 hlevel), h]

theorem existsMatch_eq_iff {ctx : RunnerContext} {q : InnerQuery rt} {outerRow : Fields}
    {level : Nat} (hlevel : level < kMaxSubqueryDepth) :
    existsMatch ctx q outerRow level = enumerateExists ctx q outerRow level ↔
      ExistsFits ctx q outerRow level := by
  have henum := enumerateExists_iff ctx q outerRow level
  cases h : q.shortcut level with
  | none =>
    simp only [ExistsFits, h, ← henum]
    obtain ⟨heq, hb⟩ | ⟨heq, hb⟩ := @existsMatch_scan rt ctx _ outerRow _ hlevel h
    · simp [heq, hb]
    · rw [heq]
      cases enumerateExists ctx q outerRow level <;> simp [hb]
  | some sides =>
    simp only [ExistsFits, h, ← henum, existsMatch_shortcut hlevel h]
    exact Bool.eq_iff_iff

/-! ## Queries with the shortcut -/

/-- No table is stored, and every name is a WITH without rows. -/
def noRows (s : ShardEngine) : RunnerContext := ⟨s, .empty, fun _ => some [], none⟩

theorem lookupColumn_of_mem {row : Fields} {v : Bytes} (hall : ∀ c w, row.find? c = some w → w = v)
    (t : Bytes) {c : Bytes} (hc : row.find? c = some v) : lookupColumn t c row = v := by
  unfold lookupColumn
  simp only [hc]
  split
  · simp
  · cases hq : row.find? (t ++ 46 :: c) with
    | none => simp
    | some w => simp [hall _ _ hq]

theorem simpleCorrelatedEq_columns {e : ExprNode rt} {sides : ExprNode rt × ExprNode rt}
    (h : simpleCorrelatedEq e = some sides) :
    ∃ t c b t' c' b', sides = (.column t c b, .column t' c' b') := by
  unfold simpleCorrelatedEq at h
  split at h
  · rename_i t c b t' c' b' _
    exact ⟨t, c, b, t', c', b', (Option.some.inj h).symm⟩
  · cases h

/-- Some outer row has equal texts for the two columns. -/
theorem exists_correlated {e : ExprNode rt} {sides : ExprNode rt × ExprNode rt}
    (h : simpleCorrelatedEq e = some sides) : ∃ row, evalCorrelatedEq sides row = true := by
  obtain ⟨t, c, b, t', c', b', rfl⟩ := simpleCorrelatedEq_columns h
  let row : Fields := (SortedMap.empty.insert c (ascii "1")).insert c' (ascii "1")
  have hall : ∀ x w, row.find? x = some w → w = ascii "1" := by
    intro x w hx
    simp only [row, SortedMap.find?_insert, SortedMap.find?_empty] at hx
    split at hx
    · exact (Option.some.inj hx).symm
    · split at hx
      · exact (Option.some.inj hx).symm
      · cases hx
  have hc : row.find? c = some (ascii "1") := by
    simp only [row, SortedMap.find?_insert]
    split <;> simp
  have hc' : row.find? c' = some (ascii "1") := by simp [row]
  have hone : (@SqlValue.ofBytes rt (ascii "1")).toBytes = ascii "1" := by
    have hint : isIntegerText (ascii "1") = true := by decide
    have hrange : outOfRange (ascii "1") = false := by decide
    rw [SqlValue.ofBytes, if_neg (by decide), if_pos hint, if_neg (by simp [hrange])]
    change signedDecimal (strtoll (ascii "1")) = ascii "1"
    decide
  refine ⟨row, ?_⟩
  simp only [evalCorrelatedEq, evalScalar, evalNode, lookupColumn_of_mem hall t hc,
    lookupColumn_of_mem hall t' hc', hone]
  decide

/-- **EXISTS is what the rows of the inner table say exactly where it fits; a query is so on every
table and for every outer row exactly if it has no shortcut.** -/
theorem exists_iff (rt : Runtime) (s : ShardEngine) (q : InnerQuery rt) (level : Nat)
    (hlevel : level < kMaxSubqueryDepth) :
    (∀ ctx outerRow, existsMatch ctx q outerRow level = enumerateExists ctx q outerRow level ↔
      ExistsFits ctx q outerRow level) ∧
    ((∀ ctx outerRow, WithinBudget ctx q.fromTable →
        existsMatch ctx q outerRow level = enumerateExists ctx q outerRow level) ↔
      q.shortcut level = none) := by
  refine ⟨fun ctx outerRow => existsMatch_eq_iff hlevel, fun hall => ?_, fun h ctx outerRow hb => ?_⟩
  · by_contra hne
    obtain ⟨sides, hs⟩ := Option.ne_none_iff_exists'.1 hne
    have hsimple : ∃ e : ExprNode rt, simpleCorrelatedEq e = some sides := by
      unfold InnerQuery.shortcut at hs
      split at hs
      · obtain ⟨w, -, hw⟩ := Option.bind_eq_some_iff.1 hs
        exact ⟨w level, hw⟩
      · cases hs
    obtain ⟨e, he⟩ := hsimple
    obtain ⟨row, hrow⟩ := exists_correlated he
    have hlist : (noRows s).listRows q.fromTable = .ok [] := rfl
    have hb : WithinBudget (noRows s) q.fromTable := by
      intro rows hrows
      rw [hlist] at hrows
      cases hrows
      rfl
    have heq := hall (noRows s) row hb
    rw [existsMatch_shortcut hlevel hs, hrow] at heq
    simp [enumerateExists, hlist] at heq
  · exact (existsMatch_eq_iff hlevel).2 (by simp only [ExistsFits, h]; exact .inl hb)

/-! ## An inner table without rows -/

/-- `u.a = t.a`, under two levels of EXISTS. -/
def correlatedQuery : InnerQuery wholeNumbers where
  projectCols := [ascii "*"]
  fromTable := ascii "u"
  whereExpr := some fun _ =>
    .binary .kEq (.column [] (ascii "t.a") false) (.column [] (ascii "t.b") false) false

/-- An outer row with `1` in both of its columns. -/
def equalColumns : Fields :=
  (SortedMap.empty.insert (ascii "t.a") (ascii "1")).insert (ascii "t.b") (ascii "1")

/-- A store that was just opened. -/
def newEngine : ShardEngine :=
  ShardEngine.open ⟨.kSync, true, 1, .kFastOpen, false, false, fun _ => 0⟩ ShardFiles.none

/-- At the second level a table without rows has a match. -/
theorem exists_empty : ¬ ∀ (rt : Runtime) (ctx : RunnerContext) (q : InnerQuery rt)
    (outerRow : Fields) (level : Nat), level < kMaxSubqueryDepth →
      existsMatch ctx q outerRow level = enumerateExists ctx q outerRow level := by
  intro h
  have heq := h wholeNumbers (noRows newEngine) correlatedQuery equalColumns 2 (by decide)
  have hlist : (noRows newEngine).listRows correlatedQuery.fromTable = .ok [] := rfl
  have hmatch : existsMatch (noRows newEngine) correlatedQuery equalColumns 2 = true := by
    have hs : correlatedQuery.shortcut 2 = some (.column [] (ascii "t.a") false,
        .column [] (ascii "t.b") false) := rfl
    rw [existsMatch_shortcut (by decide) hs]
    decide +kernel
  rw [hmatch, enumerateExists, hlist] at heq
  simp at heq

/-- At the first level it has none. -/
theorem exists_first : existsMatch (noRows newEngine) correlatedQuery equalColumns 1 =
    enumerateExists (noRows newEngine) correlatedQuery equalColumns 1 :=
  ((exists_iff wholeNumbers newEngine correlatedQuery 1 (by decide)).1 _ _).2
    (.inl fun rows hrows => by
      cases hrows
      rfl)

end EBTree.Sql
