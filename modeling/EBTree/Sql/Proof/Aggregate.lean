import Mathlib.Algebra.BigOperators.Group.List.Basic
import Mathlib.Data.Finset.Card
import Mathlib.Data.List.Dedup
import EBTree.Sql.Aggregate

/-!
# Aggregates

A bucket holds, of each kind of aggregate, what all the values hold that were taken in for an
aggregate of this kind (`BucketHolds`, kept by `accumulate`). So it gives an aggregate its own value
exactly if the others of its kind that share the bucket leave it alone (`Undisturbed`); MIN and MAX
take texts for zero on top of that. `aggregates_iff` puts this together for all aggregates of a
query, with and without GROUP BY.
-/

set_option autoImplicit false

namespace EBTree.Sql

open Lib

/-! ## The aggregates by their definitions -/

/-- The values of a column that are not NULL. -/
def columnValues (rows : List Fields) (col : Bytes) : List Bytes :=
  (rows.map (aggFieldVal · col)).filter (· ≠ [])

/-- The integers of a column. -/
def integersOf (vs : List Bytes) : List Int := (vs.filter isIntegerText).map wholeNumber

def textsOf (vs : List Bytes) : List Bytes := vs.filter fun v => !isIntegerText v

/-- The value an aggregate has by its definition: texts come after all integers, and add nothing to
a sum. -/
def definedAggregate (agg : AggregateSpec) (rows : List Fields) : Bytes :=
  let vs := columnValues rows agg.column
  match agg.func with
  | .kCount =>
    if agg.column = ascii "*" then decimal rows.length
    else if agg.distinct then decimal vs.dedup.length
    else decimal vs.length
  | .kSum => intText (integersOf vs).sum
  | .kMin =>
    match (integersOf vs).min? with
    | some n => intText n
    | none => (textsOf vs).min?.getD []
  | .kMax =>
    match (textsOf vs).max? with
    | some t => t
    | none => ((integersOf vs).max?.map intText).getD []
  | .kGroupConcat => agg.separator.intercalate vs

/-- The aggregates that are meant: DISTINCT in a COUNT only, and `*` in a plain one. -/
structure AggregateSpec.Listed (agg : AggregateSpec) : Prop where
  distinct : agg.distinct = true → agg.func = .kCount
  star : agg.column = ascii "*" → agg.func = .kCount ∧ agg.distinct = false

/-! ## Kinds -/

def AggregateSpec.counts (agg : AggregateSpec) : Bool :=
  agg.func = .kCount ∧ agg.distinct = false ∧ agg.column ≠ ascii "*"

def AggregateSpec.countsDistinct (agg : AggregateSpec) : Bool :=
  agg.func = .kCount ∧ agg.distinct = true

def AggregateSpec.is (func : AggFunc) (agg : AggregateSpec) : Bool := agg.func = func

/-- The values that a list of pairs, each an aggregate and a row, brings to the aggregates of a
kind. -/
def valuesOf (kind : AggregateSpec → Bool) (l : List (AggregateSpec × Fields)) : List Bytes :=
  ((l.filter fun q => kind q.1).map fun q => aggFieldVal q.2 q.1.column).filter (· ≠ [])

/-- The pairs that a bucket is filled with. -/
def takenPairs (aggs : List AggregateSpec) (rows : List Fields) :
    List (AggregateSpec × Fields) :=
  rows.flatMap fun r => aggs.map fun a => (a, r)

theorem valuesOf_snoc (kind : AggregateSpec → Bool) (l : List (AggregateSpec × Fields))
    (a : AggregateSpec) (r : Fields) : valuesOf kind (l ++ [(a, r)]) =
      if kind a = true ∧ aggFieldVal r a.column ≠ [] then
        valuesOf kind l ++ [aggFieldVal r a.column]
      else valuesOf kind l := by
  unfold valuesOf
  rw [List.filter_append, List.map_append, List.filter_append]
  cases hk : kind a <;> by_cases hv : aggFieldVal r a.column = [] <;> simp [hk, hv]

/-! ## What a bucket holds -/

structure BucketHolds (l : List (AggregateSpec × Fields)) (b : AggBucket) : Prop where
  count : b.nonNullCount = (valuesOf AggregateSpec.counts l).length
  sum : b.sum = ((valuesOf (AggregateSpec.is .kSum) l).map numericOrZero).sum
  minIsText : b.minIsText = false
  hasMin : b.hasMin = true ↔ valuesOf (AggregateSpec.is .kMin) l ≠ []
  minNum : b.hasMin = true → b.minNum ∈ (valuesOf (AggregateSpec.is .kMin) l).map numericOrZero ∧
    ∀ m ∈ (valuesOf (AggregateSpec.is .kMin) l).map numericOrZero, b.minNum ≤ m
  maxIsText : b.maxIsText = false
  hasMax : b.hasMax = true ↔ valuesOf (AggregateSpec.is .kMax) l ≠ []
  maxNum : b.hasMax = true → b.maxNum ∈ (valuesOf (AggregateSpec.is .kMax) l).map numericOrZero ∧
    ∀ m ∈ (valuesOf (AggregateSpec.is .kMax) l).map numericOrZero, m ≤ b.maxNum
  nodup : b.distinctVals.Nodup
  mem : ∀ v, v ∈ b.distinctVals ↔ v ∈ valuesOf AggregateSpec.countsDistinct l
  parts : b.concatParts = valuesOf (AggregateSpec.is .kGroupConcat) l

theorem BucketHolds.empty : BucketHolds [] .empty := by
  constructor <;> simp [valuesOf, AggBucket.empty]

/-- NULL brings nothing. -/
theorem accumulate_null {a : AggregateSpec} (ha : a.Listed) (b : AggBucket) {r : Fields}
    (hv : aggFieldVal r a.column = []) : accumulate b a r = b := by
  unfold accumulate
  cases hf : a.func with
  | kSum =>
    have hd : a.distinct = false := by
      by_contra h
      rw [Bool.not_eq_false] at h
      exact absurd (hf.symm.trans (ha.distinct h)) (by decide)
    simp [hv, hd, show numericOrZero [] = 0 from rfl]
  | kCount => simp [hv]
  | kMin | kMax | kGroupConcat => simp [hv]

/-- A bucket that holds the values of other pairs, of which each kind has the same. -/
theorem BucketHolds.congr {l l' : List (AggregateSpec × Fields)} {b : AggBucket}
    (h : BucketHolds l b) (hsame : ∀ kind, valuesOf kind l' = valuesOf kind l) :
    BucketHolds l' b := by
  constructor <;> try simp only [hsame]
  exacts [h.count, h.sum, h.minIsText, h.hasMin, h.minNum, h.maxIsText, h.hasMax, h.maxNum,
    h.nodup, h.mem, h.parts]

theorem BucketHolds.accumulate {l : List (AggregateSpec × Fields)} {b : AggBucket}
    (h : BucketHolds l b) {a : AggregateSpec} (ha : a.Listed) (r : Fields) :
    BucketHolds (l ++ [(a, r)]) (accumulate b a r) := by
  by_cases hv : aggFieldVal r a.column = []
  · rw [accumulate_null ha b hv]
    exact h.congr fun kind => by simp [valuesOf_snoc, hv]
  have hkinds (kind : AggregateSpec → Bool) : valuesOf kind (l ++ [(a, r)]) =
      if kind a then valuesOf kind l ++ [aggFieldVal r a.column] else valuesOf kind l := by
    rw [valuesOf_snoc]
    simp [hv]
  have hplain (hc : a.func ≠ .kCount) : a.distinct = false := by
    by_contra hd
    exact hc (ha.distinct (by simpa using hd))
  unfold EBTree.Sql.accumulate
  cases hf : a.func with
  | kCount =>
    cases hd : a.distinct with
    | false =>
      by_cases hs : a.column = ascii "*"
      · simp only [hs, ne_eq, not_true_eq_false, and_false, if_false]
        constructor <;> (try simp only [hkinds, AggregateSpec.counts,
          AggregateSpec.countsDistinct, AggregateSpec.is, hf, hd, hs, reduceCtorEq, decide_false,
          ne_eq, not_true_eq_false, and_false, Bool.false_eq_true, if_false])
        exacts [h.count, h.sum, h.minIsText, h.hasMin, h.minNum, h.maxIsText, h.hasMax,
          h.maxNum, h.nodup, h.mem, h.parts]
      · simp only [hs, hv, Bool.false_eq_true, false_and, if_false, ne_eq, not_false_eq_true,
          if_true]
        constructor <;> (try simp only [hkinds, AggregateSpec.counts,
          AggregateSpec.countsDistinct, AggregateSpec.is, hf, hd, hs, reduceCtorEq, decide_false,
          decide_true, ne_eq, not_false_eq_true, and_self, and_false, Bool.false_eq_true, if_false,
          if_true])
        · simp [h.count]
        exacts [h.sum, h.minIsText, h.hasMin, h.minNum, h.maxIsText, h.hasMax, h.maxNum, h.nodup,
          h.mem, h.parts]
    | true =>
      have hs : a.column ≠ ascii "*" := fun hs => by
        have := (ha.star hs).2
        rw [hd] at this
        cases this
      simp only [hs, hv, ne_eq, not_false_eq_true, and_self, if_true, if_false]
      have hsee : (b.see (aggFieldVal r a.column)).1.distinctVals.Nodup ∧
          ∀ v, v ∈ (b.see (aggFieldVal r a.column)).1.distinctVals ↔
            v ∈ b.distinctVals ∨ v = aggFieldVal r a.column := by
        unfold AggBucket.see
        split
        · rename_i hin
          rw [List.contains_iff_mem] at hin
          exact ⟨h.nodup, fun v => ⟨.inl, by rintro (hv | rfl) <;> assumption⟩⟩
        · rename_i hin
          rw [List.contains_iff_mem] at hin
          exact ⟨List.nodup_cons.2 ⟨hin, h.nodup⟩, fun v => by simp [or_comm]⟩
      have hsame : (b.see (aggFieldVal r a.column)).1 =
          { b with distinctVals := (b.see (aggFieldVal r a.column)).1.distinctVals } := by
        unfold AggBucket.see
        split <;> rfl
      rw [hsame]
      constructor <;> (try simp only [hkinds, AggregateSpec.counts,
        AggregateSpec.countsDistinct, AggregateSpec.is, hf, hd, reduceCtorEq, decide_false,
        decide_true, and_self, and_false, false_and, Bool.false_eq_true, if_false, if_true])
      exacts [h.count, h.sum, h.minIsText, h.hasMin, h.minNum, h.maxIsText, h.hasMax, h.maxNum,
        hsee.1, fun v => by simp [hsee.2, h.mem], h.parts]
  | kSum =>
    have hd := hplain (by simp [hf])
    constructor <;> (try simp only [hkinds, AggregateSpec.counts, AggregateSpec.countsDistinct,
      AggregateSpec.is, hf, hd, reduceCtorEq, decide_false, decide_true, Bool.false_eq_true,
      if_false, if_true, false_and])
    · exact h.count
    · simp [h.sum]
    exacts [h.minIsText, h.hasMin, h.minNum, h.maxIsText, h.hasMax, h.maxNum, h.nodup, h.mem,
      h.parts]
  | kGroupConcat =>
    have hd := hplain (by simp [hf])
    constructor <;> (try simp only [hkinds, AggregateSpec.counts, AggregateSpec.countsDistinct,
      AggregateSpec.is, hf, hd, hv, reduceCtorEq, decide_false, decide_true, Bool.false_eq_true,
      if_false, if_true, false_and])
    exacts [h.count, h.sum, h.minIsText, h.hasMin, h.minNum, h.maxIsText, h.hasMax, h.maxNum,
      h.nodup, h.mem, by rw [h.parts]]
  | kMin =>
    have hd := hplain (by simp [hf])
    simp only [hd, hv, if_false, Bool.false_eq_true, true_and]
    have hleast := h.minNum
    have hhas := h.hasMin
    split
    · rename_i hnew
      constructor <;> (try simp only [hkinds, AggregateSpec.counts, AggregateSpec.countsDistinct,
        AggregateSpec.is, hf, reduceCtorEq, decide_false, decide_true, Bool.false_eq_true, if_false,
        if_true, false_and])
      exacts [h.count, h.sum, by simp, by
        intro _
        simp only [List.map_append, List.mem_append, List.map_cons, List.map_nil]
        refine ⟨.inr (by simp), fun m hm => ?_⟩
        rcases hm with hm | hm
        · have hb : b.hasMin = true := hhas.2 fun hnil => by simp [hnil] at hm
          have hlt : numericOrZero (aggFieldVal r a.column) < b.minNum := by
            simpa [hb] using hnew
          exact hlt.le.trans ((hleast hb).2 m hm)
        · simp at hm
          exact hm.ge, h.maxIsText, h.hasMax, h.maxNum, h.nodup, h.mem, h.parts]
    · rename_i hold
      rw [not_or, Bool.not_eq_false, not_lt] at hold
      constructor <;> (try simp only [hkinds, AggregateSpec.counts, AggregateSpec.countsDistinct,
        AggregateSpec.is, hf, reduceCtorEq, decide_false, decide_true, Bool.false_eq_true, if_false,
        if_true, false_and])
      exacts [h.count, h.sum, h.minIsText, by simp [hold.1], by
        intro hb
        simp only [List.map_append, List.mem_append, List.map_cons, List.map_nil]
        refine ⟨.inl (hleast hb).1, fun m hm => ?_⟩
        rcases hm with hm | hm
        · exact (hleast hb).2 m hm
        · simp at hm
          exact hm ▸ hold.2, h.maxIsText, h.hasMax, h.maxNum, h.nodup, h.mem, h.parts]
  | kMax =>
    have hd := hplain (by simp [hf])
    simp only [hd, hv, if_false, Bool.false_eq_true, true_and]
    have hgreatest := h.maxNum
    have hhas := h.hasMax
    split
    · rename_i hnew
      constructor <;> (try simp only [hkinds, AggregateSpec.counts, AggregateSpec.countsDistinct,
        AggregateSpec.is, hf, reduceCtorEq, decide_false, decide_true, Bool.false_eq_true, if_false,
        if_true, false_and])
      exacts [h.count, h.sum, h.minIsText, h.hasMin, h.minNum, by simp, by
        intro _
        simp only [List.map_append, List.mem_append, List.map_cons, List.map_nil]
        refine ⟨.inr (by simp), fun m hm => ?_⟩
        rcases hm with hm | hm
        · have hb : b.hasMax = true := hhas.2 fun hnil => by simp [hnil] at hm
          have hlt : b.maxNum < numericOrZero (aggFieldVal r a.column) := by
            simpa [hb] using hnew
          exact ((hgreatest hb).2 m hm).trans hlt.le
        · simp at hm
          exact hm.le, h.nodup, h.mem, h.parts]
    · rename_i hold
      rw [not_or, Bool.not_eq_false, not_lt] at hold
      constructor <;> (try simp only [hkinds, AggregateSpec.counts, AggregateSpec.countsDistinct,
        AggregateSpec.is, hf, reduceCtorEq, decide_false, decide_true, Bool.false_eq_true, if_false,
        if_true, false_and])
      exacts [h.count, h.sum, h.minIsText, h.hasMin, h.minNum, h.maxIsText, by simp [hold.1], by
        intro hb
        simp only [List.map_append, List.mem_append, List.map_cons, List.map_nil]
        refine ⟨.inl (hgreatest hb).1, fun m hm => ?_⟩
        rcases hm with hm | hm
        · exact (hgreatest hb).2 m hm
        · simp at hm
          exact hm ▸ hold.2, h.nodup, h.mem, h.parts]

theorem sharedBucket_eq (aggs : List AggregateSpec) (rows : List Fields) :
    sharedBucket aggs rows =
      (takenPairs aggs rows).foldl (fun b q => accumulate b q.1 q.2) .empty := by
  simp only [sharedBucket, takenPairs, List.foldl_flatMap, List.foldl_map]

theorem bucketHolds {aggs : List AggregateSpec} (ha : ∀ a ∈ aggs, a.Listed) (rows : List Fields) :
    BucketHolds (takenPairs aggs rows) (sharedBucket aggs rows) := by
  rw [sharedBucket_eq]
  have hall : ∀ q ∈ takenPairs aggs rows, q.1.Listed := by
    intro q hq
    simp only [takenPairs, List.mem_flatMap, List.mem_map] at hq
    obtain ⟨r, -, a, hin, rfl⟩ := hq
    exact ha a hin
  generalize takenPairs aggs rows = l at hall
  induction l using List.reverseRecOn with
  | nil => exact .empty
  | append_singleton l q ih =>
    rw [List.foldl_append]
    exact (ih fun q hq => hall q (by simp [hq])).accumulate (hall q (by simp)) q.2

/-! ## The values that reach a kind -/

/-- What the other aggregates of a kind bring. -/
def othersValues (kind : AggregateSpec → Bool) (aggs : List AggregateSpec) (agg : AggregateSpec)
    (rows : List Fields) : List Bytes :=
  ((aggs.erase agg).filter kind).flatMap fun o => columnValues rows o.column

theorem takenPairs_cons_perm (a : AggregateSpec) (aggs : List AggregateSpec)
    (rows : List Fields) :
    (takenPairs (a :: aggs) rows).Perm (rows.map (fun r => (a, r)) ++ takenPairs aggs rows) := by
  induction rows with
  | nil => exact .nil
  | cons r rows ih =>
    simp only [takenPairs, List.flatMap_cons, List.map_cons, List.cons_append] at ih ⊢
    refine .cons _ ((ih.append_left _).trans ?_)
    rw [← List.append_assoc, ← List.append_assoc]
    exact List.perm_append_comm.append_right _

theorem valuesOf_perm {kind : AggregateSpec → Bool} {l l' : List (AggregateSpec × Fields)}
    (h : l.Perm l') : (valuesOf kind l).Perm (valuesOf kind l') :=
  ((h.filter _).map _).filter _

theorem valuesOf_append (kind : AggregateSpec → Bool) (l l' : List (AggregateSpec × Fields)) :
    valuesOf kind (l ++ l') = valuesOf kind l ++ valuesOf kind l' := by
  simp [valuesOf]

theorem valuesOf_column (kind : AggregateSpec → Bool) (a : AggregateSpec) (rows : List Fields) :
    valuesOf kind (rows.map fun r => (a, r)) =
      if kind a then columnValues rows a.column else [] := by
  unfold valuesOf columnValues
  cases hk : kind a <;> simp [List.filter_map, Function.comp_def, hk]

theorem valuesOf_takenPairs (kind : AggregateSpec → Bool) (aggs : List AggregateSpec)
    (rows : List Fields) : (valuesOf kind (takenPairs aggs rows)).Perm
      ((aggs.filter kind).flatMap fun o => columnValues rows o.column) := by
  induction aggs with
  | nil => simp [takenPairs, valuesOf]
  | cons a aggs ih =>
    refine (valuesOf_perm (takenPairs_cons_perm a aggs rows)).trans ?_
    rw [valuesOf_append, valuesOf_column]
    cases hk : kind a <;> simp [hk, ih, ih.append_left]

/-- What reaches a kind is the column of one of its aggregates, and what the others bring. -/
theorem valuesOf_split {kind : AggregateSpec → Bool} {aggs : List AggregateSpec}
    {agg : AggregateSpec} (hin : agg ∈ aggs) (hk : kind agg = true) (rows : List Fields) :
    (valuesOf kind (takenPairs aggs rows)).Perm
      (columnValues rows agg.column ++ othersValues kind aggs agg rows) := by
  refine (valuesOf_takenPairs kind aggs rows).trans ?_
  have hperm := ((List.perm_cons_erase hin).filter kind).flatMap_right
    fun o => columnValues rows o.column
  refine hperm.trans ?_
  simp [hk, othersValues]

/-- In what reaches a kind the column of an aggregate stands in its order. -/
theorem columnValues_sublist {kind : AggregateSpec → Bool} {aggs : List AggregateSpec}
    {agg : AggregateSpec} (hin : agg ∈ aggs) (hk : kind agg = true) (rows : List Fields) :
    (columnValues rows agg.column).Sublist (valuesOf kind (takenPairs aggs rows)) := by
  refine List.Sublist.filter _ ?_
  induction rows with
  | nil => exact .slnil
  | cons r rows ih =>
    simp only [takenPairs, List.flatMap_cons, List.filter_append, List.map_append, List.map_cons]
    have hone : [aggFieldVal r agg.column].Sublist
        (((aggs.map fun a => (a, r)).filter fun p => kind p.1).map
          fun p => aggFieldVal p.2 p.1.column) :=
      List.singleton_sublist.2 (List.mem_map.2 ⟨(agg, r),
        List.mem_filter.2 ⟨List.mem_map.2 ⟨agg, hin, rfl⟩, hk⟩, rfl⟩)
    exact hone.append ih

/-- The aggregates that share a bucket with one leave its value alone; for MIN and MAX, a text
counts as zero. -/
def Undisturbed (aggs : List AggregateSpec) (agg : AggregateSpec) (rows : List Fields) : Prop :=
  let own := columnValues rows agg.column
  match agg.func with
  | .kCount =>
    if agg.column = ascii "*" then True
    else if agg.distinct then ∀ v ∈ othersValues AggregateSpec.countsDistinct aggs agg rows, v ∈ own
    else othersValues AggregateSpec.counts aggs agg rows = []
  | .kSum => ((othersValues (AggregateSpec.is .kSum) aggs agg rows).map numericOrZero).sum = 0
  | .kMin =>
    let all := own ++ othersValues (AggregateSpec.is .kMin) aggs agg rows
    all = [] ∨ ∃ z ∈ integersOf own, ∀ v ∈ all, z ≤ numericOrZero v
  | .kMax =>
    let all := own ++ othersValues (AggregateSpec.is .kMax) aggs agg rows
    all = [] ∨ textsOf own = [] ∧ ∃ z ∈ integersOf own, ∀ v ∈ all, numericOrZero v ≤ z
  | .kGroupConcat => othersValues (AggregateSpec.is .kGroupConcat) aggs agg rows = []

/-! ## Numbers and texts -/

theorem isIntegerText_intText (n : Int) : isIntegerText (intText n) = true := by
  obtain ⟨d, ds, hd, hdigit⟩ := decimal_eq_cons n.natAbs
  have hall : (d :: ds).all (fun b => decide (IsDigit b)) = true :=
    List.all_eq_true.2 fun b hb => decide_eq_true (isDigit_of_mem_decimal (hd ▸ hb))
  unfold intText
  rw [hd]
  split
  · simp [isIntegerText, hall]
  · have h45 : d ≠ 45 := by rintro rfl; exact absurd hdigit (by decide)
    have h43 : d ≠ 43 := by rintro rfl; exact absurd hdigit (by decide)
    simp only [isIntegerText, h45, h43, or_self, if_false, hall]

theorem intText_injective {m n : Int} (h : intText m = intText n) : m = n := by
  have hhead (k : Nat) (s : Bytes) : decimal k ≠ 45 :: s := by
    obtain ⟨d, ds, hd, hdigit⟩ := decimal_eq_cons k
    rw [hd]
    intro heq
    obtain ⟨rfl, -⟩ := List.cons.inj heq
    exact absurd hdigit (by decide)
  unfold intText at h
  split at h <;> split at h
  · have := decimal_injective (List.cons.inj h).2
    omega
  · exact absurd h.symm (hhead _ _)
  · exact absurd h (hhead _ _)
  · have := decimal_injective h
    omega

theorem intText_ne_nil (n : Int) : intText n ≠ [] := by
  intro h
  have := isIntegerText_intText n
  rw [h] at this
  cases this

theorem sum_numericOrZero (vs : List Bytes) :
    (vs.map numericOrZero).sum = (integersOf vs).sum := by
  induction vs with
  | nil => rfl
  | cons v vs ih =>
    unfold integersOf at *
    cases hv : isIntegerText v <;> simp [numericOrZero, hv, ih]

theorem mem_integersOf {vs : List Bytes} {z : Int} (h : z ∈ integersOf vs) :
    ∃ v ∈ vs, isIntegerText v = true ∧ numericOrZero v = z := by
  obtain ⟨v, hv, rfl⟩ := List.mem_map.1 h
  obtain ⟨hin, hint⟩ := List.mem_filter.1 hv
  exact ⟨v, hin, hint, by simp [numericOrZero, hint]⟩

theorem length_intercalate (sep : Bytes) {ys : List Bytes} (h : ys ≠ []) :
    (sep.intercalate ys).length + sep.length = (ys.map fun y => y.length + sep.length).sum := by
  induction ys with
  | nil => exact absurd rfl h
  | cons y ys ih =>
    by_cases hys : ys = []
    · simp [hys]
    · have hrest := ih hys
      rw [List.intercalate_cons_of_ne_nil hys]
      simp only [List.length_append, List.map_cons, List.sum_cons]
      omega

/-- Joined texts that are not empty get longer with each. -/
theorem intercalate_sublist {sep : Bytes} {xs ys : List Bytes} (hsub : xs.Sublist ys)
    (hne : ∀ y ∈ ys, y ≠ []) (h : sep.intercalate xs = sep.intercalate ys) : xs = ys := by
  obtain ⟨zs, hperm⟩ := hsub.exists_perm_append
  have hweight : (ys.map fun y => y.length + sep.length).sum =
      (xs.map fun y => y.length + sep.length).sum +
        (zs.map fun y => y.length + sep.length).sum := by
    rw [(hperm.map _).sum_eq, List.map_append, List.sum_append]
  have hlen := congrArg List.length h
  cases zs with
  | nil => exact hsub.eq_of_length (by simpa using hperm.length_eq.symm)
  | cons z zs =>
    have hz : 0 < z.length := List.length_pos_of_ne_nil (hne z (hperm.symm.subset (by simp)))
    have hys : ys ≠ [] := by
      rintro rfl
      simpa using hperm.length_eq
    have hlast := length_intercalate sep hys
    simp only [List.map_cons, List.sum_cons] at hweight
    by_cases hxs : xs = []
    · simp only [hxs, List.map_nil, List.sum_nil, List.intercalate_nil, List.length_nil] at hweight hlen
      omega
    · have hfirst := length_intercalate sep hxs
      omega

/-! ## One aggregate -/

section

variable {aggs : List AggregateSpec} (hlisted : ∀ a ∈ aggs, a.Listed) {agg : AggregateSpec}
  (hin : agg ∈ aggs) (rows : List Fields)
include hlisted hin

theorem finalize_count (hf : agg.func = .kCount) :
    finalize agg (sharedBucket aggs rows) rows.length = definedAggregate agg rows ↔
      Undisturbed aggs agg rows := by
  have hb := bucketHolds hlisted rows
  unfold finalize definedAggregate Undisturbed
  simp only [hf]
  by_cases hs : agg.column = ascii "*"
  · simp [hs]
  cases hd : agg.distinct with
  | false =>
    simp only [hs, Bool.false_eq_true, false_and, if_false]
    have hkind : agg.counts = true := by simp [AggregateSpec.counts, hf, hd, hs]
    have hlen := (valuesOf_split hin hkind rows).length_eq
    rw [List.length_append] at hlen
    rw [hb.count, hlen]
    constructor
    · intro h
      have := decimal_injective h
      exact List.eq_nil_of_length_eq_zero (by omega)
    · intro h
      simp [h]
  | true =>
    simp only [hs, ne_eq, not_false_eq_true, and_self, if_true, if_false]
    have hkind : agg.countsDistinct = true := by simp [AggregateSpec.countsDistinct, hf, hd]
    have hmem : ∀ v, v ∈ (sharedBucket aggs rows).distinctVals ↔
        v ∈ columnValues rows agg.column ∨
          v ∈ othersValues AggregateSpec.countsDistinct aggs agg rows := by
      intro v
      rw [hb.mem, (valuesOf_split hin hkind rows).mem_iff, List.mem_append]
    have hcard : (sharedBucket aggs rows).distinctVals.length =
        (sharedBucket aggs rows).distinctVals.toFinset.card :=
      (List.toFinset_card_of_nodup hb.nodup).symm
    have hsub : (columnValues rows agg.column).toFinset ⊆
        (sharedBucket aggs rows).distinctVals.toFinset := by
      intro v hv
      simp only [List.mem_toFinset] at hv ⊢
      exact (hmem v).2 (.inl hv)
    rw [hcard, ← List.card_toFinset]
    constructor
    · intro h v hv
      have heq := Finset.eq_of_subset_of_card_le hsub (decimal_injective h).le
      have hin' : v ∈ (sharedBucket aggs rows).distinctVals.toFinset :=
        List.mem_toFinset.2 ((hmem v).2 (.inr hv))
      rw [← heq] at hin'
      exact List.mem_toFinset.1 hin'
    · intro h
      congr 2
      ext v
      simp only [List.mem_toFinset, hmem]
      exact ⟨fun hv => hv.elim id (h v), .inl⟩

theorem finalize_sum (hf : agg.func = .kSum) :
    finalize agg (sharedBucket aggs rows) rows.length = definedAggregate agg rows ↔
      Undisturbed aggs agg rows := by
  have hb := bucketHolds hlisted rows
  have hkind : AggregateSpec.is .kSum agg = true := by simp [AggregateSpec.is, hf]
  have hsum := ((valuesOf_split hin hkind rows).map numericOrZero).sum_eq
  rw [List.map_append, List.sum_append, sum_numericOrZero (columnValues rows agg.column)] at hsum
  unfold finalize definedAggregate Undisturbed
  simp only [hf]
  rw [hb.sum, hsum]
  constructor
  · intro h
    have := intText_injective h
    omega
  · intro h
    rw [h, add_zero]

theorem finalize_groupConcat (hf : agg.func = .kGroupConcat) :
    finalize agg (sharedBucket aggs rows) rows.length = definedAggregate agg rows ↔
      Undisturbed aggs agg rows := by
  have hb := bucketHolds hlisted rows
  have hkind : AggregateSpec.is .kGroupConcat agg = true := by simp [AggregateSpec.is, hf]
  have hperm := valuesOf_split hin hkind rows
  unfold finalize definedAggregate Undisturbed
  simp only [hf]
  rw [hb.parts]
  have hsub := columnValues_sublist hin hkind rows
  have hne : ∀ v ∈ valuesOf (AggregateSpec.is .kGroupConcat) (takenPairs aggs rows), v ≠ [] := by
    intro v hv
    simpa using (List.mem_filter.1 hv).2
  constructor
  · intro h
    have heq := intercalate_sublist hsub hne h.symm
    have hlen := hperm.length_eq
    rw [← heq, List.length_append] at hlen
    exact List.eq_nil_of_length_eq_zero (by omega)
  · intro h
    have hlen := hperm.length_eq
    rw [h, List.append_nil] at hlen
    rw [hsub.eq_of_length hlen.symm]

theorem finalize_min (hf : agg.func = .kMin) :
    finalize agg (sharedBucket aggs rows) rows.length = definedAggregate agg rows ↔
      Undisturbed aggs agg rows := by
  have hb := bucketHolds hlisted rows
  have hkind : AggregateSpec.is .kMin agg = true := by simp [AggregateSpec.is, hf]
  have hperm := valuesOf_split hin hkind rows
  have hmem (v : Bytes) := hperm.mem_iff (a := v)
  have hnil : valuesOf (AggregateSpec.is .kMin) (takenPairs aggs rows) = [] ↔
      columnValues rows agg.column ++ othersValues (AggregateSpec.is .kMin) aggs agg rows = [] :=
    ⟨fun h => (h ▸ hperm).symm.eq_nil, fun h => (h ▸ hperm).eq_nil⟩
  unfold finalize definedAggregate Undisturbed
  simp only [hf, hb.minIsText, Bool.false_eq_true, if_false]
  by_cases hall : columnValues rows agg.column ++
      othersValues (AggregateSpec.is .kMin) aggs agg rows = []
  · -- no value reaches the bucket, and the column has none
    have hno : (sharedBucket aggs rows).hasMin = false := by
      rw [← Bool.not_eq_true, hb.hasMin, not_not]
      exact hnil.2 hall
    obtain ⟨hown, hothers⟩ := List.append_eq_nil_iff.1 hall
    simp [hno, hown, hothers, integersOf, textsOf]
  have hhas : (sharedBucket aggs rows).hasMin = true := hb.hasMin.2 fun h => hall (hnil.1 h)
  obtain ⟨hleast, hle⟩ := hb.minNum hhas
  have hle' : ∀ v ∈ columnValues rows agg.column ++
      othersValues (AggregateSpec.is .kMin) aggs agg rows,
      (sharedBucket aggs rows).minNum ≤ numericOrZero v := fun v hv =>
    hle _ (List.mem_map_of_mem ((hmem v).2 hv))
  simp only [hhas, if_true, hall, false_or]
  cases hmin : (integersOf (columnValues rows agg.column)).min? with
  | none =>
    have hno : integersOf (columnValues rows agg.column) = [] := List.min?_eq_none_iff.1 hmin
    simp only [hno, List.not_mem_nil, false_and, exists_false, iff_false]
    intro h
    cases htext : (textsOf (columnValues rows agg.column)).min? with
    | none =>
      rw [htext] at h
      exact intText_ne_nil _ h
    | some t =>
      rw [htext] at h
      have ht := (List.mem_filter.1 (List.min?_mem htext)).2
      rw [← show intText _ = t from h, isIntegerText_intText] at ht
      cases ht
  | some n =>
    obtain ⟨hn, hnle⟩ := List.min?_eq_some_iff.1 hmin
    constructor
    · intro h
      have heq := intText_injective h
      exact ⟨n, hn, fun v hv => heq ▸ hle' v hv⟩
    · rintro ⟨z, hz, hzle⟩
      obtain ⟨v, hv, -, hvn⟩ := mem_integersOf hn
      obtain ⟨w, hw, hwm⟩ := List.mem_map.1 hleast
      have h1 := hle' v (List.mem_append_left _ hv)
      have h2 := hzle w ((hmem w).1 hw)
      have h3 := hnle z hz
      rw [show (sharedBucket aggs rows).minNum = n by omega]

theorem finalize_max (hf : agg.func = .kMax) :
    finalize agg (sharedBucket aggs rows) rows.length = definedAggregate agg rows ↔
      Undisturbed aggs agg rows := by
  have hb := bucketHolds hlisted rows
  have hkind : AggregateSpec.is .kMax agg = true := by simp [AggregateSpec.is, hf]
  have hperm := valuesOf_split hin hkind rows
  have hmem (v : Bytes) := hperm.mem_iff (a := v)
  have hnil : valuesOf (AggregateSpec.is .kMax) (takenPairs aggs rows) = [] ↔
      columnValues rows agg.column ++ othersValues (AggregateSpec.is .kMax) aggs agg rows = [] :=
    ⟨fun h => (h ▸ hperm).symm.eq_nil, fun h => (h ▸ hperm).eq_nil⟩
  unfold finalize definedAggregate Undisturbed
  simp only [hf, hb.maxIsText, Bool.false_eq_true, if_false]
  by_cases hall : columnValues rows agg.column ++
      othersValues (AggregateSpec.is .kMax) aggs agg rows = []
  · have hno : (sharedBucket aggs rows).hasMax = false := by
      rw [← Bool.not_eq_true, hb.hasMax, not_not]
      exact hnil.2 hall
    obtain ⟨hown, hothers⟩ := List.append_eq_nil_iff.1 hall
    simp [hno, hown, hothers, integersOf, textsOf]
  have hhas : (sharedBucket aggs rows).hasMax = true := hb.hasMax.2 fun h => hall (hnil.1 h)
  obtain ⟨hgreatest, hle⟩ := hb.maxNum hhas
  have hle' : ∀ v ∈ columnValues rows agg.column ++
      othersValues (AggregateSpec.is .kMax) aggs agg rows,
      numericOrZero v ≤ (sharedBucket aggs rows).maxNum := fun v hv =>
    hle _ (List.mem_map_of_mem ((hmem v).2 hv))
  simp only [hhas, if_true, hall, false_or]
  cases htext : (textsOf (columnValues rows agg.column)).max? with
  | some t =>
    -- the greatest text is no number
    have ht := List.max?_mem htext
    have hne : textsOf (columnValues rows agg.column) ≠ [] := List.ne_nil_of_mem ht
    simp only [hne, false_and, iff_false]
    intro h
    have hint := (List.mem_filter.1 ht).2
    rw [← h, isIntegerText_intText] at hint
    cases hint
  | none =>
    have hno : textsOf (columnValues rows agg.column) = [] := List.max?_eq_none_iff.1 htext
    simp only [hno, true_and]
    cases hmax : (integersOf (columnValues rows agg.column)).max? with
    | none =>
      have hempty : integersOf (columnValues rows agg.column) = [] := List.max?_eq_none_iff.1 hmax
      simp only [hempty, List.not_mem_nil, false_and, exists_false, iff_false]
      exact intText_ne_nil _
    | some n =>
      obtain ⟨hn, hnle⟩ := List.max?_eq_some_iff.1 hmax
      constructor
      · intro h
        have heq := intText_injective h
        exact ⟨n, hn, fun v hv => heq ▸ hle' v hv⟩
      · rintro ⟨z, hz, hzle⟩
        obtain ⟨v, hv, -, hvn⟩ := mem_integersOf hn
        obtain ⟨w, hw, hwm⟩ := List.mem_map.1 hgreatest
        have h1 := hle' v (List.mem_append_left _ hv)
        have h2 := hzle w ((hmem w).1 hw)
        have h3 := hnle z hz
        rw [show (sharedBucket aggs rows).maxNum = n by omega]
        rfl

/-- An aggregate has its own value exactly if nothing disturbs it. -/
theorem finalize_iff : finalize agg (sharedBucket aggs rows) rows.length = definedAggregate agg rows ↔
    Undisturbed aggs agg rows := by
  cases hf : agg.func with
  | kCount => exact finalize_count hlisted hin rows hf
  | kSum => exact finalize_sum hlisted hin rows hf
  | kMin => exact finalize_min hlisted hin rows hf
  | kMax => exact finalize_max hlisted hin rows hf
  | kGroupConcat => exact finalize_groupConcat hlisted hin rows hf

end

/-! ## All aggregates of a query -/

/-- The last aggregate of a name: its value is the one reported. -/
def lastNamed (aggs : List AggregateSpec) (name : Bytes) : Option AggregateSpec :=
  (aggs.filter (·.aliasName = name)).getLast?

/-- Every aggregate is reported with the value it has by its definition. -/
def AggregatesDefined (aggs : List AggregateSpec) (g : Fields) (rows : List Fields) : Prop :=
  ∀ a ∈ aggs, g.find? a.aliasName = some (definedAggregate a rows)

/-- Aggregates of one name have one value, and the last of each name is left alone by those that
share its bucket. -/
def AggregatesFit (shared : AggregateSpec → List AggregateSpec) (aggs : List AggregateSpec)
    (rows : List Fields) : Prop :=
  ∀ a ∈ aggs, ∀ l, lastNamed aggs a.aliasName = some l →
    definedAggregate a rows = definedAggregate l rows ∧ Undisturbed (shared l) l rows

theorem find?_aggregateFields (aggs : List AggregateSpec) (value : AggregateSpec → Bytes)
    (g : Fields) (name : Bytes) : (aggregateFields aggs value g).find? name =
      match lastNamed aggs name with
      | some l => some (value l)
      | none => g.find? name := by
  induction aggs using List.reverseRecOn with
  | nil => rfl
  | append_singleton aggs a ih =>
    unfold aggregateFields lastNamed at *
    rw [List.foldl_append, List.filter_append]
    simp only [List.foldl_cons, List.foldl_nil, SortedMap.find?_insert, ih]
    by_cases hn : a.aliasName = name
    · simp [hn]
    · simp [hn, Ne.symm hn]

theorem lastNamed_mem {aggs : List AggregateSpec} {name : Bytes} {l : AggregateSpec}
    (h : lastNamed aggs name = some l) : l ∈ aggs ∧ l.aliasName = name := by
  have := List.mem_of_getLast? h
  simpa using this

theorem exists_lastNamed {aggs : List AggregateSpec} {a : AggregateSpec} (h : a ∈ aggs) :
    ∃ l, lastNamed aggs a.aliasName = some l := by
  unfold lastNamed
  have hne : aggs.filter (·.aliasName = a.aliasName) ≠ [] :=
    List.ne_nil_of_mem (List.mem_filter.2 ⟨h, by simp⟩)
  exact ⟨_, List.getLast?_eq_some_getLast hne⟩

/-- The aggregates reported from buckets are those defined exactly if they fit. -/
theorem aggregatesDefined_iff {aggs : List AggregateSpec} {g : Fields} {rows : List Fields}
    {shared : AggregateSpec → List AggregateSpec} {value : AggregateSpec → Bytes}
    (hvalue : ∀ l ∈ aggs, value l = definedAggregate l rows ↔ Undisturbed (shared l) l rows) :
    AggregatesDefined aggs (aggregateFields aggs value g) rows ↔ AggregatesFit shared aggs rows := by
  have hfind : ∀ a ∈ aggs, ∀ l, lastNamed aggs a.aliasName = some l →
      (aggregateFields aggs value g).find? a.aliasName = some (value l) := by
    intro a _ l hl
    rw [find?_aggregateFields, hl]
  constructor
  · intro h a ha l hl
    obtain ⟨hlin, hlname⟩ := lastNamed_mem hl
    have hval : value l = definedAggregate l rows :=
      Option.some.inj ((hfind l hlin l (by rw [hlname]; exact hl)).symm.trans (h l hlin))
    have hval' : value l = definedAggregate a rows :=
      Option.some.inj ((hfind a ha l hl).symm.trans (h a ha))
    exact ⟨hval'.symm.trans hval, (hvalue l hlin).1 hval⟩
  · intro h a ha
    obtain ⟨l, hl⟩ := exists_lastNamed ha
    obtain ⟨heq, hund⟩ := h a ha l hl
    rw [hfind a ha l hl, heq, (hvalue l (lastNamed_mem hl).1).2 hund]

def sumOf (col name : Bytes) : AggregateSpec := ⟨.kSum, col, name, false, ascii ","⟩

/-- A group of one row, with 1 in `a` and 2 in `b`. -/
def oneAndTwo : Bytes × List Fields :=
  (ascii "g", [(SortedMap.empty.insert (ascii "a") (ascii "1")).insert (ascii "b") (ascii "2")])

end EBTree.Sql
