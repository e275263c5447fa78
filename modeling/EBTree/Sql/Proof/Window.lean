import Mathlib.Data.Finset.Card
import Mathlib.Data.List.Dedup
import EBTree.Lib.Partition
import EBTree.Sql.Window

/-!
# The numbers of window functions

`ExecWindow` numbers the rows of the table by what the records keep of them, the text of the value
alone. `partitionState` is the invariant of its running numbers and `execWindow_at` the number that
it gives a row, and `window_iff` says for which rows these are the numbers of `ROW_NUMBER`, `RANK`
and `DENSE_RANK` over the partition and order columns of the table, whatever order the sort leaves.
-/

set_option autoImplicit false

namespace EBTree.Sql

open Lib

/-! ## The records -/

/-- The text that a record is of, under every name. -/
def WindowQuery.seen (wq : WindowQuery) (r : Fields) : Bytes := fieldVal r wq.windowFunc

def WindowQuery.seenPartition (wq : WindowQuery) (r : Fields) : Bytes :=
  if wq.partitionCol = [] then [] else wq.seen r

theorem fieldVal_rowFields (x col : Bytes) : fieldVal (rowFields ⟨x, x⟩) col = x := by
  have hfind (c v : Bytes) (h : (rowFields ⟨x, x⟩).find? c = some v) : v = x := by
    simp only [rowFields, SortedMap.find?_insert, SortedMap.find?_empty] at h
    split at h
    · exact (Option.some.inj h).symm
    · split at h
      · exact (Option.some.inj h).symm
      · cases h
  have hvalue : (rowFields ⟨x, x⟩).find? (ascii "value") = some x := by simp [rowFields]
  unfold fieldVal
  cases h : (rowFields ⟨x, x⟩).find? col with
  | some v => exact hfind _ _ h
  | none =>
    cases hb : (bareColumn col).bind (rowFields ⟨x, x⟩).find? with
    | some v =>
      obtain ⟨c, -, hc⟩ := Option.bind_eq_some_iff.1 hb
      simpa using hfind _ _ hc
    | none => simp [hvalue]

theorem reduced_eq (wq : WindowQuery) (r : Fields) :
    wq.reduced r = rowFields ⟨wq.seen r, wq.seen r⟩ := rfl

theorem partition_reduced (wq : WindowQuery) (r : Fields) :
    wq.partition (wq.reduced r) = wq.seenPartition r := by
  simp [WindowQuery.partition, WindowQuery.seenPartition, reduced_eq, fieldVal_rowFields]

theorem orderVal_reduced (wq : WindowQuery) (r : Fields) :
    wq.orderVal (wq.reduced r) = wq.seen r := by
  simp [WindowQuery.orderVal, reduced_eq, fieldVal_rowFields]

/-- The order that the records put the rows in. -/
def WindowQuery.rowLess (wq : WindowQuery) (a b : Fields) : Bool :=
  wq.less (wq.reduced a) (wq.reduced b)

/-! ## Lists -/

/-- The last element that is of some kind. -/
theorem exists_last {α : Type} (p : α → Prop) {l : List α} (h : ∃ a ∈ l, p a) :
    ∃ pre a post, l = pre ++ a :: post ∧ p a ∧ ∀ b ∈ post, ¬ p b := by
  induction l using List.reverseRecOn with
  | nil => simp at h
  | append_singleton l c ih =>
    by_cases hc : p c
    · exact ⟨l, c, [], rfl, hc, by simp⟩
    · obtain ⟨a, ha, hp⟩ := h
      have hal : a ∈ l := by
        rcases List.mem_append.1 ha with hal | hac
        · exact hal
        · exact absurd (List.mem_singleton.1 hac ▸ hp) hc
      obtain ⟨pre, a', post, rfl, hp', hpost⟩ := ih ⟨a, hal, hp⟩
      refine ⟨pre, a', post ++ [c], by simp, hp', fun b hb => ?_⟩
      rcases List.mem_append.1 hb with hb | hb
      · exact hpost b hb
      · exact List.mem_singleton.1 hb ▸ hc

theorem exists_split_of_pair {α : Type} {l : List α} {a b : α} (h : [a, b].Sublist l) :
    ∃ pre post, l = pre ++ b :: post ∧ a ∈ pre := by
  obtain ⟨l₁, l₂, rfl, ha, hb⟩ := List.cons_sublist_iff.1 h
  obtain ⟨s, t, rfl⟩ := List.append_of_mem (List.singleton_sublist.1 hb)
  exact ⟨l₁ ++ s, t, by simp, by simp [ha]⟩

/-! ## Orders -/

theorem before_irrefl (wq : WindowQuery) (v : Bytes) : wq.before v v = false := by
  simp [WindowQuery.before]

theorem before_antisymm {wq : WindowQuery} {u v : Bytes} (huv : wq.before u v = false)
    (hvu : wq.before v u = false) : u = v := by
  unfold WindowQuery.before at *
  cases hd : wq.orderDesc <;> simp [hd] at huv hvu
  · exact le_antisymm hvu huv
  · exact le_antisymm huv hvu

theorem before_isSortOrder {α : Type} (wq : WindowQuery) (key : α → Bytes) :
    IsSortOrder fun a b => wq.before (key a) (key b) := by
  cases hd : wq.orderDesc with
  | false => exact .of_key key fun a b => by simp [WindowQuery.before, hd]
  | true => exact IsSortOrder.reverse (.of_key key fun a b => by simp [WindowQuery.before, hd])

theorem rowLess_iff (wq : WindowQuery) (a b : Fields) : wq.rowLess a b = true ↔
    wq.seenPartition a < wq.seenPartition b ∨
      wq.seenPartition a = wq.seenPartition b ∧ wq.before (wq.seen a) (wq.seen b) = true := by
  unfold WindowQuery.rowLess WindowQuery.less
  simp only [partition_reduced, orderVal_reduced]
  by_cases h : wq.seenPartition a = wq.seenPartition b
  · simp [h]
  · simp [h]

theorem rowLess_isSortOrder (wq : WindowQuery) : IsSortOrder wq.rowLess :=
  (before_isSortOrder wq wq.seen).lex wq.seenPartition (rowLess_iff wq)

/-! ## The numbers of one partition -/

/-- A step by the order value alone. -/
def stepVal (st : WindowState) (ov : Bytes) : WindowState :=
  if ov ≠ st.lastOrderVal then ⟨st.rowNum + 1, st.denseRank + 1, st.rowNum + 1, ov⟩
  else { st with rowNum := st.rowNum + 1 }

/-- The state after the order values of a partition, in their order. -/
structure PartitionState (xs : List Bytes) (st : WindowState) : Prop where
  start : xs = [] → st = WindowState.start
  rowNum : st.rowNum = xs.length
  last : st.lastOrderVal = xs.getLast?.getD []
  rank : ∀ ys v, xs = ys ++ [v] → st.sqlRank =
    if v = [] ∧ ∀ u ∈ ys, u = [] then 0 else 1 + (ys.filter (· ≠ v)).length
  dense : st.denseRank + (if xs.head? = some [] then 1 else 0) = xs.dedup.length

theorem partitionState (wq : WindowQuery) {xs : List Bytes}
    (h : xs.Pairwise fun u v => wq.before v u = false) :
    PartitionState xs (xs.foldl stepVal WindowState.start) := by
  induction xs using List.reverseRecOn with
  | nil => exact ⟨fun _ => rfl, rfl, rfl, fun ys v h => by simp at h, rfl⟩
  | append_singleton xs v ih =>
    obtain ⟨hxs, -, hxv⟩ := List.pairwise_append.1 h
    obtain ⟨hstart, hnum, hlast, hrank, hdense⟩ := ih hxs
    rw [List.foldl_append, List.foldl_cons, List.foldl_nil]
    generalize xs.foldl stepVal WindowState.start = st at *
    have hsplit : ∀ ys w, xs ++ [v] = ys ++ [w] → ys = xs ∧ w = v := fun ys w he =>
      ⟨(List.append_inj' he rfl).1.symm, by simpa using (List.append_inj' he rfl).2.symm⟩
    unfold stepVal
    by_cases hv : v = st.lastOrderVal
    · -- the value is the last one, or the empty one at the start
      rw [if_neg (not_not.2 hv)]
      rw [hlast] at hv
      rcases List.eq_nil_or_concat' xs with rfl | ⟨ys, w, rfl⟩
      · obtain rfl : v = [] := hv
        obtain rfl := hstart rfl
        refine ⟨fun h => by simp at h, rfl, rfl, fun ys w he => ?_, rfl⟩
        obtain ⟨rfl, rfl⟩ := hsplit ys w he
        rfl
      · obtain rfl : v = w := by simpa using hv
        refine ⟨fun h => by simp at h, by simp [hnum], by simp [hlast], fun ys' w he => ?_, ?_⟩
        · obtain ⟨rfl, rfl⟩ := hsplit ys' w he
          rw [hrank ys _ rfl]
          have hall : (w = [] ∧ ∀ u ∈ ys ++ [w], u = []) ↔ w = [] ∧ ∀ u ∈ ys, u = [] := by
            constructor
            · exact fun ⟨h1, h2⟩ => ⟨h1, fun u hu => h2 u (by simp [hu])⟩
            · rintro ⟨rfl, h2⟩
              exact ⟨rfl, fun u hu => (List.mem_append.1 hu).elim (h2 u) (by simp)⟩
          simp only [hall]
          simp
        · rw [← List.card_toFinset] at hdense ⊢
          rw [List.head?_append_of_ne_nil _ (by simp), hdense]
          simp
    · -- no earlier value is the same
      have hnew : v ∉ xs := by
        intro hin
        rcases List.eq_nil_or_concat' xs with rfl | ⟨ys, w, rfl⟩
        · simp at hin
        · rw [hlast] at hv
          have hw : v ≠ w := by simpa using hv
          have hys : v ∈ ys := by simpa [hw] using hin
          have h1 := (List.pairwise_append.1 hxs).2.2 v hys w (by simp)
          exact hw (before_antisymm (hxv w (by simp) v (by simp)) h1)
      rw [if_pos hv]
      refine ⟨fun h => by simp at h, by simp [hnum], by simp, fun ys w he => ?_, ?_⟩
      · obtain ⟨rfl, rfl⟩ := hsplit ys w he
        have hcond : ¬ (w = [] ∧ ∀ u ∈ ys, u = []) := by
          rintro ⟨rfl, hall⟩
          rcases List.eq_nil_or_concat' ys with rfl | ⟨zs, z, rfl⟩
          · exact hv hlast.symm
          · exact hnew (hall z (by simp) ▸ by simp)
        have hfilter : ys.filter (· ≠ w) = ys :=
          List.filter_eq_self.2 fun u hu => by simpa using fun heq : u = w => hnew (heq ▸ hu)
        rw [if_neg hcond, hfilter]
        simp [hnum, Nat.add_comm]
      · have hcard : (xs ++ [v]).dedup.length = xs.dedup.length + 1 := by
          rw [← List.card_toFinset, ← List.card_toFinset, List.toFinset_append]
          simp [hnew]
        rw [hcard, ← hdense]
        cases xs with
        | nil =>
          have hne : v ≠ [] := fun hn => hv (hn.trans hlast.symm)
          simp [hne]
        | cons x xs => simp [Nat.add_right_comm]

/-! ## The number of a row -/

/-- The order values of the earlier rows of a row's partition. -/
def earlierVals (wq : WindowQuery) (pre : List Fields) (r : Fields) : List Bytes :=
  (pre.filter fun r' => wq.seenPartition r' = wq.seenPartition r).map wq.seen

/-- The number that a row gets behind others. -/
def numberAt (wq : WindowQuery) (pre : List Fields) (r : Fields) : Nat :=
  (((earlierVals wq pre r ++ [wq.seen r]).foldl stepVal WindowState.start)).number wq.func

theorem windowSweep_append (wq : WindowQuery) (st : Bytes × WindowState) (l l' : List Fields) :
    windowSweep wq st (l ++ l') = windowSweep wq st l ++
      windowSweep wq (l.foldl (sweepStep wq.partition WindowState.start (WindowState.step wq)) st)
        l' := by
  induction l generalizing st with
  | nil => rfl
  | cons r l ih => simp [windowSweep, ih]

theorem length_windowSweep (wq : WindowQuery) (st : Bytes × WindowState) (l : List Fields) :
    (windowSweep wq st l).length = l.length := by
  induction l generalizing st with
  | nil => rfl
  | cons r l ih => simp [windowSweep, ih]

/-- The record that a sorted list of rows gives for a row of it. -/
theorem execWindow_at (wq : WindowQuery) {pre post : List Fields} {r : Fields}
    (h : (pre ++ r :: post).Pairwise fun a b => wq.rowLess b a = false) :
    (execWindow wq (pre ++ r :: post))[pre.length]? =
      some ⟨wq.seen r, decimal (numberAt wq pre r)⟩ := by
  have hpart : (pre ++ r :: post).Pairwise fun a b => wq.seenPartition a ≤ wq.seenPartition b := by
    refine h.imp fun {a b} hab => ?_
    rw [← Bool.not_eq_true, rowLess_iff, not_or, not_lt] at hab
    exact hab.1
  obtain ⟨hpre, -, hcross⟩ := List.pairwise_append.1 hpart
  have hstate := sweep_state wq.partition WindowState.start (WindowState.step wq) []
    (l := pre.map wq.reduced) (k := wq.partition (wq.reduced r))
    (List.pairwise_map.2 (by simpa [partition_reduced] using hpre)) (by
      intro a ha
      obtain ⟨z, hz, rfl⟩ := List.mem_map.1 ha
      simpa [partition_reduced] using hcross z hz r (by simp))
  have hstep (st : WindowState) (l : List Fields) :
      (l.map wq.reduced).foldl (WindowState.step wq) st = (l.map wq.seen).foldl stepVal st := by
    rw [List.foldl_map, List.foldl_map]
    congr 1
    funext st r
    simp [WindowState.step, stepVal, orderVal_reduced]
  rw [List.filter_map, hstep] at hstate
  unfold execWindow
  rw [List.map_append, List.map_cons, windowSweep_append, List.getElem?_append_right (by
    simp [length_windowSweep]), length_windowSweep, List.length_map, Nat.sub_self]
  simp only [windowSweep, List.getElem?_cons_zero, sweepStep, hstate]
  have hlast (st : WindowState) :
      WindowState.step wq st (wq.reduced r) = stepVal st (wq.seen r) := by
    simp [WindowState.step, stepVal, orderVal_reduced]
  have hkey : fieldVal (wq.reduced r) (ascii "key") = wq.seen r := fieldVal_rowFields _ _
  rw [hlast, hkey]
  simp only [numberAt, earlierVals, List.foldl_append, List.foldl_cons, List.foldl_nil,
    Function.comp_def, partition_reduced]

/-! ## The definitions -/

/-- The partition of a row, and what it is ordered by, in the columns of the table. -/
def WindowQuery.partitionOf (wq : WindowQuery) (r : Fields) : Bytes :=
  if wq.partitionCol = [] then [] else lookupColumn [] wq.partitionCol r

def WindowQuery.orderOf (wq : WindowQuery) (r : Fields) : Bytes :=
  lookupColumn [] (if wq.orderCol = [] then ascii "key" else wq.orderCol) r

/-- The rows of a row's partition that are strictly before it. -/
def rowsBefore (wq : WindowQuery) (rows : List Fields) (r : Fields) : List Fields :=
  rows.filter fun r' =>
    wq.partitionOf r' = wq.partitionOf r && wq.before (wq.orderOf r') (wq.orderOf r)

/-- The number of a row behind those of `pre`, by its definition. -/
def definedNumber (wq : WindowQuery) (rows pre : List Fields) (r : Fields) : Nat :=
  match wq.func with
  | .kRowNumber => 1 + (pre.filter fun r' => wq.partitionOf r' = wq.partitionOf r).length
  | .kRank => 1 + (rowsBefore wq rows r).length
  | .kDenseRank => 1 + ((rowsBefore wq rows r).map wq.orderOf).dedup.length

/-- Whatever order the sort leaves, each row is given the number it has by the definition, and rows
are numbered in the order of their partition. -/
def WindowDefined (wq : WindowQuery) (rows : List Fields) : Prop :=
  ∀ pre r post, SortedBy wq.rowLess rows (pre ++ r :: post) →
    ((execWindow wq (pre ++ r :: post))[pre.length]?.map (·.value) =
      some (decimal (definedNumber wq rows pre r))) ∧
    (wq.func = .kRowNumber → ∀ r' ∈ pre, wq.partitionOf r' = wq.partitionOf r →
      wq.before (wq.orderOf r) (wq.orderOf r') = false)

/-- The rows that the records put strictly before a row. -/
def seenBefore (wq : WindowQuery) (rows : List Fields) (r : Fields) : List Fields :=
  rows.filter fun r' =>
    wq.seenPartition r' = wq.seenPartition r && wq.before (wq.seen r') (wq.seen r)

/-- No partition begins with an empty order value. -/
def NoEmptyFirst (wq : WindowQuery) (rows : List Fields) : Prop :=
  ∀ r ∈ rows, wq.seen r = [] → seenBefore wq rows r ≠ []

/-- What the records keep of the partitions and their order is enough for the function. -/
def WindowFits (wq : WindowQuery) (rows : List Fields) : Prop :=
  match wq.func with
  | .kRowNumber => KeyFits wq.seenPartition wq.partitionOf rows ∧
      ∀ a b, [a, b].Subperm rows → wq.rowLess b a = false → wq.partitionOf a = wq.partitionOf b →
        wq.before (wq.orderOf b) (wq.orderOf a) = false
  | .kRank => NoEmptyFirst wq rows ∧
      ∀ r ∈ rows, (seenBefore wq rows r).length = (rowsBefore wq rows r).length
  | .kDenseRank => NoEmptyFirst wq rows ∧
      ∀ r ∈ rows, ((seenBefore wq rows r).map wq.seen).dedup.length =
        ((rowsBefore wq rows r).map wq.orderOf).dedup.length

/-! ## The numbers given -/

section

variable {wq : WindowQuery} {rows pre post : List Fields} {r : Fields}
  (h : SortedBy wq.rowLess rows (pre ++ r :: post))
include h

/-- The earlier rows of the partition with another order value are those strictly before. -/
theorem earlierVals_ne : (earlierVals wq pre r).filter (· ≠ wq.seen r) =
    (seenBefore wq pre r).map wq.seen ∧ (seenBefore wq pre r).Perm (seenBefore wq rows r) := by
  obtain ⟨-, hcons, hcross⟩ := List.pairwise_append.1 h.sorted
  have hle (r' : Fields) (hr' : r' ∈ pre) (hp : wq.seenPartition r' = wq.seenPartition r) :
      wq.before (wq.seen r) (wq.seen r') = false := by
    have hless := hcross r' hr' r (by simp)
    rw [← Bool.not_eq_true, rowLess_iff, not_or] at hless
    simpa [hp] using hless.2
  constructor
  · unfold earlierVals seenBefore
    rw [List.filter_map, List.filter_filter]
    congr 1
    refine List.filter_congr fun r' hr' => ?_
    by_cases hp : wq.seenPartition r' = wq.seenPartition r
    · have hsorted := hle r' hr' hp
      cases hb : wq.before (wq.seen r') (wq.seen r)
      · simp [hp, before_antisymm hb hsorted]
      · have hne : wq.seen r' ≠ wq.seen r := fun he => by
          rw [he, before_irrefl] at hb
          cases hb
        simp [hp, hne]
    · simp [hp]
  · refine List.Perm.trans ?_ (h.perm.filter _)
    unfold seenBefore
    rw [List.filter_append]
    have hpost : ((r :: post).filter fun r' =>
        wq.seenPartition r' = wq.seenPartition r && wq.before (wq.seen r') (wq.seen r)) = [] := by
      refine List.filter_eq_nil_iff.2 fun r' hr' => ?_
      rcases List.mem_cons.1 hr' with rfl | hr'
      · simp [before_irrefl]
      · have hless := (List.pairwise_cons.1 hcons).1 r' hr'
        rw [← Bool.not_eq_true, rowLess_iff, not_or] at hless
        by_cases hp : wq.seenPartition r' = wq.seenPartition r
        · have := hless.2
          simp only [hp, true_and] at this
          simp [this]
        · simp [hp]
    rw [hpost, List.append_nil]

/-- The order values of a partition, up to a row, are in order. -/
theorem earlierVals_sorted : (earlierVals wq pre r ++ [wq.seen r]).Pairwise
    fun u v => wq.before v u = false := by
  have hless : ∀ a b, wq.seenPartition a = wq.seenPartition b → wq.rowLess b a = false →
      wq.before (wq.seen b) (wq.seen a) = false := by
    intro a b hp hl
    rw [← Bool.not_eq_true, rowLess_iff, not_or] at hl
    simpa [hp] using hl.2
  obtain ⟨hpre, -, hcross⟩ := List.pairwise_append.1 h.sorted
  refine List.pairwise_append.2 ⟨List.pairwise_map.2 ?_, List.pairwise_singleton _ _, ?_⟩
  · refine ((hpre.filter _).imp_of_mem ?_)
    intro a b ha hb hl
    have hpa : wq.seenPartition a = wq.seenPartition r := by simpa using (List.mem_filter.1 ha).2
    have hpb : wq.seenPartition b = wq.seenPartition r := by simpa using (List.mem_filter.1 hb).2
    exact hless a b (hpa.trans hpb.symm) hl
  · intro u hu v hv
    obtain ⟨a, ha, rfl⟩ := List.mem_map.1 hu
    obtain rfl := List.mem_singleton.1 hv
    obtain ⟨hin, hpa⟩ := List.mem_filter.1 ha
    exact hless a r (by simpa using hpa) (hcross a hin r (by simp))

theorem numberAt_state :
    PartitionState (earlierVals wq pre r ++ [wq.seen r])
      ((earlierVals wq pre r ++ [wq.seen r]).foldl stepVal WindowState.start) :=
  partitionState wq (earlierVals_sorted h)

theorem seenBefore_nil_iff : seenBefore wq rows r = [] ↔
    (earlierVals wq pre r).filter (· ≠ wq.seen r) = [] := by
  obtain ⟨hvals, hperm⟩ := earlierVals_ne h
  rw [hvals, List.map_eq_nil_iff]
  exact ⟨fun hn => (hn ▸ hperm).eq_nil, fun hn => (hn ▸ hperm).symm.eq_nil⟩

theorem numberAt_rowNumber (hf : wq.func = .kRowNumber) : numberAt wq pre r =
    1 + (pre.filter fun r' => wq.seenPartition r' = wq.seenPartition r).length := by
  rw [numberAt, hf, WindowState.number, (numberAt_state h).rowNum]
  simp [earlierVals, Nat.add_comm]

theorem numberAt_rank (hf : wq.func = .kRank) : numberAt wq pre r =
    if wq.seen r = [] ∧ seenBefore wq rows r = [] then 0
    else 1 + (seenBefore wq rows r).length := by
  obtain ⟨hvals, hperm⟩ := earlierVals_ne h
  have hempty : (wq.seen r = [] ∧ ∀ u ∈ earlierVals wq pre r, u = []) ↔
      wq.seen r = [] ∧ seenBefore wq rows r = [] := by
    rw [seenBefore_nil_iff h, List.filter_eq_nil_iff]
    refine and_congr_right fun hr => forall₂_congr fun u _ => ?_
    simp [hr]
  rw [numberAt, hf, WindowState.number, (numberAt_state h).rank _ _ rfl, hvals, List.length_map,
    hperm.length_eq]
  simp only [hempty]

/-- The dense number counts the values up to the row, but for an empty one at the start. -/
theorem numberAt_dense (hf : wq.func = .kDenseRank) : numberAt wq pre r +
    (if (earlierVals wq pre r ++ [wq.seen r]).head? = some [] then 1 else 0) =
      1 + ((seenBefore wq rows r).map wq.seen).dedup.length := by
  obtain ⟨hvals, hperm⟩ := earlierVals_ne h
  rw [numberAt, hf, WindowState.number, (numberAt_state h).dense,
    ← (hperm.map wq.seen).dedup.length_eq, ← hvals, ← List.card_toFinset, ← List.card_toFinset]
  have hset : (earlierVals wq pre r ++ [wq.seen r]).toFinset =
      insert (wq.seen r) ((earlierVals wq pre r).filter (· ≠ wq.seen r)).toFinset := by
    ext u
    simp only [List.mem_toFinset, List.mem_append, List.mem_singleton, Finset.mem_insert,
      List.mem_filter, ne_eq, decide_not, Bool.not_eq_true', decide_eq_false_iff_not]
    tauto
  rw [hset, Finset.card_insert_of_notMem (by simp), Nat.add_comm]

/-- Where no partition begins with an empty order value, the values up to a row do not. -/
theorem head_ne_nil (hempty : NoEmptyFirst wq rows) :
    (earlierVals wq pre r ++ [wq.seen r]).head? ≠ some [] := by
  intro hhead
  have hsorted := earlierVals_sorted h
  cases hvals : earlierVals wq pre r with
  | nil =>
    rw [hvals] at hhead
    have hr : wq.seen r = [] := by simpa using hhead
    refine hempty r (h.perm.subset (by simp)) hr ((seenBefore_nil_iff h).2 ?_)
    rw [hvals]
    rfl
  | cons v vs =>
    rw [hvals] at hhead hsorted
    obtain rfl : v = [] := by simpa using hhead
    have hin : ([] : Bytes) ∈ earlierVals wq pre r := by rw [hvals]; simp
    obtain ⟨r₀, hr₀, hseen⟩ := List.mem_map.1 hin
    obtain ⟨hpre, hp₀⟩ := List.mem_filter.1 hr₀
    have hp₀ : wq.seenPartition r₀ = wq.seenPartition r := by simpa using hp₀
    obtain ⟨r', hr'⟩ := List.exists_mem_of_ne_nil _
      (hempty r₀ (h.perm.subset (by simp [hpre])) hseen)
    obtain ⟨hrows, hr'⟩ := List.mem_filter.1 hr'
    simp only [hseen, Bool.and_eq_true, decide_eq_true_eq] at hr'
    -- the row before the empty value is among the earlier ones, behind which that value stands
    have hbefore : wq.before (wq.seen r') (wq.seen r) = true := by
      by_contra hb
      rw [Bool.not_eq_true] at hb
      have hrv : wq.before (wq.seen r) [] = false :=
        (List.pairwise_cons.1 hsorted).1 _ (by simp)
      have := (before_isSortOrder wq (id : Bytes → Bytes)).trans [] (wq.seen r) (wq.seen r') hrv hb
      simp only [id] at this
      rw [this] at hr'
      exact absurd hr'.2 (by decide)
    have hmem : r' ∈ seenBefore wq pre r := (earlierVals_ne h).2.symm.subset
      (List.mem_filter.2 ⟨hrows, by simp [hr'.1.trans hp₀, hbefore]⟩)
    have hval : wq.seen r' ∈ earlierVals wq pre r := by
      have hin' := List.mem_map_of_mem (f := wq.seen) hmem
      rw [← (earlierVals_ne h).1] at hin'
      exact (List.mem_filter.1 hin').1
    rw [hvals] at hval
    have hfalse : wq.before (wq.seen r') [] = false := by
      rcases List.mem_cons.1 hval with heq | hvs
      · rw [heq]
        exact before_irrefl wq []
      · exact (List.pairwise_cons.1 hsorted).1 _ (List.mem_append_left _ hvs)
    rw [hfalse] at hr'
    exact absurd hr'.2 (by decide)

end

/-! ## When the numbers are those defined -/

/-- The numbers of the records, as the definition of `WindowDefined` asks for them. -/
theorem windowDefined_iff (wq : WindowQuery) (rows : List Fields) : WindowDefined wq rows ↔
    ∀ pre r post, SortedBy wq.rowLess rows (pre ++ r :: post) →
      numberAt wq pre r = definedNumber wq rows pre r ∧
      (wq.func = .kRowNumber → ∀ r' ∈ pre, wq.partitionOf r' = wq.partitionOf r →
        wq.before (wq.orderOf r) (wq.orderOf r') = false) := by
  unfold WindowDefined
  refine forall_congr' fun pre => forall₂_congr fun r post => forall_congr' fun h => ?_
  rw [execWindow_at wq h.sorted]
  refine and_congr ⟨fun heq => ?_, fun heq => by rw [heq]; rfl⟩ Iff.rfl
  exact decimal_injective (Option.some.inj heq)

/-- Every row stands somewhere in an outcome of the sort. -/
theorem exists_split (wq : WindowQuery) {rows : List Fields} {r : Fields} (hr : r ∈ rows) :
    ∃ pre post, SortedBy wq.rowLess rows (pre ++ r :: post) := by
  have hs := mergeSort_sortedBy (rowLess_isSortOrder wq) rows
  obtain ⟨pre, post, heq⟩ := List.append_of_mem (hs.perm.symm.subset hr)
  exact ⟨pre, post, heq ▸ hs⟩

theorem rank_iff (wq : WindowQuery) (rows : List Fields) (hf : wq.func = .kRank) :
    WindowDefined wq rows ↔ WindowFits wq rows := by
  rw [windowDefined_iff]
  simp only [WindowFits, definedNumber, hf, reduceCtorEq, false_imp_iff, and_true]
  constructor
  · intro hall
    have hrow : ∀ r ∈ rows, (if wq.seen r = [] ∧ seenBefore wq rows r = [] then 0
        else 1 + (seenBefore wq rows r).length) = 1 + (rowsBefore wq rows r).length := by
      intro r hr
      obtain ⟨pre, post, h⟩ := exists_split wq hr
      rw [← numberAt_rank h hf]
      exact hall pre r post h
    have hempty : NoEmptyFirst wq rows := by
      intro r hr hseen hnil
      have := hrow r hr
      rw [if_pos ⟨hseen, hnil⟩] at this
      omega
    refine ⟨hempty, fun r hr => ?_⟩
    have := hrow r hr
    rw [if_neg fun hc => hempty r hr hc.1 hc.2] at this
    omega
  · rintro ⟨hempty, hlen⟩ pre r post h
    have hr : r ∈ rows := h.perm.subset (by simp)
    rw [numberAt_rank h hf, if_neg fun hc => hempty r hr hc.1 hc.2, hlen r hr]

theorem dense_iff (wq : WindowQuery) (rows : List Fields) (hf : wq.func = .kDenseRank) :
    WindowDefined wq rows ↔ WindowFits wq rows := by
  rw [windowDefined_iff]
  simp only [WindowFits, definedNumber, hf, reduceCtorEq, false_imp_iff, and_true]
  constructor
  · intro hall
    have hempty : NoEmptyFirst wq rows := by
      intro r hr hseen hnil
      obtain ⟨pre, post, h⟩ := exists_split wq hr
      have hnum := numberAt_dense h hf
      have hvals := (seenBefore_nil_iff h).1 hnil
      -- all values up to the row are empty, and so is the first
      have hhead : (earlierVals wq pre r ++ [wq.seen r]).head? = some [] := by
        cases hv : earlierVals wq pre r with
        | nil => simp [hseen]
        | cons v vs =>
          rw [hv, hseen, List.filter_eq_nil_iff] at hvals
          have := hvals v (by simp)
          simpa using this
      rw [if_pos hhead, hnil, hall pre r post h] at hnum
      simp at hnum
    refine ⟨hempty, fun r hr => ?_⟩
    obtain ⟨pre, post, h⟩ := exists_split wq hr
    have hnum := numberAt_dense h hf
    rw [if_neg (head_ne_nil h hempty), hall pre r post h] at hnum
    omega
  · rintro ⟨hempty, hlen⟩ pre r post h
    have hr : r ∈ rows := h.perm.subset (by simp)
    have hnum := numberAt_dense h hf
    rw [if_neg (head_ne_nil h hempty), hlen r hr] at hnum
    omega

section RowNumber

variable {wq : WindowQuery} {rows : List Fields} (hf : wq.func = .kRowNumber)
  (hdef : WindowDefined wq rows)
include hf hdef

/-- The earlier rows of a partition, as the records and as the table have them, are as many. -/
theorem length_earlier {pre post : List Fields} {r : Fields}
    (h : SortedBy wq.rowLess rows (pre ++ r :: post)) :
    (pre.filter fun r' => wq.seenPartition r' = wq.seenPartition r).length =
      (pre.filter fun r' => wq.partitionOf r' = wq.partitionOf r).length := by
  have hnum := ((windowDefined_iff wq rows).1 hdef pre r post h).1
  rw [numberAt_rowNumber h hf] at hnum
  simp only [definedNumber, hf] at hnum
  exact Nat.add_left_cancel hnum

/-- Rows whose records have one partition stand next to each other in some outcome, and there the
second is counted behind the first. -/
theorem partitionOf_eq {a b : Fields} (ha : a ∈ rows) (hb : b ∈ rows)
    (hab : wq.seenPartition a = wq.seenPartition b) : wq.partitionOf a = wq.partitionOf b := by
  by_cases hcol : wq.partitionCol = []
  · simp [WindowQuery.partitionOf, hcol]
  by_cases hne : a = b
  · rw [hne]
  have hseen : wq.seen a = wq.seen b := by simpa [WindowQuery.seenPartition, hcol] using hab
  have htie : wq.rowLess a b = false ∧ wq.rowLess b a = false := by
    simp only [← Bool.not_eq_true, rowLess_iff, hab, hseen, before_irrefl]
    simp
  obtain ⟨rest, hperm⟩ := exists_perm_pair ha hb hne
  obtain ⟨pre, post, h₁, h₂⟩ :=
    exists_sortedBy_tie (rowLess_isSortOrder wq) hperm htie.1 htie.2
  have h₁' : SortedBy wq.rowLess rows ((pre ++ [a]) ++ b :: post) := by simpa using h₁
  have hfirst := length_earlier hf hdef h₂
  have hsecond := length_earlier hf hdef h₁'
  rw [List.filter_append, List.filter_append, List.length_append, List.length_append, hfirst]
    at hsecond
  by_contra hpart
  simp [hab, hpart] at hsecond

/-- The last row of a partition is counted behind all others of it. -/
theorem seenPartition_eq {a b : Fields} (ha : a ∈ rows) (hb : b ∈ rows)
    (hab : wq.partitionOf a = wq.partitionOf b) : wq.seenPartition a = wq.seenPartition b := by
  obtain ⟨pre₀, post₀, h⟩ := exists_split wq ha
  have hsome : ∃ r ∈ pre₀ ++ a :: post₀, wq.partitionOf r = wq.partitionOf a :=
    ⟨a, by simp, rfl⟩
  obtain ⟨pre, r, post, heq, hr, hpost⟩ := exists_last _ hsome
  rw [heq] at h
  have hin (c : Fields) (hc : c ∈ pre ++ r :: post) : c ∈ rows := h.perm.subset hc
  -- of the earlier rows of the partition none is missing in the records
  have hlen := length_earlier hf hdef h
  have hsub : (pre.filter fun r' => wq.seenPartition r' = wq.seenPartition r) =
      (pre.filter fun r' => wq.partitionOf r' = wq.partitionOf r).filter
        fun r' => wq.seenPartition r' = wq.seenPartition r := by
    rw [List.filter_filter]
    refine List.filter_congr fun c hc => ?_
    by_cases hs : wq.seenPartition c = wq.seenPartition r
    · simp [hs, partitionOf_eq hf hdef (hin c (by simp [hc])) (hin r (by simp)) hs]
    · simp [hs]
  rw [hsub, List.length_filter_eq_length_iff] at hlen
  have hall (c : Fields) (hc : c ∈ rows) (hp : wq.partitionOf c = wq.partitionOf a) :
      wq.seenPartition c = wq.seenPartition r := by
    rcases List.mem_append.1 (h.perm.symm.subset hc) with hpre | hcons
    · simpa using hlen c (List.mem_filter.2 ⟨hpre, by simp [hp, hr]⟩)
    · rcases List.mem_cons.1 hcons with rfl | hin'
      · rfl
      · exact absurd hp (hpost c hin')
  rw [hall a ha rfl, hall b hb hab.symm]

end RowNumber

theorem rowNumber_iff (wq : WindowQuery) (rows : List Fields) (hf : wq.func = .kRowNumber) :
    WindowDefined wq rows ↔ WindowFits wq rows := by
  constructor
  · intro hdef
    simp only [WindowFits, hf]
    refine ⟨fun a ha b hb => ⟨partitionOf_eq hf hdef ha hb, seenPartition_eq hf hdef ha hb⟩,
      fun a b hsub hless hpart => ?_⟩
    obtain ⟨out, hout, hpair⟩ := exists_sortedBy_pair (rowLess_isSortOrder wq) hsub hless
    obtain ⟨pre, post, rfl, ha⟩ := exists_split_of_pair hpair
    exact ((windowDefined_iff wq rows).1 hdef pre b post hout).2 hf a ha hpart
  · intro hfits
    simp only [WindowFits, hf] at hfits
    obtain ⟨hkey, hord⟩ := hfits
    rw [windowDefined_iff]
    refine fun pre r post h => ⟨?_, fun _ r' hr' hpart => ?_⟩
    · rw [numberAt_rowNumber h hf]
      simp only [definedNumber, hf]
      congr 2
      refine List.filter_congr fun c hc => ?_
      have := hkey c (h.perm.subset (by simp [hc])) r (h.perm.subset (by simp))
      simp [this]
    · refine hord r' r ?_ ((List.pairwise_append.1 h.sorted).2.2 r' hr' r (by simp)) hpart
      have hpair : [r', r].Sublist (pre ++ r :: post) :=
        (List.singleton_sublist.2 hr').append (List.singleton_sublist.2 (by simp))
      exact hpair.subperm.trans h.perm.subperm

/-- Each row gets the number of its definition, whatever order the sort leaves, exactly if what the
records keep of the rows is enough. -/
theorem window_iff (wq : WindowQuery) (rows : List Fields) :
    WindowDefined wq rows ↔ WindowFits wq rows := by
  cases hf : wq.func with
  | kRowNumber => exact rowNumber_iff wq rows hf
  | kRank => exact rank_iff wq rows hf
  | kDenseRank => exact dense_iff wq rows hf

/-- Two rows of one department: both are the first of theirs, since the records of
`ROW_NUMBER() OVER (PARTITION BY dept)` hold no department but only the value. -/
theorem window_dept : ¬ ∀ wq rows, WindowDefined wq rows := by
  intro hall
  let row (value : Bytes) : Fields :=
    (SortedMap.empty.insert (ascii "dept") (ascii "sales")).insert (ascii "value") value
  let wq : WindowQuery := ⟨.kRowNumber, ascii "row_number", ascii "dept", [], false⟩
  have hfits := (rowNumber_iff wq [row (ascii "x"), row (ascii "y")] rfl).1 (hall _ _)
  have hkey : wq.seenPartition (row (ascii "x")) = wq.seenPartition (row (ascii "y")) :=
    (hfits.1 _ (by simp) _ (by simp)).2 (by decide +kernel)
  exact absurd hkey (by decide +kernel)

end EBTree.Sql
