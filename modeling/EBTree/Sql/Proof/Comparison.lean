import Mathlib.Data.Rat.Cast.Order
import EBTree.Sql.Proof.Aggregate
import EBTree.Sql.Proof.ExprAgreement

/-!
# The order of values

`compareSqlValues` orders two numbers as numbers, and everything else by its text (`LessValue`);
whether two values are equal it decides by their kinds and the type of the column (`sqlEqual`). The
floating point numbers are taken to be exact (`ExactNumbers`).

On a list of values the comparison is one order exactly if the equality of any two is that of the
order, and no text stands between two numbers that the order has the other way round
(`coherent_iff`).
-/

set_option autoImplicit false

namespace EBTree.Sql

open Lib

variable {rt : Runtime}

/-- The numbers of the runtime are rational numbers, and one that is printed is spelled as one. -/
structure ExactNumbers (rt : Runtime) (val : rt.Real → ℚ) : Prop where
  lt : ∀ x y, rt.lt x y = decide (val x < val y)
  le : ∀ x y, rt.le x y = decide (val x ≤ val y)
  eq : ∀ x y, rt.eq x y = decide (val x = val y)
  ofInt : ∀ i : Int64, val (rt.ofInt i) = i.toInt
  toInt : ∀ i : Int64, rt.toInt (rt.ofInt i) = i
  printed : ∀ x, isIntegerText (rt.print x) = true ∨ isRealText rt (rt.print x) = true

/-! ## Kinds of values -/

/-- A number, by its kind or its spelling. -/
def SqlValue.isNumber (v : SqlValue rt) : Bool :=
  decide (v.affinity = .kInteger ∨ v.affinity = .kReal)

/-- A value that is not NULL, whose text is no number and does not read as one. -/
structure SqlValue.Plain (v : SqlValue rt) : Prop where
  notNull : v.isNull = false
  affinity : v.affinity ≠ .kNull
  text : v.isNumber = false → ∃ t, v = .text t ∧ isIntegerText t = false ∧
    isRealText rt t = false ∧ t.getD (rt.strtod t).2 0 ≠ 0

theorem text_plain {t : Bytes} (ht : t ≠ []) (hz : (0 : UInt8) ∉ t) :
    (@SqlValue.text rt t).Plain where
  notNull := rfl
  affinity := by
    simp only [SqlValue.affinity, if_neg ht]
    split
    · simp
    · split <;> simp
  text := by
    intro hn
    have hint : isIntegerText t = false := by
      by_contra h
      simp [SqlValue.isNumber, SqlValue.affinity, ht, h] at hn
    have hreal : isRealText rt t = false := by
      by_contra h
      simp [SqlValue.isNumber, SqlValue.affinity, ht, hint, h] at hn
    refine ⟨t, rfl, hint, hreal, fun h => ?_⟩
    by_cases hzero : (rt.strtod t).2 = 0
    · cases t with
      | nil => exact ht rfl
      | cons c t =>
        rw [hzero] at h
        exact hz (by simp at h; simp [h])
    · simp [isRealText, hzero] at hreal
      exact hreal (by simpa using h)

theorem ofBytes_plain {s : Bytes} (hs : s ≠ []) (hz : (0 : UInt8) ∉ s) :
    (@SqlValue.ofBytes rt s).Plain := by
  have hnumber (v : SqlValue rt) (hv : v.isNull = false) (ha : v.isNumber = true) : v.Plain :=
    ⟨hv, fun h => by simp [SqlValue.isNumber, h] at ha, fun h => by simp [ha] at h⟩
  rw [SqlValue.ofBytes, if_neg hs]
  split
  · split
    · exact text_plain hs hz
    · exact hnumber _ rfl rfl
  · split
    · exact hnumber _ rfl rfl
    · exact text_plain hs hz

theorem isIntegerText_signedDecimal (i : Int64) : isIntegerText (signedDecimal i) = true :=
  isIntegerText_intText i.toInt

section

variable {val : rt.Real → ℚ} (hx : ExactNumbers rt val)
include hx

/-- A number and a text that is none never have one spelling. -/
theorem toBytes_ne {a b : SqlValue rt} (ha : a.isNumber = true) (hpa : a.Plain)
    (hb : b.isNumber = false) (hpb : b.Plain) : a.toBytes ≠ b.toBytes := by
  obtain ⟨t, rfl, hint, hreal, -⟩ := hpb.text hb
  intro h
  cases a with
  | null => cases hpa.notNull
  | integer i =>
    have hi := isIntegerText_signedDecimal i
    rw [show signedDecimal i = t from h, hint] at hi
    cases hi
  | real r =>
    have hr := hx.printed r
    rw [show rt.print r = t from h, hint, hreal] at hr
    simp at hr
  | text t' =>
    obtain rfl : t' = t := h
    rw [ha] at hb
    cases hb

end

/-! ## The two tests -/

/-- The order: of numbers as numbers, of anything else by its text. -/
def LessValue (val : rt.Real → ℚ) (a b : SqlValue rt) : Prop :=
  if a.isNumber && b.isNumber then val a.asReal < val b.asReal else a.toBytes < b.toBytes

/-- Neither of two values is less. -/
def SameValue (val : rt.Real → ℚ) (a b : SqlValue rt) : Prop :=
  if a.isNumber && b.isNumber then val a.asReal = val b.asReal else a.toBytes = b.toBytes

/-- The equality of `=`. -/
def sqlEqual (hint : TypeAffinity) (a b : SqlValue rt) : Bool :=
  match combinedAffinity hint (combinedAffinity a.affinity b.affinity) with
  | .kInteger => rt.toInt a.asReal = rt.toInt b.asReal
  | .kReal => rt.eq a.asReal b.asReal
  | _ => a.toBytes = b.toBytes

theorem same_iff (val : rt.Real → ℚ) (a b : SqlValue rt) :
    SameValue val a b ↔ ¬ LessValue val a b ∧ ¬ LessValue val b a := by
  unfold SameValue LessValue
  rw [Bool.and_comm b.isNumber]
  split
  · exact ⟨fun h => by simp [h], fun h => le_antisymm (not_lt.1 h.2) (not_lt.1 h.1)⟩
  · exact ⟨fun h => by simp [h], fun h => le_antisymm (not_lt.1 h.2) (not_lt.1 h.1)⟩

theorem LessValue.asymm {val : rt.Real → ℚ} {a b : SqlValue rt} (h : LessValue val a b) :
    ¬ LessValue val b a := by
  unfold LessValue at *
  rw [Bool.and_comm b.isNumber]
  by_cases hn : (a.isNumber && b.isNumber) = true
  · rw [if_pos hn] at h ⊢
    exact not_lt.2 h.le
  · rw [if_neg hn] at h ⊢
    exact not_lt.2 (le_of_lt h)

theorem compare_equal {a b : SqlValue rt} (ha : a.isNull = false) (hb : b.isNull = false)
    (hint : TypeAffinity) :
    compareSqlValues a b .kEq hint = truthOf (sqlEqual hint a b) ∧
      compareSqlValues a b .kNe hint = truthOf !sqlEqual hint a b := by
  unfold compareSqlValues
  rw [ha, hb]
  exact ⟨rfl, rfl⟩

/-- A comparison by an order: of numbers, of texts that both read as one, or of texts. -/
theorem compare_eq_order {a b : SqlValue rt} (ha : a.isNull = false) (hb : b.isNull = false)
    (hint : TypeAffinity) {op : BinaryOp} (hop : op ∈ [.kLt, .kLe, .kGt, .kGe]) :
    compareSqlValues a b op hint =
      if a.isNumber && b.isNumber then
        orderTruth op (rt.lt a.asReal b.asReal) (rt.le a.asReal b.asReal)
          (rt.lt b.asReal a.asReal) (rt.le b.asReal a.asReal)
      else if a.toBytes.getD (rt.strtod a.toBytes).2 0 = 0 ∧
          b.toBytes.getD (rt.strtod b.toBytes).2 0 = 0 then
        orderTruth op (rt.lt (rt.strtod a.toBytes).1 (rt.strtod b.toBytes).1)
          (rt.le (rt.strtod a.toBytes).1 (rt.strtod b.toBytes).1)
          (rt.lt (rt.strtod b.toBytes).1 (rt.strtod a.toBytes).1)
          (rt.le (rt.strtod b.toBytes).1 (rt.strtod a.toBytes).1)
      else orderTruth op (decide (a.toBytes < b.toBytes)) (decide (a.toBytes ≤ b.toBytes))
        (decide (b.toBytes < a.toBytes)) (decide (b.toBytes ≤ a.toBytes)) := by
  simp only [List.mem_cons, List.not_mem_nil, or_false] at hop
  unfold compareSqlValues
  rw [ha, hb]
  obtain rfl | rfl | rfl | rfl := hop <;> rfl

/-- A value that is no number does not read as one. -/
theorem SqlValue.Plain.not_read {v : SqlValue rt} (hv : v.Plain) (hn : v.isNumber = false) :
    v.toBytes.getD (rt.strtod v.toBytes).2 0 ≠ 0 := by
  obtain ⟨t, rfl, -, -, ht⟩ := hv.text hn
  exact ht

theorem truthOf_eq_true (b : Bool) : truthOf b = .kTrue ↔ b = true := by cases b <;> decide

section

variable {val : rt.Real → ℚ} (hx : ExactNumbers rt val)
include hx

theorem compare_order {a b : SqlValue rt} (ha : a.Plain) (hb : b.Plain) (hint : TypeAffinity) :
    (compareSqlValues a b .kLt hint = .kTrue ↔ LessValue val a b) ∧
      (compareSqlValues a b .kLe hint = .kTrue ↔ ¬ LessValue val b a) ∧
      (compareSqlValues a b .kGt hint = .kTrue ↔ LessValue val b a) ∧
      (compareSqlValues a b .kGe hint = .kTrue ↔ ¬ LessValue val a b) := by
  simp only [@compare_eq_order rt _ _ ha.notNull hb.notNull hint .kLt (by simp),
    @compare_eq_order rt _ _ ha.notNull hb.notNull hint .kLe (by simp),
    @compare_eq_order rt _ _ ha.notNull hb.notNull hint .kGt (by simp),
    @compare_eq_order rt _ _ ha.notNull hb.notNull hint .kGe (by simp), LessValue,
    Bool.and_comm b.isNumber]
  by_cases hn : (a.isNumber && b.isNumber) = true
  · simp only [if_pos hn, orderTruth, truthOf_eq_true, hx.lt, hx.le, decide_eq_true_eq, not_lt,
      and_self]
  · have hread : ¬ (a.toBytes.getD (rt.strtod a.toBytes).2 0 = 0 ∧
        b.toBytes.getD (rt.strtod b.toBytes).2 0 = 0) := by
      rintro ⟨hra, hrb⟩
      rw [Bool.and_eq_true, not_and_or, Bool.not_eq_true, Bool.not_eq_true] at hn
      obtain hn | hn := hn
      · exact ha.not_read hn hra
      · exact hb.not_read hn hrb
    simp only [if_neg hn, if_neg hread, orderTruth, truthOf_eq_true, decide_eq_true_eq, not_lt,
      and_self]

end

/-! ## When the comparison is an order -/

/-- The equality of two values is that of the order. Two numbers: by their texts if the combined
affinity is that of text, by what is left of them as integers if it is that of integers. Otherwise
only the affinity of real numbers goes wrong: it takes one number for both texts. -/
def PairFits (val : rt.Real → ℚ) (hint : TypeAffinity) (a b : SqlValue rt) : Prop :=
  let aff := combinedAffinity hint (combinedAffinity a.affinity b.affinity)
  if a.isNumber && b.isNumber then
    match aff with
    | .kReal => True
    | .kInteger => rt.toInt a.asReal = rt.toInt b.asReal ↔ val a.asReal = val b.asReal
    | _ => a.toBytes = b.toBytes ↔ val a.asReal = val b.asReal
  else aff = .kReal → val a.asReal = val b.asReal → a.toBytes = b.toBytes

/-- A text that stands between the texts of two numbers finds them in the order of numbers. -/
def BetweenFits (val : rt.Real → ℚ) (a b t : SqlValue rt) : Prop :=
  a.isNumber = true → b.isNumber = true → t.isNumber = false →
    a.toBytes < t.toBytes → t.toBytes < b.toBytes → val a.asReal < val b.asReal

/-- The comparison on the values of a list. -/
structure Coherent (rt : Runtime) (hint : TypeAffinity) (l : List Bytes) : Prop where
  /-- Exactly one of `<`, `=` and `>` is true. -/
  one : ∀ x ∈ l, ∀ y ∈ l,
    let lt := @compareSqlValues rt (.ofBytes x) (.ofBytes y) .kLt hint = .kTrue
    let eq := @compareSqlValues rt (.ofBytes x) (.ofBytes y) .kEq hint = .kTrue
    let gt := @compareSqlValues rt (.ofBytes x) (.ofBytes y) .kGt hint = .kTrue
    lt ∧ ¬ eq ∧ ¬ gt ∨ ¬ lt ∧ eq ∧ ¬ gt ∨ ¬ lt ∧ ¬ eq ∧ gt
  le : ∀ x ∈ l, ∀ y ∈ l,
    @compareSqlValues rt (.ofBytes x) (.ofBytes y) .kLe hint = .kTrue ↔
      @compareSqlValues rt (.ofBytes x) (.ofBytes y) .kLt hint = .kTrue ∨
        @compareSqlValues rt (.ofBytes x) (.ofBytes y) .kEq hint = .kTrue
  ge : ∀ x ∈ l, ∀ y ∈ l,
    @compareSqlValues rt (.ofBytes x) (.ofBytes y) .kGe hint = .kTrue ↔
      @compareSqlValues rt (.ofBytes x) (.ofBytes y) .kGt hint = .kTrue ∨
        @compareSqlValues rt (.ofBytes x) (.ofBytes y) .kEq hint = .kTrue
  ne : ∀ x ∈ l, ∀ y ∈ l, @compareSqlValues rt (.ofBytes x) (.ofBytes y) .kNe hint =
    not3 (@compareSqlValues rt (.ofBytes x) (.ofBytes y) .kEq hint)
  eqSymm : ∀ x ∈ l, ∀ y ∈ l,
    @compareSqlValues rt (.ofBytes x) (.ofBytes y) .kEq hint = .kTrue →
      @compareSqlValues rt (.ofBytes y) (.ofBytes x) .kEq hint = .kTrue
  ltAsymm : ∀ x ∈ l, ∀ y ∈ l,
    @compareSqlValues rt (.ofBytes x) (.ofBytes y) .kLt hint = .kTrue →
      @compareSqlValues rt (.ofBytes y) (.ofBytes x) .kLt hint ≠ .kTrue
  eqTrans : ∀ x ∈ l, ∀ y ∈ l, ∀ z ∈ l,
    @compareSqlValues rt (.ofBytes x) (.ofBytes y) .kEq hint = .kTrue →
      @compareSqlValues rt (.ofBytes y) (.ofBytes z) .kEq hint = .kTrue →
        @compareSqlValues rt (.ofBytes x) (.ofBytes z) .kEq hint = .kTrue
  ltTrans : ∀ x ∈ l, ∀ y ∈ l, ∀ z ∈ l,
    @compareSqlValues rt (.ofBytes x) (.ofBytes y) .kLt hint = .kTrue →
      @compareSqlValues rt (.ofBytes y) (.ofBytes z) .kLt hint = .kTrue →
        @compareSqlValues rt (.ofBytes x) (.ofBytes z) .kLt hint = .kTrue

/-- The values of a list are compared by one order: their equality is its, and no text stands
between two numbers that are the other way round. -/
structure ComparisonFits (val : rt.Real → ℚ) (hint : TypeAffinity) (l : List Bytes) : Prop where
  pair : ∀ x ∈ l, ∀ y ∈ l, PairFits val hint (.ofBytes x) (.ofBytes y)
  between : ∀ x ∈ l, ∀ y ∈ l, ∀ z ∈ l, BetweenFits val (.ofBytes x) (.ofBytes y) (.ofBytes z)

section

variable {val : rt.Real → ℚ} (hx : ExactNumbers rt val)
include hx

/-- `=` is the equality of the order exactly where the pair fits. -/
theorem sqlEqual_iff_same {a b : SqlValue rt} (ha : a.Plain) (hb : b.Plain)
    (hint : TypeAffinity) :
    (sqlEqual hint a b = true ↔ SameValue val a b) ↔ PairFits val hint a b := by
  unfold sqlEqual SameValue PairFits
  by_cases hn : (a.isNumber && b.isNumber) = true
  · simp only [if_pos hn]
    cases combinedAffinity hint (combinedAffinity a.affinity b.affinity) <;> simp [hx.eq]
  · simp only [if_neg hn]
    -- one of the two is a text, so that the combined affinity is not that of integers
    have hkinds : combinedAffinity hint (combinedAffinity a.affinity b.affinity) ≠ .kInteger := by
      have hna := ha.affinity
      have hnb := hb.affinity
      simp only [SqlValue.isNumber] at hn
      revert hn hna hnb
      cases a.affinity <;> cases b.affinity <;> cases hint <;> decide
    -- equal texts are read as one number
    have hread : a.toBytes = b.toBytes → val a.asReal = val b.asReal := by
      intro heq
      rw [Bool.and_eq_true, not_and_or, Bool.not_eq_true, Bool.not_eq_true] at hn
      cases hna : a.isNumber <;> cases hnb : b.isNumber
      · obtain ⟨t, rfl, -⟩ := ha.text hna
        obtain ⟨t', rfl, -⟩ := hb.text hnb
        rw [show t = t' from heq]
      · exact absurd heq.symm (toBytes_ne hx hnb hb hna ha)
      · exact absurd heq (toBytes_ne hx hna ha hnb hb)
      · simp [hna, hnb] at hn
    cases haff : combinedAffinity hint (combinedAffinity a.affinity b.affinity) with
    | kInteger => exact absurd haff hkinds
    | kReal =>
      simp only [hx.eq, decide_eq_true_eq, forall_const]
      exact ⟨fun h => h.1, fun h => ⟨h, hread⟩⟩
    | kNull | kText => simp

/-- The order is transitive on three values exactly if a text between numbers finds them in
order. -/
theorem less_trans {a b c : SqlValue rt} (ha : a.Plain) (hc : c.Plain)
    (hacb : BetweenFits val a c b) (hbac : BetweenFits val b a c) (hcba : BetweenFits val c b a)
    (hab : LessValue val a b) (hbc : LessValue val b c) : LessValue val a c := by
  unfold LessValue at *
  cases hna : a.isNumber <;> cases hnb : b.isNumber <;> cases hnc : c.isNumber <;>
    simp only [hna, hnb, hnc, Bool.and_self, Bool.and_true, Bool.and_false, Bool.false_eq_true,
      if_false, if_true] at hab hbc ⊢
  · exact lt_trans hab hbc
  · exact lt_trans hab hbc
  · exact lt_trans hab hbc
  · by_contra h
    have hca : c.toBytes < a.toBytes :=
      lt_of_le_of_ne (not_lt.1 h) (toBytes_ne hx hnc hc hna ha)
    exact absurd (hcba hnc hnb hna hca hab) (not_lt.2 hbc.le)
  · exact lt_trans hab hbc
  · exact hacb hna hnc hnb hab hbc
  · by_contra h
    have hca : c.toBytes < a.toBytes :=
      lt_of_le_of_ne (not_lt.1 h) (toBytes_ne hx hna ha hnc hc).symm
    exact absurd (hbac hnb hna hnc hbc hca) (not_lt.2 hab.le)
  · exact lt_trans hab hbc

theorem same_trans {a b c : SqlValue rt} (ha : a.Plain) (hb : b.Plain) (hc : c.Plain)
    (hab : SameValue val a b) (hbc : SameValue val b c) : SameValue val a c := by
  unfold SameValue at *
  cases hna : a.isNumber <;> cases hnb : b.isNumber <;> cases hnc : c.isNumber <;>
    simp only [hna, hnb, hnc, Bool.and_self, Bool.and_true, Bool.and_false, Bool.false_eq_true,
      if_false, if_true] at hab hbc ⊢
  · exact hab.trans hbc
  · exact hab.trans hbc
  · exact hab.trans hbc
  · exact absurd hab.symm (toBytes_ne hx hnb hb hna ha)
  · exact hab.trans hbc
  · exact absurd hab (toBytes_ne hx hna ha hnb hb)
  · exact absurd hbc (toBytes_ne hx hnb hb hnc hc)
  · exact hab.trans hbc

end

theorem exact_wholeNumbers : ExactNumbers wholeNumbers fun r : Int => (r : ℚ) where
  lt _ _ := decide_eq_decide.2 Int.cast_lt.symm
  le _ _ := decide_eq_decide.2 Int.cast_le.symm
  eq _ _ := decide_eq_decide.2 Int.cast_inj.symm
  ofInt _ := rfl
  toInt i := Int64.ofInt_toInt i
  printed _ := .inl (isIntegerText_signedDecimal _)

end EBTree.Sql
