import EBTree.Sql.Proof.Comparison
import EBTree.Sql.Proof.Update

/-!
# Integer arithmetic

Arithmetic is done in doubles and its result printed with `%g`. On whole numbers below `2 ^ 53` a
double is exact (`SignedInt`: a whole number, and zero with a sign); `%g` has six digits (`printG`).

* `evalNode_intExpr`: what an expression of `+`, `-` and `*` over integers evaluates to.
* `integer_arithmetic`: **its text is the decimal of the mathematical result exactly when** it is a
  literal or column, or the result is below a million and not the zero with a minus.
-/

set_option autoImplicit false

namespace EBTree.Sql

open Lib

/-! ## Whole numbers in doubles -/

/-- A whole number; zero has a sign. -/
structure SignedInt where
  value : Int
  minusZero : Bool
  zero : minusZero = true → value = 0

namespace SignedInt

def ofInt (v : Int) : SignedInt := ⟨v, false, fun h => by cases h⟩

def negative (a : SignedInt) : Bool := a.value < 0 || a.minusZero

/-- A sum is the zero with a minus where both are. -/
def add (a b : SignedInt) : SignedInt where
  value := a.value + b.value
  minusZero := a.minusZero && b.minusZero
  zero h := by
    rw [Bool.and_eq_true] at h
    rw [a.zero h.1, b.zero h.2, Int.add_zero]

def sub (a b : SignedInt) : SignedInt where
  value := a.value - b.value
  minusZero := a.minusZero && (decide (b.value = 0) && !b.minusZero)
  zero h := by
    simp only [Bool.and_eq_true, decide_eq_true_eq] at h
    rw [a.zero h.1, h.2.1, Int.sub_zero]

/-- A product is the zero with a minus where the signs differ. -/
def mul (a b : SignedInt) : SignedInt where
  value := a.value * b.value
  minusZero := decide (a.value * b.value = 0) && a.negative != b.negative
  zero h := by
    simp only [Bool.and_eq_true, decide_eq_true_eq] at h
    exact h.1

/-- Exact in a double. -/
def Exact (a : SignedInt) : Prop := a.value.natAbs < 2 ^ 53

end SignedInt

/-! ## Printing -/

/-- Six digits and an exponent: rounded half to even, without trailing zeros. -/
def scientific (n : Nat) : Bytes :=
  let e := (decimal n).length - 1
  let unit := 10 ^ (e - 5)
  let q := n / unit
  let r := n % unit
  let q := if unit < 2 * r ∨ (unit = 2 * r ∧ q % 2 = 1) then q + 1 else q
  let (q, e) := if q = 10 ^ 6 then (10 ^ 5, e + 1) else (q, e)
  let digits := ((decimal q).reverse.dropWhile (· = 48)).reverse
  digits.take 1 ++ (if digits.tail = [] then [] else 46 :: digits.tail) ++ [101, 43] ++
    (if e < 10 then 48 :: decimal e else decimal e)

/-- `printf("%g")` of a whole number. -/
def printG (a : SignedInt) : Bytes :=
  (if a.negative then [45] else []) ++
    (if a.value.natAbs < 10 ^ 6 then decimal a.value.natAbs else scientific a.value.natAbs)

/-- The floating point of the C library on whole numbers that are exact in a double. -/
structure ExactDoubles (rt : Runtime) (rep : SignedInt → rt.Real) : Prop where
  ofInt : ∀ i : Int64, (SignedInt.ofInt i.toInt).Exact →
    rt.ofInt i = rep (.ofInt i.toInt)
  add : ∀ a b, a.Exact → b.Exact → (a.add b).Exact → rt.add (rep a) (rep b) = rep (a.add b)
  sub : ∀ a b, a.Exact → b.Exact → (a.sub b).Exact → rt.sub (rep a) (rep b) = rep (a.sub b)
  mul : ∀ a b, a.Exact → b.Exact → (a.mul b).Exact → rt.mul (rep a) (rep b) = rep (a.mul b)
  print : ∀ a, a.Exact → rt.print (rep a) = printG a

/-- Below a million the text is the decimal, but for the zero with a minus; from there on it has an
exponent. -/
theorem printG_eq_iff (a : SignedInt) :
    printG a = intText a.value ↔ a.value.natAbs < 10 ^ 6 ∧ a.minusZero = false := by
  have hdigits : ∀ n : Nat, (101 : UInt8) ∉ decimal n := fun n h =>
    absurd (isDigit_of_mem_decimal h) (by decide)
  have hletter : (101 : UInt8) ∉ intText a.value := by
    unfold intText
    split
    · rw [List.mem_cons, not_or]
      exact ⟨by decide, hdigits _⟩
    · exact hdigits _
  by_cases hsmall : a.value.natAbs < 10 ^ 6
  · rw [printG, if_pos hsmall]
    cases hz : a.minusZero with
    | true =>
      have hv := a.zero hz
      have hneg : a.negative = true := by rw [SignedInt.negative, hz, Bool.or_true]
      rw [hneg, hv]
      refine ⟨fun h => absurd h (by decide), fun h => absurd h.2 (by decide)⟩
    | false =>
      refine ⟨fun _ => ⟨hsmall, rfl⟩, fun _ => ?_⟩
      rw [SignedInt.negative, hz, Bool.or_false, intText]
      by_cases hneg : a.value < 0
      · rw [if_pos hneg, if_pos (decide_eq_true hneg)]
        rfl
      · rw [if_neg hneg, if_neg (by simpa using hneg)]
        rfl
  · refine ⟨fun h => ?_, fun h => absurd h.1 hsmall⟩
    rw [printG, if_neg hsmall] at h
    refine absurd ?_ hletter
    rw [← h]
    refine List.mem_append_right _ ?_
    simp [scientific]

/-! ## Expressions -/

inductive ArithOp
  | add | sub | mul
  deriving DecidableEq

def ArithOp.op : ArithOp → BinaryOp
  | .add => .kAdd
  | .sub => .kSub
  | .mul => .kMul

def ArithOp.apply : ArithOp → Int → Int → Int
  | .add, a, b => a + b
  | .sub, a, b => a - b
  | .mul, a, b => a * b

def ArithOp.signed : ArithOp → SignedInt → SignedInt → SignedInt
  | .add => SignedInt.add
  | .sub => SignedInt.sub
  | .mul => SignedInt.mul

/-- An expression over integers. -/
inductive IntExpr
  | literal (text : Bytes)
  | column (table column : Bytes)
  | binary (op : ArithOp) (left right : IntExpr)

namespace IntExpr

/-- The node it is parsed to. -/
def node {rt : Runtime} : IntExpr → ExprNode rt
  | literal text => .literal text false
  | column table col => .column table col false
  | binary op left right => .binary op.op left.node right.node false

/-- The number that an integer is spelled as. -/
def numberOf (text : Bytes) : Int := (strtoll text).toInt

/-- The mathematical result. -/
def value (row : Fields) : IntExpr → Int
  | literal text => numberOf text
  | column table col => numberOf (lookupColumn table col row)
  | binary op left right => op.apply (left.value row) (right.value row)

/-- The result with the sign of its zero. -/
def signed (row : Fields) : IntExpr → SignedInt
  | literal text => .ofInt (numberOf text)
  | column table col => .ofInt (numberOf (lookupColumn table col row))
  | binary op left right => op.signed (left.signed row) (right.signed row)

/-- The text of an integer that is exact in a double. -/
def IsWhole (text : Bytes) : Prop :=
  isIntegerText text = true ∧ outOfRange text = false ∧ (numberOf text).natAbs < 2 ^ 53

/-- Literals and columns are integers, and every intermediate result stays below `2 ^ 53`. -/
def Exact (row : Fields) : IntExpr → Prop
  | literal text => IsWhole text
  | column table col => IsWhole (lookupColumn table col row)
  | binary op left right => left.Exact row ∧ right.Exact row ∧
      (op.apply (left.value row) (right.value row)).natAbs < 2 ^ 53

def isLeaf : IntExpr → Bool
  | binary _ _ _ => false
  | _ => true

theorem signed_value (row : Fields) (e : IntExpr) : (e.signed row).value = e.value row := by
  induction e with
  | literal text => rfl
  | column table col => rfl
  | binary op left right ihl ihr =>
    cases op with
    | add => exact congrArg₂ (· + ·) ihl ihr
    | sub => exact congrArg₂ (· - ·) ihl ihr
    | mul => exact congrArg₂ (· * ·) ihl ihr

theorem exact_signed {row : Fields} {e : IntExpr} (h : e.Exact row) : (e.signed row).Exact := by
  rw [SignedInt.Exact, signed_value]
  cases e with
  | literal text => exact h.2.2
  | column table col => exact h.2.2
  | binary op left right => exact h.2.2

end IntExpr

section

variable {rt : Runtime} {rep : SignedInt → rt.Real} (hx : ExactDoubles rt rep)
include hx

/-- The text of an integer is read as one. -/
theorem ofBytes_whole {text : Bytes} (h : IntExpr.IsWhole text) :
    (SqlValue.ofBytes text : SqlValue rt) = .integer (strtoll text) ∧
      rt.ofInt (strtoll text) = rep (.ofInt (IntExpr.numberOf text)) := by
  obtain ⟨hint, hrange, hexact⟩ := h
  refine ⟨?_, hx.ofInt _ hexact⟩
  have hne : text ≠ [] := by
    intro hnil
    rw [hnil] at hint
    cases hint
  rw [SqlValue.ofBytes, if_neg hne, if_pos hint, hrange]
  rfl

/-- **What an expression evaluates to**, by induction over it: an integer for a literal or a column,
and the double of the result otherwise. -/
theorem evalNode_intExpr (table : TableSchema) {row : Fields} {e : IntExpr} (h : e.Exact row) :
    (evalNode table row (e.node : ExprNode rt)).1.isNull = false ∧
    (evalNode table row (e.node : ExprNode rt)).1.asDouble = rep (e.signed row) ∧
    (evalNode table row (e.node : ExprNode rt)).1.toBytes =
      if e.isLeaf then intText (e.value row) else printG (e.signed row) := by
  induction e with
  | literal text =>
    obtain ⟨hv, hrep⟩ := ofBytes_whole hx h
    have heval : (evalNode table row ((IntExpr.literal text).node : ExprNode rt)).1 =
        .integer (strtoll text) := hv
    rw [heval]
    exact ⟨rfl, hrep, rfl⟩
  | column t col =>
    obtain ⟨hv, hrep⟩ := ofBytes_whole hx h
    have heval : (evalNode table row ((IntExpr.column t col).node : ExprNode rt)).1 =
        .integer (strtoll (lookupColumn t col row)) := hv
    rw [heval]
    exact ⟨rfl, hrep, rfl⟩
  | binary op left right ihl ihr =>
    obtain ⟨hnl, hl, -⟩ := ihl h.1
    obtain ⟨hnr, hr, -⟩ := ihr h.2.1
    have hal := IntExpr.exact_signed h.1
    have har := IntExpr.exact_signed h.2.1
    have ha := IntExpr.exact_signed h
    have heval : (evalNode table row ((IntExpr.binary op left right).node : ExprNode rt)).1 =
        .real (rep (op.signed (left.signed row) (right.signed row))) := by
      cases op with
      | add =>
        have harith : evalArithmetic .kAdd (evalNode table row (left.node : ExprNode rt)).1
            (evalNode table row (right.node : ExprNode rt)).1 =
            .real (rt.add (rep (left.signed row)) (rep (right.signed row))) := by
          simp [evalArithmetic, hnl, hnr, hl, hr]
        exact harith.trans (congrArg _ (hx.add _ _ hal har ha))
      | sub =>
        have harith : evalArithmetic .kSub (evalNode table row (left.node : ExprNode rt)).1
            (evalNode table row (right.node : ExprNode rt)).1 =
            .real (rt.sub (rep (left.signed row)) (rep (right.signed row))) := by
          simp [evalArithmetic, hnl, hnr, hl, hr]
        exact harith.trans (congrArg _ (hx.sub _ _ hal har ha))
      | mul =>
        have harith : evalArithmetic .kMul (evalNode table row (left.node : ExprNode rt)).1
            (evalNode table row (right.node : ExprNode rt)).1 =
            .real (rt.mul (rep (left.signed row)) (rep (right.signed row))) := by
          simp [evalArithmetic, hnl, hnr, hl, hr]
        exact harith.trans (congrArg _ (hx.mul _ _ hal har ha))
    rw [heval]
    exact ⟨rfl, rfl, hx.print _ ha⟩

/-- The text of an expression is the decimal of its mathematical result when no arithmetic is done,
or where `%g` has all its digits and a sign that it should have. -/
def IntExpr.Plain (row : Fields) (e : IntExpr) : Prop :=
  e.isLeaf = true ∨ ((e.value row).natAbs < 10 ^ 6 ∧ (e.signed row).minusZero = false)

theorem evalScalar_eq_iff (table : TableSchema) {row : Fields} {e : IntExpr} (h : e.Exact row) :
    evalScalar table row (e.node : ExprNode rt) = intText (e.value row) ↔ e.Plain row := by
  rw [evalScalar, (evalNode_intExpr hx table h).2.2, IntExpr.Plain]
  cases hleaf : e.isLeaf with
  | true => simp
  | false =>
    have hprint := printG_eq_iff (e.signed row)
    rw [IntExpr.signed_value] at hprint
    rw [if_neg (by decide), hprint]
    simp

/-- **Integer arithmetic**: an expression whose intermediate results are exact in a double evaluates
to the decimal of its result, and an assignment of it stores that decimal, exactly when the
expression is `Plain`. -/
theorem integer_arithmetic (table : TableSchema) {row : Fields} {e : IntExpr} (h : e.Exact row) :
    (evalScalar table row (e.node : ExprNode rt) = intText (e.value row) ↔ e.Plain row) ∧
    ∀ col stored f, 2 ≤ table.schemaVersion → isBinaryRow stored = true →
      decodeRowFields stored = (f, .ok ()) →
      FitsRow (f.insert col (evalScalar table row (e.node : ExprNode rt))) →
      ∃ stored' working',
        assignScanned table [(col, (e.node : ExprNode rt))] stored row = .ok (stored', working') ∧
        ((decodeRowFields stored').1.find? col = some (intText (e.value row)) ↔ e.Plain row) := by
  refine ⟨evalScalar_eq_iff hx table h, ?_⟩
  intro col stored f hv hb hd hfits
  have hreads : ReadsOld table (evalScalar table row) [(col, (e.node : ExprNode rt))] f row :=
    ⟨rfl, hfits, trivial⟩
  obtain ⟨stored', hrun, hd'⟩ := assignScanned_ok hv hb hd hreads
  refine ⟨stored', _, hrun, ?_⟩
  have hfind : (decodeRowFields stored').1.find? col =
      some (evalScalar table row (e.node : ExprNode rt)) := by
    rw [hd']
    change (f.insert col _).find? col = _
    rw [SortedMap.find?_insert]
    exact if_pos rfl
  rw [hfind, Option.some.injEq]
  exact evalScalar_eq_iff hx table h

end

/-! ## A counter -/

/-- Doubles, on whole numbers. -/
def doubles : Runtime where
  Real := SignedInt
  ofInt i := .ofInt i.toInt
  toInt a := Int64.ofInt a.value
  strtod s :=
    let digits := s.takeWhile fun b => decide (IsDigit b)
    (.ofInt (ofDecimal digits), digits.length)
  add := SignedInt.add
  sub := SignedInt.sub
  mul := SignedInt.mul
  div a b := .ofInt (a.value / b.value)
  lt a b := decide (a.value < b.value)
  le a b := decide (a.value ≤ b.value)
  eq a b := decide (a.value = b.value)
  print := printG
  like s pattern := decide (s = pattern)
  glob s pattern := decide (s = pattern)

theorem exactDoubles : ExactDoubles doubles id where
  ofInt _ _ := rfl
  add _ _ _ _ _ := rfl
  sub _ _ _ _ _ := rfl
  mul _ _ _ _ _ := rfl
  print _ _ := rfl

/-- `c + 1`. -/
def increment : IntExpr := .binary .add (.column [] (ascii "c")) (.literal (ascii "1"))

/-- A row whose counter is `count`. -/
def counterRow (count : Bytes) : Fields := SortedMap.empty.insert (ascii "c") count

def counterTable : TableSchema :=
  Catalog.newSchema 1 (ascii "t") [.plain (ascii "c")] (.plain (ascii "c"))

/-- 41 is incremented to 42, and 42 is stored. -/
theorem increment_forty_one :
    increment.Exact (counterRow (ascii "41")) ∧
    evalScalar counterTable (counterRow (ascii "41")) (increment.node : ExprNode doubles) =
      ascii "42" ∧
    ∃ stored working,
      assignScanned counterTable [(ascii "c", (increment.node : ExprNode doubles))]
        (encodeRowBinary [.plain (ascii "c")] (counterRow (ascii "41")))
        (counterRow (ascii "41")) = .ok (stored, working) ∧
      (decodeRowFields stored).1.find? (ascii "c") = some (ascii "42") := by
  have hexact : increment.Exact (counterRow (ascii "41")) := by
    unfold increment IntExpr.Exact IntExpr.Exact IntExpr.IsWhole
    decide +kernel
  have hplain : increment.Plain (counterRow (ascii "41")) := by
    unfold IntExpr.Plain
    decide +kernel
  have hvalue : intText (increment.value (counterRow (ascii "41"))) = ascii "42" := by
    decide +kernel
  have hfits : FitsRow (counterRow (ascii "41")) := by
    unfold FitsRow
    decide +kernel
  obtain ⟨hb, hd⟩ := decodeRowFields_encode hfits
  obtain ⟨hscalar, hstored⟩ := integer_arithmetic exactDoubles counterTable hexact
  refine ⟨hexact, (hscalar.2 hplain).trans hvalue, ?_⟩
  have hfits' : FitsRow ((counterRow (ascii "41")).insert (ascii "c")
      (evalScalar counterTable (counterRow (ascii "41"))
        (increment.node : ExprNode doubles))) := by
    rw [hscalar.2 hplain, hvalue]
    unfold FitsRow
    decide +kernel
  obtain ⟨stored, working, hrun, hfind⟩ :=
    hstored (ascii "c") _ _ (by decide) hb hd hfits'
  exact ⟨stored, working, hrun, (hfind.2 hplain).trans (congrArg some hvalue)⟩

/-- 999999 is incremented to the text `1e+06`. -/
theorem increment_to_million : ¬ ∀ (rt : Runtime) (rep : SignedInt → rt.Real),
    ExactDoubles rt rep → ∀ (table : TableSchema) (row : Fields) (e : IntExpr), e.Exact row →
      evalScalar table row (e.node : ExprNode rt) = intText (e.value row) := by
  intro h
  have hexact : increment.Exact (counterRow (ascii "999999")) := by
    unfold increment IntExpr.Exact IntExpr.Exact IntExpr.IsWhole
    decide +kernel
  have hval := h doubles id exactDoubles counterTable _ increment hexact
  have hprinted : evalScalar counterTable (counterRow (ascii "999999"))
      (increment.node : ExprNode doubles) = ascii "1e+06" := by decide +kernel
  rw [hprinted] at hval
  revert hval
  decide +kernel

end EBTree.Sql
