import Mathlib
import Jass.Check.Fold
/-!
# Folding computes on 32-bit words

Constant folding reads integers as 32-bit words: every intermediate result is the exact integer
reduced to the signed 32-bit range, division truncates toward zero, and a four-character code
stands for its four bytes read big-endian. `Expr.wordValue` is that reading of a tree in `Int`,
with the reduction `wrap32` written out after every operation, so that `MIN / -1` and `-MIN`
both give `MIN`.

On word arithmetic (`Expr.WordArith`: integer and four-character-code literals under
parentheses, unary `+` and `-`, and `+ - * /`) folding succeeds exactly when no division has a
divisor of value zero, and then gives the integer `wordValue`; a four-character code alone,
under parentheses or not, stays a code (`Expr.wordResult`). Comparisons between two such
operands fold to the comparison of their values, and `not`, `and` and `or` over such tests to
the Boolean result (`Expr.WordTest`, `Expr.truth`). Whatever the expression, what folds holds
no integer division by zero (`folded_divisors_nonzero`). The three together are
`folding_computes_on_words`.
-/

namespace Jass

/-- An integer reduced to the signed 32-bit range, as a 32-bit word holds it. -/
def wrap32 (x : Int) : Int := x.bmod (2 ^ 32)

def FourCC.bigEndian (c : FourCC) : Nat :=
  c.b0.toNat * 2 ^ 24 + c.b1.toNat * 2 ^ 16 + c.b2.toNat * 2 ^ 8 + c.b3.toNat

/-- The arithmetic operators on integers; division truncates toward zero. -/
def BinOp.onInt : BinOp → Int → Int → Int
  | .add, a, b => a + b
  | .sub, a, b => a - b
  | .mul, a, b => a * b
  | .div, a, b => a.tdiv b
  | _, _, _ => 0

def BinOp.compareInt : BinOp → Int → Int → Bool
  | .greater, a, b => decide (b < a)
  | .less, a, b => decide (a < b)
  | .greaterEq, a, b => decide (b ≤ a)
  | .lessEq, a, b => decide (a ≤ b)
  | .equal, a, b => decide (a = b)
  | .notEqual, a, b => decide (a ≠ b)
  | _, _, _ => false

namespace Expr

/-- Word arithmetic: integer and four-character-code literals, parentheses, unary `+` and `-`,
and the four arithmetic operators. -/
inductive WordArith : Expr → Prop
  | integer (v : Int32) : WordArith (.const (.integer v))
  | fourcc (c : FourCC) : WordArith (.const (.fourcc c))
  | paren {e : Expr} : WordArith e → WordArith (.paren e)
  | plus {e : Expr} : WordArith e → WordArith (.unary .plus e)
  | minus {e : Expr} : WordArith e → WordArith (.unary .minus e)
  | binary {l r : Expr} {op : BinOp} :
      op.isArithmetic = true → WordArith l → WordArith r → WordArith (.binary l op r)

/-- Tests over word arithmetic: Boolean literals, a comparison of two word-arithmetic operands,
and `not`, `and`, `or` and parentheses over tests. -/
inductive WordTest : Expr → Prop
  | literal (b : Bool) : WordTest (.const (.boolean b))
  | compare {l r : Expr} {op : BinOp} :
      (op.isOrdering || op.isEquality) = true → WordArith l → WordArith r →
        WordTest (.binary l op r)
  | not {e : Expr} : WordTest e → WordTest (.unary .logicalNot e)
  | logic {l r : Expr} {op : BinOp} :
      op.isLogical = true → WordTest l → WordTest r → WordTest (.binary l op r)
  | paren {e : Expr} : WordTest e → WordTest (.paren e)

/-- The value of word arithmetic in `Int`, reduced to 32 bits after every operation. -/
def wordValue : Expr → Int
  | .const (.integer v) => v.toInt
  | .const (.fourcc c) => wrap32 c.bigEndian
  | .paren e => e.wordValue
  | .unary .plus e => e.wordValue
  | .unary .minus e => wrap32 (-e.wordValue)
  | .binary l op r => wrap32 (op.onInt l.wordValue r.wordValue)
  | _ => 0

/-- What folding gives for word arithmetic: a four-character code alone stays a code, anything
else is the integer `wordValue`. -/
def wordResult : Expr → Const
  | .const (.fourcc c) => .fourcc c
  | .paren e => e.wordResult
  | e => .integer (Int32.ofInt e.wordValue)

def truth : Expr → Bool
  | .const (.boolean b) => b
  | .paren e => e.truth
  | .unary .logicalNot e => !e.truth
  | .binary l .logicalAnd r => l.truth && r.truth
  | .binary l .logicalOr r => l.truth || r.truth
  | .binary l op r => op.compareInt l.wordValue r.wordValue
  | _ => false

def divisorsNonzero : Expr → Bool
  | .paren e | .unary _ e => e.divisorsNonzero
  | .binary l op r => l.divisorsNonzero && r.divisorsNonzero && (op != .div || r.wordValue != 0)
  | _ => true

mutual
def divisions : Expr → List (Expr × Expr)
  | .binary l op r => (if op = .div then [(l, r)] else []) ++ l.divisions ++ r.divisions
  | .unary _ e | .paren e | .element _ e => e.divisions
  | .call _ args => listDivisions args
  | .const _ | .funRef _ | .var _ => []
def listDivisions : List Expr → List (Expr × Expr)
  | [] => []
  | e :: es => e.divisions ++ listDivisions es
end

end Expr

/-! ## Words -/

theorem wrap32_bmod (x : Int) : (wrap32 x).bmod (2 ^ 32) = wrap32 x := Int.bmod_bmod

theorem ofInt_wrap32 (x : Int) : Int32.ofInt (wrap32 x) = Int32.ofInt x := by
  apply Int32.toInt_inj.1
  rw [Int32.toInt_ofInt, Int32.toInt_ofInt]
  exact Int.bmod_bmod

theorem toInt_bmod (x : Int32) : x.toInt.bmod (2 ^ 32) = x.toInt := by
  have h := Int32.toInt_ofInt (n := x.toInt)
  rw [Int32.ofInt_toInt] at h
  exact h.symm

theorem FourCC.value_eq (c : FourCC) : c.value = Int32.ofInt (wrap32 c.bigEndian) := by
  have h : c.toNat = c.bigEndian := by
    simp only [FourCC.toNat, FourCC.bigEndian]
    omega
  rw [ofInt_wrap32, FourCC.value, h]
  exact Int32.toInt_inj.1 (by simp [Int32.toInt_ofNat', Int32.toInt_ofInt])

theorem toInt_ofInt_of_bmod {x : Int} (h : x.bmod (2 ^ 32) = x) : (Int32.ofInt x).toInt = x := by
  rw [Int32.toInt_ofInt]
  exact h

theorem Expr.wordValue_bmod : ∀ e : Expr, e.wordValue.bmod (2 ^ 32) = e.wordValue
  | .const (.integer v) => toInt_bmod v
  | .const (.fourcc _) | .unary .minus _ | .binary .. => wrap32_bmod _
  | .paren e | .unary .plus e => e.wordValue_bmod
  | .const (.real _) | .const (.boolean _) | .const (.string _) | .const .null
  | .unary .logicalNot _ | .call .. | .element .. | .funRef _ | .var _ => rfl

theorem Expr.toInt_ofInt_wordValue (e : Expr) : (Int32.ofInt e.wordValue).toInt = e.wordValue :=
  toInt_ofInt_of_bmod e.wordValue_bmod

theorem Expr.ofInt_wordValue_eq_zero (e : Expr) : Int32.ofInt e.wordValue = 0 ↔ e.wordValue = 0 := by
  rw [← Int32.toInt_inj, e.toInt_ofInt_wordValue]
  rfl

/-! ## One folding step on numbers -/

theorem foldUnary_int (op : UnOp) (hop : op ≠ .logicalNot) {c : Const} {v : Int32}
    (h : Number.ofConst? c = some (.int v)) :
    foldUnary op c = some (.integer (if op = .minus then -v else v)) := by
  cases op with
  | plus => simp [foldUnary, h]
  | minus => simp [foldUnary, h]
  | logicalNot => exact absurd rfl hop

theorem foldBinary_numbers {a b : Const} {x y : Number} (ha : Number.ofConst? a = some x)
    (hb : Number.ofConst? b = some y) {op : BinOp} (hl : op.isLogical = false)
    (he : op.isEquality = false) :
    foldBinary a op b =
      if op.isOrdering then (compareNumbers op x y).map .boolean else arithmetic op x y := by
  have hs : ∀ s, a ≠ .string s := by
    rintro s rfl
    simp [Number.ofConst?] at ha
  unfold foldBinary
  simp only [hl, he, Bool.false_eq_true, if_false]
  split
  · next s _ => exact absurd rfl (hs s)
  · simp only [ha, hb]
    rfl

theorem arithmetic_int {op : BinOp} (hop : op.isArithmetic = true) (x y : Int32) :
    arithmetic op (.int x) (.int y) =
      if op = .div ∧ y = 0 then none else some (.integer (Int32.ofInt (op.onInt x.toInt y.toInt))) := by
  cases op <;> simp only [BinOp.isArithmetic, Bool.false_eq_true] at hop <;>
    simp only [arithmetic, BinOp.onInt, reduceCtorEq, false_and, if_false]
  · rw [Int32.ofInt_add, Int32.ofInt_toInt, Int32.ofInt_toInt]
  · rw [Int32.ofInt_sub, Int32.ofInt_toInt, Int32.ofInt_toInt]
  · rw [Int32.ofInt_mul, Int32.ofInt_toInt, Int32.ofInt_toInt]
  · by_cases hy : y = 0
    · simp [hy]
    · have hq : x / y = Int32.ofInt (x.toInt.tdiv y.toInt) :=
        Int32.toInt_inj.1 (by rw [Int32.toInt_div, Int32.toInt_ofInt])
      simp [hy, hq]

theorem foldBinary_equality {a b : Const} {op : BinOp} (hl : op.isLogical = false)
    (he : op.isEquality = true) :
    foldBinary a op b = (constEqual? a b).map fun eq => .boolean (eq == (op == .equal)) := by
  simp [foldBinary, hl, he]

theorem compareNumbers_int {op : BinOp} (hop : op.isOrdering = true) (x y : Int32) :
    compareNumbers op (.int x) (.int y) = some (op.compareInt x.toInt y.toInt) := by
  cases op <;> simp only [BinOp.isOrdering, Bool.false_eq_true] at hop <;>
    simp [compareNumbers, BinOp.compareInt, Int32.lt_iff_toInt_lt, Int32.le_iff_toInt_le]

theorem constEqual?_int {a b : Const} {x y : Int32} (ha : Number.ofConst? a = some (.int x))
    (hb : Number.ofConst? b = some (.int y)) : constEqual? a b = some (x == y) := by
  cases a <;> simp only [Number.ofConst?, Option.some.injEq, reduceCtorEq] at ha <;>
    cases b <;> simp only [Number.ofConst?, Option.some.injEq, reduceCtorEq] at hb <;>
    simp [constEqual?, Number.ofConst?, ha, hb]


/-! ## Word arithmetic -/

namespace Expr.WordArith

variable {e : Expr}

theorem number (h : e.WordArith) : Number.ofConst? e.wordResult = some (.int (Int32.ofInt e.wordValue)) := by
  induction h with
  | integer v => simp [wordResult, wordValue, Number.ofConst?, Int32.ofInt_toInt]
  | fourcc c => simp [wordResult, wordValue, Number.ofConst?, FourCC.value_eq]
  | paren _ ih => simpa [wordResult, wordValue] using ih
  | plus | minus | binary => simp [wordResult, Number.ofConst?]

theorem fold_eq (h : e.WordArith) : e.fold = if e.divisorsNonzero then some e.wordResult else none := by
  induction h with
  | integer v => simp [fold, divisorsNonzero, wordResult, wordValue, Int32.ofInt_toInt]
  | fourcc c => simp [fold, divisorsNonzero, wordResult]
  | paren _ ih => rw [fold, ih]; rfl
  | @plus e he ih =>
    rw [fold, ih]
    cases hd : e.divisorsNonzero
    · simp [divisorsNonzero, hd]
    · simp [divisorsNonzero, hd, foldUnary_int .plus (by decide) he.number, wordResult, wordValue]
  | @minus e he ih =>
    rw [fold, ih]
    cases hd : e.divisorsNonzero
    · simp [divisorsNonzero, hd]
    · simp [divisorsNonzero, hd, foldUnary_int .minus (by decide) he.number, wordResult, wordValue,
        ofInt_wrap32, Int32.ofInt_neg]
  | @binary l r op hop hl hr ihl ihr =>
    rw [fold, ihl, ihr]
    cases hdl : l.divisorsNonzero
    · simp [divisorsNonzero, hdl]
    cases hdr : r.divisorsNonzero
    · simp [divisorsNonzero, hdr]
    -- both operands fold to integers, and the operator is arithmetic
    have hle : op.isLogical = false := by cases op <;> simp_all [BinOp.isArithmetic, BinOp.isLogical]
    have heq : op.isEquality = false := by cases op <;> simp_all [BinOp.isArithmetic, BinOp.isEquality]
    have hord : op.isOrdering = false := by cases op <;> simp_all [BinOp.isArithmetic, BinOp.isOrdering]
    simp only [hdl, hdr, if_true, Option.bind_eq_bind, Option.bind_some, divisorsNonzero,
      Bool.true_and]
    rw [foldBinary_numbers hl.number hr.number hle heq, hord, if_neg Bool.false_ne_true,
      arithmetic_int hop, l.toInt_ofInt_wordValue, r.toInt_ofInt_wordValue]
    by_cases hdiv : op = .div
    · by_cases hz : r.wordValue = 0 <;>
        simp [hdiv, hz, r.ofInt_wordValue_eq_zero, wordResult, wordValue, ofInt_wrap32]
    · simp [hdiv, wordResult, wordValue, ofInt_wrap32]

end Expr.WordArith


/-! ## Tests over word arithmetic -/

theorem Expr.ofInt_wordValue_beq (l r : Expr) :
    (Int32.ofInt l.wordValue == Int32.ofInt r.wordValue) = decide (l.wordValue = r.wordValue) := by
  have h : Int32.ofInt l.wordValue = Int32.ofInt r.wordValue ↔ l.wordValue = r.wordValue := by
    rw [← Int32.toInt_inj, l.toInt_ofInt_wordValue, r.toInt_ofInt_wordValue]
  rw [Bool.eq_iff_iff, beq_iff_eq, decide_eq_true_iff, h]

theorem Expr.truth_compare {l r : Expr} {op : BinOp} (hop : op.isLogical = false) :
    (Expr.binary l op r).truth = op.compareInt l.wordValue r.wordValue := by
  cases op <;> simp_all [truth, BinOp.isLogical]

namespace Expr.WordTest

variable {e : Expr}

theorem fold_eq (h : e.WordTest) :
    e.fold = if e.divisorsNonzero then some (.boolean e.truth) else none := by
  induction h with
  | literal b => simp [fold, divisorsNonzero, truth]
  | @compare l r op hop hl hr =>
    rw [fold, hl.fold_eq, hr.fold_eq]
    cases hdl : l.divisorsNonzero
    · simp [divisorsNonzero, hdl]
    cases hdr : r.divisorsNonzero
    · simp [divisorsNonzero, hdr]
    have hlog : op.isLogical = false := by
      cases op <;> simp_all [BinOp.isOrdering, BinOp.isEquality, BinOp.isLogical]
    have hdiv : op ≠ .div := by rintro rfl; simp [BinOp.isOrdering, BinOp.isEquality] at hop
    simp only [hdl, hdr, if_true, Option.bind_eq_bind, Option.bind_some, divisorsNonzero,
      Bool.true_and, truth_compare hlog]
    rw [if_pos (by simp [hdiv])]
    -- an ordering compares the two words, an equality tests them for equality
    cases hord : op.isOrdering
    · have heq : op.isEquality = true := by simpa [hord] using hop
      rw [foldBinary_equality hlog heq, constEqual?_int hl.number hr.number, ofInt_wordValue_beq]
      cases op <;> simp [BinOp.isEquality] at heq <;> simp [BinOp.compareInt]
      -- what is left is `!=`, the negation of the test for equality
      cases decide (l.wordValue = r.wordValue) <;> rfl
    · have heq : op.isEquality = false := by
        cases op <;> simp_all [BinOp.isOrdering, BinOp.isEquality]
      rw [foldBinary_numbers hl.number hr.number hlog heq, hord, if_pos rfl, compareNumbers_int hord,
        l.toInt_ofInt_wordValue, r.toInt_ofInt_wordValue]
      rfl
  | @not e _ ih =>
    rw [fold, ih]
    cases hd : e.divisorsNonzero <;> simp [hd, divisorsNonzero, foldUnary, truth]
  | @logic l r op hop _ _ ihl ihr =>
    rw [fold, ihl, ihr]
    cases hdl : l.divisorsNonzero
    · simp [divisorsNonzero, hdl]
    cases hdr : r.divisorsNonzero
    · simp [divisorsNonzero, hdr]
    cases op <;> simp [BinOp.isLogical] at hop <;>
      simp [foldBinary, truth, divisorsNonzero, hdl, hdr, BinOp.isLogical]
  | paren _ ih => rw [fold, ih]; rfl

end Expr.WordTest


/-! ## No folded value divides by zero -/

theorem foldBinary_div_zero {a b : Const} {x : Int32} (ha : Number.ofConst? a = some (.int x))
    (hb : Number.ofConst? b = some (.int 0)) : foldBinary a .div b = none := by
  rw [foldBinary_numbers ha hb rfl rfl, arithmetic_int rfl]
  simp [BinOp.isOrdering]

theorem folded_divisors_nonzero : ∀ (e : Expr) {c : Const}, e.fold = some c →
    ∀ lr ∈ e.divisions, ∀ x y : Int32, lr.1.fold.bind Number.ofConst? = some (.int x) →
      lr.2.fold.bind Number.ofConst? = some (.int y) → y ≠ 0
  | .binary l op r, c, h => by
    simp only [Expr.fold, Option.bind_eq_bind, Option.bind_eq_some_iff] at h
    obtain ⟨a, ha, b, hb, hab⟩ := h
    intro lr hlr x y hx hy
    simp only [Expr.divisions, List.mem_append] at hlr
    rcases hlr with (hlr | hlr) | hlr
    · -- the division at the top: a zero divisor would leave nothing to fold
      split at hlr
      · next hdiv =>
        obtain rfl := List.mem_singleton.1 hlr
        subst hdiv
        rintro rfl
        simp only [ha, hb, Option.bind_some] at hx hy
        rw [foldBinary_div_zero hx hy] at hab
        cases hab
      · cases hlr
    · exact folded_divisors_nonzero l ha lr hlr x y hx hy
    · exact folded_divisors_nonzero r hb lr hlr x y hx hy
  | .unary _ e, c, h => by
    simp only [Expr.fold, Option.bind_eq_some_iff] at h
    obtain ⟨a, ha, -⟩ := h
    exact folded_divisors_nonzero e ha
  | .paren e, c, h => folded_divisors_nonzero e h
  | .const _, _, _ => by simp [Expr.divisions]
  | .call .., _, h | .element .., _, h | .funRef _, _, h | .var _, _, h => by simp [Expr.fold] at h


/-! ## Folding computes on words -/

theorem Expr.evaluate_eq_ite {e : Expr} {d : Bool} {c : Const} (h : e.fold = if d then some c else none) :
    e.evaluate = if d then (c, true) else (.integer 0, false) := by
  rw [Expr.evaluate, h]
  cases d <;> rfl

/-- Folding computes on 32-bit words. Word arithmetic folds exactly when no divisor is zero, to
its value in `Int` wrapped after every operation (a four-character code alone stays a code);
a test over word arithmetic folds exactly then, to its truth; and nothing that folds divides an
integer by zero. What does not fold has the value zero. -/
theorem folding_computes_on_words :
    (∀ e : Expr, e.WordArith → (Int32.ofInt e.wordValue).toInt = e.wordValue ∧
      e.evaluate = if e.divisorsNonzero then (e.wordResult, true) else (.integer 0, false)) ∧
    (∀ e : Expr, e.WordTest →
      e.evaluate = if e.divisorsNonzero then (.boolean e.truth, true) else (.integer 0, false)) ∧
    (∀ (e : Expr) (c : Const), e.fold = some c → ∀ lr ∈ e.divisions, ∀ x y : Int32,
      lr.1.fold.bind Number.ofConst? = some (.int x) →
        lr.2.fold.bind Number.ofConst? = some (.int y) → y ≠ 0) :=
  ⟨fun e h => ⟨e.toInt_ofInt_wordValue, Expr.evaluate_eq_ite h.fold_eq⟩,
    fun _ h => Expr.evaluate_eq_ite h.fold_eq,
    fun e _ h => folded_divisors_nonzero e h⟩

/-- `MIN / -1` folds to `MIN`, and comparing it with `MIN` folds to true. -/
theorem min_over_minus_one_folds_to_min :
    (Expr.binary (.const (.integer (-2147483648))) .div (.unary .minus (.const (.integer 1)))).WordArith ∧
      (Expr.binary (.const (.integer (-2147483648))) .div (.unary .minus (.const (.integer 1)))).evaluate =
        (.integer (-2147483648), true) ∧
      (Expr.binary (.binary (.const (.integer (-2147483648))) .div (.unary .minus (.const (.integer 1))))
        .equal (.const (.integer (-2147483648)))).evaluate = (.boolean true, true) := by
  have h : (Expr.binary (.const (.integer (-2147483648))) .div
      (.unary .minus (.const (.integer 1)))).WordArith :=
    .binary rfl (.integer _) (.minus (.integer _))
  refine ⟨h, ?_, ?_⟩
  · rw [(folding_computes_on_words.1 _ h).2]
    rfl
  · rw [folding_computes_on_words.2.1 _ (.compare rfl h (.integer _))]
    rfl

/-- A four-character code alone folds to itself, not to the integer it encodes. -/
theorem lone_code_folds_to_itself :
    ¬ ∃ v : Int32, (Expr.const (.fourcc ⟨65, 70, 68, 101⟩)).evaluate = (.integer v, true) := by
  rintro ⟨v, h⟩
  simp [Expr.evaluate, Expr.fold] at h


end Jass
