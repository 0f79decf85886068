import Mathlib
import Jass.Check.Types
import Jass.Check.Fold
import Jass.Proofs.Names
/-!
# A folded constant has its expression's category

The checks compare operands by the category of their value type (`Tables.valueType`), which
follows the left operand of an operation and says `boolean` for comparisons, `and`, `or` and
`not`; folding (`Expr.fold`) computes the operands instead, turns a four-character code into an
integer under a sign or an operator, mixes integers into reals and joins strings. The two
recursions agree: when an expression folds to a constant, its value type is known, and the
category of that type holds every flag of the category of the constant's literal type
(`folded_constants_have_their_category`). So a check that accepts an operand by its category
never accepts a value that folding would not.

A literal's type is found by its name, so the statement needs tables that name their types
truly: a registered name stands for a type of that name (`Table.Named`), as in every session.
-/

namespace Jass

/-! ## Categories -/

namespace Category

theorem contains_refl (a : Category) : a.contains a = true := by
  simp [contains]

theorem contains_trans {a b c : Category} (hab : a.contains b = true) (hbc : b.contains c = true) :
    a.contains c = true := by
  simp only [contains, beq_iff_eq] at *
  rw [← hbc, ← Nat.land_assoc, hab]

theorem ofBaseName_number {c : Const} {x : Number} (h : Number.ofConst? c = some x) :
    (ofBaseName c.typeName).contains numeric = true := by
  cases c <;> simp [Number.ofConst?] at h <;> simp only [Const.typeName] <;> decide

end Category

theorem BinOp.not_boolean_of_isArithmetic {op : BinOp} (h : op.isArithmetic = true) :
    op.isLogical = false ∧ op.isEquality = false ∧ op.isOrdering = false := by
  cases op <;> simp_all [BinOp.isArithmetic, BinOp.isLogical, BinOp.isEquality, BinOp.isOrdering]

/-! ## The category of a literal's type -/

namespace Tables

variable {ts : Tables}

theorem categoryOf_resolveType (hts : ts.types.Named TypeDecl.name) {n : String}
    (hn : (Category.ofBaseName n).isEmpty = false) :
    ts.categoryOf (ts.resolveType n) = Category.ofBaseName n := by
  have hhead : ∃ rest, ts.ancestry (ts.resolveType n) = n :: rest := by
    unfold resolveType
    split
    · next i hi =>
      obtain ⟨d, hd, rfl⟩ := Option.map_eq_some_iff.1 (hts n i hi)
      rw [ancestry, ancestryAt]
      simp [hd]
    · exact ⟨[], rfl⟩
  obtain ⟨rest, hrest⟩ := hhead
  simp [categoryOf, hrest, hn]

theorem categoryOf_constType (hts : ts.types.Named TypeDecl.name) (c : Const) :
    ts.categoryOf (ts.constType c) = Category.ofBaseName c.typeName := by
  apply categoryOf_resolveType hts
  cases c <;> simp only [Const.typeName] <;> decide

theorem categoryOf_boolean (hts : ts.types.Named TypeDecl.name) :
    ts.categoryOf (ts.resolveType "boolean") = Category.boolean :=
  categoryOf_resolveType hts (by decide)

/-! ## Value types by the shape of the expression -/

theorem valueType_of_yieldsBoolean {e : Expr} (h : e.yieldsBoolean = true) :
    ts.valueType e = some (ts.resolveType "boolean") := by
  unfold valueType
  simp [h]

theorem valueType_paren {e : Expr} (h : e.yieldsBoolean = false) :
    ts.valueType (.paren e) = ts.valueType e := by
  rw [valueType]
  simp [Expr.yieldsBoolean, h]

theorem valueType_sign {op : UnOp} (hop : op ≠ .logicalNot) (e : Expr) :
    ts.valueType (.unary op e) = ts.valueType e := by
  rw [valueType]
  simp [Expr.yieldsBoolean, hop]

theorem valueType_arithmetic {op : BinOp} (hop : op.isArithmetic = true) (l r : Expr) :
    ts.valueType (.binary l op r) = ts.valueType l := by
  obtain ⟨hl, he, hord⟩ := BinOp.not_boolean_of_isArithmetic hop
  rw [valueType]
  simp [Expr.yieldsBoolean, hl, he, hord]

theorem valueType_const (c : Const) : ts.valueType (.const c) = some (ts.constType c) := by
  unfold valueType
  rfl

end Tables

/-! ## What the folding steps give -/

theorem foldBinary_boolean {a b c : Const} {op : BinOp}
    (hop : (op.isOrdering || op.isEquality || op.isLogical) = true) (h : foldBinary a op b = some c) :
    ∃ x, c = .boolean x := by
  unfold foldBinary at h
  split at h
  · split at h
    · cases h
      exact ⟨_, rfl⟩
    · cases h
  · split at h
    · obtain ⟨_, -, rfl⟩ := Option.map_eq_some_iff.1 h
      exact ⟨_, rfl⟩
    · have hord : op.isOrdering = true := by simp_all
      split at h
      · simp [BinOp.isOrdering] at hord
      · simp only [Option.bind_eq_bind, Option.bind_eq_some_iff, hord, if_true] at h
        obtain ⟨_, -, _, -, h⟩ := h
        obtain ⟨_, -, rfl⟩ := Option.map_eq_some_iff.1 h
        exact ⟨_, rfl⟩

theorem arithmetic_numeric {op : BinOp} {x y : Number} {c : Const} (h : arithmetic op x y = some c) :
    Category.ofBaseName c.typeName = .numeric := by
  have hc : (∃ v, c = .integer v) ∨ ∃ r, c = .real r := by
    cases x <;> cases y <;> cases op <;> simp [arithmetic] at h <;> grind
  rcases hc with ⟨_, rfl⟩ | ⟨_, rfl⟩ <;> rfl

theorem foldBinary_arithmetic {a b c : Const} {op : BinOp} (hop : op.isArithmetic = true)
    (h : foldBinary a op b = some c) :
    (∃ s t, a = .string s ∧ c = .string t) ∨
      ((Category.ofBaseName a.typeName).contains .numeric = true ∧
        Category.ofBaseName c.typeName = .numeric) := by
  obtain ⟨hl, he, hord⟩ := BinOp.not_boolean_of_isArithmetic hop
  unfold foldBinary at h
  simp only [hl, he, Bool.false_eq_true, if_false] at h
  split at h
  · cases h
    exact .inl ⟨_, _, rfl, rfl⟩
  · simp only [Option.bind_eq_bind, Option.bind_eq_some_iff, hord, Bool.false_eq_true, if_false] at h
    obtain ⟨x, hx, _, -, h⟩ := h
    exact .inr ⟨Category.ofBaseName_number hx, arithmetic_numeric h⟩

theorem foldUnary_sign {op : UnOp} (hop : op ≠ .logicalNot) {a c : Const} (h : foldUnary op a = some c) :
    (Category.ofBaseName a.typeName).contains .numeric = true ∧
      Category.ofBaseName c.typeName = .numeric := by
  cases op with
  | logicalNot => exact absurd rfl hop
  | _ =>
    simp only [foldUnary, Option.map_eq_some_iff] at h
    obtain ⟨x, hx, rfl⟩ := h
    refine ⟨Category.ofBaseName_number hx, ?_⟩
    cases x <;> rfl

theorem foldUnary_not {a c : Const} (h : foldUnary .logicalNot a = some c) : ∃ x, c = .boolean x := by
  cases a with
  | boolean b => exact ⟨!b, (Option.some.inj h).symm⟩
  | _ => simp [foldUnary] at h

theorem fold_boolean_of_yieldsBoolean : ∀ {e : Expr} {c : Const}, e.yieldsBoolean = true →
    e.fold = some c → ∃ x, c = .boolean x
  | .binary l op r, c, hy, h => by
    simp only [Expr.fold, Option.bind_eq_bind, Option.bind_eq_some_iff] at h
    obtain ⟨_, -, _, -, h⟩ := h
    exact foldBinary_boolean hy h
  | .unary op e, c, hy, h => by
    have hop : op = .logicalNot := by simpa [Expr.yieldsBoolean] using hy
    subst hop
    simp only [Expr.fold, Option.bind_eq_some_iff] at h
    obtain ⟨_, -, h⟩ := h
    exact foldUnary_not h
  | .paren e, c, hy, h => fold_boolean_of_yieldsBoolean (e := e) hy h
  | .const _, _, hy, _ | .call .., _, hy, _ | .element .., _, hy, _ | .funRef _, _, hy, _
  | .var _, _, hy, _ => by simp [Expr.yieldsBoolean] at hy

theorem BinOp.isArithmetic_of_not_boolean {op : BinOp}
    (h : (op.isOrdering || op.isEquality || op.isLogical) = false) : op.isArithmetic = true := by
  cases op <;> simp_all [BinOp.isArithmetic, BinOp.isOrdering, BinOp.isEquality, BinOp.isLogical]

/-! ## Folding agrees with the value type -/

theorem Expr.evaluate_eq_true {e : Expr} {c : Const} : e.evaluate = (c, true) ↔ e.fold = some c := by
  unfold Expr.evaluate
  split <;> simp_all

section

variable {ts : Tables} (hts : ts.types.Named TypeDecl.name)
include hts

theorem covers_of_yieldsBoolean {e : Expr} {c : Const} (hy : e.yieldsBoolean = true)
    (h : e.fold = some c) :
    ∃ t, ts.valueType e = some t ∧
      (ts.categoryOf t).contains (Category.ofBaseName c.typeName) = true := by
  obtain ⟨x, rfl⟩ := fold_boolean_of_yieldsBoolean hy h
  refine ⟨_, Tables.valueType_of_yieldsBoolean hy, ?_⟩
  rw [Tables.categoryOf_boolean hts]
  exact Category.contains_refl _

/-- When folding evaluates an expression, the category of its value type holds every flag of
the category of the value's literal type. -/
theorem folded_constants_have_their_category : ∀ {e : Expr} {c : Const}, e.evaluate = (c, true) →
    ∃ t, ts.valueType e = some t ∧
      (ts.categoryOf t).contains (Category.ofBaseName c.typeName) = true
  | .const c', c, h => by
    obtain rfl : c' = c := Option.some.inj (Expr.evaluate_eq_true.1 h)
    refine ⟨_, Tables.valueType_const c', ?_⟩
    rw [Tables.categoryOf_constType hts]
    exact Category.contains_refl _
  | .paren e, c, h => by
    have hf : e.fold = some c := Expr.evaluate_eq_true.1 h
    cases hy : e.yieldsBoolean
    · rw [Tables.valueType_paren hy]
      exact folded_constants_have_their_category (Expr.evaluate_eq_true.2 hf)
    · exact covers_of_yieldsBoolean hts (e := .paren e) hy hf
  | .unary op e, c, h => by
    have hf := Expr.evaluate_eq_true.1 h
    by_cases hop : op = .logicalNot
    · subst hop
      exact covers_of_yieldsBoolean hts rfl hf
    -- a sign keeps the operand's value type and folds a number to a number
    simp only [Expr.fold, Option.bind_eq_some_iff] at hf
    obtain ⟨a, ha, hc⟩ := hf
    obtain ⟨t, ht, hcat⟩ := folded_constants_have_their_category (Expr.evaluate_eq_true.2 ha)
    obtain ⟨hnum, hres⟩ := foldUnary_sign hop hc
    refine ⟨t, (Tables.valueType_sign hop e).trans ht, ?_⟩
    rw [hres]
    exact Category.contains_trans hcat hnum
  | .binary l op r, c, h => by
    have hf := Expr.evaluate_eq_true.1 h
    cases hy : (Expr.binary l op r).yieldsBoolean
    case true => exact covers_of_yieldsBoolean hts hy hf
    -- an arithmetic operation keeps the left operand's value type
    have hop := BinOp.isArithmetic_of_not_boolean hy
    simp only [Expr.fold, Option.bind_eq_bind, Option.bind_eq_some_iff] at hf
    obtain ⟨a, ha, b, -, hc⟩ := hf
    obtain ⟨t, ht, hcat⟩ := folded_constants_have_their_category (Expr.evaluate_eq_true.2 ha)
    refine ⟨t, (Tables.valueType_arithmetic hop l r).trans ht, ?_⟩
    rcases foldBinary_arithmetic hop hc with ⟨s, s', rfl, rfl⟩ | ⟨hnum, hres⟩
    · exact hcat
    · rw [hres]
      exact Category.contains_trans hcat hnum
  | .call .., _, h | .element .., _, h | .funRef _, _, h | .var _, _, h => by
    simp [Expr.evaluate_eq_true, Expr.fold] at h

end

/-- Negating a four-character code folds to an integer, and the code's own type, `fourcc`, is
numeric. -/
theorem negated_code_has_numeric_type :
    Tables.initial.types.Named TypeDecl.name ∧
      (Expr.unary .minus (.const (.fourcc ⟨104, 102, 111, 111⟩))).evaluate =
        (.integer (-FourCC.value ⟨104, 102, 111, 111⟩), true) ∧
      ∃ t, Tables.initial.valueType (.unary .minus (.const (.fourcc ⟨104, 102, 111, 111⟩))) = some t ∧
        (Tables.initial.categoryOf t).contains .numeric = true :=
  ⟨Tables.initial_named.types.named, rfl,
    folded_constants_have_their_category Tables.initial_named.types.named
      (c := .integer (-FourCC.value ⟨104, 102, 111, 111⟩)) rfl⟩

end Jass
