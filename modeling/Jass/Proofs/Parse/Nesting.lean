import Jass.Proofs.Parse.Twin
import Jass.Proofs.Parse.Contents
import Jass.Proofs.Handles
/-!
# Operators nest to the right

An expression is an operand followed by an optional binary tail, an operator and an expression.
So the left operand of a binary operation is an operand, never itself a binary operation, and a
chain `x₀ o₁ x₁ … oₙ xₙ` reads as `x₀ o₁ (x₁ o₂ (… oₙ xₙ))` whatever the operators.

A unary operation is an operand too, but it is never a left operand either: `-a + b` reads as
`-(a + b)`. The unary operation's own expression ends by giving up its binary tail at some
token; the enclosing expression then tries the binary tail again at that same token, with a
larger step budget and one nesting level higher. The two attempts read alike until they stop
(`Twin.alike`), so the second one gives up too (`tailFails_of_failed`): after an expression no
binary tail can be read (`TailFails`), and this is what the expression rules keep
(`NestRules`).

`Expr.nestsRight` says that no binary operation of a tree has a binary or a unary operation as
its left operand. Every expression that `parseExpr` returns, every expression in the function
bodies of a file that `parseFile` returns, and every initializer that a session stores in its
variable table, each being what the expression rule returned, nests to the right
(`parsed_expressions_nest_right`).
-/

namespace Jass

open Jass.Parser Parse

namespace Expr

def isBinary : Expr → Bool
  | .binary .. => true
  | _ => false

def isUnary : Expr → Bool
  | .unary .. => true
  | _ => false

mutual
/-- No binary operation in the tree has a binary or a unary operation as its left operand. -/
def nestsRight : Expr → Bool
  | .const _ => true
  | .binary l _ r => !l.isBinary && !l.isUnary && l.nestsRight && r.nestsRight
  | .unary _ e => e.nestsRight
  | .call _ args => allNestRight args
  | .element _ i => i.nestsRight
  | .funRef _ => true
  | .var _ => true
  | .paren e => e.nestsRight
def allNestRight : List Expr → Bool
  | [] => true
  | e :: es => e.nestsRight && allNestRight es
end

theorem allNestRight_iff {es : List Expr} :
    allNestRight es = true ↔ ∀ e ∈ es, e.nestsRight = true := by
  induction es with
  | nil => simp [allNestRight]
  | cons e es ih => simp [allNestRight, ih]

end Expr

def Discipline.sameFrame : Discipline where
  inv _ := True
  le := ParseState.SameFrame
  err _ _ := True
  ref _ _ := True
  le_refl _ := ⟨rfl, rfl, rfl, rfl⟩
  le_trans h h' := ⟨h'.tokens.trans h.tokens, h'.tables.trans h.tables, h'.scope.trans h.scope,
    h'.maxDepth.trans h.maxDepth⟩
  ref_le _ _ := trivial
  step _ _ _ := ⟨trivial, rfl, rfl, rfl, rfl⟩
  skip _ _ := ⟨trivial, rfl, rfl, rfl, rfl⟩
  fail _ _ _ := ⟨trivial, ⟨rfl, rfl, rfl, rfl⟩, trivial⟩
  halt _ _ _ _ := trivial
  rewind _ _ h _ _ := ⟨trivial, h.tokens, h.tables, h.scope, h.maxDepth⟩
  var _ _ _ := trivial
  fn _ _ _ := trivial
  type _ _ _ := trivial

namespace Discipline

variable {D : Discipline} {α β : Type}

theorem Keeps.mono {p : Parser α} {Q Q' : α → ParseState → Prop} (h : D.Keeps p Q)
    (hQ : ∀ a t, Q a t → Q' a t) : D.Keeps p Q' :=
  fun s hs => (h s hs).mono hQ

theorem post_attempt {p : Parser α} {f : Option α → Parser β} {Q₁ : α → ParseState → Prop}
    {Q : β → ParseState → Prop} {s : ParseState} (hp : D.Keeps p Q₁) (hs : D.inv s)
    (hnone : ∀ e t, p.exec s = (.error e, t) → e.fault.isSyntax = true →
      D.inv { t with cursor := s.cursor } → D.le s { t with cursor := s.cursor } →
      D.Post Q { t with cursor := s.cursor } ((f none).exec { t with cursor := s.cursor }))
    (hsome : ∀ a t, p.exec s = (.ok a, t) → D.inv t → D.le s t → Q₁ a t →
      D.Post Q t ((f (some a)).exec t)) :
    D.Post Q s ((attempt p >>= f).exec s) := by
  have h := hp s hs
  rw [exec_bind, exec_attempt]
  rcases hr : p.exec s with ⟨e | a, t⟩ <;> rw [hr] at h
  · dsimp only
    by_cases he : e.fault.isSyntax = true
    · rw [if_pos he]
      obtain ⟨hinv, hle⟩ := D.rewind hs h.1 h.2.1 h.2.2 he
      exact (hnone e t hr he hinv hle).le hle
    · rw [if_neg he]
      exact ⟨h.1, h.2.1, h.2.2⟩
  · exact (hsome a t hr h.1 h.2.1 h.2.2).le h.2.1

end Discipline

open Discipline

/-! ## Giving up a binary tail -/

/-- No binary tail can be read at `t` with a step budget of at least `fuel` and at a depth of at
most `depth`: every attempt ends in a syntax failure. -/
def TailFails (fuel depth : Nat) (t : ParseState) : Prop :=
  ∀ fuel' depth', fuel ≤ fuel' → depth' ≤ depth →
    ∃ e t', (binaryTail fuel' depth').exec t = (.error e, t') ∧ e.fault.isSyntax = true

theorem TailFails.mono {fuel depth fuel' depth' : Nat} {t : ParseState}
    (h : TailFails fuel depth t) (hf : fuel ≤ fuel') (hd : depth' ≤ depth) :
    TailFails fuel' depth' t :=
  fun f d hf' hd' => h f d (hf.trans hf') (hd'.trans hd)

theorem tailFails_of_failed {fuel depth : Nat} {s s' : ParseState} {e : ParseError}
    (hr : (binaryTail fuel depth).exec s = (.error e, s')) (he : e.fault.isSyntax = true)
    (hs : s.SameFrame { s' with cursor := s.cursor }) :
    TailFails fuel depth { s' with cursor := s.cursor } := by
  intro fuel' depth' hf hd
  have hrel : (Twin.alike s.maxDepth).rel s { s' with cursor := s.cursor } :=
    ⟨rfl, { toSameFrame := hs, cursor := rfl }⟩
  have hno : HitsNoLimit ((binaryTail fuel depth).exec s).1 := by
    rw [hr]
    exact hitsNoLimit_of_isSyntax he
  obtain ⟨t', h', -⟩ := ((Twin.exprRules fuel).binaryTail hf
    (Nat.add_le_add_left hd s.maxDepth)).run hrel hno
  rw [hr] at h'
  exact ⟨e, t', h', he⟩

/-! ## The shape the expression rules keep -/

/-- What an operand rule gives: a tree that nests to the right and is no binary operation; when
it is a unary operation, no binary tail can be read after it. -/
structure OperandShape (fuel depth : Nat) (e : Expr) (t : ParseState) : Prop where
  nests : e.nestsRight = true
  notBinary : e.isBinary = false
  tailFails : e.isUnary = true → TailFails fuel depth t

theorem OperandShape.succ {fuel depth : Nat} {e : Expr} {t : ParseState}
    (h : OperandShape fuel depth e t) : OperandShape (fuel + 1) depth e t :=
  ⟨h.nests, h.notBinary, fun hu => (h.tailFails hu).mono (Nat.le_succ fuel) le_rfl⟩

section

variable {fuel depth : Nat}

theorem keeps_funRef_shape : sameFrame.Keeps funRef (OperandShape fuel depth) := by
  intro s hs
  refine post_bind (keeps_keyword _) hs fun _ s₁ hs₁ _ _ => ?_
  refine post_bind (keeps_ident _) hs₁ fun name s₂ hs₂ _ _ => ?_
  refine post_bind (keeps_resolveFun name) hs₂ fun r s₃ hs₃ _ _ => ?_
  exact post_pure hs₃ ⟨rfl, rfl, fun h => absurd h Bool.false_ne_true⟩

theorem keeps_constExpr_shape :
    sameFrame.Keeps (Expr.const <$> constant) (OperandShape fuel depth) :=
  fun _ hs => post_map keeps_constant hs fun _ _ _ => ⟨rfl, rfl, fun h => absurd h Bool.false_ne_true⟩

theorem keeps_varRef_shape : sameFrame.Keeps varRef (OperandShape fuel depth) := by
  intro s hs
  refine post_bind (keeps_ident _) hs fun name s₁ hs₁ _ _ => ?_
  refine post_bind (keeps_resolveVar name) hs₁ fun r s₂ hs₂ _ _ => ?_
  exact post_pure hs₂ ⟨rfl, rfl, fun h => absurd h Bool.false_ne_true⟩

end

/-- The expression rules at step budget `fuel` return trees that nest to the right. After an
expression no binary tail can be read; after an operand, neither when it is a unary operation. -/
structure NestRules (fuel : Nat) : Prop where
  expr : ∀ depth, sameFrame.Keeps (expr fuel depth)
    fun e t => e.nestsRight = true ∧ TailFails fuel depth t
  binaryTail : ∀ depth, sameFrame.Keeps (binaryTail fuel depth)
    fun p t => p.2.nestsRight = true ∧ TailFails fuel depth t
  operand : ∀ depth, sameFrame.Keeps (operand fuel depth) (OperandShape fuel depth)
  unary : ∀ depth, sameFrame.Keeps (unary fuel depth) (OperandShape fuel depth)
  callExpr : ∀ depth, sameFrame.Keeps (callExpr fuel depth) (OperandShape fuel depth)
  funCall : ∀ depth, sameFrame.Keeps (funCall fuel depth) fun c _ => Expr.allNestRight c.2 = true
  argList : ∀ depth, sameFrame.Keeps (argList fuel depth) fun es _ => Expr.allNestRight es = true
  element : ∀ depth, sameFrame.Keeps (element fuel depth) (OperandShape fuel depth)
  paren : ∀ depth, sameFrame.Keeps (paren fuel depth) (OperandShape fuel depth)

theorem NestRules.zero : NestRules 0 where
  expr _ := by rw [Parse.expr]; exact keeps_outOfFuel
  binaryTail _ := by rw [Parse.binaryTail]; exact keeps_outOfFuel
  operand _ := by rw [Parse.operand]; exact keeps_outOfFuel
  unary _ := by rw [Parse.unary]; exact keeps_outOfFuel
  callExpr _ := by rw [Parse.callExpr]; exact keeps_outOfFuel
  funCall _ := by rw [Parse.funCall]; exact keeps_outOfFuel
  argList _ := by rw [Parse.argList]; exact keeps_outOfFuel
  element _ := by rw [Parse.element]; exact keeps_outOfFuel
  paren _ := by rw [Parse.paren]; exact keeps_outOfFuel

theorem NestRules.succ {fuel : Nat} (ih : NestRules fuel) : NestRules (fuel + 1) where
  expr depth s hs := by
    rw [Parse.expr]
    refine post_bind (keeps_checkDepth depth) hs fun _ s₁ hs₁ _ _ => ?_
    refine post_bind (ih.operand (depth + 1)) hs₁ fun left s₂ hs₂ _ hl => ?_
    refine post_attempt (ih.binaryTail (depth + 1)) hs₂ (fun e t hr he ht h₂t => ?_)
      fun tail t hr ht _ htail => ?_
    · -- the tail was given up: it is given up again wherever it is tried with more budget
      have hfails := tailFails_of_failed hr he h₂t
      exact post_pure ht ⟨hl.nests, hfails.mono (Nat.le_succ fuel) (Nat.le_succ depth)⟩
    · -- the tail was read, so the operand before it was no unary operation
      obtain ⟨op, right⟩ := tail
      have hu : left.isUnary = false := by
        cases hu : left.isUnary
        · rfl
        · obtain ⟨e, t', he, -⟩ := hl.tailFails hu fuel (depth + 1) le_rfl le_rfl
          rw [hr] at he
          cases he
      refine post_pure ht ⟨?_, htail.2.mono (Nat.le_succ fuel) (Nat.le_succ depth)⟩
      simp [Expr.nestsRight, hl.nests, hl.notBinary, hu, htail.1]
  binaryTail depth s hs := by
    rw [Parse.binaryTail]
    refine post_bind keeps_binOp hs fun op s₁ hs₁ _ _ => ?_
    refine post_bind (ih.expr depth) hs₁ fun e s₂ hs₂ _ he => ?_
    exact post_pure hs₂ ⟨he.1, he.2.mono (Nat.le_succ fuel) le_rfl⟩
  operand depth := by
    rw [Parse.operand]
    refine keeps_firstOf _ ?_
    simp only [List.mem_cons, List.not_mem_nil, or_false]
    rintro p (rfl | rfl | rfl | rfl | rfl | rfl | rfl)
    · exact (ih.unary depth).mono fun _ _ h => h.succ
    · exact (ih.callExpr depth).mono fun _ _ h => h.succ
    · exact (ih.element depth).mono fun _ _ h => h.succ
    · exact keeps_funRef_shape
    · exact keeps_constExpr_shape
    · exact keeps_varRef_shape
    · exact (ih.paren depth).mono fun _ _ h => h.succ
  unary depth s hs := by
    rw [Parse.unary]
    refine post_bind keeps_unOp hs fun op s₁ hs₁ _ _ => ?_
    refine post_bind (ih.expr depth) hs₁ fun e s₂ hs₂ _ he => ?_
    exact post_pure hs₂ ⟨he.1, rfl, fun _ => he.2.mono (Nat.le_succ fuel) le_rfl⟩
  callExpr depth s hs := by
    rw [Parse.callExpr]
    refine post_bind (ih.funCall depth) hs fun c s₁ hs₁ _ hc => ?_
    obtain ⟨fn, args⟩ := c
    exact post_pure hs₁ ⟨hc, rfl, fun h => absurd h Bool.false_ne_true⟩
  funCall depth s hs := by
    rw [Parse.funCall]
    refine post_bind (keeps_ident _) hs fun name s₁ hs₁ _ _ => ?_
    refine post_bind (keeps_symbol _) hs₁ fun _ s₂ hs₂ _ _ => ?_
    refine post_bind (keeps_eatSymbol _) hs₂ fun b s₃ hs₃ _ _ => ?_
    -- both branches end by resolving the name, after the arguments
    have last : ∀ args t, Expr.allNestRight args = true →
        sameFrame.Post (fun c _ => Expr.allNestRight c.2 = true) t
          ((resolveFun name >>= fun r => pure (r, args)).exec t) := fun args t ha =>
      post_bind (keeps_resolveFun name) trivial fun r t' ht' _ _ => post_pure ht' ha
    cases b <;> simp only [pure_bind, Bool.false_eq_true, ↓reduceIte]
    · refine post_bind (ih.argList depth) hs₃ fun args s₄ hs₄ _ ha => ?_
      refine post_bind (keeps_symbol _) hs₄ fun _ s₅ hs₅ _ _ => ?_
      exact last args s₅ ha
    · exact last [] s₃ rfl
  argList depth s hs := by
    rw [Parse.argList]
    refine post_bind (ih.expr depth) hs fun e s₁ hs₁ _ he => ?_
    refine post_bind (keeps_eatSymbol _) hs₁ fun b s₂ hs₂ _ _ => ?_
    cases b
    · exact post_pure hs₂ (by simp [Expr.allNestRight, he.1])
    · refine post_bind (ih.argList depth) hs₂ fun es s₃ hs₃ _ hes => ?_
      exact post_pure hs₃ (by simp [Expr.allNestRight, he.1, hes])
  element depth s hs := by
    rw [Parse.element]
    refine post_bind (keeps_ident _) hs fun name s₁ hs₁ _ _ => ?_
    refine post_bind (keeps_symbol _) hs₁ fun _ s₂ hs₂ _ _ => ?_
    refine post_bind (ih.expr depth) hs₂ fun i s₃ hs₃ _ hi => ?_
    refine post_bind (keeps_symbol _) hs₃ fun _ s₄ hs₄ _ _ => ?_
    refine post_bind (keeps_resolveVar name) hs₄ fun r s₅ hs₅ _ _ => ?_
    exact post_pure hs₅ ⟨hi.1, rfl, fun h => absurd h Bool.false_ne_true⟩
  paren depth s hs := by
    rw [Parse.paren]
    refine post_bind (keeps_symbol _) hs fun _ s₁ hs₁ _ _ => ?_
    refine post_bind (ih.expr depth) hs₁ fun e s₂ hs₂ _ he => ?_
    refine post_bind (keeps_symbol _) hs₂ fun _ s₃ hs₃ _ _ => ?_
    exact post_pure hs₃ ⟨he.1, rfl, fun h => absurd h Bool.false_ne_true⟩

theorem nestRules : ∀ fuel, NestRules fuel
  | 0 => .zero
  | fuel + 1 => (nestRules fuel).succ

/-! ## Parsed expressions and files -/

theorem free_keeps_expr_nests (fuel depth : Nat) :
    Discipline.free.Keeps (expr fuel depth) fun e _ => e.nestsRight = true :=
  (((nestRules fuel).expr depth).free fun _ => trivial).mono fun _ _ h => h.1

theorem free_keeps_funCall_nests (fuel depth : Nat) :
    Discipline.free.Keeps (funCall fuel depth) fun c _ => ∀ e ∈ c.2, e.nestsRight = true :=
  (((nestRules fuel).funCall depth).free fun _ => trivial).mono fun _ _ h =>
    Expr.allNestRight_iff.1 h

theorem parseExpr_nestsRight {src : String} {ts : Tables} {lim : Limits} {e : Expr}
    (h : parseExpr src ts lim = .ok e) : e.nestsRight = true := by
  unfold parseExpr at h
  split at h
  · cases h
  · obtain ⟨_, -, he⟩ := parseExprTokens_keeps (Q := fun x _ => x.nestsRight = true)
      (free_keeps_expr_nests _ 0) (fun _ _ _ hx _ => hx) trivial h
    exact he

/-! ## Initializers in the variable table -/

def Tables.InitsNest (ts : Tables) : Prop :=
  ∀ i d, ts.vars.get? i = some d → ∀ e ∈ d.init, e.nestsRight = true

theorem Discipline.ExprValue.nestsRight {e : Expr} (h : Discipline.ExprValue e) :
    e.nestsRight = true := by
  obtain ⟨fuel, s, t, hr⟩ := h
  exact (free_keeps_expr_nests fuel 0).of_exec trivial hr

theorem Tables.InitsNest.store {ts : Tables} (h : ts.InitsNest) {d : VarDecl}
    (hd : ∀ e ∈ d.init, Discipline.ExprValue e) {vars : Table VarDecl}
    (hv : ∀ i, vars.get? i = if i = ts.vars.size then some d else ts.vars.get? i) :
    ({ ts with vars } : Tables).InitsNest := by
  intro i x hx e he
  change vars.get? i = some x at hx
  rw [hv] at hx
  split at hx
  · cases hx
    exact (hd e he).nestsRight
  · exact h i x hx e he

def initsNest : DeclDiscipline where
  inv s := s.tables.InitsNest
  le _ _ := True
  err _ _ := True
  ref _ _ := True
  le_refl _ := trivial
  le_trans _ _ := trivial
  ref_le _ _ := trivial
  step _ hs _ := ⟨hs, trivial⟩
  skip _ hs := ⟨hs, trivial⟩
  fail _ _ hs := ⟨hs, trivial, trivial⟩
  halt _ _ _ _ := trivial
  rewind _ hs _ _ _ := ⟨hs, trivial⟩
  var _ _ _ := trivial
  fn _ _ _ := trivial
  type _ _ _ := trivial
  insertType _ _ hs _ := ⟨hs, trivial, trivial⟩
  insertVar _ _ hs _ hd := ⟨hs.store hd (Table.get?_insert _ _ _), trivial, trivial⟩
  insertFun _ _ hs _ := ⟨hs, trivial, trivial⟩
  pushScoped _ _ hs _ hd := ⟨hs.store hd (Table.get?_push _ _), trivial, trivial⟩
  clearScope _ hs := ⟨hs, trivial⟩
  err_clearScope _ _ _ := trivial

theorem Tables.parseFile_initsNest (src path : String) {ts : Tables} (lim : Limits)
    (h : ts.InitsNest) : (parseFile src path ts lim).2.InitsNest := by
  unfold parseFile
  split
  · exact h
  · next tokens _ =>
    rw [Parser.runOn_eq]
    have hrun := initsNest.fileRules.keeps_file (Parse.budget tokens.size) path
      (ParseState.start tokens ts lim) h
    rcases hr : (Parse.file (Parse.budget tokens.size) path).exec
      (ParseState.start tokens ts lim) with ⟨_ | f, s⟩ <;> rw [hr] at hrun
    · exact hrun.1
    · exact hrun.1

theorem Session.Reachable.initsNest {s : Session} (hs : s.Reachable) : s.tables.InitsNest := by
  induction hs with
  | fresh => exact fun i d hd => by simp [Table.get?, Tables.initial] at hd
  | parse src path _ ih =>
    rw [Session.parse_tables]
    exact Tables.parseFile_initsNest src path _ ih

/-- Operators nest to the right. No binary operation in an expression that `parseExpr` returns,
in the function bodies of a file that `parseFile` returns, or in an initializer that any session
stores in its variable table (those the printer writes for globals and locals), has a binary or
a unary operation as its left operand. -/
theorem parsed_expressions_nest_right :
    (∀ src ts lim e, parseExpr src ts lim = .ok e → e.nestsRight = true) ∧
    (∀ src path ts lim f, (parseFile src path ts lim).1 = .ok f →
      ∀ fn ∈ f.functions, ∀ e ∈ Stmt.blockExprs fn.body, e.nestsRight = true) ∧
    (∀ s : Session, s.Reachable →
      ∀ i d, s.tables.vars.get? i = some d → ∀ e ∈ d.init, e.nestsRight = true) :=
  ⟨fun _ _ _ _ h => parseExpr_nestsRight h,
    fun _ _ _ _ _ h => parseFile_exprs free_keeps_expr_nests free_keeps_funCall_nests h,
    fun _ hs => hs.initsNest⟩

/-- `not` reaches over the whole chain after it, and the chain nests to the right. -/
theorem negation_reaches_over_the_chain :
    parseExpr "not true and false or true" Tables.initial {} =
        .ok (.unary .logicalNot (.binary (.const (.boolean true)) .logicalAnd
          (.binary (.const (.boolean false)) .logicalOr (.const (.boolean true))))) ∧
      (Expr.unary .logicalNot (.binary (.const (.boolean true)) .logicalAnd
        (.binary (.const (.boolean false)) .logicalOr (.const (.boolean true))))).nestsRight =
        true :=
  have h : parseExpr "not true and false or true" Tables.initial {} =
      .ok (.unary .logicalNot (.binary (.const (.boolean true)) .logicalAnd
        (.binary (.const (.boolean false)) .logicalOr (.const (.boolean true))))) := by cbv
  ⟨h, parsed_expressions_nest_right.1 _ _ _ _ h⟩

end Jass
