import Jass.Proofs.Parse.Run
/-!
# Two runs in step

The rules of the grammar read the tokens, the cursor, the tables and the function scope, and
they compare the nesting depth with its bound; the failure log (`furthest`, `reach`,
`failures`) is only written. So two runs of a rule from states that agree on what is read take
the same steps, as long as the first one hits no limit: when the second has at least the step
budget of the first and at least as much room below its depth bound, every check the first
passes, the second passes too, and a check the first fails ends the first in a limit error.

A `Twin` relates the states of two such runs. `Twin.Repeats p p'` says that `p'` repeats `p`:
from related states, a run of `p` that hits no limit ends with the same result as the run of
`p'`, in related states. Every rule is repeated with a larger budget and more room
(`Twin.exprRules`, `Twin.stmtRules`, `Twin.repeats_file`). Two twins are used: `raised`, the
same state under a higher depth bound, and `alike`, two states that read alike whatever their
failure logs.
-/

namespace Jass

open Jass.Parser Parse

/-- A result that is not a limit error: a value, or a syntax or lexical failure. -/
def HitsNoLimit {α : Type} : Except ParseError α → Prop
  | .ok _ => True
  | .error e => e.fault.errorClass ≠ .limitExceeded

instance {α : Type} (r : Except ParseError α) : Decidable (HitsNoLimit r) :=
  match r with
  | .ok _ => isTrue trivial
  | .error e => inferInstanceAs (Decidable (e.fault.errorClass ≠ .limitExceeded))

@[simp] theorem hitsNoLimit_ok {α : Type} (a : α) : HitsNoLimit (.ok a : Except ParseError α) :=
  trivial

@[simp] theorem hitsNoLimit_error {α : Type} (e : ParseError) :
    HitsNoLimit (.error e : Except ParseError α) ↔ e.fault.errorClass ≠ .limitExceeded :=
  Iff.rfl

theorem hitsNoLimit_of_isSyntax {α : Type} {e : ParseError} (h : e.fault.isSyntax = true) :
    HitsNoLimit (.error e : Except ParseError α) := by
  simp only [ParseFault.isSyntax, beq_iff_eq] at h
  simp [h]

/-- A relation between the states of two runs that read alike: the same tokens, cursor, tables
and scope, under the depth bounds `bound₁` and `bound₂`, kept by every update a rule makes. -/
structure Twin where
  rel : ParseState → ParseState → Prop
  bound₁ : Nat
  bound₂ : Nat
  maxDepth : ∀ {s s'}, rel s s' → s.maxDepth = bound₁ ∧ s'.maxDepth = bound₂
  tokens : ∀ {s s'}, rel s s' → s'.tokens = s.tokens
  cursor : ∀ {s s'}, rel s s' → s'.cursor = s.cursor
  tables : ∀ {s s'}, rel s s' → s'.tables = s.tables
  scope : ∀ {s s'}, rel s s' → s'.scope = s.scope
  moveTo : ∀ {s s'} (c : Nat), rel s s' → rel (s.moveTo c) (s'.moveTo c)
  record : ∀ {s s'} (e : ParseError), rel s s' → rel (s.record e) (s'.record e)
  rewind : ∀ {s s'} (c : Nat), rel s s' → rel { s with cursor := c } { s' with cursor := c }
  withType : ∀ {s s'} (d : TypeDecl), rel s s' → rel (s.withType d) (s'.withType d)
  withVar : ∀ {s s'} (d : VarDecl), rel s s' → rel (s.withVar d) (s'.withVar d)
  withFun : ∀ {s s'} (d : FunDecl), rel s s' → rel (s.withFun d) (s'.withFun d)
  pushed : ∀ {s s'} (d : VarDecl), rel s s' → rel (s.pushed d) (s'.pushed d)
  unscoped : ∀ {s s'}, rel s s' → rel s.unscoped s'.unscoped

namespace Twin

variable (T : Twin) {α β : Type}

/-- `p'` repeats `p`: from related states, when the run of `p` hits no limit, the run of `p'`
ends with the same result, in a related state. -/
def Repeats (p p' : Parser α) : Prop :=
  ∀ s s', T.rel s s' → HitsNoLimit (p.exec s).1 →
    (p'.exec s').1 = (p.exec s).1 ∧ T.rel (p.exec s).2 (p'.exec s').2

variable {T}

theorem current_eq {s s' : ParseState} (h : T.rel s s') : s'.current = s.current := by
  simp only [ParseState.current, T.tokens h, T.cursor h]

theorem stepped {s s' : ParseState} (h : T.rel s s') : T.rel s.stepped s'.stepped := by
  simp only [ParseState.stepped, T.tokens h, T.cursor h]
  exact T.moveTo _ h

theorem skipped {s s' : ParseState} (h : T.rel s s') : T.rel s.skipped s'.skipped := by
  simp only [ParseState.skipped, T.tokens h, T.cursor h]
  exact T.moveTo _ h

theorem expected_eq {s s' : ParseState} (h : T.rel s s') (rule : Rule) :
    s'.expected rule = s.expected rule := by
  simp only [ParseState.expected, current_eq h]

theorem varRef_eq {s s' : ParseState} (h : T.rel s s') (name : String) :
    s'.varRef name = s.varRef name := by
  simp only [ParseState.varRef, T.scope h, T.tables h]

/-! ## Composing runs -/

theorem repeats_of_exec {p p' : Parser α}
    (h : ∀ s s', T.rel s s' → (p'.exec s').1 = (p.exec s).1 ∧ T.rel (p.exec s).2 (p'.exec s').2) :
    T.Repeats p p' :=
  fun s s' hs _ => h s s' hs

theorem repeats_pure (a : α) : T.Repeats (pure a) (pure a) :=
  repeats_of_exec fun _ _ hs => ⟨rfl, hs⟩

theorem repeats_throw (e : ParseError) : T.Repeats (throw e : Parser α) (throw e) :=
  repeats_of_exec fun _ _ hs => ⟨rfl, hs⟩

theorem Repeats.run {p p' : Parser α} (hp : T.Repeats p p') {s s' : ParseState}
    (hs : T.rel s s') (hno : HitsNoLimit (p.exec s).1) :
    ∃ t', p'.exec s' = ((p.exec s).1, t') ∧ T.rel (p.exec s).2 t' := by
  obtain ⟨h₁, h₂⟩ := hp s s' hs hno
  exact ⟨(p'.exec s').2, Prod.ext h₁ rfl, h₂⟩

theorem repeats_bind {p p' : Parser α} {f f' : α → Parser β} (hp : T.Repeats p p')
    (hf : ∀ a, T.Repeats (f a) (f' a)) : T.Repeats (p >>= f) (p' >>= f') := by
  intro s s' hs hno
  rw [exec_bind] at hno ⊢
  rw [exec_bind]
  rcases hr : p.exec s with ⟨_ | a, t⟩ <;> rw [hr] at hno
  · obtain ⟨t', h', ht⟩ := hp.run hs (by rw [hr]; exact hno)
    rw [hr] at h' ht
    rw [h']
    exact ⟨rfl, ht⟩
  · obtain ⟨t', h', ht⟩ := hp.run hs (by rw [hr]; trivial)
    rw [hr] at h' ht
    rw [h']
    exact hf a t t' ht hno

theorem repeats_map (g : α → β) {p p' : Parser α} (hp : T.Repeats p p') :
    T.Repeats (g <$> p) (g <$> p') := by
  rw [map_eq_pure_bind, map_eq_pure_bind]
  exact repeats_bind hp fun a => repeats_pure (g a)

theorem repeats_outOfFuel (p' : Parser α) : T.Repeats outOfFuel p' := by
  intro s s' _ hno
  rw [exec_outOfFuel] at hno
  exact absurd rfl hno

theorem repeats_checkDepth {d d' : Nat} (hd : T.bound₁ + d' ≤ T.bound₂ + d) :
    T.Repeats (checkDepth d) (checkDepth d') := by
  intro s s' hs hno
  obtain ⟨h₁, h₂⟩ := T.maxDepth hs
  rw [exec_checkDepth] at hno ⊢
  rw [exec_checkDepth]
  split at hno
  · exact absurd rfl hno
  · -- the first run passes the check, and the second has at least as much room
    have : ¬ d' ≥ s'.maxDepth := by omega
    simp only [this, if_false]
    rw [if_neg ‹_›]
    exact ⟨rfl, hs⟩

/-! ## The primitives -/

theorem repeats_peek : T.Repeats peek peek :=
  repeats_of_exec fun _ _ hs => by simp [current_eq hs, hs]

theorem repeats_here : T.Repeats here here :=
  repeats_of_exec fun _ _ hs => by simp [current_eq hs, hs]

theorem repeats_advance : T.Repeats advance advance :=
  repeats_of_exec fun _ _ hs => by simp [stepped hs]

theorem repeats_skipNewlines : T.Repeats skipNewlines skipNewlines :=
  repeats_of_exec fun _ _ hs => by simp [skipped hs]

theorem repeats_fail (rule : Rule) : T.Repeats (fail rule : Parser α) (fail rule) :=
  repeats_of_exec fun _ _ hs => by
    simp only [exec_fail, expected_eq hs, true_and]
    exact T.record _ hs

theorem repeats_eatKeyword (k : Keyword) : T.Repeats (eatKeyword k) (eatKeyword k) :=
  repeats_of_exec fun _ _ hs => by
    simp only [exec_eatKeyword, current_eq hs]
    split
    · exact ⟨rfl, stepped hs⟩
    · exact ⟨rfl, hs⟩

theorem repeats_eatSymbol (c : Symbol) : T.Repeats (eatSymbol c) (eatSymbol c) :=
  repeats_of_exec fun _ _ hs => by
    simp only [exec_eatSymbol, current_eq hs]
    split
    · exact ⟨rfl, stepped hs⟩
    · exact ⟨rfl, hs⟩

theorem repeats_keyword (k : Keyword) : T.Repeats (keyword k) (keyword k) := by
  refine repeats_bind (repeats_eatKeyword k) fun b => ?_
  cases b
  · exact repeats_fail _
  · exact repeats_pure _

theorem repeats_symbol (c : Symbol) : T.Repeats (symbol c) (symbol c) := by
  refine repeats_bind (repeats_eatSymbol c) fun b => ?_
  cases b
  · exact repeats_fail _
  · exact repeats_pure _

theorem repeats_ident (rule : Rule) : T.Repeats (ident rule) (ident rule) := by
  refine repeats_bind repeats_peek fun t => ?_
  split
  · exact repeats_bind repeats_advance fun _ => repeats_pure _
  · exact repeats_fail _

theorem repeats_lineBreak : T.Repeats lineBreak lineBreak := by
  refine repeats_bind repeats_peek fun t => ?_
  split
  · exact repeats_pure _
  · exact repeats_bind repeats_advance fun _ => repeats_skipNewlines
  · exact repeats_fail _

theorem repeats_endOfInput : T.Repeats endOfInput endOfInput := by
  refine repeats_bind repeats_skipNewlines fun _ => repeats_bind repeats_peek fun t => ?_
  split
  · exact repeats_pure _
  · exact repeats_fail _

theorem repeats_resolveVar (name : String) : T.Repeats (resolveVar name) (resolveVar name) :=
  repeats_of_exec fun _ _ hs => by simp [exec_resolveVar, varRef_eq hs, hs]

theorem repeats_resolveType (name : String) : T.Repeats (resolveType name) (resolveType name) :=
  repeats_of_exec fun _ _ hs => by simp [T.tables hs, hs]

theorem repeats_resolveFun (name : String) : T.Repeats (resolveFun name) (resolveFun name) :=
  repeats_of_exec fun _ _ hs => by simp [T.tables hs, hs]

theorem repeats_insertType (d : TypeDecl) : T.Repeats (insertType d) (insertType d) :=
  repeats_of_exec fun _ _ hs => by simp [T.tables hs, T.withType d hs]

theorem repeats_insertVar (d : VarDecl) : T.Repeats (insertVar d) (insertVar d) :=
  repeats_of_exec fun _ _ hs => by simp [T.tables hs, T.withVar d hs]

theorem repeats_insertFun (d : FunDecl) : T.Repeats (insertFun d) (insertFun d) :=
  repeats_of_exec fun _ _ hs => by simp [T.tables hs, T.withFun d hs]

theorem repeats_pushScoped (d : VarDecl) : T.Repeats (pushScoped d) (pushScoped d) :=
  repeats_of_exec fun _ _ hs => by simp [T.tables hs, T.pushed d hs]

theorem repeats_clearScope : T.Repeats clearScope clearScope :=
  repeats_of_exec fun _ _ hs => by simp [T.unscoped hs]

/-! ## Ordered choice -/

theorem repeats_attempt {p p' : Parser α} (hp : T.Repeats p p') :
    T.Repeats (attempt p) (attempt p') := by
  intro s s' hs hno
  rw [exec_attempt] at hno ⊢
  rw [exec_attempt]
  rcases hr : p.exec s with ⟨_ | a, t⟩ <;> rw [hr] at hno
  · dsimp only at hno
    split at hno
    · next e hsyn =>
      obtain ⟨t', h', ht⟩ := hp.run hs (by rw [hr]; exact hitsNoLimit_of_isSyntax hsyn)
      rw [hr] at h' ht
      rw [h']
      simp only [hsyn, if_true, T.cursor hs, true_and]
      exact T.rewind _ ht
    · next e hsyn =>
      obtain ⟨t', h', ht⟩ := hp.run hs (by rw [hr]; exact hno)
      rw [hr] at h' ht
      rw [h']
      simp only [hsyn, Bool.false_eq_true, if_false, true_and]
      exact ht
  · obtain ⟨t', h', ht⟩ := hp.run hs (by rw [hr]; trivial)
    rw [hr] at h' ht
    rw [h']
    exact ⟨rfl, ht⟩

theorem repeats_firstOf (rule : Rule) : ∀ {ps ps' : List (Parser α)},
    List.Forall₂ T.Repeats ps ps' → T.Repeats (firstOf rule ps) (firstOf rule ps')
  | [], [], .nil => by
    rw [firstOf]
    exact repeats_fail rule
  | _ :: _, _ :: _, .cons hp hps => by
    rw [firstOf, firstOf]
    refine repeats_bind (repeats_attempt hp) fun o => ?_
    cases o with
    | none => exact repeats_firstOf rule hps
    | some a => exact repeats_pure a

theorem exists_succ_of_succ_le {n m : Nat} (h : n + 1 ≤ m) : ∃ k, m = k + 1 ∧ n ≤ k :=
  ⟨m - 1, by omega, by omega⟩

/-! ## Expressions -/

variable (T) in
/-- The expression rules at budget `fuel`, repeated with any larger budget and as much room
below the depth bound. -/
structure ExprRules (fuel : Nat) : Prop where
  expr : ∀ {fuel' d d'}, fuel ≤ fuel' → T.bound₁ + d' ≤ T.bound₂ + d →
    T.Repeats (expr fuel d) (expr fuel' d')
  binaryTail : ∀ {fuel' d d'}, fuel ≤ fuel' → T.bound₁ + d' ≤ T.bound₂ + d →
    T.Repeats (binaryTail fuel d) (binaryTail fuel' d')
  operand : ∀ {fuel' d d'}, fuel ≤ fuel' → T.bound₁ + d' ≤ T.bound₂ + d →
    T.Repeats (operand fuel d) (operand fuel' d')
  unary : ∀ {fuel' d d'}, fuel ≤ fuel' → T.bound₁ + d' ≤ T.bound₂ + d →
    T.Repeats (unary fuel d) (unary fuel' d')
  callExpr : ∀ {fuel' d d'}, fuel ≤ fuel' → T.bound₁ + d' ≤ T.bound₂ + d →
    T.Repeats (callExpr fuel d) (callExpr fuel' d')
  funCall : ∀ {fuel' d d'}, fuel ≤ fuel' → T.bound₁ + d' ≤ T.bound₂ + d →
    T.Repeats (funCall fuel d) (funCall fuel' d')
  argList : ∀ {fuel' d d'}, fuel ≤ fuel' → T.bound₁ + d' ≤ T.bound₂ + d →
    T.Repeats (argList fuel d) (argList fuel' d')
  element : ∀ {fuel' d d'}, fuel ≤ fuel' → T.bound₁ + d' ≤ T.bound₂ + d →
    T.Repeats (element fuel d) (element fuel' d')
  paren : ∀ {fuel' d d'}, fuel ≤ fuel' → T.bound₁ + d' ≤ T.bound₂ + d →
    T.Repeats (paren fuel d) (paren fuel' d')

theorem ExprRules.zero : T.ExprRules 0 where
  expr _ _ := by rw [Parse.expr]; exact repeats_outOfFuel _
  binaryTail _ _ := by rw [Parse.binaryTail]; exact repeats_outOfFuel _
  operand _ _ := by rw [Parse.operand]; exact repeats_outOfFuel _
  unary _ _ := by rw [Parse.unary]; exact repeats_outOfFuel _
  callExpr _ _ := by rw [Parse.callExpr]; exact repeats_outOfFuel _
  funCall _ _ := by rw [Parse.funCall]; exact repeats_outOfFuel _
  argList _ _ := by rw [Parse.argList]; exact repeats_outOfFuel _
  element _ _ := by rw [Parse.element]; exact repeats_outOfFuel _
  paren _ _ := by rw [Parse.paren]; exact repeats_outOfFuel _

theorem repeats_binOp : T.Repeats binOp binOp := by
  refine repeats_bind repeats_peek fun t => ?_
  dsimp only
  split
  · exact repeats_bind repeats_advance fun _ => repeats_pure _
  · exact repeats_fail _

theorem repeats_unOp : T.Repeats unOp unOp := by
  refine repeats_bind repeats_peek fun t => ?_
  dsimp only
  split
  · exact repeats_bind repeats_advance fun _ => repeats_pure _
  · exact repeats_fail _

theorem repeats_constant : T.Repeats constant constant := by
  refine repeats_bind repeats_peek fun t => ?_
  dsimp only
  split
  · exact repeats_bind repeats_advance fun _ => repeats_pure _
  · exact repeats_fail _

theorem repeats_funRef : T.Repeats funRef funRef :=
  repeats_bind (repeats_keyword _) fun _ => repeats_bind (repeats_ident _) fun name =>
    repeats_bind (repeats_resolveFun name) fun _ => repeats_pure _

theorem repeats_varRef : T.Repeats varRef varRef :=
  repeats_bind (repeats_ident _) fun name =>
    repeats_bind (repeats_resolveVar name) fun _ => repeats_pure _

theorem ExprRules.succ {fuel : Nat} (ih : T.ExprRules fuel) : T.ExprRules (fuel + 1) where
  expr {fuel' d d'} hf hd := by
    obtain ⟨k, rfl, hk⟩ := exists_succ_of_succ_le hf
    rw [Parse.expr, Parse.expr]
    refine repeats_bind (repeats_checkDepth hd) fun _ => ?_
    refine repeats_bind (ih.operand hk (by omega)) fun left => ?_
    refine repeats_bind (repeats_attempt (ih.binaryTail hk (by omega))) fun r => ?_
    rcases r with _ | ⟨op, right⟩ <;> exact repeats_pure _
  binaryTail {fuel' d d'} hf hd := by
    obtain ⟨k, rfl, hk⟩ := exists_succ_of_succ_le hf
    rw [Parse.binaryTail, Parse.binaryTail]
    exact repeats_bind repeats_binOp fun _ =>
      repeats_bind (ih.expr hk hd) fun _ => repeats_pure _
  operand {fuel' d d'} hf hd := by
    obtain ⟨k, rfl, hk⟩ := exists_succ_of_succ_le hf
    rw [Parse.operand, Parse.operand]
    exact repeats_firstOf _ (.cons (ih.unary hk hd) (.cons (ih.callExpr hk hd)
      (.cons (ih.element hk hd) (.cons repeats_funRef (.cons (repeats_map _ repeats_constant)
        (.cons repeats_varRef (.cons (ih.paren hk hd) .nil)))))))
  unary {fuel' d d'} hf hd := by
    obtain ⟨k, rfl, hk⟩ := exists_succ_of_succ_le hf
    rw [Parse.unary, Parse.unary]
    exact repeats_bind repeats_unOp fun _ =>
      repeats_bind (ih.expr hk hd) fun _ => repeats_pure _
  callExpr {fuel' d d'} hf hd := by
    obtain ⟨k, rfl, hk⟩ := exists_succ_of_succ_le hf
    rw [Parse.callExpr, Parse.callExpr]
    exact repeats_bind (ih.funCall hk hd) fun _ => repeats_pure _
  funCall {fuel' d d'} hf hd := by
    obtain ⟨k, rfl, hk⟩ := exists_succ_of_succ_le hf
    rw [Parse.funCall, Parse.funCall]
    refine repeats_bind (repeats_ident _) fun name => repeats_bind (repeats_symbol _) fun _ => ?_
    refine repeats_bind (repeats_eatSymbol _) fun b => ?_
    have last : ∀ args : List Expr, T.Repeats (resolveFun name >>= fun r => pure (r, args))
        (resolveFun name >>= fun r => pure (r, args)) := fun args =>
      repeats_bind (repeats_resolveFun name) fun _ => repeats_pure _
    cases b <;> simp only [pure_bind, Bool.false_eq_true, ↓reduceIte]
    · exact repeats_bind (ih.argList hk hd) fun args =>
        repeats_bind (repeats_symbol _) fun _ => last args
    · exact last []
  argList {fuel' d d'} hf hd := by
    obtain ⟨k, rfl, hk⟩ := exists_succ_of_succ_le hf
    rw [Parse.argList, Parse.argList]
    refine repeats_bind (ih.expr hk hd) fun e => repeats_bind (repeats_eatSymbol _) fun b => ?_
    cases b
    · exact repeats_pure _
    · exact repeats_bind (ih.argList hk hd) fun _ => repeats_pure _
  element {fuel' d d'} hf hd := by
    obtain ⟨k, rfl, hk⟩ := exists_succ_of_succ_le hf
    rw [Parse.element, Parse.element]
    exact repeats_bind (repeats_ident _) fun name => repeats_bind (repeats_symbol _) fun _ =>
      repeats_bind (ih.expr hk hd) fun _ => repeats_bind (repeats_symbol _) fun _ =>
        repeats_bind (repeats_resolveVar name) fun _ => repeats_pure _
  paren {fuel' d d'} hf hd := by
    obtain ⟨k, rfl, hk⟩ := exists_succ_of_succ_le hf
    rw [Parse.paren, Parse.paren]
    exact repeats_bind (repeats_symbol _) fun _ => repeats_bind (ih.expr hk hd) fun _ =>
      repeats_bind (repeats_symbol _) fun _ => repeats_pure _

theorem exprRules : ∀ fuel, T.ExprRules fuel
  | 0 => .zero
  | fuel + 1 => (exprRules fuel).succ

/-! ## Statements -/

variable (T) in
/-- The statement rules at budget `fuel`, repeated with any larger budget and as much room
below the depth bound. -/
structure StmtRules (fuel : Nat) : Prop where
  statements : ∀ {fuel' d d'}, fuel ≤ fuel' → T.bound₁ + d' ≤ T.bound₂ + d →
    T.Repeats (statements fuel d) (statements fuel' d')
  statement : ∀ {fuel' d d'}, fuel ≤ fuel' → T.bound₁ + d' ≤ T.bound₂ + d →
    T.Repeats (statement fuel d) (statement fuel' d')
  setStmt : ∀ {fuel' d d'}, fuel ≤ fuel' → T.bound₁ + d' ≤ T.bound₂ + d →
    T.Repeats (setStmt fuel d) (setStmt fuel' d')
  callStmt : ∀ {fuel' d d'}, fuel ≤ fuel' → T.bound₁ + d' ≤ T.bound₂ + d →
    T.Repeats (callStmt fuel d) (callStmt fuel' d')
  ifStmt : ∀ {fuel' d d'}, fuel ≤ fuel' → T.bound₁ + d' ≤ T.bound₂ + d →
    T.Repeats (ifStmt fuel d) (ifStmt fuel' d')
  elseIfBranches : ∀ {fuel' d d'}, fuel ≤ fuel' → T.bound₁ + d' ≤ T.bound₂ + d →
    T.Repeats (elseIfBranches fuel d) (elseIfBranches fuel' d')
  loopStmt : ∀ {fuel' d d'}, fuel ≤ fuel' → T.bound₁ + d' ≤ T.bound₂ + d →
    T.Repeats (loopStmt fuel d) (loopStmt fuel' d')
  exitWhenStmt : ∀ {fuel' d d'}, fuel ≤ fuel' → T.bound₁ + d' ≤ T.bound₂ + d →
    T.Repeats (exitWhenStmt fuel d) (exitWhenStmt fuel' d')
  returnStmt : ∀ {fuel' d d'}, fuel ≤ fuel' → T.bound₁ + d' ≤ T.bound₂ + d →
    T.Repeats (returnStmt fuel d) (returnStmt fuel' d')
  debugStmt : ∀ {fuel' d d'}, fuel ≤ fuel' → T.bound₁ + d' ≤ T.bound₂ + d →
    T.Repeats (debugStmt fuel d) (debugStmt fuel' d')

theorem StmtRules.zero : T.StmtRules 0 where
  statements _ _ := by rw [Parse.statements]; exact repeats_outOfFuel _
  statement _ _ := by rw [Parse.statement]; exact repeats_outOfFuel _
  setStmt _ _ := by rw [Parse.setStmt]; exact repeats_outOfFuel _
  callStmt _ _ := by rw [Parse.callStmt]; exact repeats_outOfFuel _
  ifStmt _ _ := by rw [Parse.ifStmt]; exact repeats_outOfFuel _
  elseIfBranches _ _ := by rw [Parse.elseIfBranches]; exact repeats_outOfFuel _
  loopStmt _ _ := by rw [Parse.loopStmt]; exact repeats_outOfFuel _
  exitWhenStmt _ _ := by rw [Parse.exitWhenStmt]; exact repeats_outOfFuel _
  returnStmt _ _ := by rw [Parse.returnStmt]; exact repeats_outOfFuel _
  debugStmt _ _ := by rw [Parse.debugStmt]; exact repeats_outOfFuel _

theorem StmtRules.succ {fuel : Nat} (ih : T.StmtRules fuel) : T.StmtRules (fuel + 1) where
  statements {fuel' d d'} hf hd := by
    obtain ⟨k, rfl, hk⟩ := exists_succ_of_succ_le hf
    rw [Parse.statements, Parse.statements]
    refine repeats_bind (repeats_attempt (ih.statement hk hd)) fun o => ?_
    cases o with
    | none => exact repeats_pure _
    | some st => exact repeats_bind repeats_lineBreak fun _ =>
        repeats_bind (ih.statements hk hd) fun _ => repeats_pure _
  statement {fuel' d d'} hf hd := by
    obtain ⟨k, rfl, hk⟩ := exists_succ_of_succ_le hf
    rw [Parse.statement, Parse.statement]
    refine repeats_bind repeats_here fun pos => repeats_bind ?_ fun _ => repeats_pure _
    exact repeats_firstOf _ (.cons (ih.setStmt hk hd) (.cons (ih.callStmt hk hd)
      (.cons (ih.ifStmt hk hd) (.cons (ih.loopStmt hk hd) (.cons (ih.exitWhenStmt hk hd)
        (.cons (ih.returnStmt hk hd) (.cons (ih.debugStmt hk hd) .nil)))))))
  setStmt {fuel' d d'} hf hd := by
    obtain ⟨k, rfl, hk⟩ := exists_succ_of_succ_le hf
    rw [Parse.setStmt, Parse.setStmt]
    refine repeats_bind (repeats_keyword _) fun _ => repeats_bind (repeats_ident _) fun name => ?_
    refine repeats_bind (repeats_resolveVar name) fun target => ?_
    refine repeats_bind (repeats_eatSymbol _) fun b => ?_
    -- after the optional index, both branches read `= value`
    have last : ∀ index, T.Repeats
        (do symbol .assign; let value ← expr fuel d; return Stmt.set target index value)
        (do symbol .assign; let value ← expr k d'; return Stmt.set target index value) :=
      fun _ => repeats_bind (repeats_symbol _) fun _ =>
        repeats_bind ((exprRules fuel).expr hk hd) fun _ => repeats_pure _
    cases b <;> simp only [pure_bind, Bool.false_eq_true, ↓reduceIte]
    · exact last none
    · exact repeats_bind ((exprRules fuel).expr hk hd) fun i =>
        repeats_bind (repeats_symbol _) fun _ => last (some i)
  callStmt {fuel' d d'} hf hd := by
    obtain ⟨k, rfl, hk⟩ := exists_succ_of_succ_le hf
    rw [Parse.callStmt, Parse.callStmt]
    exact repeats_bind (repeats_keyword _) fun _ =>
      repeats_bind ((exprRules fuel).funCall hk hd) fun _ => repeats_pure _
  ifStmt {fuel' d d'} hf hd := by
    obtain ⟨k, rfl, hk⟩ := exists_succ_of_succ_le hf
    rw [Parse.ifStmt, Parse.ifStmt]
    have hd₁ : T.bound₁ + (d' + 1) ≤ T.bound₂ + (d + 1) := by omega
    refine repeats_bind (repeats_checkDepth hd) fun _ => repeats_bind (repeats_keyword _) fun _ => ?_
    refine repeats_bind ((exprRules fuel).expr hk hd₁) fun cond => ?_
    refine repeats_bind (repeats_keyword _) fun _ => repeats_bind repeats_lineBreak fun _ => ?_
    refine repeats_bind (ih.statements hk hd₁) fun thenBody => ?_
    refine repeats_bind (ih.elseIfBranches hk hd₁) fun elseIfs => ?_
    refine repeats_bind (repeats_eatKeyword _) fun b => ?_
    -- after the optional `else`, both branches read `endif`
    have last : ∀ elseBody, T.Repeats
        (do keyword .kwEndif; return Stmt.ifThen cond thenBody elseIfs elseBody)
        (do keyword .kwEndif; return Stmt.ifThen cond thenBody elseIfs elseBody) :=
      fun _ => repeats_bind (repeats_keyword _) fun _ => repeats_pure _
    cases b <;> simp only [pure_bind, Bool.false_eq_true, ↓reduceIte]
    · exact last none
    · exact repeats_bind repeats_lineBreak fun _ =>
        repeats_bind (ih.statements hk hd₁) fun body => last (some body)
  elseIfBranches {fuel' d d'} hf hd := by
    obtain ⟨k, rfl, hk⟩ := exists_succ_of_succ_le hf
    rw [Parse.elseIfBranches, Parse.elseIfBranches]
    refine repeats_bind (repeats_eatKeyword _) fun b => ?_
    cases b
    · exact repeats_pure _
    · exact repeats_bind ((exprRules fuel).expr hk hd) fun _ =>
        repeats_bind (repeats_keyword _) fun _ => repeats_bind repeats_lineBreak fun _ =>
          repeats_bind (ih.statements hk hd) fun _ =>
            repeats_bind (ih.elseIfBranches hk hd) fun _ => repeats_pure _
  loopStmt {fuel' d d'} hf hd := by
    obtain ⟨k, rfl, hk⟩ := exists_succ_of_succ_le hf
    rw [Parse.loopStmt, Parse.loopStmt]
    have hd₁ : T.bound₁ + (d' + 1) ≤ T.bound₂ + (d + 1) := by omega
    exact repeats_bind (repeats_checkDepth hd) fun _ => repeats_bind (repeats_keyword _) fun _ =>
      repeats_bind repeats_lineBreak fun _ => repeats_bind (ih.statements hk hd₁) fun _ =>
        repeats_bind (repeats_keyword _) fun _ => repeats_pure _
  exitWhenStmt {fuel' d d'} hf hd := by
    obtain ⟨k, rfl, hk⟩ := exists_succ_of_succ_le hf
    rw [Parse.exitWhenStmt, Parse.exitWhenStmt]
    exact repeats_bind (repeats_keyword _) fun _ =>
      repeats_bind ((exprRules fuel).expr hk hd) fun _ => repeats_pure _
  returnStmt {fuel' d d'} hf hd := by
    obtain ⟨k, rfl, hk⟩ := exists_succ_of_succ_le hf
    rw [Parse.returnStmt, Parse.returnStmt]
    exact repeats_bind (repeats_keyword _) fun _ =>
      repeats_bind (repeats_attempt ((exprRules fuel).expr hk hd)) fun _ => repeats_pure _
  debugStmt {fuel' d d'} hf hd := by
    obtain ⟨k, rfl, hk⟩ := exists_succ_of_succ_le hf
    rw [Parse.debugStmt, Parse.debugStmt]
    -- the four wrapped statements are tried in turn, as alternatives
    refine repeats_bind (repeats_keyword _) fun _ => ?_
    refine repeats_bind (repeats_attempt (ih.setStmt hk hd)) fun o₁ => ?_
    rcases o₁ with _ | st
    · refine repeats_bind (repeats_attempt (ih.callStmt hk hd)) fun o₂ => ?_
      rcases o₂ with _ | st
      · refine repeats_bind (repeats_attempt (ih.ifStmt hk hd)) fun o₃ => ?_
        rcases o₃ with _ | st
        · refine repeats_bind (repeats_attempt (ih.loopStmt hk hd)) fun o₄ => ?_
          rcases o₄ with _ | st
          · exact repeats_fail _
          · exact repeats_pure _
        · exact repeats_pure _
      · exact repeats_pure _
    · exact repeats_pure _

theorem stmtRules : ∀ fuel, T.StmtRules fuel
  | 0 => .zero
  | fuel + 1 => (stmtRules fuel).succ

/-! ## Declarations

The declaration rules read expressions at depth zero, so they are repeated when the second run's
depth bound is at least the first's. -/

theorem exec_catch {p : Parser α} (s : ParseState) :
    (tryCatch (Except.ok <$> p) fun e => pure (.error e)).exec s = (.ok (p.exec s).1, (p.exec s).2) := by
  rw [exec_tryCatch, exec_map]
  rcases p.exec s with ⟨_ | a, t⟩ <;> rfl

theorem repeats_catch {p p' : Parser α} {g g' : Except ParseError α → Parser β}
    (hp : T.Repeats p p') (hg : ∀ r, T.Repeats (g r) (g' r))
    (hpass : ∀ e t, HitsNoLimit ((g (.error e)).exec t).1 → e.fault.errorClass ≠ .limitExceeded) :
    T.Repeats (tryCatch (Except.ok <$> p) (fun e => pure (.error e)) >>= g)
      (tryCatch (Except.ok <$> p') (fun e => pure (.error e)) >>= g') := by
  intro s s' hs hno
  rw [exec_bind, exec_catch] at hno ⊢
  rw [exec_bind, exec_catch]
  have hp₁ : HitsNoLimit (p.exec s).1 := by
    rcases hr : (p.exec s).1 with e | a
    · rw [hr] at hno
      exact hpass e _ hno
    · trivial
  obtain ⟨t', h', ht⟩ := hp.run hs hp₁
  rw [h']
  exact hg _ _ _ ht hno

theorem repeats_forIn {γ : Type} (l : List γ) (f : γ → PUnit → Parser (ForInStep PUnit))
    (g : γ → ParseState → ParseState) (hf : ∀ x s, (f x ⟨⟩).exec s = (.ok (.yield ⟨⟩), g x s))
    (hg : ∀ x {s s'}, T.rel s s' → T.rel (g x s) (g x s')) :
    T.Repeats (forIn l ⟨⟩ f) (forIn l ⟨⟩ f) :=
  repeats_of_exec fun s s' hs => by
    rw [exec_forIn l f g hf, exec_forIn l f g hf]
    refine ⟨rfl, ?_⟩
    induction l generalizing s s' with
    | nil => exact hs
    | cons x l ih => exact ih (g x s) (g x s') (hg x hs)

theorem repeats_typeDecl : T.Repeats typeDecl typeDecl := by
  rw [Parse.typeDecl]
  exact repeats_bind repeats_here fun _ => repeats_bind (repeats_keyword _) fun _ =>
    repeats_bind (repeats_ident _) fun _ => repeats_bind (repeats_keyword _) fun _ =>
      repeats_bind (repeats_ident _) fun parent =>
        repeats_bind (repeats_resolveType parent) fun _ => repeats_insertType _

section

variable (hb : T.bound₁ ≤ T.bound₂) {fuel fuel' : Nat} (hf : fuel ≤ fuel')
include hb hf

theorem repeats_varDecl (pos : Pos) : T.Repeats (varDecl fuel pos) (varDecl fuel' pos) := by
  rw [Parse.varDecl, Parse.varDecl]
  refine repeats_bind (repeats_ident _) fun typeName => ?_
  refine repeats_bind (repeats_eatKeyword _) fun isArray => ?_
  refine repeats_bind (repeats_ident _) fun name => ?_
  refine repeats_bind (repeats_eatSymbol _) fun b => ?_
  -- the type is resolved last, after the optional initializer
  have last : ∀ init, T.Repeats
      (do let r ← resolveType typeName; pure { type := r, isArray, name, init, pos : VarDecl })
      (do let r ← resolveType typeName; pure { type := r, isArray, name, init, pos : VarDecl }) :=
    fun _ => repeats_bind (repeats_resolveType typeName) fun _ => repeats_pure _
  cases b <;> simp only [pure_bind, Bool.false_eq_true, ↓reduceIte]
  · exact last none
  · exact repeats_bind ((exprRules fuel).expr hf (by omega)) fun e => last (some e)

theorem repeats_global : T.Repeats (global fuel) (global fuel') := by
  rw [Parse.global, Parse.global]
  exact repeats_bind repeats_here fun pos => repeats_bind (repeats_eatKeyword _) fun _ =>
    repeats_bind (repeats_varDecl hb hf pos) fun d =>
      repeats_bind (repeats_insertVar d) fun _ => repeats_pure _

omit hb in
theorem repeats_params : T.Repeats (params fuel) (params fuel') := by
  induction fuel generalizing fuel' with
  | zero => rw [Parse.params]; exact repeats_outOfFuel _
  | succ fuel ih =>
    obtain ⟨k, rfl, hk⟩ := exists_succ_of_succ_le hf
    rw [Parse.params, Parse.params]
    refine repeats_bind (repeats_ident _) fun typeName => repeats_bind (repeats_ident _) fun _ => ?_
    refine repeats_bind (repeats_resolveType typeName) fun _ => ?_
    refine repeats_bind (repeats_eatSymbol _) fun b => ?_
    cases b
    · exact repeats_pure _
    · exact repeats_bind (ih hk) fun _ => repeats_pure _

omit hb in
theorem repeats_head (pos : Pos) : T.Repeats (head fuel pos) (head fuel' pos) := by
  rw [Parse.head, Parse.head]
  refine repeats_bind (repeats_ident _) fun name => repeats_bind (repeats_keyword _) fun _ => ?_
  refine repeats_bind (repeats_eatKeyword _) fun b => ?_
  -- after the parameters, both branches read the result type
  have rest : ∀ ps, T.Repeats
      (do
        keyword .kwReturns
        let result ← if ← eatKeyword .kwNothing then pure none else do
          let t ← ident .returnType
          pure (some (← resolveType t))
        return { name, params := ps, result, pos : FunDecl })
      (do
        keyword .kwReturns
        let result ← if ← eatKeyword .kwNothing then pure none else do
          let t ← ident .returnType
          pure (some (← resolveType t))
        return { name, params := ps, result, pos : FunDecl }) := by
    intro ps
    refine repeats_bind (repeats_keyword _) fun _ => repeats_bind (repeats_eatKeyword _) fun b => ?_
    cases b <;> simp only [pure_bind, Bool.false_eq_true, ↓reduceIte]
    · exact repeats_bind (repeats_ident _) fun t =>
        repeats_bind (repeats_resolveType t) fun _ => repeats_pure _
    · exact repeats_pure _
  cases b <;> simp only [pure_bind, Bool.false_eq_true, ↓reduceIte]
  · exact repeats_bind (repeats_params hf) fun ps => rest ps
  · exact rest []

omit hb in
theorem repeats_native : T.Repeats (native fuel) (native fuel') := by
  rw [Parse.native, Parse.native]
  exact repeats_bind repeats_here fun pos => repeats_bind (repeats_eatKeyword _) fun _ =>
    repeats_bind (repeats_keyword _) fun _ => repeats_bind (repeats_head hf pos) fun d =>
      repeats_bind (repeats_insertFun d) fun _ => repeats_pure _

theorem repeats_globalLines : T.Repeats (globalLines fuel) (globalLines fuel') := by
  induction fuel generalizing fuel' with
  | zero => rw [Parse.globalLines]; exact repeats_outOfFuel _
  | succ fuel ih =>
    obtain ⟨k, rfl, hk⟩ := exists_succ_of_succ_le hf
    rw [Parse.globalLines, Parse.globalLines]
    refine repeats_bind (repeats_attempt (repeats_global hb hk)) fun o => ?_
    cases o with
    | none => exact repeats_pure _
    | some g => exact repeats_bind repeats_lineBreak fun _ =>
        repeats_bind (ih hk) fun _ => repeats_pure _

theorem repeats_globalsBlock : T.Repeats (globalsBlock fuel) (globalsBlock fuel') := by
  rw [Parse.globalsBlock, Parse.globalsBlock]
  exact repeats_bind (repeats_keyword _) fun _ => repeats_bind repeats_lineBreak fun _ =>
    repeats_bind (repeats_globalLines hb hf) fun _ =>
      repeats_bind (repeats_keyword _) fun _ => repeats_pure _

theorem repeats_declItem (acc : DeclPart) :
    T.Repeats (declItem fuel acc) (declItem fuel' acc) := by
  rw [Parse.declItem, Parse.declItem]
  refine repeats_bind (repeats_attempt repeats_typeDecl) fun o₁ => ?_
  rcases o₁ with _ | id
  · refine repeats_bind (repeats_attempt (repeats_globalsBlock hb hf)) fun o₂ => ?_
    rcases o₂ with _ | gs
    · refine repeats_bind (repeats_attempt (repeats_native hf)) fun o₃ => ?_
      rcases o₃ with _ | n <;> exact repeats_pure _
    · exact repeats_pure _
  · exact repeats_pure _

theorem repeats_declarations (acc : DeclPart) :
    T.Repeats (declarations fuel acc) (declarations fuel' acc) := by
  induction fuel generalizing fuel' acc with
  | zero => rw [Parse.declarations]; exact repeats_outOfFuel _
  | succ fuel ih =>
    obtain ⟨k, rfl, hk⟩ := exists_succ_of_succ_le hf
    rw [Parse.declarations, Parse.declarations]
    refine repeats_bind (repeats_declItem hb hk acc) fun o => ?_
    cases o with
    | none => exact repeats_pure _
    | some acc' => exact repeats_bind repeats_lineBreak fun _ => ih hk acc'

theorem repeats_localDecl : T.Repeats (localDecl fuel) (localDecl fuel') := by
  rw [Parse.localDecl, Parse.localDecl]
  exact repeats_bind repeats_here fun pos => repeats_bind (repeats_keyword _) fun _ =>
    repeats_bind (repeats_varDecl hb hf pos) fun d => repeats_pushScoped d

theorem repeats_localLines : T.Repeats (localLines fuel) (localLines fuel') := by
  induction fuel generalizing fuel' with
  | zero => rw [Parse.localLines]; exact repeats_outOfFuel _
  | succ fuel ih =>
    obtain ⟨k, rfl, hk⟩ := exists_succ_of_succ_le hf
    rw [Parse.localLines, Parse.localLines]
    refine repeats_bind (repeats_attempt (repeats_localDecl hb hk)) fun o => ?_
    cases o with
    | none => exact repeats_pure _
    | some v => exact repeats_bind repeats_lineBreak fun _ =>
        repeats_bind (ih hk) fun _ => repeats_pure _

theorem repeats_functionBody : T.Repeats (functionBody fuel) (functionBody fuel') := by
  rw [Parse.functionBody, Parse.functionBody]
  exact repeats_bind repeats_lineBreak fun _ => repeats_bind (repeats_localLines hb hf) fun _ =>
    repeats_bind ((stmtRules fuel).statements hf (by omega)) fun _ =>
      repeats_bind (repeats_keyword _) fun _ => repeats_bind repeats_lineBreak fun _ =>
        repeats_pure _

theorem repeats_function : T.Repeats (function fuel) (function fuel') := by
  rw [Parse.function, Parse.function]
  refine repeats_bind repeats_here fun pos => repeats_bind (repeats_eatKeyword _) fun _ => ?_
  refine repeats_bind (repeats_keyword _) fun _ => repeats_bind (repeats_head hf pos) fun d => ?_
  refine repeats_bind (repeats_insertFun d) fun fn => repeats_bind repeats_clearScope fun _ => ?_
  refine repeats_bind (repeats_forIn d.params _ (fun p t => t.pushed (p.decl pos))
    (fun _ _ => rfl) fun _ _ _ h => T.pushed _ h) fun _ => ?_
  -- the scope is emptied also when the body fails, and the failure passes on
  refine repeats_catch (repeats_functionBody hb hf) (fun r => ?_) fun e t h => ?_
  · refine repeats_bind repeats_clearScope fun _ => ?_
    rcases r with e | ⟨locals, stmts⟩
    · exact repeats_throw e
    · exact repeats_pure _
  · simpa [exec_bind] using h

theorem repeats_functions : T.Repeats (functions fuel) (functions fuel') := by
  induction fuel generalizing fuel' with
  | zero => rw [Parse.functions]; exact repeats_outOfFuel _
  | succ fuel ih =>
    obtain ⟨k, rfl, hk⟩ := exists_succ_of_succ_le hf
    rw [Parse.functions, Parse.functions]
    refine repeats_bind (repeats_attempt (repeats_function hb hk)) fun o => ?_
    cases o with
    | none => exact repeats_pure _
    | some f => exact repeats_bind (ih hk) fun _ => repeats_pure _

/-- The rule of a whole file is repeated with a larger budget and a higher depth bound. -/
theorem repeats_file (path : String) : T.Repeats (file fuel path) (file fuel' path) := by
  rw [Parse.file, Parse.file]
  exact repeats_bind repeats_skipNewlines fun _ =>
    repeats_bind (repeats_declarations hb hf {}) fun _ =>
      repeats_bind (repeats_functions hb hf) fun _ =>
        repeats_bind repeats_endOfInput fun _ => repeats_pure _

end

end Twin

/-! ## The two twins -/

def Twin.raised (M M' : Nat) : Twin where
  rel s s' := s.maxDepth = M ∧ s' = { s with maxDepth := M' }
  bound₁ := M
  bound₂ := M'
  maxDepth h := ⟨h.1, by rw [h.2]⟩
  tokens h := by rw [h.2]
  cursor h := by rw [h.2]
  tables h := by rw [h.2]
  scope h := by rw [h.2]
  moveTo _ h := ⟨h.1, by rw [h.2]; rfl⟩
  record _ h := ⟨h.1, by rw [h.2]; rfl⟩
  rewind _ h := ⟨h.1, by rw [h.2]⟩
  withType _ h := ⟨h.1, by rw [h.2]; rfl⟩
  withVar _ h := ⟨h.1, by rw [h.2]; rfl⟩
  withFun _ h := ⟨h.1, by rw [h.2]; rfl⟩
  pushed _ h := ⟨h.1, by rw [h.2]; rfl⟩
  unscoped h := ⟨h.1, by rw [h.2]; rfl⟩

structure ParseState.SameFrame (s s' : ParseState) : Prop where
  tokens : s'.tokens = s.tokens
  tables : s'.tables = s.tables
  scope : s'.scope = s.scope
  maxDepth : s'.maxDepth = s.maxDepth

/-- Two states that read alike: the same frame and the same cursor; their failure logs may
differ. -/
structure ParseState.Alike (s s' : ParseState) : Prop extends ParseState.SameFrame s s' where
  cursor : s'.cursor = s.cursor

def Twin.alike (M : Nat) : Twin where
  rel s s' := s.maxDepth = M ∧ s.Alike s'
  bound₁ := M
  bound₂ := M
  maxDepth h := ⟨h.1, h.2.maxDepth.trans h.1⟩
  tokens h := h.2.tokens
  cursor h := h.2.cursor
  tables h := h.2.tables
  scope h := h.2.scope
  moveTo _ h := ⟨h.1, ⟨h.2.tokens, h.2.tables, h.2.scope, h.2.maxDepth⟩, rfl⟩
  record _ h := ⟨h.1, ⟨h.2.tokens, h.2.tables, h.2.scope, h.2.maxDepth⟩, h.2.cursor⟩
  rewind _ h := ⟨h.1, ⟨h.2.tokens, h.2.tables, h.2.scope, h.2.maxDepth⟩, rfl⟩
  withType _ h := ⟨h.1, ⟨h.2.tokens, by simp [ParseState.withType, h.2.tables], h.2.scope,
    h.2.maxDepth⟩, h.2.cursor⟩
  withVar _ h := ⟨h.1, ⟨h.2.tokens, by simp [ParseState.withVar, h.2.tables], h.2.scope,
    h.2.maxDepth⟩, h.2.cursor⟩
  withFun _ h := ⟨h.1, ⟨h.2.tokens, by simp [ParseState.withFun, h.2.tables], h.2.scope,
    h.2.maxDepth⟩, h.2.cursor⟩
  pushed _ h := ⟨h.1, ⟨h.2.tokens, by simp [ParseState.pushed, h.2.tables],
    by simp [ParseState.pushed, h.2.tables, h.2.scope], h.2.maxDepth⟩, h.2.cursor⟩
  unscoped h := ⟨h.1, ⟨h.2.tokens, h.2.tables, rfl, h.2.maxDepth⟩, h.2.cursor⟩

end Jass
