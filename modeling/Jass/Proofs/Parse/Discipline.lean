import Jass.Proofs.Parse.Run
import Jass.Proofs.Refs
/-!
# Disciplines: what every rule of the grammar keeps

The rules of the grammar touch the parse state only through a few primitives: moving the cursor
forward, raising a syntax failure, giving the cursor back after one, reading a name, storing a
declaration and emptying the function scope. A `Discipline` names a state invariant, an order
between the states of one run, a condition on failures and one on the references read, and
asks each primitive to respect them. Then every rule respects them (`exprRules`, `stmtRules`
and, for the declaration rules, the module `Jass.Proofs.Parse.Declarations`), at every step
budget: a property of every reachable parse state is proved once per primitive and not once per
rule.
-/

namespace Jass

open Jass.Parser Parse

/-- What a run of the parser keeps: an invariant `inv` of its states, an order `le` from an
earlier state of a run to a later one, a condition `err` on the state a failure leaves, and a
condition `ref` on each reference read, which stays true later in the run. -/
structure Discipline where
  inv : ParseState → Prop
  le : ParseState → ParseState → Prop
  err : ParseError → ParseState → Prop
  ref : AnyRef → ParseState → Prop
  le_refl : ∀ s, le s s
  le_trans : ∀ {s t u}, le s t → le t u → le s u
  ref_le : ∀ {r s t}, ref r s → le s t → ref r t
  step : ∀ s, inv s → s.current.token ≠ .eof → inv s.stepped ∧ le s s.stepped
  skip : ∀ s, inv s → inv s.skipped ∧ le s s.skipped
  fail : ∀ s rule, inv s →
    inv (s.record (s.expected rule)) ∧ le s (s.record (s.expected rule)) ∧
      err (s.expected rule) (s.record (s.expected rule))
  halt : ∀ s (f : ParseFault), inv s → f.isSyntax = false → err ⟨f, s.current.pos⟩ s
  rewind : ∀ {s₀ s e}, inv s₀ → inv s → le s₀ s → err e s → e.fault.isSyntax = true →
    inv { s with cursor := s₀.cursor } ∧ le s₀ { s with cursor := s₀.cursor }
  var : ∀ s name, inv s → ref (.var (s.varRef name)) s
  fn : ∀ s name, inv s → ref (.fn (s.tables.resolveFun name)) s
  type : ∀ s name, inv s → ref (.type (s.tables.resolveType name)) s

namespace Discipline

variable (D : Discipline) {α β : Type}

/-- What `D` asks of a run from `s` that ended in `r`: the invariant, the order, and `Q` of the
value or `err` of the failure. -/
def Post (Q : α → ParseState → Prop) (s : ParseState) : Except ParseError α × ParseState → Prop
  | (.ok a, s') => D.inv s' ∧ D.le s s' ∧ Q a s'
  | (.error e, s') => D.inv s' ∧ D.le s s' ∧ D.err e s'

/-- Every run of `p` from a state of the invariant keeps `D`, and its value satisfies `Q`. -/
def Keeps (p : Parser α) (Q : α → ParseState → Prop) : Prop :=
  ∀ s, D.inv s → D.Post Q s (p.exec s)

def Reads (rs : List AnyRef) (s : ParseState) : Prop := ∀ r ∈ rs, D.ref r s

variable {D}

theorem Reads.le {rs : List AnyRef} {s t : ParseState} (h : D.Reads rs s) (hst : D.le s t) :
    D.Reads rs t :=
  fun r hr => D.ref_le (h r hr) hst

@[simp] theorem reads_nil (s : ParseState) : D.Reads [] s := fun _ h => nomatch h

@[simp] theorem reads_cons {r : AnyRef} {rs : List AnyRef} {s : ParseState} :
    D.Reads (r :: rs) s ↔ D.ref r s ∧ D.Reads rs s := by
  simp [Reads]

@[simp] theorem reads_append {rs rs' : List AnyRef} {s : ParseState} :
    D.Reads (rs ++ rs') s ↔ D.Reads rs s ∧ D.Reads rs' s := by
  simp only [Reads, List.mem_append]
  exact ⟨fun h => ⟨fun r hr => h r (.inl hr), fun r hr => h r (.inr hr)⟩,
    fun ⟨h₁, h₂⟩ r hr => hr.elim (h₁ r) (h₂ r)⟩

/-! ## Runs -/

theorem Post.le {Q : α → ParseState → Prop} {s s' : ParseState}
    {r : Except ParseError α × ParseState} (h : D.Post Q s' r) (hs : D.le s s') : D.Post Q s r := by
  rcases r with ⟨_ | _, t⟩ <;> exact ⟨h.1, D.le_trans hs h.2.1, h.2.2⟩

theorem Post.mono {Q Q' : α → ParseState → Prop} {s : ParseState}
    {r : Except ParseError α × ParseState} (h : D.Post Q s r) (hQ : ∀ a t, Q a t → Q' a t) :
    D.Post Q' s r := by
  rcases r with ⟨_ | _, t⟩
  · exact h
  · exact ⟨h.1, h.2.1, hQ _ _ h.2.2⟩

theorem post_pure {Q : α → ParseState → Prop} {a : α} {s : ParseState} (hs : D.inv s)
    (ha : Q a s) : D.Post Q s ((pure a : Parser α).exec s) :=
  ⟨hs, D.le_refl s, ha⟩

theorem post_bind {p : Parser α} {f : α → Parser β} {Q₁ : α → ParseState → Prop}
    {Q : β → ParseState → Prop} {s : ParseState} (hp : D.Keeps p Q₁) (hs : D.inv s)
    (hf : ∀ a s', D.inv s' → D.le s s' → Q₁ a s' → D.Post Q s' ((f a).exec s')) :
    D.Post Q s ((p >>= f).exec s) := by
  have h := hp s hs
  rw [exec_bind]
  rcases hr : p.exec s with ⟨_ | a, s'⟩ <;> rw [hr] at h
  · exact h
  · exact (hf a s' h.1 h.2.1 h.2.2).le h.2.1

theorem post_map {p : Parser α} {f : α → β} {Q : β → ParseState → Prop} {Q₁ : α → ParseState → Prop}
    {s : ParseState} (hp : D.Keeps p Q₁) (hs : D.inv s) (hf : ∀ a t, Q₁ a t → Q (f a) t) :
    D.Post Q s ((f <$> p).exec s) := by
  have h := hp s hs
  rw [exec_map]
  rcases hr : p.exec s with ⟨_ | a, s'⟩ <;> rw [hr] at h
  · exact h
  · exact ⟨h.1, h.2.1, hf a s' h.2.2⟩

/-! ## The primitives -/

theorem ne_eof_of_isKeyword {k : Keyword} {t : Token} (h : isKeyword k t = true) : t ≠ .eof := by
  rintro rfl; simp [isKeyword] at h

theorem ne_eof_of_isSymbol {c : Symbol} {t : Token} (h : isSymbol c t = true) : t ≠ .eof := by
  rintro rfl; simp [isSymbol] at h

theorem post_stepped {Q : α → ParseState → Prop} {a : α} {s : ParseState} (hs : D.inv s)
    (ht : s.current.token ≠ .eof) (ha : ∀ t, D.le s t → Q a t) :
    D.Post Q s (.ok a, s.stepped) :=
  ⟨(D.step s hs ht).1, (D.step s hs ht).2, ha _ (D.step s hs ht).2⟩

theorem post_fail {Q : α → ParseState → Prop} {rule : Rule} {s : ParseState} (hs : D.inv s) :
    D.Post Q s ((Parse.fail rule : Parser α).exec s) := by
  rw [exec_fail]; exact D.fail s rule hs

theorem keeps_fail (rule : Rule) {Q : α → ParseState → Prop} : D.Keeps (Parse.fail rule) Q :=
  fun _ hs => post_fail hs

theorem keeps_outOfFuel {Q : α → ParseState → Prop} : D.Keeps outOfFuel Q :=
  fun s hs => by rw [exec_outOfFuel]; exact ⟨hs, D.le_refl s, D.halt s _ hs rfl⟩

theorem keeps_checkDepth (depth : Nat) : D.Keeps (checkDepth depth) fun _ _ => True := by
  intro s hs
  rw [exec_checkDepth]
  split
  · exact ⟨hs, D.le_refl s, D.halt s _ hs rfl⟩
  · exact ⟨hs, D.le_refl s, trivial⟩

theorem keeps_eatKeyword (k : Keyword) : D.Keeps (eatKeyword k) fun _ _ => True := by
  intro s hs
  rw [exec_eatKeyword]
  split
  · exact post_stepped hs (ne_eof_of_isKeyword ‹_›) fun _ _ => trivial
  · exact ⟨hs, D.le_refl s, trivial⟩

theorem keeps_eatSymbol (c : Symbol) : D.Keeps (eatSymbol c) fun _ _ => True := by
  intro s hs
  rw [exec_eatSymbol]
  split
  · exact post_stepped hs (ne_eof_of_isSymbol ‹_›) fun _ _ => trivial
  · exact ⟨hs, D.le_refl s, trivial⟩

theorem keeps_keyword (k : Keyword) : D.Keeps (keyword k) fun _ _ => True := by
  intro s hs
  refine post_bind (keeps_eatKeyword k) hs fun b s' hs' _ _ => ?_
  cases b
  · exact post_fail hs'
  · exact post_pure hs' trivial

theorem keeps_symbol (c : Symbol) : D.Keeps (symbol c) fun _ _ => True := by
  intro s hs
  refine post_bind (keeps_eatSymbol c) hs fun b s' hs' _ _ => ?_
  cases b
  · exact post_fail hs'
  · exact post_pure hs' trivial

theorem keeps_ident (rule : Rule) : D.Keeps (ident rule) fun _ _ => True := by
  intro s hs
  simp only [ident, exec_bind, exec_peek]
  split
  · simp only [exec_bind, exec_advance]
    exact post_stepped hs (by simp [*]) fun _ _ => trivial
  · exact post_fail hs

theorem keeps_skipNewlines : D.Keeps skipNewlines fun _ _ => True :=
  fun s hs => ⟨(D.skip s hs).1, (D.skip s hs).2, trivial⟩

theorem keeps_lineBreak : D.Keeps lineBreak fun _ _ => True := by
  intro s hs
  simp only [lineBreak, exec_bind, exec_peek]
  split
  · exact post_pure hs trivial
  · simp only [exec_bind, exec_advance]
    have h := D.step s hs (by simp [*])
    exact (keeps_skipNewlines _ h.1).le h.2
  · exact post_fail hs

theorem keeps_endOfInput : D.Keeps endOfInput fun _ _ => True := by
  intro s hs
  refine post_bind keeps_skipNewlines hs fun _ s' hs' _ _ => ?_
  simp only [exec_bind, exec_peek]
  split
  · exact post_pure hs' trivial
  · exact post_fail hs'

theorem keeps_attempt {p : Parser α} {Q : α → ParseState → Prop} (hp : D.Keeps p Q) :
    D.Keeps (attempt p) fun o s => ∀ a ∈ o, Q a s := by
  intro s hs
  rw [exec_attempt]
  have h := hp s hs
  rcases hr : p.exec s with ⟨_ | a, s'⟩ <;> rw [hr] at h
  · dsimp only
    split
    · obtain ⟨hinv, hle⟩ := D.rewind hs h.1 h.2.1 h.2.2 ‹_›
      exact ⟨hinv, hle, fun _ ha => by cases ha⟩
    · exact ⟨h.1, h.2.1, h.2.2⟩
  · exact ⟨h.1, h.2.1, fun b hb => Option.some.inj hb ▸ h.2.2⟩

theorem keeps_firstOf (rule : Rule) {Q : α → ParseState → Prop} :
    ∀ {ps : List (Parser α)}, (∀ p ∈ ps, D.Keeps p Q) → D.Keeps (firstOf rule ps) Q
  | [], _ => keeps_fail rule
  | p :: ps, h => by
    intro s hs
    refine post_bind (keeps_attempt (h p (.head _))) hs fun o s' hs' _ ho => ?_
    cases o with
    | none => exact keeps_firstOf rule (fun q hq => h q (.tail _ hq)) s' hs'
    | some a => exact post_pure hs' (ho a rfl)

/-! ## Expressions -/

theorem keeps_binOp : D.Keeps binOp fun _ _ => True := by
  intro s hs
  simp only [binOp, exec_bind, exec_peek]
  split
  · next op h =>
    simp only [exec_bind, exec_advance]
    exact post_stepped hs (fun he => by simp [he] at h) fun _ _ => trivial
  · exact post_fail hs

theorem keeps_unOp : D.Keeps unOp fun _ _ => True := by
  intro s hs
  simp only [unOp, exec_bind, exec_peek]
  split
  · next op h =>
    simp only [exec_bind, exec_advance]
    exact post_stepped hs (fun he => by simp [he] at h) fun _ _ => trivial
  · exact post_fail hs

theorem keeps_constant : D.Keeps constant fun _ _ => True := by
  intro s hs
  simp only [constant, exec_bind, exec_peek]
  split
  · next c h =>
    simp only [exec_bind, exec_advance]
    exact post_stepped hs (fun he => by simp [he] at h) fun _ _ => trivial
  · exact post_fail hs

theorem keeps_resolveVar (name : String) : D.Keeps (resolveVar name) fun r => D.ref (.var r) :=
  fun s hs => by rw [exec_resolveVar]; exact post_pure hs (D.var s name hs)

theorem keeps_resolveFun (name : String) : D.Keeps (resolveFun name) fun r => D.ref (.fn r) :=
  fun s hs => by rw [exec_resolveFun]; exact post_pure hs (D.fn s name hs)

theorem keeps_funRef : D.Keeps funRef fun e => D.Reads e.refs := by
  intro s hs
  refine post_bind (keeps_keyword _) hs fun _ s₁ hs₁ _ _ => ?_
  refine post_bind (keeps_ident _) hs₁ fun name s₂ hs₂ _ _ => ?_
  refine post_bind (keeps_resolveFun name) hs₂ fun r s₃ hs₃ _ hr => ?_
  exact post_pure hs₃ (by simpa [Expr.refs] using hr)

theorem keeps_varRef : D.Keeps varRef fun e => D.Reads e.refs := by
  intro s hs
  refine post_bind (keeps_ident _) hs fun name s₁ hs₁ _ _ => ?_
  refine post_bind (keeps_resolveVar name) hs₁ fun r s₂ hs₂ _ hr => ?_
  exact post_pure hs₂ (by simpa [Expr.refs] using hr)

theorem keeps_constExpr : D.Keeps (Expr.const <$> constant) fun e => D.Reads e.refs :=
  fun _ hs => post_map keeps_constant hs fun _ _ _ => by simp [Expr.refs]

variable (D) in
/-- The expression rules at step budget `fuel` keep `D`, and every reference of what they read
satisfies `D.ref`. -/
structure ExprRules (fuel : Nat) : Prop where
  expr : ∀ depth, D.Keeps (expr fuel depth) fun e => D.Reads e.refs
  binaryTail : ∀ depth, D.Keeps (binaryTail fuel depth) fun p => D.Reads p.2.refs
  operand : ∀ depth, D.Keeps (operand fuel depth) fun e => D.Reads e.refs
  unary : ∀ depth, D.Keeps (unary fuel depth) fun e => D.Reads e.refs
  callExpr : ∀ depth, D.Keeps (callExpr fuel depth) fun e => D.Reads e.refs
  funCall : ∀ depth, D.Keeps (funCall fuel depth) fun c => D.Reads (.fn c.1 :: Expr.listRefs c.2)
  argList : ∀ depth, D.Keeps (argList fuel depth) fun es => D.Reads (Expr.listRefs es)
  element : ∀ depth, D.Keeps (element fuel depth) fun e => D.Reads e.refs
  paren : ∀ depth, D.Keeps (paren fuel depth) fun e => D.Reads e.refs

theorem ExprRules.zero : ExprRules D 0 where
  expr _ := by rw [Parse.expr]; exact keeps_outOfFuel
  binaryTail _ := by rw [Parse.binaryTail]; exact keeps_outOfFuel
  operand _ := by rw [Parse.operand]; exact keeps_outOfFuel
  unary _ := by rw [Parse.unary]; exact keeps_outOfFuel
  callExpr _ := by rw [Parse.callExpr]; exact keeps_outOfFuel
  funCall _ := by rw [Parse.funCall]; exact keeps_outOfFuel
  argList _ := by rw [Parse.argList]; exact keeps_outOfFuel
  element _ := by rw [Parse.element]; exact keeps_outOfFuel
  paren _ := by rw [Parse.paren]; exact keeps_outOfFuel

theorem ExprRules.succ {fuel : Nat} (ih : ExprRules D fuel) : ExprRules D (fuel + 1) where
  expr depth s hs := by
    rw [Parse.expr]
    refine post_bind (keeps_checkDepth depth) hs fun _ s₁ hs₁ _ _ => ?_
    refine post_bind (ih.operand (depth + 1)) hs₁ fun left s₂ hs₂ _ hl => ?_
    refine post_bind (keeps_attempt (ih.binaryTail (depth + 1))) hs₂ fun r s₃ hs₃ h₂₃ hr => ?_
    rcases r with _ | ⟨op, right⟩
    · exact post_pure hs₃ (hl.le h₂₃)
    · exact post_pure hs₃ (by simpa [Expr.refs] using ⟨hl.le h₂₃, hr _ rfl⟩)
  binaryTail depth s hs := by
    rw [Parse.binaryTail]
    refine post_bind keeps_binOp hs fun op s₁ hs₁ _ _ => ?_
    refine post_bind (ih.expr depth) hs₁ fun e s₂ hs₂ _ he => ?_
    exact post_pure hs₂ he
  operand depth := by
    rw [Parse.operand]
    refine keeps_firstOf _ ?_
    simp only [List.mem_cons, List.not_mem_nil, or_false]
    rintro p (rfl | rfl | rfl | rfl | rfl | rfl | rfl)
    · exact ih.unary depth
    · exact ih.callExpr depth
    · exact ih.element depth
    · exact keeps_funRef
    · exact keeps_constExpr
    · exact keeps_varRef
    · exact ih.paren depth
  unary depth s hs := by
    rw [Parse.unary]
    refine post_bind keeps_unOp hs fun op s₁ hs₁ _ _ => ?_
    refine post_bind (ih.expr depth) hs₁ fun e s₂ hs₂ _ he => ?_
    exact post_pure hs₂ (by simpa [Expr.refs] using he)
  callExpr depth s hs := by
    rw [Parse.callExpr]
    refine post_bind (ih.funCall depth) hs fun c s₁ hs₁ _ hc => ?_
    exact post_pure hs₁ (by simpa [Expr.refs] using hc)
  funCall depth s hs := by
    rw [Parse.funCall]
    refine post_bind (keeps_ident _) hs fun name s₁ hs₁ _ _ => ?_
    refine post_bind (keeps_symbol _) hs₁ fun _ s₂ hs₂ _ _ => ?_
    refine post_bind (keeps_eatSymbol _) hs₂ fun b s₃ hs₃ _ _ => ?_
    -- both branches end by resolving the name, after the arguments
    have last : ∀ args t, D.inv t → D.Reads (Expr.listRefs args) t →
        D.Post (fun c => D.Reads (.fn c.1 :: Expr.listRefs c.2)) t
          ((resolveFun name >>= fun r => pure (r, args)).exec t) := fun args t ht ha =>
      post_bind (keeps_resolveFun name) ht fun r t' ht' htt' hr =>
        post_pure ht' (by simpa using ⟨hr, ha.le htt'⟩)
    cases b <;> simp only [pure_bind, Bool.false_eq_true, ↓reduceIte]
    · refine post_bind (ih.argList depth) hs₃ fun args s₄ hs₄ _ ha => ?_
      refine post_bind (keeps_symbol _) hs₄ fun _ s₅ hs₅ h₄₅ _ => ?_
      exact last args s₅ hs₅ (ha.le h₄₅)
    · exact last [] s₃ hs₃ (by simp)
  argList depth s hs := by
    rw [Parse.argList]
    refine post_bind (ih.expr depth) hs fun e s₁ hs₁ _ he => ?_
    refine post_bind (keeps_eatSymbol _) hs₁ fun b s₂ hs₂ h₁₂ _ => ?_
    cases b
    · exact post_pure hs₂ (by simpa using he.le h₁₂)
    · refine post_bind (ih.argList depth) hs₂ fun es s₃ hs₃ h₂₃ hes => ?_
      exact post_pure hs₃ (by simpa using ⟨he.le (D.le_trans h₁₂ h₂₃), hes⟩)
  element depth s hs := by
    rw [Parse.element]
    refine post_bind (keeps_ident _) hs fun name s₁ hs₁ _ _ => ?_
    refine post_bind (keeps_symbol _) hs₁ fun _ s₂ hs₂ _ _ => ?_
    refine post_bind (ih.expr depth) hs₂ fun i s₃ hs₃ _ hi => ?_
    refine post_bind (keeps_symbol _) hs₃ fun _ s₄ hs₄ h₃₄ _ => ?_
    refine post_bind (keeps_resolveVar name) hs₄ fun r s₅ hs₅ h₄₅ hr => ?_
    exact post_pure hs₅ (by simpa [Expr.refs] using ⟨hr, hi.le (D.le_trans h₃₄ h₄₅)⟩)
  paren depth s hs := by
    rw [Parse.paren]
    refine post_bind (keeps_symbol _) hs fun _ s₁ hs₁ _ _ => ?_
    refine post_bind (ih.expr depth) hs₁ fun e s₂ hs₂ _ he => ?_
    refine post_bind (keeps_symbol _) hs₂ fun _ s₃ hs₃ h₂₃ _ => ?_
    exact post_pure hs₃ (by simpa [Expr.refs] using he.le h₂₃)

theorem exprRules : ∀ fuel, ExprRules D fuel
  | 0 => .zero
  | fuel + 1 => (exprRules fuel).succ

/-- What the expression rule keeps from the start state, and later states keep, holds of the
expression `parseExprTokens` returns, at a state the run reached. -/
theorem parseExprTokens_keeps {Q : Expr → ParseState → Prop} {tokens : Array Lexeme} {ts : Tables}
    {lim : Limits} {e : Expr} (hexpr : D.Keeps (Parse.expr (Parse.budget tokens.size) 0) Q)
    (hQ : ∀ x s t, Q x s → D.le s t → Q x t) (hs : D.inv (ParseState.start tokens ts lim))
    (h : parseExprTokens tokens ts lim = .ok e) :
    ∃ t, D.le (ParseState.start tokens ts lim) t ∧ Q e t := by
  unfold parseExprTokens at h
  rw [runOn_eq] at h
  have hrun := post_bind (Q := Q) hexpr hs fun x s₁ hs₁ _ hx =>
    post_bind keeps_endOfInput hs₁ fun _ s₂ hs₂ h₁₂ _ => post_pure hs₂ (hQ x s₁ s₂ hx h₁₂)
  rcases hx : (do
      let x ← Parse.expr (Parse.budget tokens.size) 0
      Parse.endOfInput
      return x : Parser Expr).exec (ParseState.start tokens ts lim) with ⟨_ | x, t⟩ <;>
    rw [hx] at hrun h
  · cases h
  · cases h
    exact ⟨t, hrun.2.1, hrun.2.2⟩

/-! ## Statements -/

theorem keeps_here : D.Keeps here fun _ _ => True :=
  fun s hs => by rw [exec_here]; exact post_pure hs trivial

variable (D) in
/-- The statement rules at step budget `fuel` keep `D`, and every reference of what they read
satisfies `D.ref`. -/
structure StmtRules (fuel : Nat) : Prop where
  statements : ∀ depth, D.Keeps (statements fuel depth) fun b => D.Reads (Stmt.blockRefs b)
  statement : ∀ depth, D.Keeps (statement fuel depth) fun st => D.Reads st.node.refs
  setStmt : ∀ depth, D.Keeps (setStmt fuel depth) fun st => D.Reads st.refs
  callStmt : ∀ depth, D.Keeps (callStmt fuel depth) fun st => D.Reads st.refs
  ifStmt : ∀ depth, D.Keeps (ifStmt fuel depth) fun st => D.Reads st.refs
  elseIfBranches : ∀ depth,
    D.Keeps (elseIfBranches fuel depth) fun bs => D.Reads (Stmt.elseIfRefs bs)
  loopStmt : ∀ depth, D.Keeps (loopStmt fuel depth) fun st => D.Reads st.refs
  exitWhenStmt : ∀ depth, D.Keeps (exitWhenStmt fuel depth) fun st => D.Reads st.refs
  returnStmt : ∀ depth, D.Keeps (returnStmt fuel depth) fun st => D.Reads st.refs
  debugStmt : ∀ depth, D.Keeps (debugStmt fuel depth) fun st => D.Reads st.refs

theorem StmtRules.zero : StmtRules D 0 where
  statements _ := by rw [Parse.statements]; exact keeps_outOfFuel
  statement _ := by rw [Parse.statement]; exact keeps_outOfFuel
  setStmt _ := by rw [Parse.setStmt]; exact keeps_outOfFuel
  callStmt _ := by rw [Parse.callStmt]; exact keeps_outOfFuel
  ifStmt _ := by rw [Parse.ifStmt]; exact keeps_outOfFuel
  elseIfBranches _ := by rw [Parse.elseIfBranches]; exact keeps_outOfFuel
  loopStmt _ := by rw [Parse.loopStmt]; exact keeps_outOfFuel
  exitWhenStmt _ := by rw [Parse.exitWhenStmt]; exact keeps_outOfFuel
  returnStmt _ := by rw [Parse.returnStmt]; exact keeps_outOfFuel
  debugStmt _ := by rw [Parse.debugStmt]; exact keeps_outOfFuel

theorem StmtRules.succ {fuel : Nat} (ih : StmtRules D fuel) : StmtRules D (fuel + 1) where
  statements depth s hs := by
    rw [Parse.statements]
    refine post_bind (keeps_attempt (ih.statement depth)) hs fun o s₁ hs₁ _ ho => ?_
    cases o with
    | none => exact post_pure hs₁ (by simp)
    | some st =>
      refine post_bind keeps_lineBreak hs₁ fun _ s₂ hs₂ h₁₂ _ => ?_
      refine post_bind (ih.statements depth) hs₂ fun b s₃ hs₃ h₂₃ hb => ?_
      exact post_pure hs₃ (by simpa using ⟨(ho st rfl).le (D.le_trans h₁₂ h₂₃), hb⟩)
  statement depth s hs := by
    rw [Parse.statement]
    refine post_bind keeps_here hs fun pos s₁ hs₁ _ _ => ?_
    refine post_bind (keeps_firstOf _ (Q := fun st => D.Reads st.refs) ?_) hs₁
      fun st s₂ hs₂ _ hst => post_pure hs₂ hst
    simp only [List.mem_cons, List.not_mem_nil, or_false]
    rintro p (rfl | rfl | rfl | rfl | rfl | rfl | rfl)
    · exact ih.setStmt depth
    · exact ih.callStmt depth
    · exact ih.ifStmt depth
    · exact ih.loopStmt depth
    · exact ih.exitWhenStmt depth
    · exact ih.returnStmt depth
    · exact ih.debugStmt depth
  setStmt depth s hs := by
    rw [Parse.setStmt]
    refine post_bind (keeps_keyword _) hs fun _ s₁ hs₁ _ _ => ?_
    refine post_bind (keeps_ident _) hs₁ fun name s₂ hs₂ _ _ => ?_
    refine post_bind (keeps_resolveVar name) hs₂ fun target s₃ hs₃ _ htg => ?_
    refine post_bind (keeps_eatSymbol _) hs₃ fun b s₄ hs₄ h₃₄ _ => ?_
    -- after the optional index, both branches read `= value`
    have last : ∀ index t, D.inv t → D.le s₃ t → D.Reads ((index.map Expr.refs).getD []) t →
        D.Post (fun st => D.Reads st.refs) t ((do
          symbol .assign
          let value ← expr fuel depth
          return Stmt.set target index value).exec t) := fun index t ht h₃t hi =>
      post_bind (keeps_symbol _) ht fun _ t₁ ht₁ h₁ _ =>
        post_bind ((exprRules fuel).expr depth) ht₁ fun value t₂ ht₂ h₂ hv =>
          post_pure ht₂ (by
            simpa [Stmt.refs] using
              ⟨D.ref_le htg (D.le_trans h₃t (D.le_trans h₁ h₂)), hi.le (D.le_trans h₁ h₂), hv⟩)
    cases b <;> simp only [pure_bind, Bool.false_eq_true, ↓reduceIte]
    · exact last none s₄ hs₄ h₃₄ (by simp)
    · refine post_bind ((exprRules fuel).expr depth) hs₄ fun i s₅ hs₅ h₄₅ hi => ?_
      refine post_bind (keeps_symbol _) hs₅ fun _ s₆ hs₆ h₅₆ _ => ?_
      exact last (some i) s₆ hs₆ (D.le_trans h₃₄ (D.le_trans h₄₅ h₅₆)) (by simpa using hi.le h₅₆)
  callStmt depth s hs := by
    rw [Parse.callStmt]
    refine post_bind (keeps_keyword _) hs fun _ s₁ hs₁ _ _ => ?_
    refine post_bind ((exprRules fuel).funCall depth) hs₁ fun c s₂ hs₂ _ hc => ?_
    exact post_pure hs₂ (by simpa [Stmt.refs] using hc)
  ifStmt depth s hs := by
    rw [Parse.ifStmt]
    refine post_bind (keeps_checkDepth depth) hs fun _ s₁ hs₁ _ _ => ?_
    refine post_bind (keeps_keyword _) hs₁ fun _ s₂ hs₂ _ _ => ?_
    refine post_bind ((exprRules fuel).expr _) hs₂ fun cond s₃ hs₃ _ hc => ?_
    refine post_bind (keeps_keyword _) hs₃ fun _ s₄ hs₄ h₃₄ _ => ?_
    refine post_bind keeps_lineBreak hs₄ fun _ s₅ hs₅ h₄₅ _ => ?_
    refine post_bind (ih.statements _) hs₅ fun thenBody s₆ hs₆ h₅₆ hth => ?_
    refine post_bind (ih.elseIfBranches _) hs₆ fun elseIfs s₇ hs₇ h₆₇ he => ?_
    refine post_bind (keeps_eatKeyword _) hs₇ fun b s₈ hs₈ h₇₈ _ => ?_
    have hpre : D.Reads (cond.refs ++ Stmt.blockRefs thenBody ++ Stmt.elseIfRefs elseIfs) s₈ := by
      have h₆₈ := D.le_trans h₆₇ h₇₈
      simp only [reads_append]
      exact ⟨⟨hc.le (D.le_trans h₃₄ (D.le_trans h₄₅ (D.le_trans h₅₆ h₆₈))), hth.le h₆₈⟩,
        he.le h₇₈⟩
    -- after the optional `else`, both branches read `endif`
    have last : ∀ elseBody t, D.inv t → D.le s₈ t →
        D.Reads ((elseBody.map Stmt.blockRefs).getD []) t →
        D.Post (fun st => D.Reads st.refs) t ((do
          keyword .kwEndif
          return Stmt.ifThen cond thenBody elseIfs elseBody).exec t) := fun elseBody t ht h₈t hb =>
      post_bind (keeps_keyword _) ht fun _ t₁ ht₁ h₁ _ => post_pure ht₁ (by
        have hpre₁ := hpre.le (D.le_trans h₈t h₁)
        have hb₁ := hb.le h₁
        simp only [reads_append] at hpre₁
        cases elseBody <;> simp_all [Stmt.refs])
    cases b <;> simp only [pure_bind, Bool.false_eq_true, ↓reduceIte]
    · exact last none s₈ hs₈ (D.le_refl _) (by simp)
    · refine post_bind keeps_lineBreak hs₈ fun _ s₉ hs₉ h₈₉ _ => ?_
      refine post_bind (ih.statements _) hs₉ fun body s₁₀ hs₁₀ h₉₁₀ hb => ?_
      exact last (some body) s₁₀ hs₁₀ (D.le_trans h₈₉ h₉₁₀) (by simpa using hb)
  elseIfBranches depth s hs := by
    rw [Parse.elseIfBranches]
    refine post_bind (keeps_eatKeyword _) hs fun b s₁ hs₁ _ _ => ?_
    cases b <;> simp only [Bool.false_eq_true, ↓reduceIte]
    · exact post_pure hs₁ (by simp)
    · refine post_bind ((exprRules fuel).expr depth) hs₁ fun cond s₂ hs₂ _ hc => ?_
      refine post_bind (keeps_keyword _) hs₂ fun _ s₃ hs₃ h₂₃ _ => ?_
      refine post_bind keeps_lineBreak hs₃ fun _ s₄ hs₄ h₃₄ _ => ?_
      refine post_bind (ih.statements depth) hs₄ fun body s₅ hs₅ h₄₅ hb => ?_
      refine post_bind (ih.elseIfBranches depth) hs₅ fun rest s₆ hs₆ h₅₆ hr => ?_
      exact post_pure hs₆ (by
        simpa using ⟨hc.le (D.le_trans h₂₃ (D.le_trans h₃₄ (D.le_trans h₄₅ h₅₆))), hb.le h₅₆, hr⟩)
  loopStmt depth s hs := by
    rw [Parse.loopStmt]
    refine post_bind (keeps_checkDepth depth) hs fun _ s₁ hs₁ _ _ => ?_
    refine post_bind (keeps_keyword _) hs₁ fun _ s₂ hs₂ _ _ => ?_
    refine post_bind keeps_lineBreak hs₂ fun _ s₃ hs₃ _ _ => ?_
    refine post_bind (ih.statements _) hs₃ fun body s₄ hs₄ _ hb => ?_
    refine post_bind (keeps_keyword _) hs₄ fun _ s₅ hs₅ h₄₅ _ => ?_
    exact post_pure hs₅ (by simpa [Stmt.refs] using hb.le h₄₅)
  exitWhenStmt depth s hs := by
    rw [Parse.exitWhenStmt]
    refine post_bind (keeps_keyword _) hs fun _ s₁ hs₁ _ _ => ?_
    refine post_bind ((exprRules fuel).expr depth) hs₁ fun cond s₂ hs₂ _ hc => ?_
    exact post_pure hs₂ (by simpa [Stmt.refs] using hc)
  returnStmt depth s hs := by
    rw [Parse.returnStmt]
    refine post_bind (keeps_keyword _) hs fun _ s₁ hs₁ _ _ => ?_
    refine post_bind (keeps_attempt ((exprRules fuel).expr depth)) hs₁ fun o s₂ hs₂ _ ho => ?_
    cases o with
    | none => exact post_pure hs₂ (by simp [Stmt.refs])
    | some e => exact post_pure hs₂ (by simpa [Stmt.refs] using ho e rfl)
  debugStmt depth s hs := by
    rw [Parse.debugStmt]
    refine post_bind (keeps_keyword _) hs fun _ s₁ hs₁ _ _ => ?_
    refine post_bind (keeps_attempt (ih.setStmt depth)) hs₁ fun o₁ s₂ hs₂ _ h₁ => ?_
    rcases o₁ with _ | st
    · refine post_bind (keeps_attempt (ih.callStmt depth)) hs₂ fun o₂ s₃ hs₃ _ h₂ => ?_
      rcases o₂ with _ | st
      · refine post_bind (keeps_attempt (ih.ifStmt depth)) hs₃ fun o₃ s₄ hs₄ _ h₃ => ?_
        rcases o₃ with _ | st
        · refine post_bind (keeps_attempt (ih.loopStmt depth)) hs₄ fun o₄ s₅ hs₅ _ h₄ => ?_
          rcases o₄ with _ | st
          · exact post_fail hs₅
          · exact post_pure hs₅ (by simpa [Stmt.refs] using h₄ st rfl)
        · exact post_pure hs₄ (by simpa [Stmt.refs] using h₃ st rfl)
      · exact post_pure hs₃ (by simpa [Stmt.refs] using h₂ st rfl)
    · exact post_pure hs₂ (by simpa [Stmt.refs] using h₁ st rfl)

theorem stmtRules : ∀ fuel, StmtRules D fuel
  | 0 => .zero
  | fuel + 1 => (stmtRules fuel).succ

/-! ## Declarations read without storing -/

theorem keeps_resolveType (name : String) :
    D.Keeps (resolveType name) fun r => D.ref (.type r) :=
  fun s hs => by rw [exec_resolveType]; exact post_pure hs (D.type s name hs)

def Returns (p : Parser α) (a : α) : Prop := ∃ s t, p.exec s = (.ok a, t)

/-- The values the expression rule returns at nesting depth zero: the initializers a declaration
can hold. -/
def ExprValue (e : Expr) : Prop := ∃ fuel, Returns (expr fuel 0) e

theorem post_bind_returns {p : Parser α} {f : α → Parser β} {Q₁ : α → ParseState → Prop}
    {Q : β → ParseState → Prop} {s : ParseState} (hp : D.Keeps p Q₁) (hs : D.inv s)
    (hf : ∀ a s', Returns p a → D.inv s' → D.le s s' → Q₁ a s' → D.Post Q s' ((f a).exec s')) :
    D.Post Q s ((p >>= f).exec s) := by
  have h := hp s hs
  rw [exec_bind]
  rcases hr : p.exec s with ⟨_ | a, s'⟩ <;> rw [hr] at h
  · exact h
  · exact (hf a s' ⟨s, s', hr⟩ h.1 h.2.1 h.2.2).le h.2.1

theorem keeps_varDecl (fuel : Nat) (pos : Pos) :
    D.Keeps (varDecl fuel pos) fun d t => D.Reads d.refs t ∧ ∀ e ∈ d.init, ExprValue e := by
  intro s hs
  rw [Parse.varDecl]
  refine post_bind (keeps_ident _) hs fun typeName s₁ hs₁ _ _ => ?_
  refine post_bind (keeps_eatKeyword _) hs₁ fun isArray s₂ hs₂ _ _ => ?_
  refine post_bind (keeps_ident _) hs₂ fun name s₃ hs₃ _ _ => ?_
  refine post_bind (keeps_eatSymbol _) hs₃ fun b s₄ hs₄ _ _ => ?_
  -- the type is resolved last, after the optional initializer
  have last : ∀ init t, D.inv t → D.Reads ((init.map Expr.refs).getD []) t →
      (∀ e ∈ init, ExprValue e) →
      D.Post (fun d t => D.Reads d.refs t ∧ ∀ e ∈ d.init, ExprValue e) t ((do
        let r ← resolveType typeName
        pure { type := r, isArray, name, init, pos : VarDecl }).exec t) := fun init t ht hi hv =>
    post_bind (keeps_resolveType typeName) ht fun r t₁ ht₁ h₁ hr =>
      post_pure ht₁ ⟨by simpa [VarDecl.refs] using ⟨hr, hi.le h₁⟩, hv⟩
  cases b <;> simp only [pure_bind, Bool.false_eq_true, ↓reduceIte]
  · exact last none s₄ hs₄ (by simp) (by simp)
  · refine post_bind_returns ((exprRules fuel).expr 0) hs₄ fun e s₅ he hs₅ _ hr => ?_
    exact last (some e) s₅ hs₅ (by simpa using hr) fun e' he' => Option.some.inj he' ▸ ⟨fuel, he⟩

theorem keeps_params : ∀ fuel, D.Keeps (params fuel) fun ps => D.Reads (ps.map fun p => .type p.type)
  | 0 => by rw [Parse.params]; exact keeps_outOfFuel
  | fuel + 1 => by
    intro s hs
    rw [Parse.params]
    refine post_bind (keeps_ident _) hs fun typeName s₁ hs₁ _ _ => ?_
    refine post_bind (keeps_ident _) hs₁ fun name s₂ hs₂ _ _ => ?_
    refine post_bind (keeps_resolveType typeName) hs₂ fun r s₃ hs₃ _ hr => ?_
    refine post_bind (keeps_eatSymbol _) hs₃ fun b s₄ hs₄ h₃₄ _ => ?_
    cases b <;> simp only [Bool.false_eq_true, ↓reduceIte]
    · exact post_pure hs₄ (by simpa using D.ref_le hr h₃₄)
    · refine post_bind (keeps_params fuel) hs₄ fun ps s₅ hs₅ h₄₅ hps => ?_
      exact post_pure hs₅ (by simpa using ⟨D.ref_le hr (D.le_trans h₃₄ h₄₅), hps⟩)

theorem keeps_head (fuel : Nat) (pos : Pos) : D.Keeps (head fuel pos) fun d => D.Reads d.refs := by
  intro s hs
  rw [Parse.head]
  refine post_bind (keeps_ident _) hs fun name s₁ hs₁ _ _ => ?_
  refine post_bind (keeps_keyword _) hs₁ fun _ s₂ hs₂ _ _ => ?_
  refine post_bind (keeps_eatKeyword _) hs₂ fun b s₃ hs₃ _ _ => ?_
  -- after the parameters, both branches read the result type
  have rest : ∀ ps t, D.inv t → D.Reads (ps.map fun p => .type p.type) t →
      D.Post (fun d => D.Reads d.refs) t ((do
        keyword .kwReturns
        let result ← if ← eatKeyword .kwNothing then pure none else do
          let t ← ident .returnType
          pure (some (← resolveType t))
        return { name, params := ps, result, pos : FunDecl }).exec t) := by
    intro ps t ht hps
    refine post_bind (keeps_keyword _) ht fun _ t₁ ht₁ h₁ _ => ?_
    refine post_bind (keeps_eatKeyword _) ht₁ fun b t₂ ht₂ h₂ _ => ?_
    have hps₂ := hps.le (D.le_trans h₁ h₂)
    cases b <;> simp only [pure_bind, Bool.false_eq_true, ↓reduceIte]
    · refine post_bind (keeps_ident _) ht₂ fun r t₃ ht₃ h₃ _ => ?_
      refine post_bind (keeps_resolveType r) ht₃ fun r t₄ ht₄ h₄ hr => ?_
      exact post_pure ht₄ (by simpa [FunDecl.refs] using ⟨hps₂.le (D.le_trans h₃ h₄), hr⟩)
    · exact post_pure ht₂ (by simpa [FunDecl.refs] using hps₂)
  cases b <;> simp only [pure_bind, Bool.false_eq_true, ↓reduceIte]
  · refine post_bind (keeps_params fuel) hs₃ fun ps s₄ hs₄ _ hps => ?_
    exact rest ps s₄ hs₄ hps
  · exact rest [] s₃ hs₃ (by simp)

end Discipline

end Jass
