import Jass.Proofs.Parse.Declarations
/-!
# The expressions of a parsed file

A statement holds expressions at its top level (a condition, a value, an index, a call's
arguments) and inside its blocks; `Stmt.exprs` lists them in reading order. The statement and
declaration rules build their trees only from what the expression rule and the call rule give
them. So a property of every value those two rules return holds of every expression a statement
rule returns (`StmtExprs`), and of every expression in the function bodies of a parsed file
(`parseFile_exprs`).

These facts say nothing about the parse state, so they are proved under `Discipline.free`, the
discipline that asks nothing: its runs only say what their values satisfy.
-/

namespace Jass

open Jass.Parser Parse

mutual
/-- The expressions a statement holds at its top level, those of its blocks included. -/
def Stmt.exprs : Stmt → List Expr
  | .set _ index value => index.toList ++ [value]
  | .call _ args => args
  | .ifThen cond thenBody elseIfs elseBody =>
    cond :: (Stmt.blockExprs thenBody ++ Stmt.elseIfExprs elseIfs ++
      (match elseBody with
       | some body => Stmt.blockExprs body
       | none => []))
  | .loop body => Stmt.blockExprs body
  | .exitWhen cond => [cond]
  | .ret value => value.toList
  | .debug inner => inner.exprs
def Stmt.blockExprs : List Statement → List Expr
  | [] => []
  | s :: rest => s.node.exprs ++ Stmt.blockExprs rest
def Stmt.elseIfExprs : List (Expr × List Statement) → List Expr
  | [] => []
  | (cond, body) :: rest => cond :: (Stmt.blockExprs body ++ Stmt.elseIfExprs rest)
end

@[simp] theorem Stmt.exprs_ifThen (cond : Expr) (thenBody : List Statement)
    (elseIfs : List (Expr × List Statement)) (elseBody : Option (List Statement)) :
    (Stmt.ifThen cond thenBody elseIfs elseBody).exprs =
      cond :: (Stmt.blockExprs thenBody ++ Stmt.elseIfExprs elseIfs ++
        (elseBody.map Stmt.blockExprs).getD []) := by
  cases elseBody <;> rfl

@[simp] theorem Stmt.blockExprs_nil : Stmt.blockExprs [] = [] := rfl

@[simp] theorem Stmt.blockExprs_cons (s : Statement) (rest : List Statement) :
    Stmt.blockExprs (s :: rest) = s.node.exprs ++ Stmt.blockExprs rest := rfl

@[simp] theorem Stmt.elseIfExprs_nil : Stmt.elseIfExprs [] = [] := rfl

@[simp] theorem Stmt.elseIfExprs_cons (c : Expr) (body : List Statement)
    (rest : List (Expr × List Statement)) :
    Stmt.elseIfExprs ((c, body) :: rest) = c :: (Stmt.blockExprs body ++ Stmt.elseIfExprs rest) :=
  rfl

def Discipline.free : Discipline where
  inv _ := True
  le _ _ := True
  err _ _ := True
  ref _ _ := True
  le_refl _ := trivial
  le_trans _ _ := trivial
  ref_le _ _ := trivial
  step _ _ _ := ⟨trivial, trivial⟩
  skip _ _ := ⟨trivial, trivial⟩
  fail _ _ _ := ⟨trivial, trivial, trivial⟩
  halt _ _ _ _ := trivial
  rewind _ _ _ _ _ := ⟨trivial, trivial⟩
  var _ _ _ := trivial
  fn _ _ _ := trivial
  type _ _ _ := trivial

def DeclDiscipline.free : DeclDiscipline where
  toDiscipline := .free
  insertType _ _ _ _ := ⟨trivial, trivial, trivial⟩
  insertVar _ _ _ _ _ := ⟨trivial, trivial, trivial⟩
  insertFun _ _ _ _ := ⟨trivial, trivial, trivial⟩
  pushScoped _ _ _ _ _ := ⟨trivial, trivial, trivial⟩
  clearScope _ _ := ⟨trivial, trivial⟩
  err_clearScope _ _ _ := trivial

namespace Discipline

variable {α : Type}

theorem free_post {Q : α → ParseState → Prop} {s : ParseState}
    {r : Except ParseError α × ParseState} (h : ∀ a t, r = (.ok a, t) → Q a t) :
    Discipline.free.Post Q s r := by
  rcases r with ⟨_ | a, t⟩
  · exact ⟨trivial, trivial, trivial⟩
  · exact ⟨trivial, trivial, h a t rfl⟩

theorem free_keeps_true (p : Parser α) : Discipline.free.Keeps p fun _ _ => True :=
  fun _ _ => free_post fun _ _ _ => trivial

theorem Keeps.free {D : Discipline} {p : Parser α} {Q : α → ParseState → Prop}
    (h : D.Keeps p Q) (hinv : ∀ s, D.inv s) : Discipline.free.Keeps p Q := by
  intro s _
  have hs := h s (hinv s)
  refine free_post fun a t hr => ?_
  rw [hr] at hs
  exact hs.2.2

theorem Keeps.of_exec {D : Discipline} {p : Parser α} {Q : α → ParseState → Prop}
    (h : D.Keeps p Q) {s t : ParseState} {a : α} (hs : D.inv s) (hr : p.exec s = (.ok a, t)) :
    Q a t := by
  have hp := h s hs
  rw [hr] at hp
  exact hp.2.2

end Discipline

open Discipline

section

variable (P : Expr → Prop)

/-- The statement rules at step budget `fuel` return only statements whose expressions satisfy
`P`. -/
structure StmtExprs (fuel : Nat) : Prop where
  statements : ∀ depth,
    Discipline.free.Keeps (statements fuel depth) fun b _ => ∀ e ∈ Stmt.blockExprs b, P e
  statement : ∀ depth,
    Discipline.free.Keeps (statement fuel depth) fun st _ => ∀ e ∈ st.node.exprs, P e
  setStmt : ∀ depth, Discipline.free.Keeps (setStmt fuel depth) fun st _ => ∀ e ∈ st.exprs, P e
  callStmt : ∀ depth, Discipline.free.Keeps (callStmt fuel depth) fun st _ => ∀ e ∈ st.exprs, P e
  ifStmt : ∀ depth, Discipline.free.Keeps (ifStmt fuel depth) fun st _ => ∀ e ∈ st.exprs, P e
  elseIfBranches : ∀ depth,
    Discipline.free.Keeps (elseIfBranches fuel depth) fun bs _ => ∀ e ∈ Stmt.elseIfExprs bs, P e
  loopStmt : ∀ depth, Discipline.free.Keeps (loopStmt fuel depth) fun st _ => ∀ e ∈ st.exprs, P e
  exitWhenStmt : ∀ depth,
    Discipline.free.Keeps (exitWhenStmt fuel depth) fun st _ => ∀ e ∈ st.exprs, P e
  returnStmt : ∀ depth,
    Discipline.free.Keeps (returnStmt fuel depth) fun st _ => ∀ e ∈ st.exprs, P e
  debugStmt : ∀ depth,
    Discipline.free.Keeps (debugStmt fuel depth) fun st _ => ∀ e ∈ st.exprs, P e

variable {P}
  (hexpr : ∀ fuel depth, Discipline.free.Keeps (expr fuel depth) fun e _ => P e)
  (hcall : ∀ fuel depth, Discipline.free.Keeps (funCall fuel depth) fun c _ => ∀ e ∈ c.2, P e)

theorem StmtExprs.zero : StmtExprs P 0 where
  statements _ := by rw [Parse.statements]; exact keeps_outOfFuel
  statement _ := by rw [Parse.statement]; exact keeps_outOfFuel
  setStmt _ := by rw [Parse.setStmt]; exact keeps_outOfFuel
  callStmt _ := by rw [Parse.callStmt]; exact keeps_outOfFuel
  ifStmt _ := by rw [Parse.ifStmt]; exact keeps_outOfFuel
  elseIfBranches _ := by rw [Parse.elseIfBranches]; exact keeps_outOfFuel
  loopStmt _ := by rw [Parse.loopStmt]; exact keeps_outOfFuel
  exitWhenStmt _ := by rw [Parse.exitWhenStmt]; exact keeps_outOfFuel
  returnStmt _ := by rw [Parse.returnStmt]; exact keeps_outOfFuel
  debugStmt _ := by rw [Parse.debugStmt]; exact keeps_outOfFuel

include hexpr hcall in
theorem StmtExprs.succ {fuel : Nat} (ih : StmtExprs P fuel) : StmtExprs P (fuel + 1) where
  statements depth s _ := by
    rw [Parse.statements]
    refine post_bind (keeps_attempt (ih.statement depth)) trivial fun o s₁ _ _ ho => ?_
    cases o with
    | none => exact post_pure trivial (by simp)
    | some st =>
      refine post_bind keeps_lineBreak trivial fun _ s₂ _ _ _ => ?_
      refine post_bind (ih.statements depth) trivial fun b s₃ _ _ hb => ?_
      exact post_pure trivial (by simpa [or_imp, forall_and] using ⟨ho st rfl, hb⟩)
  statement depth s _ := by
    rw [Parse.statement]
    refine post_bind keeps_here trivial fun pos s₁ _ _ _ => ?_
    refine post_bind (keeps_firstOf _ (Q := fun st _ => ∀ e ∈ st.exprs, P e) ?_) trivial
      fun st s₂ _ _ hst => post_pure trivial hst
    simp only [List.mem_cons, List.not_mem_nil, or_false]
    rintro p (rfl | rfl | rfl | rfl | rfl | rfl | rfl)
    · exact ih.setStmt depth
    · exact ih.callStmt depth
    · exact ih.ifStmt depth
    · exact ih.loopStmt depth
    · exact ih.exitWhenStmt depth
    · exact ih.returnStmt depth
    · exact ih.debugStmt depth
  setStmt depth s _ := by
    rw [Parse.setStmt]
    refine post_bind (keeps_keyword _) trivial fun _ s₁ _ _ _ => ?_
    refine post_bind (keeps_ident _) trivial fun name s₂ _ _ _ => ?_
    refine post_bind (keeps_resolveVar name) trivial fun target s₃ _ _ _ => ?_
    refine post_bind (keeps_eatSymbol _) trivial fun b s₄ _ _ _ => ?_
    -- after the optional index, both branches read `= value`
    have last : ∀ index t, (∀ e ∈ index.toList, P e) →
        Discipline.free.Post (fun st _ => ∀ e ∈ st.exprs, P e) t ((do
          symbol .assign
          let value ← expr fuel depth
          return Stmt.set target index value).exec t) := fun index t hi =>
      post_bind (keeps_symbol _) trivial fun _ t₁ _ _ _ =>
        post_bind (hexpr fuel depth) trivial fun value t₂ _ _ hv =>
          post_pure trivial (by
            simp only [Stmt.exprs, List.mem_append, List.mem_singleton, or_imp, forall_and,
              forall_eq]
            exact ⟨hi, hv⟩)
    cases b <;> simp only [pure_bind, Bool.false_eq_true, ↓reduceIte]
    · exact last none s₄ (by simp)
    · refine post_bind (hexpr fuel depth) trivial fun i s₅ _ _ hi => ?_
      refine post_bind (keeps_symbol _) trivial fun _ s₆ _ _ _ => ?_
      exact last (some i) s₆ (by simpa using hi)
  callStmt depth s _ := by
    rw [Parse.callStmt]
    refine post_bind (keeps_keyword _) trivial fun _ s₁ _ _ _ => ?_
    refine post_bind (hcall fuel depth) trivial fun c s₂ _ _ hc => ?_
    exact post_pure trivial (by simpa [Stmt.exprs] using hc)
  ifStmt depth s _ := by
    rw [Parse.ifStmt]
    refine post_bind (keeps_checkDepth depth) trivial fun _ s₁ _ _ _ => ?_
    refine post_bind (keeps_keyword _) trivial fun _ s₂ _ _ _ => ?_
    refine post_bind (hexpr fuel _) trivial fun cond s₃ _ _ hc => ?_
    refine post_bind (keeps_keyword _) trivial fun _ s₄ _ _ _ => ?_
    refine post_bind keeps_lineBreak trivial fun _ s₅ _ _ _ => ?_
    refine post_bind (ih.statements _) trivial fun thenBody s₆ _ _ hth => ?_
    refine post_bind (ih.elseIfBranches _) trivial fun elseIfs s₇ _ _ he => ?_
    refine post_bind (keeps_eatKeyword _) trivial fun b s₈ _ _ _ => ?_
    -- after the optional `else`, both branches read `endif`
    have last : ∀ elseBody t,
        (∀ e ∈ (elseBody.map Stmt.blockExprs).getD [], P e) →
        Discipline.free.Post (fun st _ => ∀ e ∈ st.exprs, P e) t ((do
          keyword .kwEndif
          return Stmt.ifThen cond thenBody elseIfs elseBody).exec t) := fun elseBody t hb =>
      post_bind (keeps_keyword _) trivial fun _ t₁ _ _ _ => post_pure trivial (by
        simp only [Stmt.exprs_ifThen, List.mem_cons, List.mem_append, or_imp, forall_and,
          forall_eq]
        exact ⟨hc, ⟨⟨hth, he⟩, hb⟩⟩)
    cases b <;> simp only [pure_bind, Bool.false_eq_true, ↓reduceIte]
    · exact last none s₈ (by simp)
    · refine post_bind keeps_lineBreak trivial fun _ s₉ _ _ _ => ?_
      refine post_bind (ih.statements _) trivial fun body s₁₀ _ _ hb => ?_
      exact last (some body) s₁₀ (by simpa using hb)
  elseIfBranches depth s _ := by
    rw [Parse.elseIfBranches]
    refine post_bind (keeps_eatKeyword _) trivial fun b s₁ _ _ _ => ?_
    cases b <;> simp only [Bool.false_eq_true, ↓reduceIte]
    · exact post_pure trivial (by simp)
    · refine post_bind (hexpr fuel depth) trivial fun cond s₂ _ _ hc => ?_
      refine post_bind (keeps_keyword _) trivial fun _ s₃ _ _ _ => ?_
      refine post_bind keeps_lineBreak trivial fun _ s₄ _ _ _ => ?_
      refine post_bind (ih.statements depth) trivial fun body s₅ _ _ hb => ?_
      refine post_bind (ih.elseIfBranches depth) trivial fun rest s₆ _ _ hr => ?_
      exact post_pure trivial (by simpa [or_imp, forall_and] using ⟨hc, hb, hr⟩)
  loopStmt depth s _ := by
    rw [Parse.loopStmt]
    refine post_bind (keeps_checkDepth depth) trivial fun _ s₁ _ _ _ => ?_
    refine post_bind (keeps_keyword _) trivial fun _ s₂ _ _ _ => ?_
    refine post_bind keeps_lineBreak trivial fun _ s₃ _ _ _ => ?_
    refine post_bind (ih.statements _) trivial fun body s₄ _ _ hb => ?_
    refine post_bind (keeps_keyword _) trivial fun _ s₅ _ _ _ => ?_
    exact post_pure trivial (by simpa [Stmt.exprs] using hb)
  exitWhenStmt depth s _ := by
    rw [Parse.exitWhenStmt]
    refine post_bind (keeps_keyword _) trivial fun _ s₁ _ _ _ => ?_
    refine post_bind (hexpr fuel depth) trivial fun cond s₂ _ _ hc => ?_
    exact post_pure trivial (by simpa [Stmt.exprs] using hc)
  returnStmt depth s _ := by
    rw [Parse.returnStmt]
    refine post_bind (keeps_keyword _) trivial fun _ s₁ _ _ _ => ?_
    refine post_bind (keeps_attempt (hexpr fuel depth)) trivial fun o s₂ _ _ ho => ?_
    cases o with
    | none => exact post_pure trivial (by simp [Stmt.exprs])
    | some e => exact post_pure trivial (by simpa [Stmt.exprs] using ho e rfl)
  debugStmt depth s _ := by
    rw [Parse.debugStmt]
    refine post_bind (keeps_keyword _) trivial fun _ s₁ _ _ _ => ?_
    refine post_bind (keeps_attempt (ih.setStmt depth)) trivial fun o₁ s₂ _ _ h₁ => ?_
    rcases o₁ with _ | st
    · refine post_bind (keeps_attempt (ih.callStmt depth)) trivial fun o₂ s₃ _ _ h₂ => ?_
      rcases o₂ with _ | st
      · refine post_bind (keeps_attempt (ih.ifStmt depth)) trivial fun o₃ s₄ _ _ h₃ => ?_
        rcases o₃ with _ | st
        · refine post_bind (keeps_attempt (ih.loopStmt depth)) trivial fun o₄ s₅ _ _ h₄ => ?_
          rcases o₄ with _ | st
          · exact post_fail trivial
          · exact post_pure trivial (by simpa [Stmt.exprs] using h₄ st rfl)
        · exact post_pure trivial (by simpa [Stmt.exprs] using h₃ st rfl)
      · exact post_pure trivial (by simpa [Stmt.exprs] using h₂ st rfl)
    · exact post_pure trivial (by simpa [Stmt.exprs] using h₁ st rfl)

include hexpr hcall in
theorem stmtExprs : ∀ fuel, StmtExprs P fuel
  | 0 => .zero
  | fuel + 1 => (stmtExprs fuel).succ hexpr hcall

/-! ## Function bodies -/

include hexpr hcall in
theorem free_keeps_function (fuel : Nat) :
    Discipline.free.Keeps (function fuel) fun f _ => ∀ e ∈ Stmt.blockExprs f.body, P e := by
  intro s _
  rw [Parse.function]
  -- everything up to the body reads no expression of the body
  refine post_bind (free_keeps_true _) trivial fun pos s₁ _ _ _ => ?_
  refine post_bind (free_keeps_true _) trivial fun isConstant s₂ _ _ _ => ?_
  refine post_bind (free_keeps_true _) trivial fun _ s₃ _ _ _ => ?_
  refine post_bind (free_keeps_true _) trivial fun d s₄ _ _ _ => ?_
  refine post_bind (free_keeps_true _) trivial fun fn s₅ _ _ _ => ?_
  refine post_bind (free_keeps_true _) trivial fun _ s₆ _ _ _ => ?_
  refine post_bind (free_keeps_true _) trivial fun _ s₇ _ _ _ => ?_
  have hbody : Discipline.free.Keeps (functionBody fuel)
      fun b _ => ∀ e ∈ Stmt.blockExprs b.2, P e := by
    intro t _
    rw [Parse.functionBody]
    refine post_bind (free_keeps_true _) trivial fun _ t₁ _ _ _ => ?_
    refine post_bind (free_keeps_true _) trivial fun locals t₂ _ _ _ => ?_
    refine post_bind ((stmtExprs hexpr hcall fuel).statements 0) trivial
      fun body t₃ _ _ hb => ?_
    refine post_bind (free_keeps_true _) trivial fun _ t₄ _ _ _ => ?_
    refine post_bind (free_keeps_true _) trivial fun _ t₅ _ _ _ => ?_
    exact post_pure trivial hb
  refine post_bind (keeps_catch (D := .free) hbody) trivial fun body s₈ _ _ hb => ?_
  refine post_bind (free_keeps_true _) trivial fun _ s₉ _ _ _ => ?_
  rcases body with e | ⟨locals, stmts⟩
  · exact free_post fun _ _ h => by cases h
  · exact post_pure trivial hb

include hexpr hcall in
theorem free_keeps_functions : ∀ fuel, Discipline.free.Keeps (functions fuel)
    fun fs _ => ∀ f ∈ fs, ∀ e ∈ Stmt.blockExprs f.body, P e
  | 0 => by rw [Parse.functions]; exact keeps_outOfFuel
  | fuel + 1 => by
    intro s _
    rw [Parse.functions]
    refine post_bind (keeps_attempt (free_keeps_function hexpr hcall fuel)) trivial
      fun o s₁ _ _ ho => ?_
    cases o with
    | none => exact post_pure trivial (by simp)
    | some f =>
      refine post_bind (free_keeps_functions fuel) trivial fun fs s₂ _ _ hfs => ?_
      exact post_pure trivial (by simpa using ⟨ho f rfl, hfs⟩)

include hexpr hcall in
/-- Every expression in the function bodies of a parsed file satisfies `P`, when every value of
the expression rule and every argument of the call rule does. -/
theorem parseFile_exprs {src path : String} {ts : Tables} {lim : Limits} {f : File}
    (h : (parseFile src path ts lim).1 = .ok f) :
    ∀ fn ∈ f.functions, ∀ e ∈ Stmt.blockExprs fn.body, P e := by
  unfold parseFile at h
  split at h
  · cases h
  · next tokens _ =>
    rw [runOn_eq] at h
    have hfile : Discipline.free.Keeps (file (Parse.budget tokens.size) path)
        fun f _ => ∀ fn ∈ f.functions, ∀ e ∈ Stmt.blockExprs fn.body, P e := by
      intro s _
      rw [Parse.file]
      refine post_bind (free_keeps_true _) trivial fun _ s₁ _ _ _ => ?_
      refine post_bind (free_keeps_true _) trivial fun decls s₂ _ _ _ => ?_
      refine post_bind (free_keeps_functions hexpr hcall _) trivial fun fs s₃ _ _ hfs => ?_
      refine post_bind (free_keeps_true _) trivial fun _ s₄ _ _ _ => ?_
      exact post_pure trivial hfs
    rcases hr : (file (Parse.budget tokens.size) path).exec (ParseState.start tokens ts lim) with
      ⟨_ | f', t⟩ <;> rw [hr] at h
    · cases h
    · cases h
      exact hfile.of_exec trivial hr

end

end Jass
