import Mathlib
import Jass.Parse.File
/-!
# Running a parser

`Parser.exec p s` is what `p` gives when started in `s`: its value or failure, and the state
it leaves. The equations below compute `exec` through the monad's operations and through each
primitive of the grammar, so that no later proof unfolds the monad.
-/

namespace Jass

variable {α β : Type}

/-- The value or failure of a parser started in `s`, with the state it ends in. -/
def Parser.exec (p : Parser α) (s : ParseState) : Except ParseError α × ParseState :=
  p.run.run s

namespace Parser

/-! ## The monad -/

@[simp] theorem exec_pure (a : α) (s : ParseState) : (pure a : Parser α).exec s = (.ok a, s) :=
  rfl

theorem exec_bind (p : Parser α) (f : α → Parser β) (s : ParseState) :
    (p >>= f).exec s = match p.exec s with
      | (.ok a, s') => (f a).exec s'
      | (.error e, s') => (.error e, s') := by
  simp only [exec, bind, ExceptT.bind, ExceptT.run, ExceptT.mk, StateT.run, StateT.bind]
  rcases p s with ⟨r, s'⟩
  cases r <;> rfl

@[simp] theorem exec_throw (e : ParseError) (s : ParseState) :
    (throw e : Parser α).exec s = (.error e, s) := rfl

@[simp] theorem exec_get (s : ParseState) : (get : Parser ParseState).exec s = (.ok s, s) := rfl

@[simp] theorem exec_set (s s' : ParseState) : (set s' : Parser PUnit).exec s = (.ok (), s') :=
  rfl

@[simp] theorem exec_modify (f : ParseState → ParseState) (s : ParseState) :
    (modify f : Parser PUnit).exec s = (.ok (), f s) := rfl

@[simp] theorem exec_modifyGet (f : ParseState → α × ParseState) (s : ParseState) :
    (modifyGet f : Parser α).exec s = (.ok (f s).1, (f s).2) := rfl

theorem exec_map (f : α → β) (p : Parser α) (s : ParseState) :
    (f <$> p).exec s = match p.exec s with
      | (.ok a, s') => (.ok (f a), s')
      | (.error e, s') => (.error e, s') := by
  rw [map_eq_pure_bind, exec_bind]
  rcases p.exec s with ⟨r, s'⟩
  cases r <;> rfl

theorem exec_tryCatch (p : Parser α) (h : ParseError → Parser α) (s : ParseState) :
    (tryCatch p h).exec s = match p.exec s with
      | (.ok a, s') => (.ok a, s')
      | (.error e, s') => (h e).exec s' := by
  simp only [exec, tryCatch, MonadExcept.tryCatch, tryCatchThe, MonadExceptOf.tryCatch,
    ExceptT.tryCatch, ExceptT.run, ExceptT.mk, bind, StateT.bind, StateT.run]
  rcases p s with ⟨r, s'⟩
  cases r <;> rfl

theorem runOn_eq (p : Parser α) (tokens : Array Lexeme) (tables : Tables) (lim : Limits) :
    p.runOn tokens tables lim = match p.exec (ParseState.start tokens tables lim) with
      | (.ok v, s) => (.ok v, s.tables)
      | (.error e, s) => (.error (s.report e), s.tables) := by
  unfold runOn exec
  rcases (p.run).run (ParseState.start tokens tables lim) with ⟨_ | _, s⟩ <;> rfl

end Parser

/-! ## The primitives of the grammar -/

def Param.decl (p : Param) (pos : Pos) : VarDecl :=
  { type := p.type, isArray := false, name := p.name, init := none, pos }

namespace ParseState

def expected (s : ParseState) (rule : Rule) : ParseError :=
  ⟨.expected rule s.current.token, s.current.pos⟩

def stepped (s : ParseState) : ParseState := s.moveTo (min (s.cursor + 1) s.tokens.size)

def skipped (s : ParseState) : ParseState := s.moveTo (skipLineBreaks s.tokens s.cursor)

/-- What a variable name stands for in `s`: the function's scope first, then the registered
globals. -/
def varRef (s : ParseState) (name : String) : Ref VarId :=
  match s.scope[name]? with
  | some id => .resolved id
  | none => s.tables.resolveVar name

def withType (s : ParseState) (d : TypeDecl) : ParseState :=
  { s with tables := { s.tables with types := (s.tables.types.insert d.name d).1 } }

def withVar (s : ParseState) (d : VarDecl) : ParseState :=
  { s with tables := { s.tables with vars := (s.tables.vars.insert d.name d).1 } }

def withFun (s : ParseState) (d : FunDecl) : ParseState :=
  { s with tables := { s.tables with funs := (s.tables.funs.insert d.name d).1 } }

def pushed (s : ParseState) (d : VarDecl) : ParseState :=
  { s with
    tables := { s.tables with vars := (s.tables.vars.push d).1 }
    scope := s.scope.insert d.name ⟨s.tables.vars.size⟩ }

def unscoped (s : ParseState) : ParseState := { s with scope := {} }

def pushParams (s : ParseState) (pos : Pos) (ps : List Param) : ParseState :=
  ps.foldl (fun s p => s.pushed (p.decl pos)) s

end ParseState

namespace Parse

open Jass.Parser

@[simp] theorem exec_peek (s : ParseState) : peek.exec s = (.ok s.current.token, s) := rfl

@[simp] theorem exec_here (s : ParseState) : here.exec s = (.ok s.current.pos, s) := rfl

@[simp] theorem exec_advance (s : ParseState) : advance.exec s = (.ok (), s.stepped) :=
  rfl

@[simp] theorem exec_skipNewlines (s : ParseState) :
    skipNewlines.exec s = (.ok (), s.skipped) := rfl

@[simp] theorem exec_fail (rule : Rule) (s : ParseState) :
    (fail rule : Parser α).exec s = (.error (s.expected rule), s.record (s.expected rule)) :=
  rfl

@[simp] theorem exec_outOfFuel (s : ParseState) :
    (outOfFuel : Parser α).exec s = (.error ⟨.outOfFuel, s.current.pos⟩, s) := rfl

theorem exec_checkDepth (depth : Nat) (s : ParseState) :
    (checkDepth depth).exec s =
      if depth ≥ s.maxDepth then (.error ⟨.tooDeep depth s.maxDepth, s.current.pos⟩, s)
      else (.ok (), s) := by
  simp only [checkDepth, exec_bind, exec_get]
  split <;> rfl

theorem exec_eatKeyword (k : Keyword) (s : ParseState) :
    (eatKeyword k).exec s =
      if isKeyword k s.current.token then (.ok true, s.stepped) else (.ok false, s) := by
  simp only [eatKeyword, exec_bind, exec_peek]
  split <;> rfl

theorem exec_eatSymbol (c : Symbol) (s : ParseState) :
    (eatSymbol c).exec s =
      if isSymbol c s.current.token then (.ok true, s.stepped) else (.ok false, s) := by
  simp only [eatSymbol, exec_bind, exec_peek]
  split <;> rfl

theorem exec_resolveVar (name : String) (s : ParseState) :
    (resolveVar name).exec s = (.ok (s.varRef name), s) := by
  simp only [resolveVar, exec_bind, exec_get, ParseState.varRef]
  split <;> simp_all

@[simp] theorem exec_resolveType (name : String) (s : ParseState) :
    (resolveType name).exec s = (.ok (s.tables.resolveType name), s) := rfl

@[simp] theorem exec_resolveFun (name : String) (s : ParseState) :
    (resolveFun name).exec s = (.ok (s.tables.resolveFun name), s) := rfl

theorem exec_attempt (p : Parser α) (s : ParseState) :
    (attempt p).exec s = match p.exec s with
      | (.ok a, s') => (.ok (some a), s')
      | (.error e, s') =>
        if e.fault.isSyntax then (.ok none, { s' with cursor := s.cursor }) else (.error e, s') := by
  simp only [attempt, exec_bind, exec_get, exec_tryCatch, exec_map]
  rcases p.exec s with ⟨_ | a, s'⟩
  · dsimp only
    split
    · rw [exec_bind]
      rfl
    · rfl
  · rfl

@[simp] theorem exec_clearScope (s : ParseState) : clearScope.exec s = (.ok (), s.unscoped) :=
  rfl

@[simp] theorem exec_insertType (d : TypeDecl) (s : ParseState) :
    (insertType d).exec s = (.ok ⟨s.tables.types.size⟩, s.withType d) := rfl

@[simp] theorem exec_insertVar (d : VarDecl) (s : ParseState) :
    (insertVar d).exec s = (.ok ⟨s.tables.vars.size⟩, s.withVar d) := rfl

@[simp] theorem exec_insertFun (d : FunDecl) (s : ParseState) :
    (insertFun d).exec s = (.ok ⟨s.tables.funs.size⟩, s.withFun d) := rfl

@[simp] theorem exec_pushScoped (d : VarDecl) (s : ParseState) :
    (pushScoped d).exec s = (.ok ⟨s.tables.vars.size⟩, s.pushed d) := rfl

theorem exec_forIn {γ : Type} (l : List γ) (f : γ → PUnit → Parser (ForInStep PUnit))
    (g : γ → ParseState → ParseState) (hf : ∀ x s, (f x ⟨⟩).exec s = (.ok (.yield ⟨⟩), g x s))
    (s : ParseState) : (forIn l ⟨⟩ f).exec s = (.ok ⟨⟩, l.foldl (fun s x => g x s) s) := by
  induction l generalizing s with
  | nil => rfl
  | cons x l ih =>
    rw [List.forIn_cons, exec_bind, hf]
    exact ih (g x s)

end Parse

end Jass
