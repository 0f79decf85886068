import Mathlib
import Jass.Parse.File
/-!
# The references of a tree

Every name a declaration, an expression or a statement mentions is kept as a reference: a
handle into one of the three tables, or the name itself when it was not declared. `refs`
lists them in reading order, so that a statement about every reference of a tree is a
statement about the members of a list.
-/

namespace Jass

inductive AnyRef where
  | type (r : Ref TypeId)
  | var (r : Ref VarId)
  | fn (r : Ref FunId)

mutual
def Expr.refs : Expr → List AnyRef
  | .const _ => []
  | .binary l _ r => l.refs ++ r.refs
  | .unary _ e => e.refs
  | .call fn args => .fn fn :: Expr.listRefs args
  | .element v i => .var v :: i.refs
  | .funRef fn => [.fn fn]
  | .var v => [.var v]
  | .paren e => e.refs
def Expr.listRefs : List Expr → List AnyRef
  | [] => []
  | e :: es => e.refs ++ Expr.listRefs es
end

mutual
def Stmt.refs : Stmt → List AnyRef
  | .set v index value =>
    .var v :: ((index.map Expr.refs).getD [] ++ value.refs)
  | .call fn args => .fn fn :: Expr.listRefs args
  | .ifThen cond thenBody elseIfs elseBody =>
    cond.refs ++ Stmt.blockRefs thenBody ++ Stmt.elseIfRefs elseIfs ++
      (match elseBody with
       | some body => Stmt.blockRefs body
       | none => [])
  | .loop body => Stmt.blockRefs body
  | .exitWhen cond => cond.refs
  | .ret value => (value.map Expr.refs).getD []
  | .debug inner => inner.refs
def Stmt.blockRefs : List Statement → List AnyRef
  | [] => []
  | s :: rest => s.node.refs ++ Stmt.blockRefs rest
def Stmt.elseIfRefs : List (Expr × List Statement) → List AnyRef
  | [] => []
  | (cond, body) :: rest => cond.refs ++ Stmt.blockRefs body ++ Stmt.elseIfRefs rest
end

def VarDecl.refs (d : VarDecl) : List AnyRef :=
  .type d.type :: (d.init.map Expr.refs).getD []

def FunDecl.refs (d : FunDecl) : List AnyRef :=
  d.params.map (fun p => .type p.type) ++ (d.result.map fun t => [.type t]).getD []

def TypeDecl.refs (d : TypeDecl) : List AnyRef :=
  (d.parent.map fun p => [.type p]).getD []

/-! The handles a parsed file holds are references too, always resolved. -/

def Global.refs (g : Global) : List AnyRef := [.var (.resolved g.var)]

def Native.refs (n : Native) : List AnyRef := [.fn (.resolved n.fn)]

def Parse.DeclPart.refs (p : Parse.DeclPart) : List AnyRef :=
  p.types.map (fun id => .type (.resolved id)) ++ p.globals.flatMap Global.refs ++
    p.natives.flatMap Native.refs

def FunctionDef.refs (f : FunctionDef) : List AnyRef :=
  .fn (.resolved f.fn) :: f.locals.map (fun id => .var (.resolved id)) ++ Stmt.blockRefs f.body

def File.refs (f : File) : List AnyRef :=
  f.types.map (fun id => .type (.resolved id)) ++ f.globals.flatMap Global.refs ++
    f.natives.flatMap Native.refs ++ f.functions.flatMap FunctionDef.refs

@[simp] theorem Expr.listRefs_nil : Expr.listRefs [] = [] := rfl

@[simp] theorem Expr.listRefs_cons (e : Expr) (es : List Expr) :
    Expr.listRefs (e :: es) = e.refs ++ Expr.listRefs es := rfl

@[simp] theorem Stmt.blockRefs_nil : Stmt.blockRefs [] = [] := rfl

@[simp] theorem Stmt.blockRefs_cons (s : Statement) (rest : List Statement) :
    Stmt.blockRefs (s :: rest) = s.node.refs ++ Stmt.blockRefs rest := rfl

@[simp] theorem Stmt.elseIfRefs_nil : Stmt.elseIfRefs [] = [] := rfl

@[simp] theorem Stmt.elseIfRefs_cons (c : Expr) (body : List Statement)
    (rest : List (Expr × List Statement)) :
    Stmt.elseIfRefs ((c, body) :: rest) = c.refs ++ Stmt.blockRefs body ++ Stmt.elseIfRefs rest :=
  rfl

end Jass
