import Jass.Syntax.Expr
/-!
# Statements

A statement sits on one line, except blocks (`if` and `loop`), which hold statement lists.
Every statement in a list carries the position of its first token. A `debug` statement wraps a
`set`, `call`, `if` or `loop`, which has no position of its own.
-/

namespace Jass

structure Located (α : Type) where
  pos : Pos
  node : α
  deriving Inhabited

inductive Stmt where
  | set (target : Ref VarId) (index : Option Expr) (value : Expr)
  | call (fn : Ref FunId) (args : List Expr)
  | ifThen (cond : Expr) (thenBody : List (Located Stmt))
      (elseIfs : List (Expr × List (Located Stmt))) (elseBody : Option (List (Located Stmt)))
  | loop (body : List (Located Stmt))
  | exitWhen (cond : Expr)
  | ret (value : Option Expr)
  /-- A statement that runs only in debug builds. -/
  | debug (inner : Stmt)
  deriving Inhabited

abbrev Statement := Located Stmt

end Jass
