import Jass.Syntax.Const
/-!
# Expressions

An expression refers to declarations through handles into the session's tables. A name that
was not declared when it was read is kept as written, as an unresolved reference, so that the
checker can report it later.

Binary operations have no precedence: the grammar nests them to the right, and a left operand
that is itself an operation must be written in parentheses.
-/

namespace Jass

structure TypeId where
  index : Nat
  deriving Repr, DecidableEq, Hashable, Inhabited

structure VarId where
  index : Nat
  deriving Repr, DecidableEq, Hashable, Inhabited

structure FunId where
  index : Nat
  deriving Repr, DecidableEq, Hashable, Inhabited

/-- A name as the parser found it: the handle of its declaration, or the bare name when none
was declared. -/
inductive Ref (ι : Type) where
  | resolved (id : ι)
  | unresolved (name : String)
  deriving Repr, DecidableEq, Inhabited

def Ref.id? {ι : Type} : Ref ι → Option ι
  | .resolved id => some id
  | .unresolved _ => none

inductive BinOp where
  | add | sub | mul | div
  | greater | less | equal | notEqual | greaterEq | lessEq
  | logicalAnd | logicalOr
  deriving Repr, DecidableEq, Inhabited

namespace BinOp

def symbol : BinOp → String
  | add => "+" | sub => "-" | mul => "*" | div => "/"
  | greater => ">" | less => "<" | equal => "==" | notEqual => "!="
  | greaterEq => ">=" | lessEq => "<="
  | logicalAnd => "and" | logicalOr => "or"

def isArithmetic : BinOp → Bool
  | add | sub | mul | div => true
  | _ => false

def isOrdering : BinOp → Bool
  | greater | less | greaterEq | lessEq => true
  | _ => false

def isEquality : BinOp → Bool
  | equal | notEqual => true
  | _ => false

def isLogical : BinOp → Bool
  | logicalAnd | logicalOr => true
  | _ => false

end BinOp

inductive UnOp where
  | plus | minus | logicalNot
  deriving Repr, DecidableEq, Inhabited

def UnOp.symbol : UnOp → String
  | .plus => "+" | .minus => "-" | .logicalNot => "not"

inductive Expr where
  | const (c : Const)
  | binary (left : Expr) (op : BinOp) (right : Expr)
  | unary (op : UnOp) (operand : Expr)
  | call (fn : Ref FunId) (args : List Expr)
  | element (array : Ref VarId) (index : Expr)
  /-- `function F`, a value of type `code`. -/
  | funRef (fn : Ref FunId)
  | var (v : Ref VarId)
  | paren (inner : Expr)
  deriving Inhabited

end Jass
