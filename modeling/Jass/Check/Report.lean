import Jass.Syntax.Decl
/-!
# Reports

A report is a finding of the checker: what was found (`Finding`), the node it is about
(`Subject`), and the file and position it is reported at. Reports never stop the checker.
-/

namespace Jass

inductive Finding where
  | undeclared (name : String)
  | constantWithoutValue (name : String)
  | arrayWithInitializer (name : String)
  | cannotAssign (valueType name targetType : String)
  | assignToConstant (name : String)
  | nonBooleanCondition (found : String)
  | badUnaryOperand (op : UnOp) (needed found : String)
  | badBinaryOperands (op : BinOp) (left right : String)
  | notAnArray (name : String)
  | arrayWithoutIndex (name : String)
  | nonIntegerIndex (found : String)
  | indexOutOfBounds (index : Int)
  | noValue (fn : String)
  | argumentCount (fn : String) (expected given : Nat)
  | argumentType (position : Nat) (fn expected found : String)
  | valueReturnedFromNothing
  | missingReturnValue (fn type : String)
  | returnTypeMismatch (fn expected found : String)
  | neverDestroyed (name type : String) (destructors : List String)
  deriving Repr, DecidableEq

/-- Arrays hold this many elements; valid indices are below it. -/
def arraySize : Nat := 8192

def Finding.message : Finding → String
  | .undeclared name => s!"undeclared identifier '{name}'"
  | .constantWithoutValue name => s!"constant '{name}' has no initializer"
  | .arrayWithInitializer name => s!"array '{name}' cannot have an initializer"
  | .cannotAssign v name t => s!"cannot assign {v} to '{name}' of type {t}"
  | .assignToConstant name => s!"cannot assign to constant '{name}'"
  | .nonBooleanCondition found => s!"condition must be boolean, found {found}"
  | .badUnaryOperand op needed found =>
    "operator '" ++ op.symbol ++ "' needs " ++ needed ++ " operand, found " ++ found
  | .badBinaryOperands op l r =>
    "operator '" ++ op.symbol ++ "' cannot be applied to " ++ l ++ " and " ++ r
  | .notAnArray name => s!"'{name}' is not an array"
  | .arrayWithoutIndex name => s!"array '{name}' is used without an index"
  | .nonIntegerIndex found => s!"array index must be of type integer, found {found}"
  | .indexOutOfBounds i => s!"array index {i} is out of bounds [0, {arraySize})"
  | .noValue fn => s!"function '{fn}' returns nothing and cannot be used as a value"
  | .argumentCount fn expected given =>
    s!"function '{fn}' takes {expected} argument(s) but {given} were given"
  | .argumentType position fn expected found =>
    s!"argument {position} of '{fn}' must be {expected}, found {found}"
  | .valueReturnedFromNothing => "return expression for function without return type"
  | .missingReturnValue fn type => s!"missing return value in function '{fn}' returning {type}"
  | .returnTypeMismatch fn expected found =>
    s!"return type mismatch in '{fn}': expected {expected}, found {found}"
  | .neverDestroyed name type destructors =>
    s!"'{name}' of type {type} is never destroyed (expected a call to " ++
      " or ".intercalate destructors ++ ")"

inductive Subject where
  | typeDecl (id : TypeId)
  | global (g : Global)
  | native (n : Native)
  | function (fn : FunId)
  | variable (id : VarId)
  | statement
  | expression (e : Expr)

structure Report where
  subject : Subject
  finding : Finding
  file : String
  pos : Pos

end Jass
