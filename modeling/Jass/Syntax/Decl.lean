import Jass.Syntax.Stmt
/-!
# Declarations and files

Types, variables and function signatures are declarations: they live in the session's tables
and a file refers to them by handle. A file lists what it declared, in the order of its
sections: types, globals and natives, then the functions with their bodies.
-/

namespace Jass

structure TypeDecl where
  name : String
  /-- `none` for the six base types. -/
  parent : Option (Ref TypeId)
  /-- `none` for the six base types. -/
  pos : Option Pos
  deriving Inhabited

structure VarDecl where
  type : Ref TypeId
  isArray : Bool
  name : String
  init : Option Expr
  pos : Pos
  deriving Inhabited

structure Param where
  type : Ref TypeId
  name : String
  deriving Inhabited

structure FunDecl where
  name : String
  params : List Param
  /-- `none` when the function returns nothing. -/
  result : Option (Ref TypeId)
  pos : Pos
  deriving Inhabited

structure Global where
  isConstant : Bool
  var : VarId
  deriving Inhabited

structure Native where
  isConstant : Bool
  fn : FunId
  deriving Inhabited

structure FunctionDef where
  isConstant : Bool
  fn : FunId
  locals : List VarId
  body : List Statement
  deriving Inhabited

structure File where
  path : String
  types : List TypeId
  globals : List Global
  natives : List Native
  functions : List FunctionDef
  deriving Inhabited

end Jass
