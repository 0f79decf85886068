import Jass.Symbols
/-!
# Types of expressions

A type's *ancestry* is its name followed by the names of its parents, up to a base type or a
parent that was never declared. A parent is always declared before its child, so each step of
the walk goes to a smaller table index and the walk ends.

Assignability and operator checks look at ancestries: a value may be stored where a type is
expected if the two names are compatible or the value's ancestry contains the target's name,
and an operand's *category* (numeric, string, boolean, …) comes from the first name in its
ancestry that has one.

`Tables.exprType` is the language's rule that an operation has the type of its (left) operand;
`Tables.valueType` is what checks compare, and says `boolean` for comparisons, `and`, `or` and
`not`.
-/

namespace Jass

/-- What an operand can take part in: a set of seven flags. -/
structure Category where
  bits : Nat
  deriving Repr, DecidableEq, Inhabited

namespace Category

def empty : Category := ⟨0⟩
def numeric : Category := ⟨1⟩
def string : Category := ⟨2⟩
def boolean : Category := ⟨4⟩
def fourcc : Category := ⟨8⟩
def handle : Category := ⟨16⟩
def code : Category := ⟨32⟩
def null : Category := ⟨64⟩

/-- The flags of a byte, dropping the bit that names no flag. -/
def ofBits (n : Nat) : Category := ⟨n % 128⟩

def union (a b : Category) : Category := ⟨a.bits ||| b.bits⟩

def contains (a b : Category) : Bool := a.bits &&& b.bits == b.bits

def isEmpty (a : Category) : Bool := a.bits == 0

def intersects (a b : Category) : Bool := a.bits &&& b.bits != 0

def subset (a b : Category) : Bool := b.contains a

def ofBaseName : String → Category
  | "integer" | "real" => numeric
  | "fourcc" => fourcc.union numeric
  | "string" => string
  | "boolean" => boolean
  | "handle" => handle
  | "code" => code
  | "null" => null
  | _ => empty

def describe (a : Category) : String :=
  if a.contains fourcc then "fourcc"
  else if a.contains numeric then "numeric"
  else if a.contains string then "string"
  else if a.contains boolean then "boolean"
  else if a.contains handle then "handle"
  else if a.contains code then "code"
  else if a.contains null then "null"
  else "unknown"

end Category

/-- Whether two type names are compatible: equal names, `integer` beside `real` or `fourcc`,
or `null` on either side. The relation is symmetric but not transitive. -/
def namesCompatible (a b : String) : Bool :=
  a == b ||
    (a == "fourcc" && b == "integer") || (a == "integer" && b == "fourcc") ||
    (a == "integer" && b == "real") || (a == "real" && b == "integer") ||
    a == "null" || b == "null"

namespace Tables

def ancestryAt (ts : Tables) (i : Nat) : List String :=
  match ts.types.get? i with
  | none => []
  | some d =>
    d.name :: match d.parent with
      | none => []
      | some (.unresolved n) => [n]
      | some (.resolved p) => if p.index < i then ts.ancestryAt p.index else []
termination_by i

def ancestry (ts : Tables) : Ref TypeId → List String
  | .resolved id => ts.ancestryAt id.index
  | .unresolved n => [n]

def isOfBaseType (ts : Tables) (r : Ref TypeId) (base : String) : Bool :=
  (ts.ancestry r).contains base

def categoryOf (ts : Tables) (r : Ref TypeId) : Category :=
  (((ts.ancestry r).map Category.ofBaseName).find? (!·.isEmpty)).getD .empty

def assignable (ts : Tables) (target value : Ref TypeId) : Bool :=
  namesCompatible (ts.typeRefName target) (ts.typeRefName value) ||
    ts.isOfBaseType value (ts.typeRefName target)

def constType (ts : Tables) (c : Const) : Ref TypeId := ts.resolveType c.typeName

def varType (ts : Tables) (v : Ref VarId) : Option (Ref TypeId) :=
  v.id?.bind fun id => (ts.var? id).map (·.type)

/-- The type of an expression, when it can be known: an operation has its left operand's
type, a call its function's result, `function F` is `code`. -/
def exprType (ts : Tables) : Expr → Option (Ref TypeId)
  | .const c => some (ts.constType c)
  | .binary l _ _ => ts.exprType l
  | .unary _ e => ts.exprType e
  | .call fn _ => fn.id?.bind fun id => (ts.fn? id).bind (·.result)
  | .element v _ => ts.varType v
  | .funRef _ => some (ts.resolveType "code")
  | .var v => ts.varType v
  | .paren e => ts.exprType e

end Tables

def Expr.yieldsBoolean : Expr → Bool
  | .binary _ op _ => op.isOrdering || op.isEquality || op.isLogical
  | .unary op _ => op == .logicalNot
  | .paren e => e.yieldsBoolean
  | _ => false

namespace Tables

/-- The type an expression yields as a value: `boolean` for comparisons and logic, otherwise
the value type of its operand, or its type. -/
def valueType (ts : Tables) (e : Expr) : Option (Ref TypeId) :=
  if e.yieldsBoolean then some (ts.resolveType "boolean")
  else
    match e with
    | .paren inner => ts.valueType inner
    | .unary _ operand => ts.valueType operand
    | .binary l _ _ => ts.valueType l
    | _ => ts.exprType e

def operandCategory (ts : Tables) (e : Expr) : Option Category :=
  (ts.valueType e).map ts.categoryOf

end Tables

end Jass
