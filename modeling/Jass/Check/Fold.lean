import Jass.Syntax.Expr
/-!
# Constant folding

`Expr.fold` computes the value of an expression built from literals, parentheses, `+ - not`
and binary operations whose operands both fold. Integers are 32-bit words: addition,
subtraction, multiplication and negation wrap, and division truncates toward zero. A
four-character code folds as the integer it encodes. An operation that mixes an integer with a
real computes in single precision. Division by zero, a comparison involving NaN, and any
operation on unsuitable operands do not fold.
-/

namespace Jass

inductive Number where
  | int (v : Int32)
  | real (x : Float32)

namespace Number

def ofConst? : Const → Option Number
  | .integer v => some (.int v)
  | .fourcc c => some (.int c.value)
  | .real x => some (.real x)
  | _ => none

def toReal : Number → Float32
  | .int v => Float32.ofInt v.toInt
  | .real x => x

end Number

def foldUnary : UnOp → Const → Option Const
  | .logicalNot, .boolean b => some (.boolean !b)
  | .logicalNot, _ => none
  | op, c => (Number.ofConst? c).map fun
    | .int v => if op == .minus then .integer (-v) else .integer v
    | .real x => if op == .minus then .real (-x) else .real x

/-- Whether two folded constants are equal, when they can be compared: strings, booleans and
`null` with their own kind, numbers with numbers (as reals unless both are integers). -/
def constEqual? : Const → Const → Option Bool
  | .string a, .string b => some (a == b)
  | .boolean a, .boolean b => some (a == b)
  | .null, .null => some true
  | l, r => do
    match ← Number.ofConst? l, ← Number.ofConst? r with
    | .int a, .int b => some (a == b)
    | a, b => some (a.toReal == b.toReal)

/-- Compares two numbers with an ordering operator; NaN compares with nothing. -/
def compareNumbers (op : BinOp) : Number → Number → Option Bool
  | .int a, .int b =>
    match op with
    | .greater => some (a > b)
    | .less => some (a < b)
    | .greaterEq => some (a ≥ b)
    | _ => some (a ≤ b)
  | a, b =>
    let x := a.toReal
    let y := b.toReal
    if x.isNaN || y.isNaN then none
    else
      match op with
      | .greater => some (y < x)
      | .less => some (x < y)
      | .greaterEq => some (y ≤ x)
      | _ => some (x ≤ y)

/-- Applies an arithmetic operator to two numbers; division by zero does not fold. -/
def arithmetic (op : BinOp) : Number → Number → Option Const
  | .int a, .int b =>
    match op with
    | .add => some (.integer (a + b))
    | .sub => some (.integer (a - b))
    | .mul => some (.integer (a * b))
    | .div => if b == 0 then none else some (.integer (a / b))
    | _ => none
  | a, b =>
    let x := a.toReal
    let y := b.toReal
    match op with
    | .add => some (.real (x + y))
    | .sub => some (.real (x - y))
    | .mul => some (.real (x * y))
    | .div => if y == 0 then none else some (.real (x / y))
    | _ => none

def foldBinary (l : Const) (op : BinOp) (r : Const) : Option Const :=
  if op.isLogical then
    match l, r with
    | .boolean a, .boolean b => some (.boolean (if op == .logicalAnd then a && b else a || b))
    | _, _ => none
  else if op.isEquality then
    (constEqual? l r).map fun eq => .boolean (eq == (op == .equal))
  else
    match op, l, r with
    | .add, .string a, .string b => some (.string (a ++ b))
    | _, _, _ => do
      let a ← Number.ofConst? l
      let b ← Number.ofConst? r
      if op.isOrdering then (compareNumbers op a b).map .boolean
      else arithmetic op a b

def Expr.fold : Expr → Option Const
  | .const c => some c
  | .paren e => e.fold
  | .unary op e => e.fold.bind (foldUnary op)
  | .binary l op r => do foldBinary (← l.fold) op (← r.fold)
  | .call .. | .element .. | .funRef _ | .var _ => none

/-- The folded value with whether folding succeeded; an expression that does not fold has the
default value, the integer zero, which means nothing. -/
def Expr.evaluate (e : Expr) : Const × Bool :=
  match e.fold with
  | some c => (c, true)
  | none => (default, false)

end Jass
