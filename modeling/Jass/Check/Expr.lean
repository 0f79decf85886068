import Jass.Check.Types
import Jass.Check.Fold
import Jass.Check.Report
/-!
# Checking expressions

`Checker.expr` walks an expression after its operands and reports, in this order for each
node: the findings of its sub-expressions, then its own. Its own findings are

* an undeclared variable, array or function;
* an operand whose category an operator does not accept (`+` also joins strings, and `==`
  accepts `null` beside anything);
* an array read without an index, or a plain variable read with one;
* an index that is not an integer, or a constant index outside `[0, 8192)`;
* a call to a function that returns nothing used as a value, a wrong number of arguments, or
  an argument that cannot be passed as its parameter's type.

Operand categories come from `Tables.valueType`, so an operand whose type is unknown, or has
no category, is never reported.
-/

namespace Jass

/-- What every check needs: the session's tables, the file being checked, and the constant
globals of the whole program. -/
structure Checker where
  ts : Tables
  file : String
  constants : List VarId

namespace Checker

def reportAll (ck : Checker) (pos : Pos) (subject : Subject) (fs : List Finding) :
    List Report :=
  fs.map fun f => ⟨subject, f, ck.file, pos⟩

def isConcatenation (a b : Category) : Bool :=
  let text := Category.string.union .null
  text.contains a && text.contains b && (a.contains .string || b.contains .string)

def unaryFinding (ck : Checker) (op : UnOp) (operand : Expr) : Option Finding :=
  match ck.ts.operandCategory operand with
  | none => none
  | some cat =>
    if cat.isEmpty then none
    else
      let (valid, needed) :=
        if op == .logicalNot then (cat.contains .boolean, "a boolean")
        else (cat.contains .numeric, "a numeric")
      if valid then none else some (.badUnaryOperand op needed cat.describe)

def binaryFinding (ck : Checker) (l : Expr) (op : BinOp) (r : Expr) : Option Finding :=
  match ck.ts.operandCategory l, ck.ts.operandCategory r with
  | some a, some b =>
    if a.isEmpty || b.isEmpty then none
    else
      let both (c : Category) := a.contains c && b.contains c
      let valid :=
        if op.isArithmetic then both .numeric || (op == .add && isConcatenation a b)
        else if op.isOrdering then both .numeric
        else if op.isEquality then a.intersects b || a.contains .null || b.contains .null
        else both .boolean
      if valid then none else some (.badBinaryOperands op a.describe b.describe)
  | _, _ => none

def indexFindings (ck : Checker) (i : Expr) : List Finding :=
  let typeFinding : List Finding := match ck.ts.valueType i with
    | some t =>
      let isInteger := ck.ts.isOfBaseType t "integer" || ck.ts.typeRefName t == "fourcc"
      if !isInteger && !(ck.ts.categoryOf t).isEmpty then [.nonIntegerIndex (ck.ts.typeRefName t)]
      else []
    | none => []
  let value : Option Int := match i.fold with
    | some (.integer v) => some v.toInt
    | some (.fourcc c) => some c.value.toInt
    | _ => none
  let boundFinding : List Finding := match value with
    | some v => if 0 ≤ v && v < arraySize then [] else [.indexOutOfBounds v]
    | none => []
  typeFinding ++ boundFinding

def accessFindings (ck : Checker) (v : Ref VarId) (indexed : Bool) : List Finding :=
  match v with
  | .unresolved n => [.undeclared n]
  | .resolved id =>
    match ck.ts.var? id with
    | some d =>
      if !d.isArray && indexed then [.notAnArray d.name]
      else if d.isArray && !indexed then [.arrayWithoutIndex d.name]
      else []
    | none => []

def argumentReports (ck : Checker) (pos : Pos) (fn : String) :
    Nat → List Expr → List Param → List Report
  | k, a :: args, p :: ps =>
    let here := match ck.ts.valueType a with
      | some t =>
        if ck.ts.assignable p.type t then []
        else
          ck.reportAll pos (.expression a)
            [.argumentType k fn (ck.ts.typeRefName p.type) (ck.ts.typeRefName t)]
      | none => []
    here ++ ck.argumentReports pos fn (k + 1) args ps
  | _, _, _ => []

/-- The findings of a call after its arguments were checked: an undeclared function, a
missing value, a wrong argument count, then the arguments' types. -/
def callReports (ck : Checker) (pos : Pos) (subject : Subject) (fn : Ref FunId)
    (args : List Expr) (usedAsValue : Bool) : List Report :=
  match fn with
  | .unresolved n => ck.reportAll pos subject [.undeclared n]
  | .resolved id =>
    match ck.ts.fn? id with
    | none => []
    | some d =>
      let noValue : List Finding :=
        if usedAsValue && d.result.isNone then [.noValue d.name] else []
      if args.length != d.params.length then
        ck.reportAll pos subject (noValue ++ [.argumentCount d.name d.params.length args.length])
      else
        ck.reportAll pos subject noValue ++ ck.argumentReports pos d.name 1 args d.params

mutual

def expr (ck : Checker) (pos : Pos) : Expr → List Report
  | .const _ => []
  | e@(.binary l op r) =>
    ck.expr pos l ++ ck.expr pos r ++ ck.reportAll pos (.expression e) (ck.binaryFinding l op r).toList
  | e@(.unary op x) =>
    ck.expr pos x ++ ck.reportAll pos (.expression e) (ck.unaryFinding op x).toList
  | e@(.call fn args) => ck.exprs pos args ++ ck.callReports pos (.expression e) fn args true
  | e@(.element v i) =>
    ck.expr pos i ++ ck.reportAll pos (.expression e) (ck.indexFindings i ++ ck.accessFindings v true)
  | e@(.funRef fn) =>
    match fn with
    | .unresolved n => ck.reportAll pos (.expression e) [.undeclared n]
    | .resolved _ => []
  | e@(.var v) => ck.reportAll pos (.expression e) (ck.accessFindings v false)
  | .paren x => ck.expr pos x

def exprs (ck : Checker) (pos : Pos) : List Expr → List Report
  | [] => []
  | e :: es => ck.expr pos e ++ ck.exprs pos es

end

def accessReports (ck : Checker) (pos : Pos) (subject : Subject) (v : Ref VarId)
    (index : Option Expr) : List Report :=
  let indexReports := match index with
    | some i => ck.expr pos i ++ ck.reportAll pos subject (ck.indexFindings i)
    | none => []
  indexReports ++ ck.reportAll pos subject (ck.accessFindings v index.isSome)

/-- A value that cannot be stored in `name` of type `target`; an undeclared target type is
reported with its declaration instead. -/
def assignmentFindings (ck : Checker) (name : String) (target : Ref TypeId) (value : Expr) :
    List Finding :=
  match target, ck.ts.valueType value with
  | .resolved _, some t =>
    if ck.ts.assignable target t then []
    else [.cannotAssign (ck.ts.typeRefName t) name (ck.ts.typeRefName target)]
  | _, _ => []

end Checker

end Jass
