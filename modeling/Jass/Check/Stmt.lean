import Jass.Check.Expr
/-!
# Checking statements

Every report of a statement, its expressions included, stands at the statement's position; an
`if` reports its conditions at its own position and the statements of its branches at theirs.
A statement is reported about as a whole (`Subject.statement`), except for its expressions'
own findings.

Beyond its expressions, a statement can assign to a constant global or assign a value of the
wrong type, test a condition that is not boolean, or return in a way its function's signature
does not allow.
-/

namespace Jass

namespace Checker

def conditionFindings (ck : Checker) (cond : Expr) : List Finding :=
  match ck.ts.operandCategory cond with
  | some cat =>
    if !cat.isEmpty && !cat.contains .boolean then [.nonBooleanCondition cat.describe] else []
  | none => []

def returnFindings (ck : Checker) (fn : FunDecl) (value : Option Expr) : List Finding :=
  match fn.result, value with
  | none, none => []
  | none, some _ => [.valueReturnedFromNothing]
  | some t, none => [.missingReturnValue fn.name (ck.ts.typeRefName t)]
  | some t, some v =>
    match ck.ts.valueType v with
    | none => []
    | some vt =>
      match t with
      | .unresolved _ => []
      | .resolved _ =>
        if ck.ts.assignable t vt then []
        else [.returnTypeMismatch fn.name (ck.ts.typeRefName t) (ck.ts.typeRefName vt)]

/-- The findings of `set v = value` about the variable, once it is declared: assigning to a
constant global, and the value's type. -/
def setFindings (ck : Checker) (v : Ref VarId) (value : Expr) : List Finding :=
  match v with
  | .unresolved _ => []
  | .resolved id =>
    match ck.ts.var? id with
    | none => []
    | some d =>
      (if ck.constants.contains id then [.assignToConstant d.name] else []) ++
        ck.assignmentFindings d.name d.type value

mutual

def stmt (ck : Checker) (fn : FunDecl) (pos : Pos) : Stmt → List Report
  | .set v index value =>
    ck.accessReports pos .statement v index ++ ck.expr pos value ++
      ck.reportAll pos .statement (ck.setFindings v value)
  | .call f args => ck.exprs pos args ++ ck.callReports pos .statement f args false
  | .ifThen cond thenBody elseIfs elseBody =>
    let elseReports := match elseBody with
      | some body => ck.block fn body
      | none => []
    ck.expr pos cond ++ ck.reportAll pos .statement (ck.conditionFindings cond) ++
      ck.block fn thenBody ++ ck.elseIfs fn pos elseIfs ++ elseReports
  | .loop body => ck.block fn body
  | .exitWhen cond => ck.expr pos cond ++ ck.reportAll pos .statement (ck.conditionFindings cond)
  | .ret value =>
    let valueReports := match value with
      | some v => ck.expr pos v
      | none => []
    valueReports ++ ck.reportAll pos .statement (ck.returnFindings fn value)
  | .debug inner => ck.stmt fn pos inner

def block (ck : Checker) (fn : FunDecl) : List Statement → List Report
  | [] => []
  | ⟨pos, s⟩ :: rest => ck.stmt fn pos s ++ ck.block fn rest

def elseIfs (ck : Checker) (fn : FunDecl) (pos : Pos) : List (Expr × List Statement) → List Report
  | [] => []
  | (cond, body) :: rest =>
    ck.expr pos cond ++ ck.reportAll pos .statement (ck.conditionFindings cond) ++
      ck.block fn body ++ ck.elseIfs fn pos rest

end

end Checker

end Jass
