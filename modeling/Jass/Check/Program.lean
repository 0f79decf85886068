import Jass.Check.Stmt
import Jass.Check.Leaks
/-!
# Checking a program

`Tables.check` runs every check over the files of a program, file by file: first the
declarations (types, globals, natives, in that order), then each function's signature, locals
and body. The leak reports of the whole program come last.

A declaration is reported at its own position and about itself; a type declaration whose
parent was never declared, and a signature with an undeclared parameter or result type, are
reported too.
-/

namespace Jass

namespace Checker

def signatureFindings (d : FunDecl) : List Finding :=
  let paramFindings := d.params.filterMap fun p =>
    match p.type with
    | .unresolved n => some (Finding.undeclared n)
    | .resolved _ => none
  let resultFindings := match d.result with
    | some (.unresolved n) => [Finding.undeclared n]
    | _ => []
  paramFindings ++ resultFindings

/-- The reports of a variable declaration about `subject`: an undeclared type, then an
initializer on an array, the initializer's own reports, and its type. -/
def varDeclReports (ck : Checker) (subject : Subject) (d : VarDecl) : List Report :=
  let typeFindings := match d.type with
    | .unresolved n => [Finding.undeclared n]
    | .resolved _ => []
  let initReports := match d.init with
    | some e =>
      ck.reportAll d.pos subject (if d.isArray then [.arrayWithInitializer d.name] else []) ++
        ck.expr d.pos e ++ ck.reportAll d.pos subject (ck.assignmentFindings d.name d.type e)
    | none => []
  ck.reportAll d.pos subject typeFindings ++ initReports

def typeDeclReports (ck : Checker) (id : TypeId) : List Report :=
  match ck.ts.type? id with
  | some d =>
    match d.parent with
    | some (.unresolved p) => ck.reportAll (d.pos.getD ⟨0, 0⟩) (.typeDecl id) [.undeclared p]
    | _ => []
  | none => []

def globalReports (ck : Checker) (g : Global) : List Report :=
  match ck.ts.var? g.var with
  | some d =>
    ck.reportAll d.pos (.global g)
        (if g.isConstant && d.init.isNone then [.constantWithoutValue d.name] else []) ++
      ck.varDeclReports (.global g) d
  | none => []

def nativeReports (ck : Checker) (n : Native) : List Report :=
  match ck.ts.fn? n.fn with
  | some d => ck.reportAll d.pos (.native n) (signatureFindings d)
  | none => []

def functionReports (ck : Checker) (f : FunctionDef) : List Report :=
  match ck.ts.fn? f.fn with
  | some d =>
    ck.reportAll d.pos (.function f.fn) (signatureFindings d) ++
      f.locals.flatMap (fun id =>
        match ck.ts.var? id with
        | some v => ck.varDeclReports (.variable id) v
        | none => []) ++
      ck.block d f.body
  | none => []

def fileReports (ck : Checker) (f : File) : List Report :=
  f.types.flatMap ck.typeDeclReports ++ f.globals.flatMap ck.globalReports ++
    f.natives.flatMap ck.nativeReports ++ f.functions.flatMap ck.functionReports

end Checker

def constantGlobals (files : List File) : List VarId :=
  files.flatMap fun f => (f.globals.filter (·.isConstant)).map (·.var)

/-- Every report of a program: each file's checks in order, then the leaks. -/
def Tables.check (ts : Tables) (d : Destructors) (files : List File) : List Report :=
  let constants := constantGlobals files
  files.flatMap (fun f => Checker.fileReports ⟨ts, f.path, constants⟩ f) ++
    ts.leakReports d files

end Jass
