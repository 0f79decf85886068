import Jass.Destructors
import Jass.Check.Report
import Jass.Symbols
/-!
# Leaks

A global or local whose type has destructors *leaks* unless some call statement of the
program passes it, as the only argument and by name (`v` or `v[i]`), to one of them. The scan
is syntactic: calls inside expressions, and handles forwarded through other functions, are not
followed. Parameters are never candidates.
-/

namespace Jass

mutual

def Stmt.calls : Stmt → List (Ref FunId × List Expr)
  | .call fn args => [(fn, args)]
  | .ifThen _ thenBody elseIfs elseBody =>
    let elseCalls := match elseBody with
      | some body => Stmt.blockCalls body
      | none => []
    Stmt.blockCalls thenBody ++ Stmt.elseIfCalls elseIfs ++ elseCalls
  | .loop body => Stmt.blockCalls body
  | .debug inner => inner.calls
  | .set .. | .exitWhen _ | .ret _ => []

def Stmt.blockCalls : List Statement → List (Ref FunId × List Expr)
  | [] => []
  | ⟨_, s⟩ :: rest => s.calls ++ Stmt.blockCalls rest

def Stmt.elseIfCalls : List (Expr × List Statement) → List (Ref FunId × List Expr)
  | [] => []
  | (_, body) :: rest => Stmt.blockCalls body ++ Stmt.elseIfCalls rest

end

namespace Tables

def varTypeName (ts : Tables) (id : VarId) : String :=
  ((ts.var? id).map fun d => ts.typeRefName d.type).getD ""

/-- The variable a call releases: its only argument names a declared variable, and the
function is a destructor of the variable's type. -/
def destroyedBy (ts : Tables) (d : Destructors) (fn : Ref FunId) (args : List Expr) :
    Option VarId :=
  let target : Option VarId := match args with
    | [.var (.resolved id)] => some id
    | [.element (.resolved id) _] => some id
    | _ => none
  target.bind fun id =>
    if d.isDestructor (ts.varTypeName id) (ts.funRefName fn) then some id else none

/-- Globals and locals of the files whose type has destructors, in declaration order, with the
path of the declaring file. -/
def leakCandidates (ts : Tables) (d : Destructors) (files : List File) :
    List (VarId × String) :=
  files.flatMap fun f =>
    (f.globals.map (·.var) ++ f.functions.flatMap (·.locals)).filterMap fun id =>
      if (d.forType (ts.varTypeName id)).isEmpty then none else some (id, f.path)

/-- Every call statement in the function bodies of the files, in order. -/
def programCalls (files : List File) : List (Ref FunId × List Expr) :=
  files.flatMap fun f => f.functions.flatMap fun fn => Stmt.blockCalls fn.body

/-- Takes off `pending` each variable a call destroys, call by call, and stops as soon as
nothing is pending. -/
def scanCalls (ts : Tables) (d : Destructors) (pending : Std.HashSet VarId) :
    List (Ref FunId × List Expr) → Std.HashSet VarId
  | [] => pending
  | (callee, args) :: rest =>
    if pending.isEmpty then pending
    else
      match ts.destroyedBy d callee args with
      | some id => scanCalls ts d (pending.erase id) rest
      | none => scanCalls ts d pending rest

/-- The candidates that no call of the program destroys, with their files. -/
def leaks (ts : Tables) (d : Destructors) (files : List File) : List (VarId × String) :=
  let candidates := ts.leakCandidates d files
  let pending := ts.scanCalls d (Std.HashSet.ofList (candidates.map (·.1))) (programCalls files)
  candidates.filter fun (id, _) => pending.contains id

def leakReports (ts : Tables) (d : Destructors) (files : List File) : List Report :=
  (ts.leaks d files).filterMap fun (id, file) =>
    (ts.var? id).map fun v =>
      let type := ts.typeRefName v.type
      ⟨.variable id, .neverDestroyed v.name type (d.forType type), file, v.pos⟩

end Tables

end Jass
