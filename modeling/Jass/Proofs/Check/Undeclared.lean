import Mathlib
import Jass.Session
import Jass.Proofs.Refs
/-!
# Every unresolved name is reported once

A name that was not declared when its file was parsed stays in the tree as an unresolved
reference (`Ref.unresolved`). The checker reports each of them once, as an undeclared
identifier, wherever it stands: a type's parent, a variable's or a parameter's type, a
function's result, and the variables, arrays, functions and `function` references of every
expression and statement. No other finding has that message. So for every name, the reports of
a program that call it undeclared are exactly as many as its unresolved references
(`undeclared_reports_count_unresolved_refs`).

The checker reads the declarations of a file through the tables, by the handles the file holds,
and so does the list of references counted here (`Tables.declaredRefs`); in every session a run
of parses reaches, each of those handles names a declaration (`Session.HandlesValid`).
-/

namespace Jass

def AnyRef.undeclared? : AnyRef → Option String
  | .type (.unresolved n) | .var (.unresolved n) | .fn (.unresolved n) => some n
  | _ => none

def Finding.undeclared? : Finding → Option String
  | .undeclared n => some n
  | _ => none

def AnyRef.unresolvedNames (rs : List AnyRef) : List String := rs.filterMap AnyRef.undeclared?

def Report.undeclaredNames (rs : List Report) : List String :=
  rs.filterMap (·.finding.undeclared?)

namespace Tables

variable (ts : Tables)

def typeDeclRefs (id : TypeId) : List AnyRef := ((ts.type? id).map TypeDecl.refs).getD []

def varDeclRefs (id : VarId) : List AnyRef := ((ts.var? id).map VarDecl.refs).getD []

def funDeclRefs (id : FunId) : List AnyRef := ((ts.fn? id).map FunDecl.refs).getD []

/-- A function's signature, locals and body; a function whose signature is missing is not
checked, so none of them counts. -/
def functionRefs (f : FunctionDef) : List AnyRef :=
  ((ts.fn? f.fn).map fun d => d.refs ++ f.locals.flatMap ts.varDeclRefs ++ Stmt.blockRefs f.body).getD []

/-- The references of a file's declarations: each type's parent, each global's type and
initializer, each native's signature, and each function's signature, locals and body. -/
def declaredRefs (f : File) : List AnyRef :=
  f.types.flatMap ts.typeDeclRefs ++ f.globals.flatMap (ts.varDeclRefs ·.var) ++
    f.natives.flatMap (ts.funDeclRefs ·.fn) ++ f.functions.flatMap ts.functionRefs

end Tables

namespace AnyRef

@[simp] theorem unresolvedNames_nil : unresolvedNames [] = [] := rfl

@[simp] theorem unresolvedNames_cons (r : AnyRef) (rs : List AnyRef) :
    unresolvedNames (r :: rs) = r.undeclared?.toList ++ unresolvedNames rs := by
  cases h : r.undeclared? <;> simp [unresolvedNames, h]

@[simp] theorem unresolvedNames_append (rs rs' : List AnyRef) :
    unresolvedNames (rs ++ rs') = unresolvedNames rs ++ unresolvedNames rs' :=
  List.filterMap_append

theorem unresolvedNames_flatMap {α : Type} (l : List α) (f : α → List AnyRef) :
    unresolvedNames (l.flatMap f) = l.flatMap fun a => unresolvedNames (f a) :=
  List.filterMap_flatMap

end AnyRef

namespace Report

@[simp] theorem undeclaredNames_nil : undeclaredNames [] = [] := rfl

@[simp] theorem undeclaredNames_append (rs rs' : List Report) :
    undeclaredNames (rs ++ rs') = undeclaredNames rs ++ undeclaredNames rs' :=
  List.filterMap_append

theorem undeclaredNames_flatMap {α : Type} (l : List α) (f : α → List Report) :
    undeclaredNames (l.flatMap f) = l.flatMap fun a => undeclaredNames (f a) :=
  List.filterMap_flatMap

end Report

/-! ## The message -/

theorem Finding.message_head (f : Finding) (hf : f.undeclared? = none) :
    f.message.toList.head? ≠ some 'u' := by
  cases f
  case undeclared n => simp [undeclared?] at hf
  all_goals dsimp only [Finding.message]
  all_goals simp [toString]

theorem Finding.message_eq_undeclared {f : Finding} {n : String} :
    f.message = s!"undeclared identifier '{n}'" ↔ f.undeclared? = some n := by
  cases hf : f.undeclared? with
  | none =>
    have hu : (s!"undeclared identifier '{n}'").toList.head? = some 'u' := by
      simp [toString, String.toList_append]
    simp only [reduceCtorEq, iff_false]
    intro h
    exact f.message_head hf (h ▸ hu)
  | some m =>
    obtain rfl : f = .undeclared m := by
      cases f <;> simp_all [undeclared?]
    show "undeclared identifier '" ++ m ++ "'" = "undeclared identifier '" ++ n ++ "'" ↔ some m = some n
    rw [String.append_left_inj, String.append_right_inj, Option.some.injEq]

/-! ## The checks, one by one -/

namespace Checker

variable (ck : Checker)

section

variable (pos : Pos)

@[simp] theorem undeclaredNames_reportAll (subject : Subject) (fs : List Finding) :
    Report.undeclaredNames (ck.reportAll pos subject fs) = fs.filterMap Finding.undeclared? := by
  simp only [Report.undeclaredNames, reportAll, List.filterMap_map]
  rfl

/-! Findings about operands, indices, values and signatures never call a name undeclared. -/

@[simp] theorem binaryFinding_undeclared (l : Expr) (op : BinOp) (r : Expr) :
    (ck.binaryFinding l op r).toList.filterMap Finding.undeclared? = [] := by
  unfold binaryFinding
  split
  · split
    · rfl
    · dsimp only
      split_ifs <;> rfl
  · rfl

@[simp] theorem unaryFinding_undeclared (op : UnOp) (x : Expr) :
    (ck.unaryFinding op x).toList.filterMap Finding.undeclared? = [] := by
  unfold unaryFinding
  split
  · rfl
  · dsimp only
    split_ifs <;> rfl

@[simp] theorem indexFindings_undeclared (i : Expr) :
    (ck.indexFindings i).filterMap Finding.undeclared? = [] := by
  simp only [indexFindings, List.filterMap_append, List.append_eq_nil_iff]
  constructor
  · split
    · split_ifs <;> rfl
    · rfl
  · split
    · split_ifs <;> rfl
    · rfl

@[simp] theorem argumentReports_undeclared (fn : String) (k : Nat) (args : List Expr)
    (ps : List Param) : Report.undeclaredNames (ck.argumentReports pos fn k args ps) = [] := by
  fun_induction ck.argumentReports pos fn k args ps with
  | case1 k a args p ps here ih =>
    simp only [Report.undeclaredNames_append, ih, List.append_nil, here]
    split
    · split_ifs <;> rfl
    · rfl
  | case2 => rfl

@[simp] theorem assignmentFindings_undeclared (name : String) (target : Ref TypeId) (value : Expr) :
    (ck.assignmentFindings name target value).filterMap Finding.undeclared? = [] := by
  unfold assignmentFindings
  split
  · split_ifs <;> rfl
  · rfl

@[simp] theorem conditionFindings_undeclared (cond : Expr) :
    (ck.conditionFindings cond).filterMap Finding.undeclared? = [] := by
  unfold conditionFindings
  split
  · split_ifs <;> rfl
  · rfl

@[simp] theorem returnFindings_undeclared (fn : FunDecl) (value : Option Expr) :
    (ck.returnFindings fn value).filterMap Finding.undeclared? = [] := by
  unfold returnFindings
  split
  any_goals rfl
  split
  · rfl
  · split
    · rfl
    · split_ifs <;> rfl

@[simp] theorem setFindings_undeclared (v : Ref VarId) (value : Expr) :
    (ck.setFindings v value).filterMap Finding.undeclared? = [] := by
  unfold setFindings
  split
  · rfl
  · split
    · rfl
    · simp only [List.filterMap_append, assignmentFindings_undeclared, List.append_nil]
      split_ifs <;> rfl

/-! An unresolved variable, array or function is reported by the access or the call itself. -/

@[simp] theorem accessFindings_undeclared (v : Ref VarId) (indexed : Bool) :
    (ck.accessFindings v indexed).filterMap Finding.undeclared? = AnyRef.unresolvedNames [.var v] := by
  unfold accessFindings
  split
  · rfl
  · split
    · split_ifs <;> rfl
    · rfl

@[simp] theorem callReports_undeclared (subject : Subject) (fn : Ref FunId) (args : List Expr)
    (usedAsValue : Bool) :
    Report.undeclaredNames (ck.callReports pos subject fn args usedAsValue) =
      AnyRef.unresolvedNames [.fn fn] := by
  unfold callReports
  split
  · rfl
  · split
    · rfl
    · split_ifs <;> simp [Finding.undeclared?, AnyRef.undeclared?]

/-! ## Expressions and statements -/

mutual

theorem expr_undeclared : ∀ e : Expr,
    (Report.undeclaredNames (ck.expr pos e)).Perm (AnyRef.unresolvedNames e.refs)
  | .const _ => by simp [expr, Expr.refs]
  | .binary l op r => by
    simp only [expr, Expr.refs, Report.undeclaredNames_append, undeclaredNames_reportAll,
      binaryFinding_undeclared, AnyRef.unresolvedNames_append, List.append_nil]
    exact (expr_undeclared l).append (expr_undeclared r)
  | .unary op x => by
    simp only [expr, Expr.refs, Report.undeclaredNames_append, undeclaredNames_reportAll,
      unaryFinding_undeclared, List.append_nil]
    exact expr_undeclared x
  | .call fn args => by
    simp only [expr, Expr.refs, Report.undeclaredNames_append, callReports_undeclared,
      AnyRef.unresolvedNames_cons, AnyRef.unresolvedNames_nil, List.append_nil]
    -- the call is reported after its arguments, but referenced before them
    exact ((exprs_undeclared args).append (.refl _)).trans List.perm_append_comm
  | .element v i => by
    simp only [expr, Expr.refs, Report.undeclaredNames_append, undeclaredNames_reportAll,
      List.filterMap_append, indexFindings_undeclared, accessFindings_undeclared,
      AnyRef.unresolvedNames_cons, AnyRef.unresolvedNames_nil, List.append_nil, List.nil_append]
    exact ((expr_undeclared i).append (.refl _)).trans List.perm_append_comm
  | .funRef fn => by
    cases fn <;> simp [expr, Expr.refs, Finding.undeclared?, AnyRef.undeclared?]
  | .var v => by
    simp only [expr, Expr.refs, undeclaredNames_reportAll, accessFindings_undeclared]
    exact .refl _
  | .paren x => by
    simpa only [expr, Expr.refs] using expr_undeclared x

theorem exprs_undeclared : ∀ es : List Expr,
    (Report.undeclaredNames (ck.exprs pos es)).Perm (AnyRef.unresolvedNames (Expr.listRefs es))
  | [] => by simp [exprs]
  | e :: es => by
    simp only [exprs, Expr.listRefs_cons, Report.undeclaredNames_append,
      AnyRef.unresolvedNames_append]
    exact (expr_undeclared e).append (exprs_undeclared es)

end

theorem accessReports_undeclared (subject : Subject) (v : Ref VarId) (index : Option Expr) :
    Report.undeclaredNames (ck.accessReports pos subject v index) =
      Report.undeclaredNames ((index.map (ck.expr pos)).getD []) ++
        AnyRef.unresolvedNames [.var v] := by
  cases index <;> simp [accessReports]

end

mutual

theorem stmt_undeclared (fn : FunDecl) : ∀ (pos : Pos) (st : Stmt),
    (Report.undeclaredNames (ck.stmt fn pos st)).Perm (AnyRef.unresolvedNames st.refs)
  | pos, .set v index value => by
    have hindex : (Report.undeclaredNames ((index.map (ck.expr pos)).getD [])).Perm
        (AnyRef.unresolvedNames ((index.map Expr.refs).getD [])) := by
      cases index <;> simp [ck.expr_undeclared pos]
    simp only [stmt, Stmt.refs, Report.undeclaredNames_append, accessReports_undeclared,
      undeclaredNames_reportAll, setFindings_undeclared, AnyRef.unresolvedNames_cons,
      AnyRef.unresolvedNames_nil, AnyRef.unresolvedNames_append, List.append_nil]
    -- the variable is reported after its index, but referenced before it
    refine (List.perm_append_comm.append_right _).trans ?_
    rw [List.append_assoc]
    exact (hindex.append (ck.expr_undeclared pos value)).append_left _
  | pos, .call f args => by
    simp only [stmt, Stmt.refs, Report.undeclaredNames_append, callReports_undeclared,
      AnyRef.unresolvedNames_cons, AnyRef.unresolvedNames_nil, List.append_nil]
    exact ((ck.exprs_undeclared pos args).append (.refl _)).trans List.perm_append_comm
  | pos, .ifThen cond thenBody elseIfs none => by
    simp only [stmt, Stmt.refs, Report.undeclaredNames_append, undeclaredNames_reportAll,
      conditionFindings_undeclared, AnyRef.unresolvedNames_append, List.append_nil]
    exact ((ck.expr_undeclared pos cond).append (block_undeclared fn thenBody)).append
      (elseIfs_undeclared fn pos elseIfs)
  | pos, .ifThen cond thenBody elseIfs (some body) => by
    simp only [stmt, Stmt.refs, Report.undeclaredNames_append, undeclaredNames_reportAll,
      conditionFindings_undeclared, AnyRef.unresolvedNames_append, List.append_nil]
    exact (((ck.expr_undeclared pos cond).append (block_undeclared fn thenBody)).append
      (elseIfs_undeclared fn pos elseIfs)).append (block_undeclared fn body)
  | pos, .loop body => by
    simpa only [stmt, Stmt.refs] using block_undeclared fn body
  | pos, .exitWhen cond => by
    simpa only [stmt, Stmt.refs, Report.undeclaredNames_append, undeclaredNames_reportAll,
      conditionFindings_undeclared, List.append_nil] using ck.expr_undeclared pos cond
  | pos, .ret none => by
    simp [stmt, Stmt.refs]
  | pos, .ret (some v) => by
    simpa only [stmt, Stmt.refs, Report.undeclaredNames_append, undeclaredNames_reportAll,
      returnFindings_undeclared, List.append_nil, Option.map_some, Option.getD_some]
      using ck.expr_undeclared pos v
  | pos, .debug inner => by
    simpa only [stmt, Stmt.refs] using stmt_undeclared fn pos inner

theorem block_undeclared (fn : FunDecl) : ∀ body : List Statement,
    (Report.undeclaredNames (ck.block fn body)).Perm (AnyRef.unresolvedNames (Stmt.blockRefs body))
  | [] => by simp [block]
  | ⟨pos, st⟩ :: rest => by
    simp only [block, Stmt.blockRefs_cons, Report.undeclaredNames_append,
      AnyRef.unresolvedNames_append]
    exact (stmt_undeclared fn pos st).append (block_undeclared fn rest)

theorem elseIfs_undeclared (fn : FunDecl) : ∀ (pos : Pos) (branches : List (Expr × List Statement)),
    (Report.undeclaredNames (ck.elseIfs fn pos branches)).Perm
      (AnyRef.unresolvedNames (Stmt.elseIfRefs branches))
  | pos, [] => by simp [elseIfs]
  | pos, (cond, body) :: rest => by
    simp only [elseIfs, Stmt.elseIfRefs_cons, Report.undeclaredNames_append,
      undeclaredNames_reportAll, conditionFindings_undeclared, AnyRef.unresolvedNames_append,
      List.append_nil]
    exact ((ck.expr_undeclared pos cond).append (block_undeclared fn body)).append
      (elseIfs_undeclared fn pos rest)

end

/-! ## Declarations -/

theorem signatureFindings_undeclared (d : FunDecl) :
    (signatureFindings d).filterMap Finding.undeclared? = AnyRef.unresolvedNames d.refs := by
  simp only [signatureFindings, FunDecl.refs, List.filterMap_append, List.filterMap_filterMap,
    AnyRef.unresolvedNames_append]
  congr 1
  · rw [AnyRef.unresolvedNames, List.filterMap_map]
    refine List.filterMap_congr fun p _ => ?_
    rcases p with ⟨_ | _, _⟩ <;> rfl
  · rcases d.result with _ | _ | _ <;> rfl

theorem varDeclReports_undeclared (subject : Subject) (d : VarDecl) :
    (Report.undeclaredNames (ck.varDeclReports subject d)).Perm (AnyRef.unresolvedNames d.refs) := by
  rcases d with ⟨type, isArray, name, _ | e, pos⟩
  · cases type <;> simp [varDeclReports, VarDecl.refs, Finding.undeclared?, AnyRef.undeclared?]
  · have hinit : (if isArray = true then [Finding.arrayWithInitializer name] else []).filterMap
        Finding.undeclared? = [] := by
      split_ifs <;> rfl
    simp only [varDeclReports, VarDecl.refs, Report.undeclaredNames_append,
      undeclaredNames_reportAll, hinit, assignmentFindings_undeclared, AnyRef.unresolvedNames_cons,
      Option.map_some, Option.getD_some, List.nil_append, List.append_nil]
    refine List.Perm.append ?_ (ck.expr_undeclared pos e)
    cases type <;> rfl

theorem typeDeclReports_undeclared (id : TypeId) :
    Report.undeclaredNames (ck.typeDeclReports id) = AnyRef.unresolvedNames (ck.ts.typeDeclRefs id) := by
  unfold typeDeclReports Tables.typeDeclRefs
  split
  · next d hd =>
    rcases hp : d.parent with _ | _ | p <;> simp [hd, hp, TypeDecl.refs, Finding.undeclared?,
      AnyRef.undeclared?]
  · next hd => simp [hd]

theorem globalReports_undeclared (g : Global) :
    (Report.undeclaredNames (ck.globalReports g)).Perm
      (AnyRef.unresolvedNames (ck.ts.varDeclRefs g.var)) := by
  unfold globalReports Tables.varDeclRefs
  split
  · next d hd =>
    have hconst : (if g.isConstant && d.init.isNone then [Finding.constantWithoutValue d.name]
        else []).filterMap Finding.undeclared? = [] := by
      split_ifs <;> rfl
    simp only [hd, Option.map_some, Option.getD_some, Report.undeclaredNames_append,
      undeclaredNames_reportAll, hconst, List.nil_append]
    exact ck.varDeclReports_undeclared _ d
  · next hd => simp [hd]

theorem nativeReports_undeclared (n : Native) :
    Report.undeclaredNames (ck.nativeReports n) = AnyRef.unresolvedNames (ck.ts.funDeclRefs n.fn) := by
  unfold nativeReports Tables.funDeclRefs
  split
  · next d hd => simp [hd, signatureFindings_undeclared]
  · next hd => simp [hd]

theorem functionReports_undeclared (f : FunctionDef) :
    (Report.undeclaredNames (ck.functionReports f)).Perm
      (AnyRef.unresolvedNames (ck.ts.functionRefs f)) := by
  unfold functionReports Tables.functionRefs
  split
  · next d hd =>
    simp only [hd, Option.map_some, Option.getD_some, Report.undeclaredNames_append,
      undeclaredNames_reportAll, signatureFindings_undeclared, AnyRef.unresolvedNames_append,
      Report.undeclaredNames_flatMap, AnyRef.unresolvedNames_flatMap]
    refine ((List.Perm.refl _).append (List.Perm.flatMap_left _ fun id _ => ?_)).append
      (ck.block_undeclared d f.body)
    unfold Tables.varDeclRefs
    split
    · next v hv =>
      simpa [hv] using ck.varDeclReports_undeclared (.variable id) v
    · next hv => simp [hv]
  · next hd => simp [hd]

theorem fileReports_undeclared (f : File) :
    (Report.undeclaredNames (ck.fileReports f)).Perm
      (AnyRef.unresolvedNames (ck.ts.declaredRefs f)) := by
  simp only [fileReports, Tables.declaredRefs, Report.undeclaredNames_append,
    Report.undeclaredNames_flatMap, AnyRef.unresolvedNames_append, AnyRef.unresolvedNames_flatMap]
  refine (((List.Perm.of_eq ?_).append ?_).append (List.Perm.of_eq ?_)).append ?_
  · exact List.flatMap_congr fun id _ => ck.typeDeclReports_undeclared id
  · exact List.Perm.flatMap_left _ fun g _ => ck.globalReports_undeclared g
  · exact List.flatMap_congr fun n _ => ck.nativeReports_undeclared n
  · exact List.Perm.flatMap_left _ fun fd _ => ck.functionReports_undeclared fd

end Checker

theorem Tables.leakReports_undeclared (ts : Tables) (d : Destructors) (files : List File) :
    Report.undeclaredNames (ts.leakReports d files) = [] := by
  simp [Report.undeclaredNames, leakReports, List.filterMap_filterMap, List.filterMap_eq_nil_iff,
    Finding.undeclared?]

theorem Tables.check_undeclared (ts : Tables) (d : Destructors) (files : List File) :
    (Report.undeclaredNames (ts.check d files)).Perm
      (AnyRef.unresolvedNames (files.flatMap ts.declaredRefs)) := by
  simp only [Tables.check, Report.undeclaredNames_append, Report.undeclaredNames_flatMap,
    ts.leakReports_undeclared, List.append_nil, AnyRef.unresolvedNames_flatMap]
  exact List.Perm.flatMap_left _ fun f _ =>
    Checker.fileReports_undeclared ⟨ts, f.path, constantGlobals files⟩ f

/-- For every name, a program has as many reports with the message that the name is an
undeclared identifier as its files' declarations have unresolved references to that name. -/
theorem undeclared_reports_count_unresolved_refs (s : Session) (n : String) :
    s.check.countP (fun r => r.finding.message == s!"undeclared identifier '{n}'") =
      (s.files.flatMap s.tables.declaredRefs).countP (fun r => r.undeclared? == some n) := by
  have hmsg : ∀ r : Report, (r.finding.message == s!"undeclared identifier '{n}'") =
      (r.finding.undeclared? == some n) := by
    intro r
    rw [Bool.eq_iff_iff, beq_iff_eq, beq_iff_eq]
    exact Finding.message_eq_undeclared
  calc s.check.countP (fun r => r.finding.message == s!"undeclared identifier '{n}'")
      = s.check.countP (fun r => r.finding.undeclared? == some n) := by simp only [hmsg]
    _ = (Report.undeclaredNames s.check).count n := List.count_filterMap.symm
    _ = (AnyRef.unresolvedNames (s.files.flatMap s.tables.declaredRefs)).count n :=
        (s.tables.check_undeclared s.destructors s.files).count_eq n
    _ = (s.files.flatMap s.tables.declaredRefs).countP (fun r => r.undeclared? == some n) :=
        List.count_filterMap

end Jass
