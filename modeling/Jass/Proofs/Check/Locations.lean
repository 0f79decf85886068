import Mathlib
import Jass.Proofs.Leaks
/-!
# Where reports stand

The checker reports at a fixed set of places in each file, its *sites* (`File.sites`): every
type, global and native declaration, every function signature and local, and in function
bodies every simple statement (`set`, `call`, `return`) and every condition (of an `if`, an
`elseif` or an `exitwhen`). A site in a body stands at the innermost statement around it. The
conditions of an `if` and of its `elseif`s stand at the `if` itself, not at the last statement
of the branch before them, and the statement under a `debug` stands at the `debug`.

The reports of a program are the reports of its files' sites, site by site, and then the leaks
(`Tables.check_eq_sites`). Each report of a site carries the checked file and the site's
position, and is about the site itself or about an expression inside it
(`Checker.siteReports_at`); a leak is reported in the file that declares the variable, at its
declaration (`Tables.leakReports_at`).
-/

namespace Jass

mutual

def Expr.subterms : Expr → List Expr
  | .const c => [.const c]
  | .binary l op r => .binary l op r :: (l.subterms ++ r.subterms)
  | .unary op x => .unary op x :: x.subterms
  | .call fn args => .call fn args :: Expr.listSubterms args
  | .element v i => .element v i :: i.subterms
  | .funRef fn => [.funRef fn]
  | .var v => [.var v]
  | .paren x => .paren x :: x.subterms

def Expr.listSubterms : List Expr → List Expr
  | [] => []
  | e :: es => e.subterms ++ Expr.listSubterms es

end

def Subject.Within (s : Subject) (e : Expr) : Prop := ∃ e' ∈ e.subterms, s = .expression e'

/-- A place the checker reports at. The sites of a function body carry the function's
declaration, which the checks of a `return` read. -/
inductive Site where
  | typeDecl (id : TypeId)
  | global (g : Global)
  | native (n : Native)
  | signature (fn : FunId)
  | localVar (id : VarId)
  | set (fn : FunDecl) (pos : Pos) (v : Ref VarId) (index : Option Expr) (value : Expr)
  | call (fn : FunDecl) (pos : Pos) (f : Ref FunId) (args : List Expr)
  | ret (fn : FunDecl) (pos : Pos) (value : Option Expr)
  | condition (pos : Pos) (cond : Expr)

namespace Site

def pos (ts : Tables) : Site → Pos
  | .typeDecl id => ((ts.type? id).bind (·.pos)).getD ⟨0, 0⟩
  | .global g => ((ts.var? g.var).map (·.pos)).getD ⟨0, 0⟩
  | .native n => ((ts.fn? n.fn).map (·.pos)).getD ⟨0, 0⟩
  | .signature fn => ((ts.fn? fn).map (·.pos)).getD ⟨0, 0⟩
  | .localVar id => ((ts.var? id).map (·.pos)).getD ⟨0, 0⟩
  | .set _ pos .. | .call _ pos .. | .ret _ pos _ | .condition pos _ => pos

def subject : Site → Subject
  | .typeDecl id => .typeDecl id
  | .global g => .global g
  | .native n => .native n
  | .signature fn => .function fn
  | .localVar id => .variable id
  | .set .. | .call .. | .ret .. | .condition .. => .statement

def exprs (ts : Tables) : Site → List Expr
  | .global g => ((ts.var? g.var).bind (·.init)).toList
  | .localVar id => ((ts.var? id).bind (·.init)).toList
  | .set _ _ _ index value => index.toList ++ [value]
  | .call _ _ _ args => args
  | .ret _ _ value => value.toList
  | .condition _ cond => [cond]
  | .typeDecl _ | .native _ | .signature _ => []

end Site

mutual

/-- The sites of a statement at `pos` in the body of `fn`, in the order the checker visits
them. -/
def Stmt.sites (fn : FunDecl) (pos : Pos) : Stmt → List Site
  | .set v index value => [.set fn pos v index value]
  | .call f args => [.call fn pos f args]
  | .ifThen cond thenBody elseIfs elseBody =>
    let elseSites := match elseBody with
      | some body => Stmt.blockSites fn body
      | none => []
    .condition pos cond :: (Stmt.blockSites fn thenBody ++ Stmt.elseIfSites fn pos elseIfs ++
      elseSites)
  | .loop body => Stmt.blockSites fn body
  | .exitWhen cond => [.condition pos cond]
  | .ret value => [.ret fn pos value]
  | .debug inner => inner.sites fn pos

def Stmt.blockSites (fn : FunDecl) : List Statement → List Site
  | [] => []
  | ⟨pos, s⟩ :: rest => s.sites fn pos ++ Stmt.blockSites fn rest

/-- The `elseif` branches of an `if` at `pos`: each condition stands at the `if`. -/
def Stmt.elseIfSites (fn : FunDecl) (pos : Pos) : List (Expr × List Statement) → List Site
  | [] => []
  | (cond, body) :: rest =>
    .condition pos cond :: (Stmt.blockSites fn body ++ Stmt.elseIfSites fn pos rest)

end

/-- The sites of a file: its types, globals and natives, then each function's signature,
locals and body. A function whose handle names no declaration has none. -/
def File.sites (ts : Tables) (f : File) : List Site :=
  f.types.map .typeDecl ++ f.globals.map .global ++ f.natives.map .native ++
    f.functions.flatMap fun fd => (ts.fn? fd.fn).toList.flatMap fun d =>
      .signature fd.fn :: (fd.locals.map .localVar ++ Stmt.blockSites d fd.body)

namespace Checker

def siteReports (ck : Checker) : Site → List Report
  | .typeDecl id => ck.typeDeclReports id
  | .global g => ck.globalReports g
  | .native n => ck.nativeReports n
  | .signature fn =>
    match ck.ts.fn? fn with
    | some d => ck.reportAll d.pos (.function fn) (signatureFindings d)
    | none => []
  | .localVar id =>
    match ck.ts.var? id with
    | some v => ck.varDeclReports (.variable id) v
    | none => []
  | .set fn pos v index value => ck.stmt fn pos (.set v index value)
  | .call fn pos f args => ck.stmt fn pos (.call f args)
  | .ret fn pos value => ck.stmt fn pos (.ret value)
  | .condition pos cond =>
    ck.expr pos cond ++ ck.reportAll pos .statement (ck.conditionFindings cond)

end Checker

/-! ## Subterms -/

@[simp] theorem Expr.mem_subterms_self (e : Expr) : e ∈ e.subterms := by
  cases e <;> simp [Expr.subterms]

theorem Expr.subterms_subset_listSubterms {e : Expr} : ∀ {es : List Expr}, e ∈ es →
    e.subterms ⊆ Expr.listSubterms es
  | _ :: es, .head _ => by simp [Expr.listSubterms]
  | _ :: es, .tail _ h => by
    rw [Expr.listSubterms]
    exact fun x hx => List.mem_append_right _ (subterms_subset_listSubterms h hx)

theorem Subject.Within.mono {s : Subject} {e e' : Expr} (h : s.Within e)
    (hsub : e.subterms ⊆ e'.subterms) : s.Within e' :=
  h.imp fun _ hx => ⟨hsub hx.1, hx.2⟩

theorem Subject.within_self (e : Expr) : (Subject.expression e).Within e :=
  ⟨e, e.mem_subterms_self, rfl⟩

/-! ## Each report stands at its site -/

namespace Checker

variable (ck : Checker)

theorem mem_reportAll {pos : Pos} {subject : Subject} {fs : List Finding} {r : Report}
    (h : r ∈ ck.reportAll pos subject fs) :
    r.file = ck.file ∧ r.pos = pos ∧ r.subject = subject := by
  obtain ⟨f, -, rfl⟩ := List.mem_map.1 h
  exact ⟨rfl, rfl, rfl⟩

theorem mem_argumentReports {pos : Pos} {fn : String} {r : Report} :
    ∀ {k : Nat} {args : List Expr} {ps : List Param}, r ∈ ck.argumentReports pos fn k args ps →
      r.file = ck.file ∧ r.pos = pos ∧ ∃ a ∈ args, r.subject = .expression a
  | k, a :: args, p :: ps, h => by
    rw [argumentReports, List.mem_append] at h
    rcases h with h | h
    · -- a mismatched argument is reported about itself
      split at h
      · split_ifs at h with hok
        · cases h
        · obtain ⟨hf, hp, hs⟩ := ck.mem_reportAll h
          exact ⟨hf, hp, a, List.mem_cons_self, hs⟩
      · cases h
    · obtain ⟨hf, hp, a', ha', hs⟩ := mem_argumentReports h
      exact ⟨hf, hp, a', List.mem_cons_of_mem _ ha', hs⟩
  | _, [], _, h | _, _ :: _, [], h => by simp [argumentReports] at h

theorem mem_callReports {pos : Pos} {subject : Subject} {fn : Ref FunId} {args : List Expr}
    {usedAsValue : Bool} {r : Report} (h : r ∈ ck.callReports pos subject fn args usedAsValue) :
    r.file = ck.file ∧ r.pos = pos ∧ (r.subject = subject ∨ ∃ a ∈ args, r.subject = .expression a) := by
  unfold callReports at h
  split at h
  · obtain ⟨hf, hp, hs⟩ := ck.mem_reportAll h
    exact ⟨hf, hp, .inl hs⟩
  · split at h
    · cases h
    · next d _ =>
      dsimp only at h
      by_cases hlen : (args.length != d.params.length) = true
      · rw [if_pos hlen] at h
        obtain ⟨hf, hp, hs⟩ := ck.mem_reportAll h
        exact ⟨hf, hp, .inl hs⟩
      · rw [if_neg hlen] at h
        rcases List.mem_append.1 h with h | h
        · obtain ⟨hf, hp, hs⟩ := ck.mem_reportAll h
          exact ⟨hf, hp, .inl hs⟩
        · obtain ⟨hf, hp, hs⟩ := ck.mem_argumentReports h
          exact ⟨hf, hp, .inr hs⟩

mutual

theorem mem_expr (pos : Pos) : ∀ (e : Expr) {r : Report}, r ∈ ck.expr pos e →
    r.file = ck.file ∧ r.pos = pos ∧ r.subject.Within e
  | .const _, r, h => by simp [expr] at h
  | .binary l op r', r, h => by
    have hl : l.subterms ⊆ (Expr.binary l op r').subterms := fun x hx => by simp [Expr.subterms, hx]
    have hr : r'.subterms ⊆ (Expr.binary l op r').subterms := fun x hx => by simp [Expr.subterms, hx]
    rw [expr, List.mem_append, List.mem_append] at h
    rcases h with (h | h) | h
    · obtain ⟨hf, hp, hs⟩ := mem_expr pos l h
      exact ⟨hf, hp, hs.mono hl⟩
    · obtain ⟨hf, hp, hs⟩ := mem_expr pos r' h
      exact ⟨hf, hp, hs.mono hr⟩
    · obtain ⟨hf, hp, hs⟩ := ck.mem_reportAll h
      exact ⟨hf, hp, hs ▸ Subject.within_self _⟩
  | .unary op x, r, h => by
    have hx : x.subterms ⊆ (Expr.unary op x).subterms := fun y hy => by simp [Expr.subterms, hy]
    rw [expr, List.mem_append] at h
    rcases h with h | h
    · obtain ⟨hf, hp, hs⟩ := mem_expr pos x h
      exact ⟨hf, hp, hs.mono hx⟩
    · obtain ⟨hf, hp, hs⟩ := ck.mem_reportAll h
      exact ⟨hf, hp, hs ▸ Subject.within_self _⟩
  | .call fn args, r, h => by
    have hargs : ∀ a ∈ args, a.subterms ⊆ (Expr.call fn args).subterms := fun a ha y hy => by
      simpa [Expr.subterms] using Or.inr (Expr.subterms_subset_listSubterms ha hy)
    rw [expr, List.mem_append] at h
    rcases h with h | h
    · obtain ⟨hf, hp, a, ha, hs⟩ := mem_exprs pos args h
      exact ⟨hf, hp, hs.mono (hargs a ha)⟩
    · obtain ⟨hf, hp, hs | ⟨a, ha, hs⟩⟩ := ck.mem_callReports h
      · exact ⟨hf, hp, hs ▸ Subject.within_self _⟩
      · exact ⟨hf, hp, (hs ▸ Subject.within_self a).mono (hargs a ha)⟩
  | .element v i, r, h => by
    have hi : i.subterms ⊆ (Expr.element v i).subterms := fun y hy => by simp [Expr.subterms, hy]
    rw [expr, List.mem_append] at h
    rcases h with h | h
    · obtain ⟨hf, hp, hs⟩ := mem_expr pos i h
      exact ⟨hf, hp, hs.mono hi⟩
    · obtain ⟨hf, hp, hs⟩ := ck.mem_reportAll h
      exact ⟨hf, hp, hs ▸ Subject.within_self _⟩
  | .funRef (.unresolved n), r, h => by
    obtain ⟨hf, hp, hs⟩ := ck.mem_reportAll h
    exact ⟨hf, hp, hs ▸ Subject.within_self _⟩
  | .funRef (.resolved _), r, h => by simp [expr] at h
  | .var v, r, h => by
    obtain ⟨hf, hp, hs⟩ := ck.mem_reportAll h
    exact ⟨hf, hp, hs ▸ Subject.within_self _⟩
  | .paren x, r, h => by
    have hx : x.subterms ⊆ (Expr.paren x).subterms := fun y hy => by simp [Expr.subterms, hy]
    obtain ⟨hf, hp, hs⟩ := mem_expr pos x h
    exact ⟨hf, hp, hs.mono hx⟩

theorem mem_exprs (pos : Pos) : ∀ (es : List Expr) {r : Report}, r ∈ ck.exprs pos es →
    r.file = ck.file ∧ r.pos = pos ∧ ∃ e ∈ es, r.subject.Within e
  | [], r, h => by simp [exprs] at h
  | e :: es, r, h => by
    rw [exprs, List.mem_append] at h
    rcases h with h | h
    · obtain ⟨hf, hp, hs⟩ := mem_expr pos e h
      exact ⟨hf, hp, e, List.mem_cons_self, hs⟩
    · obtain ⟨hf, hp, e', he', hs⟩ := mem_exprs pos es h
      exact ⟨hf, hp, e', List.mem_cons_of_mem _ he', hs⟩

end

def Located (r : Report) (file : String) (pos : Pos) (subject : Subject) (es : List Expr) :
    Prop :=
  r.file = file ∧ r.pos = pos ∧ (r.subject = subject ∨ ∃ e ∈ es, r.subject.Within e)

theorem located_reportAll {pos : Pos} {subject : Subject} {fs : List Finding} {r : Report}
    (es : List Expr) (h : r ∈ ck.reportAll pos subject fs) : Located r ck.file pos subject es := by
  obtain ⟨hf, hp, hs⟩ := ck.mem_reportAll h
  exact ⟨hf, hp, .inl hs⟩

theorem located_expr {pos : Pos} {e : Expr} {es : List Expr} {r : Report} (subject : Subject)
    (he : e ∈ es) (h : r ∈ ck.expr pos e) : Located r ck.file pos subject es := by
  obtain ⟨hf, hp, hs⟩ := ck.mem_expr pos e h
  exact ⟨hf, hp, .inr ⟨e, he, hs⟩⟩

theorem located_accessReports {pos : Pos} {subject : Subject} {v : Ref VarId}
    {index : Option Expr} {r : Report} (h : r ∈ ck.accessReports pos subject v index) :
    Located r ck.file pos subject index.toList := by
  unfold accessReports at h
  rcases List.mem_append.1 h with h | h
  · cases index with
    | none => cases h
    | some i =>
      rcases List.mem_append.1 h with h | h
      · exact ck.located_expr subject (by simp) h
      · exact ck.located_reportAll _ h
  · exact ck.located_reportAll _ h

theorem located_varDeclReports {subject : Subject} {d : VarDecl} {r : Report}
    (h : r ∈ ck.varDeclReports subject d) : Located r ck.file d.pos subject d.init.toList := by
  unfold varDeclReports at h
  rcases List.mem_append.1 h with h | h
  · exact ck.located_reportAll _ h
  · cases hinit : d.init with
    | none => simp [hinit] at h
    | some e =>
      simp only [hinit, List.mem_append] at h
      rcases h with (h | h) | h
      · exact ck.located_reportAll _ h
      · exact ck.located_expr subject (by simp) h
      · exact ck.located_reportAll _ h

theorem siteReports_at (site : Site) {r : Report} (h : r ∈ ck.siteReports site) :
    Located r ck.file (site.pos ck.ts) site.subject (site.exprs ck.ts) := by
  cases site with
  | typeDecl id =>
    simp only [siteReports, typeDeclReports] at h
    cases hd : ck.ts.type? id with
    | none => simp [hd] at h
    | some d =>
      -- only a parent that was never declared is reported
      rcases hp : d.parent with _ | _ | p
      · simp [hd, hp] at h
      · simp [hd, hp] at h
      · simp only [hd, hp] at h
        simpa [Site.pos, Site.subject, Site.exprs, hd] using ck.located_reportAll [] h
  | global g =>
    simp only [siteReports, globalReports] at h
    split at h
    · next d hd =>
      rcases List.mem_append.1 h with h | h
      · simpa [Site.pos, Site.subject, Site.exprs, hd] using ck.located_reportAll d.init.toList h
      · simpa [Site.pos, Site.subject, Site.exprs, hd] using ck.located_varDeclReports h
    · cases h
  | native n =>
    simp only [siteReports, nativeReports] at h
    split at h
    · next d hd => simpa [Site.pos, Site.subject, Site.exprs, hd] using ck.located_reportAll [] h
    · cases h
  | signature fn =>
    simp only [siteReports] at h
    split at h
    · next d hd => simpa [Site.pos, Site.subject, Site.exprs, hd] using ck.located_reportAll [] h
    · cases h
  | localVar id =>
    simp only [siteReports] at h
    split at h
    · next d hd =>
      simpa [Site.pos, Site.subject, Site.exprs, hd] using ck.located_varDeclReports h
    · cases h
  | set fn pos v index value =>
    simp only [siteReports, stmt, List.mem_append] at h
    rcases h with (h | h) | h
    · obtain ⟨hf, hp, hs⟩ := ck.located_accessReports h
      exact ⟨hf, hp, hs.imp id (Exists.imp fun _ he => ⟨List.mem_append_left _ he.1, he.2⟩)⟩
    · exact ck.located_expr _ (by simp [Site.exprs]) h
    · exact ck.located_reportAll _ h
  | call fn pos f args =>
    simp only [siteReports, stmt, List.mem_append] at h
    rcases h with h | h
    · obtain ⟨hf, hp, e, he, hs⟩ := ck.mem_exprs pos args h
      exact ⟨hf, hp, .inr ⟨e, he, hs⟩⟩
    · obtain ⟨hf, hp, hs | ⟨a, ha, hs⟩⟩ := ck.mem_callReports h
      · exact ⟨hf, hp, .inl hs⟩
      · exact ⟨hf, hp, .inr ⟨a, ha, hs ▸ Subject.within_self a⟩⟩
  | ret fn pos value =>
    simp only [siteReports, stmt, List.mem_append] at h
    rcases h with h | h
    · cases value with
      | none => cases h
      | some v => exact ck.located_expr _ (by simp [Site.exprs]) h
    · exact ck.located_reportAll _ h
  | condition pos cond =>
    simp only [siteReports, List.mem_append] at h
    rcases h with h | h
    · exact ck.located_expr _ (by simp [Site.exprs]) h
    · exact ck.located_reportAll _ h

/-! ## The checker visits the sites in order -/

mutual

theorem stmt_eq_sites (fn : FunDecl) (pos : Pos) : ∀ s : Stmt,
    ck.stmt fn pos s = (s.sites fn pos).flatMap ck.siteReports
  | .set v index value => by simp [Stmt.sites, siteReports]
  | .call f args => by simp [Stmt.sites, siteReports]
  | .ifThen cond thenBody elseIfs none => by
    simp [stmt, Stmt.sites, siteReports, stmt_eq_blockSites fn thenBody,
      elseIfs_eq_sites fn pos elseIfs]
  | .ifThen cond thenBody elseIfs (some body) => by
    simp [stmt, Stmt.sites, siteReports, stmt_eq_blockSites fn thenBody,
      elseIfs_eq_sites fn pos elseIfs, stmt_eq_blockSites fn body]
  | .loop body => by rw [stmt, Stmt.sites, stmt_eq_blockSites fn body]
  | .exitWhen cond => by simp [stmt, Stmt.sites, siteReports]
  | .ret value => by simp [Stmt.sites, siteReports]
  | .debug inner => by rw [stmt, Stmt.sites, stmt_eq_sites fn pos inner]

theorem stmt_eq_blockSites (fn : FunDecl) : ∀ body : List Statement,
    ck.block fn body = (Stmt.blockSites fn body).flatMap ck.siteReports
  | [] => by simp [block, Stmt.blockSites]
  | ⟨pos, s⟩ :: rest => by
    rw [block, Stmt.blockSites, List.flatMap_append, stmt_eq_sites fn pos s,
      stmt_eq_blockSites fn rest]

theorem elseIfs_eq_sites (fn : FunDecl) (pos : Pos) : ∀ branches : List (Expr × List Statement),
    ck.elseIfs fn pos branches = (Stmt.elseIfSites fn pos branches).flatMap ck.siteReports
  | [] => by simp [elseIfs, Stmt.elseIfSites]
  | (cond, body) :: rest => by
    simp [elseIfs, Stmt.elseIfSites, siteReports, stmt_eq_blockSites fn body,
      elseIfs_eq_sites fn pos rest]

end

theorem functionReports_eq_sites (fd : FunctionDef) :
    ck.functionReports fd = ((ck.ts.fn? fd.fn).toList.flatMap fun d =>
      .signature fd.fn :: (fd.locals.map .localVar ++ Stmt.blockSites d fd.body)).flatMap
        ck.siteReports := by
  unfold functionReports
  cases hd : ck.ts.fn? fd.fn with
  | none => rfl
  | some d =>
    -- each local's reports are those of its site
    show ck.reportAll d.pos (.function fd.fn) (signatureFindings d) ++
        fd.locals.flatMap (fun id => ck.siteReports (.localVar id)) ++ ck.block d fd.body = _
    simp only [Option.toList_some, List.flatMap_cons, List.flatMap_nil, List.append_nil,
      siteReports, hd, List.flatMap_append, List.flatMap_map, stmt_eq_blockSites, List.append_assoc]

theorem fileReports_eq_sites (f : File) :
    ck.fileReports f = (f.sites ck.ts).flatMap ck.siteReports := by
  simp only [fileReports, File.sites, List.flatMap_append, List.flatMap_map, List.flatMap_assoc]
  congr 1
  congr 1
  funext fd
  rw [functionReports_eq_sites, List.flatMap_assoc]

end Checker

namespace Tables

theorem check_eq_sites (ts : Tables) (d : Destructors) (files : List File) :
    ts.check d files =
      files.flatMap (fun f => (f.sites ts).flatMap
        (Checker.siteReports ⟨ts, f.path, constantGlobals files⟩)) ++ ts.leakReports d files := by
  simp only [check, Checker.fileReports_eq_sites]

variable {ts : Tables} {d : Destructors}

theorem leakReports_at {files : List File} {r : Report} (hr : r ∈ ts.leakReports d files) :
    ∃ f ∈ files, ∃ id ∈ f.declaredVars, ∃ v, ts.var? id = some v ∧
      r.subject = .variable id ∧ r.file = f.path ∧ r.pos = v.pos := by
  obtain ⟨⟨id, path⟩, hc, hr⟩ := List.mem_filterMap.1 hr
  obtain ⟨v, hv, rfl⟩ := Option.map_eq_some_iff.1 hr
  rw [leaks_eq_filter] at hc
  obtain ⟨f, hf, id', hid', hsome⟩ := by
    simpa only [leakCandidates, List.mem_flatMap, List.mem_filterMap] using (List.mem_filter.1 hc).1
  split_ifs at hsome
  cases hsome
  exact ⟨f, hf, id, by simpa [File.declaredVars] using hid', v, hv, rfl, rfl, rfl⟩

end Tables

/-- Every report of a program stands where the checker found it. A report on a declaration (a
type, global, native, function signature or local, an expression of its initializer included)
carries the declaration's position; a report raised in a function body carries the position of
the innermost statement around it, the conditions of an `if` and of its `elseif`s standing at
the `if`; each of them names the file it was found in. A leak is reported in the file that
declares the variable, at the declaration. -/
theorem reports_stand_at_their_sites (ts : Tables) (dtors : Destructors) (files : List File) :
    ts.check dtors files =
        files.flatMap (fun f => (f.sites ts).flatMap
          (Checker.siteReports ⟨ts, f.path, constantGlobals files⟩)) ++
          ts.leakReports dtors files ∧
      ∀ r ∈ ts.check dtors files,
        (∃ f ∈ files, ∃ site ∈ f.sites ts,
          r ∈ Checker.siteReports ⟨ts, f.path, constantGlobals files⟩ site ∧
          Checker.Located r f.path (site.pos ts) site.subject (site.exprs ts)) ∨
        (∃ f ∈ files, ∃ id ∈ f.declaredVars, ∃ v, ts.var? id = some v ∧
          r.subject = .variable id ∧ r.file = f.path ∧ r.pos = v.pos) := by
  refine ⟨Tables.check_eq_sites ts dtors files, fun r hr => ?_⟩
  rw [Tables.check_eq_sites, List.mem_append] at hr
  rcases hr with hr | hr
  · obtain ⟨f, hf, hr⟩ := List.mem_flatMap.1 hr
    obtain ⟨site, hsite, hr⟩ := List.mem_flatMap.1 hr
    exact .inl ⟨f, hf, site, hsite, hr, Checker.siteReports_at _ site hr⟩
  · exact .inr (Tables.leakReports_at hr)

end Jass
