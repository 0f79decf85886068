import Jass.Proofs.Parse.Discipline
/-!
# Disciplines for the declaration rules

The declaration rules add five primitives to those of expressions and statements: registering a
type, a global or a signature under its name, storing a local or parameter in the function scope,
and emptying that scope. A `RegDiscipline` asks the first three to respect the discipline, given
that the references of the stored declaration satisfy `ref`; then so do the type, global and
native rules (`RegDiscipline.declRules`). A `DeclDiscipline` asks the scope's two as well; then
so does every function (`DeclDiscipline.fileRules`).

The loops of a file only call these rules, so whatever keeps them keeps the declaration part
(`DeclRules.keeps_declarations`) and the whole file (`FileRules.keeps_file`): also a discipline
that takes each rule as one step.
-/

namespace Jass

open Jass.Parser Parse

namespace Discipline

variable {D : Discipline} {α β : Type}

theorem post_bind_ok {p : Parser α} {f : α → Parser β} {Q : β → ParseState → Prop}
    {a : α} {s t : ParseState} (hp : p.exec s = (.ok a, t)) (hst : D.le s t)
    (h : D.Post Q t ((f a).exec t)) : D.Post Q s ((p >>= f).exec s) := by
  rw [exec_bind, hp]; exact h.le hst

theorem keeps_catch {p : Parser α} {Q : α → ParseState → Prop} (hp : D.Keeps p Q) :
    D.Keeps (tryCatch (Except.ok <$> p) fun e => pure (.error e)) fun r t => match r with
      | .ok a => Q a t
      | .error e => D.err e t := by
  intro s hs
  rw [exec_tryCatch, exec_map]
  have h := hp s hs
  rcases hr : p.exec s with ⟨_ | a, s'⟩ <;> rw [hr] at h
  · exact ⟨h.1, h.2.1, h.2.2⟩
  · exact h

end Discipline

/-- A discipline that the registering primitives respect as well, given that the references of
the registered declaration satisfy `ref`: those of the declaration part of a file. -/
structure RegDiscipline extends Discipline where
  insertType : ∀ s (d : TypeDecl), inv s → toDiscipline.Reads d.refs s →
    inv (s.withType d) ∧ le s (s.withType d) ∧ ref (.type (.resolved ⟨s.tables.types.size⟩)) (s.withType d)
  insertVar : ∀ s (d : VarDecl), inv s → toDiscipline.Reads d.refs s →
    (∀ e ∈ d.init, Discipline.ExprValue e) → inv (s.withVar d) ∧ le s (s.withVar d) ∧ ref (.var (.resolved ⟨s.tables.vars.size⟩)) (s.withVar d)
  insertFun : ∀ s (d : FunDecl), inv s → toDiscipline.Reads d.refs s →
    inv (s.withFun d) ∧ le s (s.withFun d) ∧ ref (.fn (.resolved ⟨s.tables.funs.size⟩)) (s.withFun d)

/-- A discipline that the function scope's primitives respect as well: storing a local or
parameter in the scope, and emptying the scope. -/
structure DeclDiscipline extends RegDiscipline where
  pushScoped : ∀ s (d : VarDecl), inv s → toDiscipline.Reads d.refs s →
    (∀ e ∈ d.init, Discipline.ExprValue e) → inv (s.pushed d) ∧ le s (s.pushed d) ∧ ref (.var (.resolved ⟨s.tables.vars.size⟩)) (s.pushed d)
  clearScope : ∀ s, inv s → inv s.unscoped ∧ le s s.unscoped
  err_clearScope : ∀ e s, err e s → err e s.unscoped

/-- The three declaration rules of a file keep `D`: what the declaration part needs. -/
structure DeclRules (D : Discipline) : Prop where
  keeps_typeDecl : D.Keeps typeDecl fun id => D.ref (.type (.resolved id))
  keeps_global : ∀ fuel, D.Keeps (global fuel) fun g => D.Reads g.refs
  keeps_native : ∀ fuel, D.Keeps (native fuel) fun n => D.Reads n.refs

structure FileRules (D : Discipline) : Prop extends DeclRules D where
  keeps_function : ∀ fuel, D.Keeps (function fuel) fun f => D.Reads f.refs

namespace RegDiscipline

open Discipline

variable (D : RegDiscipline) {α : Type}

theorem keeps_typeDecl : D.Keeps typeDecl fun id => D.ref (.type (.resolved id)) := by
  intro s hs
  rw [Parse.typeDecl]
  refine post_bind keeps_here hs fun pos s₁ hs₁ _ _ => ?_
  refine post_bind (keeps_keyword _) hs₁ fun _ s₂ hs₂ _ _ => ?_
  refine post_bind (keeps_ident _) hs₂ fun name s₃ hs₃ _ _ => ?_
  refine post_bind (keeps_keyword _) hs₃ fun _ s₄ hs₄ _ _ => ?_
  refine post_bind (keeps_ident _) hs₄ fun parent s₅ hs₅ _ _ => ?_
  refine post_bind (keeps_resolveType parent) hs₅ fun r s₆ hs₆ _ hr => ?_
  rw [exec_insertType]
  exact D.insertType s₆ _ hs₆ (by simpa [TypeDecl.refs] using hr)

theorem keeps_global (fuel : Nat) : D.Keeps (global fuel) fun g => D.Reads g.refs := by
  intro s hs
  rw [Parse.global]
  refine post_bind keeps_here hs fun pos s₁ hs₁ _ _ => ?_
  refine post_bind (keeps_eatKeyword _) hs₁ fun isConstant s₂ hs₂ _ _ => ?_
  refine post_bind (keeps_varDecl fuel pos) hs₂ fun d s₃ hs₃ _ hd => ?_
  rw [exec_bind, exec_insertVar]
  have h := D.insertVar s₃ d hs₃ hd.1 hd.2
  exact (post_pure h.1 (by simpa [Global.refs] using h.2.2)).le h.2.1

theorem keeps_native (fuel : Nat) : D.Keeps (native fuel) fun n => D.Reads n.refs := by
  intro s hs
  rw [Parse.native]
  refine post_bind keeps_here hs fun pos s₁ hs₁ _ _ => ?_
  refine post_bind (keeps_eatKeyword _) hs₁ fun isConstant s₂ hs₂ _ _ => ?_
  refine post_bind (keeps_keyword _) hs₂ fun _ s₃ hs₃ _ _ => ?_
  refine post_bind (keeps_head fuel pos) hs₃ fun d s₄ hs₄ _ hd => ?_
  rw [exec_bind, exec_insertFun]
  have h := D.insertFun s₄ d hs₄ hd
  exact (post_pure h.1 (by simpa [Native.refs] using h.2.2)).le h.2.1

theorem declRules : DeclRules D.toDiscipline :=
  ⟨D.keeps_typeDecl, D.keeps_global, D.keeps_native⟩

end RegDiscipline

namespace DeclRules

open Discipline

variable {D : Discipline} (h : DeclRules D)
include h

theorem keeps_globalLines :
    ∀ fuel, D.Keeps (globalLines fuel) fun gs => D.Reads (gs.flatMap Global.refs)
  | 0 => by rw [Parse.globalLines]; exact keeps_outOfFuel
  | fuel + 1 => by
    intro s hs
    rw [Parse.globalLines]
    refine post_bind (keeps_attempt (h.keeps_global fuel)) hs fun o s₁ hs₁ _ ho => ?_
    cases o with
    | none => exact post_pure hs₁ (by simp)
    | some g =>
      refine post_bind keeps_lineBreak hs₁ fun _ s₂ hs₂ h₁₂ _ => ?_
      refine post_bind (keeps_globalLines fuel) hs₂ fun gs s₃ hs₃ h₂₃ hgs => ?_
      exact post_pure hs₃ (by simpa using ⟨(ho g rfl).le (D.le_trans h₁₂ h₂₃), hgs⟩)

theorem keeps_globalsBlock (fuel : Nat) :
    D.Keeps (globalsBlock fuel) fun gs => D.Reads (gs.flatMap Global.refs) := by
  intro s hs
  rw [Parse.globalsBlock]
  refine post_bind (keeps_keyword _) hs fun _ s₁ hs₁ _ _ => ?_
  refine post_bind keeps_lineBreak hs₁ fun _ s₂ hs₂ _ _ => ?_
  refine post_bind (h.keeps_globalLines fuel) hs₂ fun gs s₃ hs₃ _ hgs => ?_
  refine post_bind (keeps_keyword _) hs₃ fun _ s₄ hs₄ h₃₄ _ => ?_
  exact post_pure hs₄ (hgs.le h₃₄)

theorem keeps_declItem (fuel : Nat) (acc : DeclPart) :
    D.Keeps (declItem fuel acc) fun o t => D.Reads acc.refs t → ∀ p ∈ o, D.Reads p.refs t := by
  intro s hs
  rw [Parse.declItem]
  refine post_bind (keeps_attempt h.keeps_typeDecl) hs fun o₁ s₁ hs₁ _ h₁ => ?_
  rcases o₁ with _ | id
  · refine post_bind (keeps_attempt (h.keeps_globalsBlock fuel)) hs₁ fun o₂ s₂ hs₂ _ h₂ => ?_
    rcases o₂ with _ | gs
    · refine post_bind (keeps_attempt (h.keeps_native fuel)) hs₂ fun o₃ s₃ hs₃ _ h₃ => ?_
      rcases o₃ with _ | n
      · exact post_pure hs₃ (by simp)
      · refine post_pure hs₃ fun ha p hp => ?_
        cases hp
        simp only [DeclPart.refs, reads_append] at ha ⊢
        exact ⟨ha.1, by simpa using ⟨ha.2, h₃ n rfl⟩⟩
    · refine post_pure hs₂ fun ha p hp => ?_
      cases hp
      simp only [DeclPart.refs, reads_append] at ha ⊢
      exact ⟨⟨ha.1.1, by simpa using ⟨ha.1.2, h₂ gs rfl⟩⟩, ha.2⟩
  · refine post_pure hs₁ fun ha p hp => ?_
    cases hp
    simp only [DeclPart.refs, reads_append] at ha ⊢
    exact ⟨⟨by simpa using ⟨ha.1.1, h₁ id rfl⟩, ha.1.2⟩, ha.2⟩

theorem keeps_declarations : ∀ fuel acc s, D.inv s → D.Reads acc.refs s →
    D.Post (fun p => D.Reads p.refs) s ((declarations fuel acc).exec s)
  | 0, _, s, hs, _ => by rw [Parse.declarations]; exact keeps_outOfFuel s hs
  | fuel + 1, acc, s, hs, ha => by
    rw [Parse.declarations]
    refine post_bind (h.keeps_declItem fuel acc) hs fun o s₁ hs₁ h₁ ho => ?_
    have ha₁ := ha.le h₁
    cases o with
    | none => exact post_pure hs₁ ha₁
    | some acc' =>
      refine post_bind keeps_lineBreak hs₁ fun _ s₂ hs₂ h₁₂ _ => ?_
      exact keeps_declarations fuel acc' s₂ hs₂ ((ho ha₁ acc' rfl).le h₁₂)

end DeclRules

namespace DeclDiscipline

open Discipline

variable (D : DeclDiscipline) {α : Type}

theorem keeps_localDecl (fuel : Nat) :
    D.Keeps (localDecl fuel) fun v => D.ref (.var (.resolved v)) := by
  intro s hs
  rw [Parse.localDecl]
  refine post_bind keeps_here hs fun pos s₁ hs₁ _ _ => ?_
  refine post_bind (keeps_keyword _) hs₁ fun _ s₂ hs₂ _ _ => ?_
  refine post_bind (keeps_varDecl fuel pos) hs₂ fun d s₃ hs₃ _ hd => ?_
  rw [exec_pushScoped]
  exact D.pushScoped s₃ d hs₃ hd.1 hd.2

theorem keeps_localLines :
    ∀ fuel, D.Keeps (localLines fuel) fun vs => D.Reads (vs.map fun v => .var (.resolved v))
  | 0 => by rw [Parse.localLines]; exact keeps_outOfFuel
  | fuel + 1 => by
    intro s hs
    rw [Parse.localLines]
    refine post_bind (keeps_attempt (D.keeps_localDecl fuel)) hs fun o s₁ hs₁ _ ho => ?_
    cases o with
    | none => exact post_pure hs₁ (by simp)
    | some v =>
      refine post_bind keeps_lineBreak hs₁ fun _ s₂ hs₂ h₁₂ _ => ?_
      refine post_bind (keeps_localLines fuel) hs₂ fun vs s₃ hs₃ h₂₃ hvs => ?_
      exact post_pure hs₃ (by simpa using ⟨D.ref_le (ho v rfl) (D.le_trans h₁₂ h₂₃), hvs⟩)

theorem keeps_functionBody (fuel : Nat) :
    D.Keeps (functionBody fuel) fun b =>
      D.Reads (b.1.map (fun v => .var (.resolved v)) ++ Stmt.blockRefs b.2) := by
  intro s hs
  rw [Parse.functionBody]
  refine post_bind keeps_lineBreak hs fun _ s₁ hs₁ _ _ => ?_
  refine post_bind (D.keeps_localLines fuel) hs₁ fun vs s₂ hs₂ _ hvs => ?_
  refine post_bind ((stmtRules fuel).statements 0) hs₂ fun b s₃ hs₃ h₂₃ hb => ?_
  refine post_bind (keeps_keyword _) hs₃ fun _ s₄ hs₄ h₃₄ _ => ?_
  refine post_bind keeps_lineBreak hs₄ fun _ s₅ hs₅ h₄₅ _ => ?_
  have h₃₅ := D.le_trans h₃₄ h₄₅
  exact post_pure hs₅ (by simpa using ⟨hvs.le (D.le_trans h₂₃ h₃₅), hb.le h₃₅⟩)

theorem inv_pushParams (pos : Pos) : ∀ (ps : List Param) (s : ParseState), D.inv s →
    D.Reads (ps.map fun p => .type p.type) s →
    D.inv (s.pushParams pos ps) ∧ D.le s (s.pushParams pos ps)
  | [], s, hs, _ => ⟨hs, D.le_refl s⟩
  | p :: ps, s, hs, hps => by
    simp only [List.map_cons, reads_cons] at hps
    obtain ⟨hs₁, h₁, -⟩ := D.pushScoped s (p.decl pos) hs
      (by simpa [VarDecl.refs, Param.decl] using hps.1) (by simp [Param.decl])
    obtain ⟨hs₂, h₂⟩ := inv_pushParams pos ps _ hs₁ (hps.2.le h₁)
    exact ⟨hs₂, D.le_trans h₁ h₂⟩

theorem keeps_function (fuel : Nat) : D.Keeps (function fuel) fun f => D.Reads f.refs := by
  intro s hs
  rw [Parse.function]
  refine post_bind keeps_here hs fun pos s₁ hs₁ _ _ => ?_
  refine post_bind (keeps_eatKeyword _) hs₁ fun isConstant s₂ hs₂ _ _ => ?_
  refine post_bind (keeps_keyword _) hs₂ fun _ s₃ hs₃ _ _ => ?_
  refine post_bind (keeps_head fuel pos) hs₃ fun d s₄ hs₄ _ hd => ?_
  obtain ⟨hs₅, h₄₅, hfn⟩ := D.insertFun s₄ d hs₄ hd
  refine post_bind_ok (exec_insertFun d s₄) h₄₅ ?_
  obtain ⟨hs₆, h₅₆⟩ := D.clearScope _ hs₅
  refine post_bind_ok (exec_clearScope _) h₅₆ ?_
  have hps : D.Reads (d.params.map fun p => .type p.type) _ :=
    (reads_append.mp hd).1.le (D.le_trans h₄₅ h₅₆)
  obtain ⟨hs₇, h₆₇⟩ := D.inv_pushParams pos d.params _ hs₆ hps
  refine post_bind_ok (exec_forIn d.params _ (fun p t => t.pushed (p.decl pos))
    (fun _ _ => rfl) _) h₆₇ ?_
  refine post_bind (keeps_catch (D.keeps_functionBody fuel)) hs₇ fun body s₈ hs₈ h₇₈ hb => ?_
  obtain ⟨hs₉, h₈₉⟩ := D.clearScope s₈ hs₈
  refine post_bind_ok (exec_clearScope s₈) h₈₉ ?_
  -- the scope is emptied also when the body fails, and the failure passes on
  rcases body with e | ⟨locals, stmts⟩
  · dsimp only
    rw [exec_throw]
    exact ⟨hs₉, D.le_refl _, D.err_clearScope e s₈ hb⟩
  · have h₅₉ := D.le_trans h₅₆ (D.le_trans h₆₇ (D.le_trans h₇₈ h₈₉))
    exact post_pure hs₉ (by simpa [FunctionDef.refs] using ⟨D.ref_le hfn h₅₉, reads_append.mp (hb.le h₈₉)⟩)

theorem fileRules : FileRules D.toDiscipline :=
  ⟨D.toRegDiscipline.declRules, D.keeps_function⟩

end DeclDiscipline

namespace FileRules

open Discipline

variable {D : Discipline} (h : FileRules D)
include h

theorem keeps_functions :
    ∀ fuel, D.Keeps (functions fuel) fun fs => D.Reads (fs.flatMap FunctionDef.refs)
  | 0 => by rw [Parse.functions]; exact keeps_outOfFuel
  | fuel + 1 => by
    intro s hs
    rw [Parse.functions]
    refine post_bind (keeps_attempt (h.keeps_function fuel)) hs fun o s₁ hs₁ _ ho => ?_
    cases o with
    | none => exact post_pure hs₁ (by simp)
    | some f =>
      refine post_bind (keeps_functions fuel) hs₁ fun fs s₂ hs₂ h₁₂ hfs => ?_
      exact post_pure hs₂ (by simpa using ⟨(ho f rfl).le h₁₂, hfs⟩)

/-- A whole file keeps `D`, and every reference the parsed file holds satisfies `ref`. -/
theorem keeps_file (fuel : Nat) (path : String) :
    D.Keeps (file fuel path) fun f => D.Reads f.refs := by
  intro s hs
  rw [Parse.file]
  refine post_bind keeps_skipNewlines hs fun _ s₁ hs₁ _ _ => ?_
  refine post_bind (fun t ht => h.keeps_declarations fuel {} t ht (by simp [DeclPart.refs])) hs₁
    fun p s₂ hs₂ _ hp => ?_
  refine post_bind (h.keeps_functions fuel) hs₂ fun fs s₃ hs₃ h₂₃ hfs => ?_
  refine post_bind keeps_endOfInput hs₃ fun _ s₄ hs₄ h₃₄ _ => ?_
  have hp₄ := hp.le (D.le_trans h₂₃ h₃₄)
  simp only [DeclPart.refs, reads_append] at hp₄
  exact post_pure hs₄ (by simp only [File.refs, reads_append]; exact ⟨hp₄, hfs.le h₃₄⟩)

end FileRules

end Jass
