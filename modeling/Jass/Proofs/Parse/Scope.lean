import Jass.Proofs.Parse.Reading
/-!
# The scope of a function

A function's signature is registered before its body, and its parameters are then stored, one
after the other, from the first free variable position `b` on, each put in the emptied scope.
Each local is read with the parameters and the locals before it in the scope, and stored and put
in the scope after its initializer; the statements see them all. Nothing here registers a
variable, so no parameter or local is ever found through the registry, and the scope is emptied
again when the function ends, whether it is accepted or not.

`InFunction` is what holds between the stretches of reading in a function's body. The main
statement, `names_resolve_where_read`, gathers what each declaration rule stores and yields:
inside a function a variable name stands for the last parameter or local of that name stored
before it, else for the registered global; outside functions for the registered global; type and
function names stand for the last declaration registered under them; and every session keeps its
registries so.
-/

namespace Jass

open Jass.Parser Parse Discipline

namespace ParseState

variable {s : ParseState} {pos : Pos}

theorem pushes_pushParams : ∀ (s : ParseState) (ps : List Param),
    s.tables.Pushes (s.pushParams pos ps).tables
  | _, [] => .refl _
  | s, p :: ps => (Tables.pushes_push _ (p.decl pos)).trans (pushes_pushParams (s.pushed _) ps)

theorem size_pushParams : ∀ (s : ParseState) (ps : List Param),
    (s.pushParams pos ps).tables.vars.size = s.tables.vars.size + ps.length
  | _, [] => rfl
  | s, p :: ps => by
    have h := size_pushParams (s.pushed (p.decl pos)) ps
    have hs : (s.pushed (p.decl pos)).tables.vars.size = s.tables.vars.size + 1 :=
      Table.size_push _ _
    show (pushParams (s.pushed (p.decl pos)) pos ps).tables.vars.size = _
    rw [h, hs, List.length_cons]
    omega

theorem get?_pushParams : ∀ (s : ParseState) (ps : List Param) (k : Nat) (hk : k < ps.length),
    (s.pushParams pos ps).tables.vars.get? (s.tables.vars.size + k) = some (ps[k].decl pos)
  | _, [], _, hk => absurd hk (Nat.not_lt_zero _)
  | s, p :: ps, 0, _ => by
    have hlt : s.tables.vars.size < (s.pushed (p.decl pos)).tables.vars.size := by
      simp [pushed]
    show (pushParams (s.pushed (p.decl pos)) pos ps).tables.vars.get? (s.tables.vars.size + 0) =
      some (p.decl pos)
    rw [Nat.add_zero, (pushes_pushParams (s.pushed (p.decl pos)) ps).get?_eq hlt]
    simp [pushed, Table.get?_push]
  | s, p :: ps, k + 1, hk => by
    have hk' : k < ps.length := by simpa using hk
    have h := get?_pushParams (s.pushed (p.decl pos)) ps k hk'
    have hs : (s.pushed (p.decl pos)).tables.vars.size = s.tables.vars.size + 1 :=
      Table.size_push _ _
    rw [hs] at h
    show (pushParams (s.pushed (p.decl pos)) pos ps).tables.vars.get? (s.tables.vars.size + (k + 1)) =
      some (ps[k].decl pos)
    rw [← h]
    congr 1
    omega

end ParseState

/-- A state inside the body of a function whose signature is registered in `T`: the parameters
and locals read so far are stored from `T`'s first free variable position on, and nothing else
has changed; the scope holds the last of them by each name, and each refers to names as seen
from its own position. -/
structure InFunction (T : Tables) (s : ParseState) : Prop where
  named : T.Named
  pushes : T.Pushes s.tables
  scope : ScopeIs s.scope s.tables.vars T.vars.size s.tables.vars.size
  stored : s.tables.vars.AllFrom T.vars.size fun i d =>
    ∀ r ∈ d.refs, r.ResolvedIn s.tables T.vars.size i

namespace InFunction

variable {T : Tables} {s t : ParseState}

theorem start (hn : T.Named) (hT : s.tables = T) (hs : s.scope = {}) : InFunction T s where
  named := hn
  pushes := hT ▸ .refl _
  scope := by
    rw [hs, hT]
    exact scopeIs_empty _ _
  stored := by
    rw [hT]
    exact Table.allFrom_size _ _

theorem reading (h : InFunction T s) :
    (Jass.reading s.tables s.scope T.vars.size s.tables.vars.size).inv s :=
  ⟨rfl, rfl, h.pushes.named h.named, h.scope⟩

theorem frame (h : InFunction T s) (ht : t.tables = s.tables) (hs : t.scope = s.scope) :
    InFunction T t := by
  obtain ⟨hn, hp, hsc, hst⟩ := h
  rw [← ht, ← hs] at *
  exact ⟨hn, hp, hsc, hst⟩

theorem of_reading {b j : Nat} (h : InFunction T s)
    (ht : (Jass.reading s.tables s.scope b j).inv t) : InFunction T t :=
  h.frame ht.1 ht.2.1

theorem pushed (h : InFunction T s) {d : VarDecl}
    (hd : ∀ r ∈ d.refs, r.ResolvedIn s.tables T.vars.size s.tables.vars.size) :
    InFunction T (s.pushed d) := by
  have hb : T.vars.size ≤ s.tables.vars.size := h.pushes.vars.size_le
  have hp : s.tables.Pushes (s.pushed d).tables := Tables.pushes_push _ d
  have hn : s.tables.Named := h.pushes.named h.named
  refine ⟨h.named, h.pushes.trans hp, ?_, ?_⟩
  · have hsc := h.scope.push hb d
    rw [← Table.size_push] at hsc
    exact hsc
  · -- the new variable sees the positions before it; the earlier ones see what they saw
    intro i x hi hx
    change (s.tables.vars.push d).1.get? i = some x at hx
    rw [Table.get?_push] at hx
    split at hx
    · next heq =>
      cases hx
      subst heq
      exact fun r hr => (hd r hr).pushes hp hn.vars (Nat.le_refl _)
    · exact fun r hr =>
        (h.stored i x hi hx r hr).pushes hp hn.vars (Nat.le_of_lt (Table.get?_lt hx))

theorem pushParams (pos : Pos) : ∀ (ps : List Param) {s : ParseState}, InFunction T s →
    (∀ p ∈ ps, (AnyRef.type p.type).ResolvedIn T T.vars.size T.vars.size) →
    InFunction T (s.pushParams pos ps)
  | [], _, h, _ => h
  | p :: ps, s, h, hps => by
    have hp : ∀ r ∈ (p.decl pos).refs, r.ResolvedIn s.tables T.vars.size s.tables.vars.size := by
      intro r hr
      simp only [VarDecl.refs, Param.decl, Option.map_none, Option.getD_none,
        List.mem_singleton] at hr
      subst hr
      exact (AnyRef.resolvedIn_type_congr h.pushes.types).mpr (hps p (.head _))
    exact pushParams pos ps (h.pushed hp) fun q hq => hps q (.tail _ hq)

end InFunction

/-! ## Locals and statements -/

variable {T : Tables} {s : ParseState}

/-- What reading a local from `s` leaves: a failure changes neither tables nor scope, and a local
read is stored at the next free position. -/
structure LocalRead (T : Tables) (s : ParseState) (r : Except ParseError VarId × ParseState) :
    Prop where
  inFunction : InFunction T r.2
  pushes : s.tables.Pushes r.2.tables
  failed : ∀ e, r.1 = .error e → r.2.tables = s.tables ∧ r.2.scope = s.scope
  stored : ∀ v, r.1 = .ok v →
    v.index = s.tables.vars.size ∧ r.2.tables.vars.size = s.tables.vars.size + 1

theorem localDecl_read (fuel : Nat) (h : InFunction T s) :
    LocalRead T s ((localDecl fuel).exec s) := by
  have herr : ∀ (e : ParseError) t,
      (reading s.tables s.scope T.vars.size s.tables.vars.size).inv t → True →
      LocalRead T s (.error e, t) :=
    fun _ _ ht _ => ⟨h.of_reading ht, ht.1 ▸ .refl _, fun _ _ => ⟨ht.1, ht.2.1⟩,
      fun _ hv => by cases hv⟩
  rw [Parse.localDecl]
  refine post_bind_then keeps_here h.reading herr fun pos s₁ hs₁ _ => ?_
  refine post_bind_then (keeps_keyword _) hs₁ herr fun _ s₂ hs₂ _ => ?_
  refine post_bind_then (keeps_varDecl fuel pos) hs₂ herr fun d s₃ hs₃ hd => ?_
  -- the initializer is read before the local is stored
  rw [exec_pushScoped]
  have h₃ := h.of_reading hs₃
  refine ⟨h₃.pushed (hs₃.1 ▸ hd.1), hs₃.1 ▸ Tables.pushes_push _ d, fun _ he => (by cases he),
    fun v hv => ?_⟩
  cases hv
  simp [ParseState.pushed, hs₃.1]

/-- What reading the locals from `s` leaves: they are stored in order from the next free
position on. -/
structure LocalsRead (T : Tables) (s : ParseState)
    (r : Except ParseError (List VarId) × ParseState) : Prop where
  inFunction : InFunction T r.2
  pushes : s.tables.Pushes r.2.tables
  stored : ∀ vs, r.1 = .ok vs → vs.map (·.index) = List.range' s.tables.vars.size vs.length ∧
    r.2.tables.vars.size = s.tables.vars.size + vs.length

theorem localLines_read : ∀ fuel (s : ParseState), InFunction T s →
    LocalsRead T s ((localLines fuel).exec s)
  | 0, s, h => by
    rw [Parse.localLines, exec_outOfFuel]
    exact ⟨h, .refl _, fun _ hv => by cases hv⟩
  | fuel + 1, s, h => by
    rw [Parse.localLines, exec_bind, exec_attempt]
    have hl := localDecl_read fuel h
    rcases hr : (localDecl fuel).exec s with ⟨e | v, s₁⟩ <;> rw [hr] at hl <;> dsimp only
    · -- a failed local is given back after a syntax failure, and ends the locals
      obtain ⟨ht, hsc⟩ := hl.failed e rfl
      dsimp only at ht hsc
      cases hsyn : e.fault.isSyntax <;> simp only [Bool.false_eq_true, ↓reduceIte, exec_pure]
      · exact ⟨hl.inFunction, hl.pushes, fun _ hv => by cases hv⟩
      · exact ⟨h.frame ht hsc, ht ▸ .refl _, fun vs hvs => by cases hvs; simp [ht]⟩
    · obtain ⟨hv, hsize⟩ := hl.stored v rfl
      have h₁ := hl.inFunction
      refine post_bind_then keeps_lineBreak h₁.reading
        (fun _ t ht _ => ⟨h₁.of_reading ht, ht.1 ▸ hl.pushes, fun _ hv => by cases hv⟩)
        fun _ s₂ hs₂ _ => ?_
      have hrest := localLines_read fuel s₂ (h₁.of_reading hs₂)
      have hp : s.tables.Pushes s₂.tables := hs₂.1 ▸ hl.pushes
      rw [exec_bind]
      rcases hr' : (localLines fuel).exec s₂ with ⟨e | vs, s₃⟩ <;> rw [hr'] at hrest
      · exact ⟨hrest.inFunction, hp.trans hrest.pushes, fun _ hv => by cases hv⟩
      · obtain ⟨hvs, hsize'⟩ := hrest.stored vs rfl
        dsimp only at hvs hsize' ⊢
        rw [exec_pure]
        refine ⟨hrest.inFunction, hp.trans hrest.pushes, fun vs' hvs' => ?_⟩
        cases hvs'
        rw [hs₂.1] at hvs hsize'
        exact ⟨by simp [hv, hvs, hsize, List.range'_succ], by simp only [List.length_cons]; omega⟩

/-- What reading a function's body from `s` leaves: its locals are stored in order from the next
free position on, and its statements refer to names with every parameter and local in view. -/
structure BodyRead (T : Tables) (s : ParseState)
    (r : Except ParseError (List VarId × List Statement) × ParseState) : Prop where
  inFunction : InFunction T r.2
  pushes : s.tables.Pushes r.2.tables
  read : ∀ b, r.1 = .ok b →
    b.1.map (·.index) = List.range' s.tables.vars.size b.1.length ∧
    r.2.tables.vars.size = s.tables.vars.size + b.1.length ∧
    ∀ t ∈ Stmt.blockRefs b.2, t.ResolvedIn r.2.tables T.vars.size r.2.tables.vars.size

theorem functionBody_read (fuel : Nat) (h : InFunction T s) :
    BodyRead T s ((functionBody fuel).exec s) := by
  rw [Parse.functionBody]
  refine post_bind_then keeps_lineBreak h.reading
    (fun _ t ht _ => ⟨h.of_reading ht, ht.1 ▸ .refl _, fun _ hb => by cases hb⟩)
    fun _ s₁ hs₁ _ => ?_
  have hl := localLines_read fuel s₁ (h.of_reading hs₁)
  rw [exec_bind]
  rcases hr : (localLines fuel).exec s₁ with ⟨e | vs, s₂⟩ <;> rw [hr] at hl
  · exact ⟨hl.inFunction, hs₁.1 ▸ hl.pushes, fun _ hb => by cases hb⟩
  · obtain ⟨hvs, hsize⟩ := hl.stored vs rfl
    have h₂ := hl.inFunction
    have hp : s.tables.Pushes s₂.tables := hs₁.1 ▸ hl.pushes
    -- the statements, `endfunction` and the line break store nothing
    have herr : ∀ (e : ParseError) t,
        (reading s₂.tables s₂.scope T.vars.size s₂.tables.vars.size).inv t → True →
        BodyRead T s (.error e, t) :=
      fun _ _ ht _ => ⟨h₂.of_reading ht, ht.1 ▸ hp, fun _ hb => by cases hb⟩
    refine post_bind_then ((stmtRules fuel).statements 0) h₂.reading herr
      fun body s₃ hs₃ hb => ?_
    refine post_bind_then (keeps_keyword _) hs₃ herr fun _ s₄ hs₄ _ => ?_
    refine post_bind_then keeps_lineBreak hs₄ herr fun _ s₅ hs₅ _ => ?_
    rw [exec_pure]
    rw [hs₁.1] at hvs hsize
    refine ⟨h₂.of_reading hs₅, hs₅.1 ▸ hp, fun b' hb' => ?_⟩
    cases hb'
    exact ⟨hvs, hs₅.1 ▸ hsize, hs₅.1 ▸ hb⟩

/-! ## Functions -/

/-- An accepted function `f` with signature `d`, read from `s` into `s'`: it is the function
registered next, under its own name; its parameters and then its locals are stored in order from
the first free variable position of `s` on; and its body refers to names with all of them in
view. -/
structure FunctionAccepted (s : ParseState) (d : FunDecl) (f : FunctionDef) (s' : ParseState) :
    Prop where
  fn : f.fn.index = s.tables.funs.size
  self : s'.tables.resolveFun d.name = .resolved f.fn
  params : ∃ pos, ∀ k (hk : k < d.params.length),
    s'.tables.vars.get? (s.tables.vars.size + k) = some (d.params[k].decl pos)
  locals : f.locals.map (·.index) =
    List.range' (s.tables.vars.size + d.params.length) f.locals.length
  size : s'.tables.vars.size = s.tables.vars.size + d.params.length + f.locals.length
  body : ∀ t ∈ Stmt.blockRefs f.body, t.ResolvedIn s'.tables s.tables.vars.size s'.tables.vars.size

theorem ParseState.withFun_tables {s₄ : ParseState} {d : FunDecl} (h₄ : s₄.tables = s.tables) :
    (s₄.withFun d).tables = { s.tables with funs := (s.tables.funs.insert d.name d).1 } := by
  simp [ParseState.withFun, h₄]

theorem FunctionAccepted.of_body {s₄ t : ParseState} {d : FunDecl} {pos : Pos} {isConstant : Bool}
    {locals : List VarId} {stmts : List Statement} (h₄ : s₄.tables = s.tables)
    (hb : BodyRead (s₄.withFun d).tables ((s₄.withFun d).unscoped.pushParams pos d.params)
      (.ok (locals, stmts), t)) :
    FunctionAccepted s d
      { isConstant, fn := ⟨(s₄.tables.funs.insert d.name d).2⟩, locals, body := stmts }
      t.unscoped := by
  have hT := ParseState.withFun_tables (d := d) h₄
  have hvars : (s₄.withFun d).tables.vars.size = s.tables.vars.size := by rw [hT]
  have hsize₇ : ((s₄.withFun d).unscoped.pushParams pos d.params).tables.vars.size =
      (s₄.withFun d).tables.vars.size + d.params.length :=
    ParseState.size_pushParams _ _
  obtain ⟨hlocals, hsize, hbody⟩ := hb.read _ rfl
  have hfuns : t.tables.funs = (s.tables.funs.insert d.name d).1 := by
    rw [hb.inFunction.pushes.funs, hT]
  refine ⟨by simp [h₄], ?_, ⟨pos, fun k hk => ?_⟩, ?_, ?_, ?_⟩
  · simp [ParseState.unscoped, Tables.resolveFun, hfuns, Table.lookup?_insert, h₄]
  · -- the parameters sit below everything the body stored
    have hlt : (s₄.withFun d).tables.vars.size + k <
        ((s₄.withFun d).unscoped.pushParams pos d.params).tables.vars.size := by
      rw [hsize₇]
      omega
    rw [← hvars]
    exact (hb.pushes.get?_eq hlt).trans (ParseState.get?_pushParams _ d.params k hk)
  · rw [hlocals, hsize₇, hvars]
  · simp only [ParseState.unscoped]
    rw [hsize, hsize₇, hvars]
  · rw [← hvars]
    exact hbody

/-- What reading a function from `s` leaves, accepted or not. No type and no variable is
registered; the parameters and locals are stored from the first free variable position `b` of
`s` on, each referring to names as seen from its own position, and the scope is left empty. The
signature is registered once it is read, with its types resolved as in `s`, and an accepted
function is as `FunctionAccepted` says. -/
structure FunctionRead (s : ParseState) (r : Except ParseError FunctionDef × ParseState) :
    Prop where
  types : r.2.tables.types = s.tables.types
  names : r.2.tables.vars.names = s.tables.vars.names
  vars : s.tables.vars.Extends r.2.tables.vars
  scope : r.2.scope = {}
  stored : r.2.tables.vars.AllFrom s.tables.vars.size fun i d =>
    ∀ t ∈ d.refs, t.ResolvedIn r.2.tables s.tables.vars.size i
  signature : (r.2.tables.funs = s.tables.funs ∧ ∃ e, r.1 = .error e) ∨
    ∃ d : FunDecl, (∀ t ∈ d.refs, t.ResolvedOutside s.tables) ∧
      r.2.tables.funs = (s.tables.funs.insert d.name d).1 ∧
      ∀ f, r.1 = .ok f → FunctionAccepted s d f r.2

theorem FunctionRead.unchanged {t : ParseState} {e : ParseError} (ht : t.tables = s.tables)
    (hs : t.scope = {}) : FunctionRead s (.error e, t) where
  types := by rw [ht]
  names := by rw [ht]
  vars := ht ▸ .refl _
  scope := hs
  stored := by
    dsimp only
    rw [ht]
    exact Table.allFrom_size _ _
  signature := .inl ⟨by rw [ht], e, rfl⟩

theorem function_read (fuel : Nat) (hn : s.tables.Named) (hs : s.scope = {}) :
    FunctionRead s ((function fuel).exec s) := by
  have herr : ∀ (e : ParseError) t,
      (reading s.tables {} s.tables.vars.size s.tables.vars.size).inv t → True →
      FunctionRead s (.error e, t) :=
    fun _ _ ht _ => .unchanged ht.1 ht.2.1
  rw [Parse.function]
  refine post_bind_then keeps_here (reading_outside hn hs) herr fun pos s₁ hs₁ _ => ?_
  refine post_bind_then (keeps_eatKeyword _) hs₁ herr fun isConstant s₂ hs₂ _ => ?_
  refine post_bind_then (keeps_keyword _) hs₂ herr fun _ s₃ hs₃ _ => ?_
  refine post_bind_then (keeps_head fuel pos) hs₃ herr fun d s₄ hs₄ hd => ?_
  obtain ⟨h₄, -, -, -⟩ := hs₄
  -- the signature is registered, the scope emptied and the parameters stored
  rw [exec_bind, exec_insertFun]
  dsimp only
  rw [exec_bind, exec_clearScope]
  dsimp only
  rw [exec_bind, exec_forIn d.params _ (fun p t => t.pushed (p.decl pos)) (fun _ _ => rfl)]
  dsimp only
  generalize hs₇ : List.foldl _ _ d.params = s₇
  obtain rfl : (s₄.withFun d).unscoped.pushParams pos d.params = s₇ := hs₇
  have hT := ParseState.withFun_tables (d := d) h₄
  have hn₁ : (s₄.withFun d).tables.Named := by
    rw [hT]
    exact { hn with funs := hn.funs.insert d rfl }
  have hps : ∀ p ∈ d.params, (AnyRef.type p.type).ResolvedIn (s₄.withFun d).tables
      (s₄.withFun d).tables.vars.size (s₄.withFun d).tables.vars.size := fun p hp => by
    have hr : (reading s.tables {} s.tables.vars.size s.tables.vars.size).ref (.type p.type) s₄ :=
      hd (.type p.type)
        (by simp only [FunDecl.refs, List.mem_append, List.mem_map]; exact .inl ⟨p, hp, rfl⟩)
    have hr' : (AnyRef.type p.type).ResolvedIn s.tables s.tables.vars.size s.tables.vars.size := hr
    exact (AnyRef.resolvedIn_type_congr (by rw [hT])).mpr hr'
  have h₆ : InFunction (s₄.withFun d).tables (s₄.withFun d).unscoped := .start hn₁ rfl rfl
  have h₇ := InFunction.pushParams pos d.params h₆ hps
  -- whatever the body does, the scope is emptied and the tables are as `FunctionRead` says
  have common : ∀ (r : Except ParseError FunctionDef) (t : ParseState),
      InFunction (s₄.withFun d).tables t → (∀ f, r = .ok f → FunctionAccepted s d f t.unscoped) →
      FunctionRead s (r, t.unscoped) := by
    intro r t ht hacc
    have hp := ht.pushes
    have hst := ht.stored
    rw [hT] at hp hst
    exact ⟨hp.types, hp.names, hp.vars, rfl, hst, .inr ⟨d, hd, hp.funs, hacc⟩⟩
  rw [exec_bind, exec_tryCatch, exec_map]
  have hb := functionBody_read fuel h₇
  rcases hr : (functionBody fuel).exec ((s₄.withFun d).unscoped.pushParams pos d.params) with
    ⟨e | ⟨locals, stmts⟩, s₈⟩ <;> rw [hr] at hb <;> dsimp only
  · -- a failed body is caught, the scope emptied, and the failure passed on
    rw [exec_pure]
    dsimp only
    rw [exec_bind, exec_clearScope]
    dsimp only
    rw [exec_throw]
    exact common _ _ hb.inFunction fun _ hf => by cases hf
  · rw [exec_bind, exec_clearScope]
    dsimp only
    rw [exec_pure]
    refine common _ _ hb.inFunction fun f hf => ?_
    cases hf
    exact FunctionAccepted.of_body h₄ hb

/-! ## A file enters each rule outside functions -/

inductive RuleRun (s : ParseState) : ParseState → Prop
  | typeDecl : RuleRun s (typeDecl.exec s).2
  | global (fuel : Nat) : RuleRun s ((global fuel).exec s).2
  | native (fuel : Nat) : RuleRun s ((native fuel).exec s).2
  | function (fuel : Nat) : RuleRun s ((function fuel).exec s).2

/-- `RulesFrom s t`: the run from `s` to `t` is made of stretches that change neither the tables
nor the scope, and of whole runs of declaration rules, each entered with the registries named and
the scope empty. -/
inductive RulesFrom : ParseState → ParseState → Prop
  | refl (s : ParseState) : RulesFrom s s
  | keep {s t u : ParseState} : t.tables = s.tables → t.scope = s.scope → RulesFrom t u →
      RulesFrom s u
  | rule {s t u : ParseState} : s.tables.Named → s.scope = {} → RuleRun s t → RulesFrom t u →
      RulesFrom s u

namespace RulesFrom

variable {s t u : ParseState}

theorem trans (h : RulesFrom s t) (h' : RulesFrom t u) : RulesFrom s u := by
  induction h with
  | refl => exact h'
  | keep ht hs _ ih => exact .keep ht hs (ih h')
  | rule hn hs hr _ ih => exact .rule hn hs hr (ih h')

theorem of_frame (ht : t.tables = s.tables) (hs : t.scope = s.scope) : RulesFrom s t :=
  .keep ht hs (.refl t)

end RulesFrom

/-- The discipline of a file's loops when each declaration rule counts as one step: the
registries stay named, the scope stays empty, and the run is a chain of rules entered so. -/
def outside : Discipline where
  inv s := s.tables.Named ∧ s.scope = {}
  le := RulesFrom
  err _ _ := True
  ref _ _ := True
  le_refl := .refl
  le_trans := .trans
  ref_le _ _ := trivial
  step _ hs _ := ⟨hs, .of_frame rfl rfl⟩
  skip _ hs := ⟨hs, .of_frame rfl rfl⟩
  fail _ _ hs := ⟨hs, .of_frame rfl rfl, trivial⟩
  halt _ _ _ _ := trivial
  rewind _ hs hle _ _ := ⟨hs, hle.trans (.of_frame rfl rfl)⟩
  var _ _ _ := trivial
  fn _ _ _ := trivial
  type _ _ _ := trivial

theorem Discipline.Post.final_inv {α : Type} {D : Discipline} {Q : α → ParseState → Prop}
    {s : ParseState} {r : Except ParseError α × ParseState} (h : D.Post Q s r) : D.inv r.2 := by
  rcases r with ⟨_ | _, t⟩
  · exact h.1
  · exact h.1

theorem outside_post {α : Type} {Q : α → ParseState → Prop} {r : Except ParseError α × ParseState}
    (hs : outside.inv s) (hrun : RuleRun s r.2) (hinv : outside.inv r.2) (hQ : ∀ a t, Q a t) :
    outside.Post Q s r := by
  rcases r with ⟨_ | a, t⟩
  · exact ⟨hinv, .rule hs.1 hs.2 hrun (.refl t), trivial⟩
  · exact ⟨hinv, .rule hs.1 hs.2 hrun (.refl t), hQ a t⟩

theorem outside_fileRules : FileRules outside where
  keeps_typeDecl s hs := outside_post hs .typeDecl
    ⟨(named.keeps_typeDecl s hs.1).final_inv, ((keepsScope {}).keeps_typeDecl s hs.2).final_inv⟩
    fun _ _ => trivial
  keeps_global fuel s hs := outside_post hs (.global fuel)
    ⟨(named.keeps_global fuel s hs.1).final_inv, ((keepsScope {}).keeps_global fuel s hs.2).final_inv⟩
    fun _ _ _ _ => trivial
  keeps_native fuel s hs := outside_post hs (.native fuel)
    ⟨(named.keeps_native fuel s hs.1).final_inv, ((keepsScope {}).keeps_native fuel s hs.2).final_inv⟩
    fun _ _ _ _ => trivial
  keeps_function fuel s hs := outside_post hs (.function fuel)
    ⟨(named.keeps_function fuel s hs.1).final_inv, (function_read fuel hs.1 hs.2).scope⟩
    fun _ _ _ _ => trivial

theorem parseFile_rules (src path : String) {ts : Tables} (lim : Limits) (hn : ts.Named) :
    ∃ s t : ParseState, s.tables = ts ∧ s.scope = {} ∧ RulesFrom s t ∧
      t.tables = (parseFile src path ts lim).2 := by
  unfold parseFile
  split
  · exact ⟨ParseState.start #[] ts lim, _, rfl, rfl, .refl _, rfl⟩
  · next tokens _ =>
    rw [Parser.runOn_eq]
    have hrun := outside_fileRules.keeps_file (Parse.budget tokens.size) path
      (ParseState.start tokens ts lim) ⟨hn, rfl⟩
    rcases hr : (Parse.file (Parse.budget tokens.size) path).exec
      (ParseState.start tokens ts lim) with ⟨_ | f, t⟩ <;> rw [hr] at hrun
    · exact ⟨_, t, rfl, rfl, hrun.2.1, rfl⟩
    · exact ⟨_, t, rfl, rfl, hrun.2.1, rfl⟩

/-! ## Names are resolved where they are read -/

/-- Names are resolved where they are read. Every session a run of parses reaches keeps its
registries answering the last type and function declared under each name, and a variable of the
name; initially each base type is what its name resolves to. The declaration part of a file
leaves the function scope as it found it, empty, and a whole file enters each of its type,
global, native and function rules from a state so registered and with an empty scope, the tables
and the scope changing only inside those rules. From such a state,
a type declaration, a global and a native store only declarations whose names are
resolved as at their start, with no parameter or local in view; a function registers its
signature before its body, stores its parameters and locals without registering them, each
resolving a variable name to the last parameter or local before it and else to the registered
global, resolves its body with all of them in view, and empties the scope again, accepted or
not. A standalone expression sees only the registered globals. -/
theorem names_resolve_where_read :
    (∀ s : Session, s.Reachable → s.tables.Named) ∧
    (∀ k (hk : k < baseTypeNames.length),
      Tables.initial.resolveType baseTypeNames[k] = .resolved ⟨k⟩) ∧
    (∀ fuel acc (s : ParseState), ((declarations fuel acc).exec s).2.scope = s.scope) ∧
    (∀ s : ParseState, s.tables.Named → s.scope = {} →
      s.StoresResolved (typeDecl.exec s) ∧
      ∀ fuel, s.StoresResolved ((global fuel).exec s) ∧ s.StoresResolved ((native fuel).exec s) ∧
        FunctionRead s ((function fuel).exec s)) ∧
    (∀ src path (ts : Tables) lim, ts.Named → ∃ s t : ParseState, s.tables = ts ∧ s.scope = {} ∧
      RulesFrom s t ∧ t.tables = (parseFile src path ts lim).2) ∧
    (∀ src (ts : Tables) lim (e : Expr), ts.Named → parseExpr src ts lim = .ok e →
      ∀ r ∈ e.refs, r.ResolvedOutside ts) :=
  ⟨fun _ hs => hs.named, Tables.initial_resolveType_base, declarations_scope,
    fun _ hn hs => ⟨typeDecl_stores hn hs, fun fuel =>
      ⟨global_stores hn hs fuel, native_stores hn hs fuel, function_read fuel hn hs⟩⟩,
    fun src path _ lim hn => parseFile_rules src path lim hn,
    fun _ _ _ _ hn h => parseExpr_resolved hn h⟩

set_option maxRecDepth 100000 in
theorem function_read_in_fresh_session :
    let toks := (lex "function g takes integer p returns integer\nlocal integer q = p\nreturn q\nendfunction\n"
      {}).toOption.getD #[]
    Session.Reachable ({ limits := {}, destructors := .builtin } : Session) ∧
      (ParseState.start toks Tables.initial {}).scope = {} ∧
      ((function (Parse.budget toks.size)).exec (ParseState.start toks Tables.initial {})).1.isOk ∧
      FunctionRead (ParseState.start toks Tables.initial {})
        ((function (Parse.budget toks.size)).exec (ParseState.start toks Tables.initial {})) := by
  dsimp only
  refine ⟨.fresh {} .builtin, rfl, by cbv, ?_⟩
  exact ((names_resolve_where_read.2.2.2.1 _ (Session.Reachable.fresh {} .builtin).named rfl).2 _).2.2

end Jass
