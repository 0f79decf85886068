import Mathlib
import Jass.Proofs.Parse.Registration
import Jass.Proofs.Parse.Scope
import Jass.Proofs.Parse.DepthLimit
/-!
# What a parse registers, entry by entry

A parse registers each type, global, signature, parameter and local the moment it reads it, and
a rule that fails keeps what it registered. A failed alternative can leave registrations behind
only in two rules, a `globals` block and a function, and both start at a keyword. Once such an
alternative is given up the parse stands at that keyword, where no later rule of a file starts,
so the file is rejected.

An accepted file therefore accounts for every entry added while it was read (`Regs.Fills`): the
new types are its types, the new signatures its natives' and then its functions', and the new
variables its globals and then, function by function, the parameters of the signature followed
by the locals. Every entry a rejected file leaves stands, in source order, before the reported
error (`registrations_follow_the_file`).
-/

namespace Jass

open Jass.Parser Parse Discipline

/-! ## Registrations -/

/-- A variable entry as a file refers to it: a global or a local by its handle, or a parameter
of a signature, stored at the signature's position. -/
inductive VarSlot where
  | named (id : VarId)
  | param (p : Param) (pos : Pos)

def VarSlot.Fills (ts : Tables) : VarSlot → Nat → Prop
  | .named id, i => id.index = i
  | .param p pos, i => ts.vars.get? i = some (p.decl pos)

theorem VarSlot.Fills.mono {ts ts' : Tables} (h : ts.Extends ts') {x : VarSlot} {i : Nat}
    (hx : x.Fills ts i) : x.Fills ts' i := by
  cases x with
  | named id => exact hx
  | param p pos =>
    simp only [VarSlot.Fills] at hx ⊢
    rw [h.vars.get?_eq (Table.get?_lt hx), hx]

/-- What a run registered, table by table, in the order it registered it. -/
@[ext]
structure Regs where
  types : List TypeId := []
  vars : List VarSlot := []
  funs : List FunId := []

namespace Regs

instance : Append Regs := ⟨fun a b => ⟨a.types ++ b.types, a.vars ++ b.vars, a.funs ++ b.funs⟩⟩

@[simp] theorem types_append (a b : Regs) : (a ++ b).types = a.types ++ b.types := rfl

@[simp] theorem vars_append (a b : Regs) : (a ++ b).vars = a.vars ++ b.vars := rfl

@[simp] theorem funs_append (a b : Regs) : (a ++ b).funs = a.funs ++ b.funs := rfl

/-- `r` is exactly what was added from `ts` to `ts'`: the `k`-th type, variable and signature
that `r` lists stands at the `k`-th new position of its table. -/
structure Fills (r : Regs) (ts ts' : Tables) : Prop where
  grows : ts.Extends ts'
  types : r.types.map (·.index) = List.range' ts.types.size (ts'.types.size - ts.types.size)
  vars : List.Forall₂ (fun x i => x.Fills ts' i) r.vars
    (List.range' ts.vars.size (ts'.vars.size - ts.vars.size))
  funs : r.funs.map (·.index) = List.range' ts.funs.size (ts'.funs.size - ts.funs.size)

theorem append_empty (r : Regs) : r ++ {} = r := by
  ext1 <;> simp

theorem append_assoc (a b c : Regs) : a ++ b ++ c = a ++ (b ++ c) := by
  ext1 <;> simp

variable {r r₁ r₂ : Regs} {ts ts' ts'' : Tables}

theorem fills_nil (ts : Tables) : ({} : Regs).Fills ts ts where
  grows := .refl ts
  types := by simp
  vars := by simp
  funs := by simp

theorem range'_sub_append {a b c : Nat} (hab : a ≤ b) (hbc : b ≤ c) :
    List.range' a (b - a) ++ List.range' b (c - b) = List.range' a (c - a) := by
  have h := List.range'_append_1 (s := a) (m := b - a) (n := c - b)
  rwa [Nat.add_sub_cancel' hab, show b - a + (c - b) = c - a by omega] at h

theorem Fills.append (h₁ : r₁.Fills ts ts') (h₂ : r₂.Fills ts' ts'') :
    (r₁ ++ r₂).Fills ts ts'' where
  grows := h₁.grows.trans h₂.grows
  types := by
    rw [types_append, List.map_append, h₁.types, h₂.types,
      range'_sub_append h₁.grows.types.size_le h₂.grows.types.size_le]
  vars := by
    rw [vars_append, ← range'_sub_append h₁.grows.vars.size_le h₂.grows.vars.size_le]
    exact List.rel_append (h₁.vars.imp fun _ _ hx => hx.mono h₂.grows) h₂.vars
  funs := by
    rw [funs_append, List.map_append, h₁.funs, h₂.funs,
      range'_sub_append h₁.grows.funs.size_le h₂.grows.funs.size_le]

theorem Fills.of_eq (h : r.Fills ts ts') (h' : ts'' = ts) : r.Fills ts'' ts' := h' ▸ h

theorem fills_nil_of_eq (h : ts' = ts) : ({} : Regs).Fills ts ts' := h ▸ fills_nil ts

theorem Fills.types_size (h : r.Fills ts ts') :
    ts'.types.size = ts.types.size + r.types.length := by
  have hlen := congrArg List.length h.types
  rw [List.length_map, List.length_range'] at hlen
  have := h.grows.types.size_le
  omega

theorem Fills.vars_size (h : r.Fills ts ts') :
    ts'.vars.size = ts.vars.size + r.vars.length := by
  have hlen := h.vars.length_eq
  rw [List.length_range'] at hlen
  have := h.grows.vars.size_le
  omega

theorem Fills.funs_size (h : r.Fills ts ts') :
    ts'.funs.size = ts.funs.size + r.funs.length := by
  have hlen := congrArg List.length h.funs
  rw [List.length_map, List.length_range'] at hlen
  have := h.grows.funs.size_le
  omega

theorem Fills.fun_lt (h : r.Fills ts ts') {f : FunId} (hf : f ∈ r.funs) :
    f.index < ts'.funs.size := by
  have hmem : f.index ∈ r.funs.map (·.index) := List.mem_map_of_mem hf
  rw [h.funs, List.mem_range'_1] at hmem
  omega

end Regs

/-! ### What a file refers to -/

/-- The variables of a function: the parameters of its signature in `ts`, then its locals. -/
def FunctionDef.varSlots (ts : Tables) (fd : FunctionDef) : List VarSlot :=
  ((ts.fn? fd.fn).map fun d => d.params.map (VarSlot.param · d.pos)).getD [] ++
    fd.locals.map .named

def File.varSlots (ts : Tables) (f : File) : List VarSlot :=
  f.globals.map (.named ·.var) ++ f.functions.flatMap (·.varSlots ts)

/-- The entries a file refers to, in the order it declares them: its types, its variables, and
the signatures of its natives and then of its functions. -/
def File.regs (ts : Tables) (f : File) : Regs :=
  ⟨f.types, f.varSlots ts, f.natives.map (·.fn) ++ f.functions.map (·.fn)⟩

def Parse.DeclPart.regs (p : DeclPart) : Regs :=
  ⟨p.types, p.globals.map (.named ·.var), p.natives.map (·.fn)⟩

theorem FunctionDef.varSlots_of_extends {ts ts' : Tables} {fd : FunctionDef} (h : ts.Extends ts')
    (hfn : fd.fn.index < ts.funs.size) : fd.varSlots ts' = fd.varSlots ts := by
  simp only [FunctionDef.varSlots, Tables.fn?, h.funs.get?_eq hfn]

theorem File.regs_mk (ts : Tables) (path : String) (p : DeclPart) (fns : List FunctionDef) :
    (File.mk path p.types p.globals p.natives fns).regs ts =
      p.regs ++ { vars := fns.flatMap (·.varSlots ts), funs := fns.map (·.fn) } := by
  ext1 <;> simp [File.regs, File.varSlots, DeclPart.regs]

/-! ### One registration -/

namespace ParseState

variable (s : ParseState)

theorem fills_withType (d : TypeDecl) :
    ({ types := [⟨s.tables.types.size⟩] } : Regs).Fills s.tables (s.withType d).tables where
  grows := ⟨Table.extends_insert _ _ _, .refl _, .refl _⟩
  types := by simp [withType]
  vars := by simp [withType]
  funs := by simp [withType]

theorem fills_withVar (d : VarDecl) :
    ({ vars := [.named ⟨s.tables.vars.size⟩] } : Regs).Fills s.tables (s.withVar d).tables where
  grows := ⟨.refl _, Table.extends_insert _ _ _, .refl _⟩
  types := by simp [withVar]
  vars := by simp [withVar, VarSlot.Fills]
  funs := by simp [withVar]

theorem fills_pushed (d : VarDecl) :
    ({ vars := [.named ⟨s.tables.vars.size⟩] } : Regs).Fills s.tables (s.pushed d).tables where
  grows := ⟨.refl _, Table.extends_push _ _, .refl _⟩
  types := by simp [pushed]
  vars := by simp [pushed, VarSlot.Fills]
  funs := by simp [pushed]

theorem fills_withFun (d : FunDecl) :
    ({ funs := [⟨s.tables.funs.size⟩] } : Regs).Fills s.tables (s.withFun d).tables where
  grows := ⟨.refl _, .refl _, Table.extends_insert _ _ _⟩
  types := by simp [withFun]
  vars := by simp [withFun]
  funs := by simp [withFun]

variable {s}

theorem pushParams_frame (pos : Pos) (ps : List Param) :
    (s.pushParams pos ps).tokens = s.tokens ∧ (s.pushParams pos ps).cursor = s.cursor ∧
      (s.pushParams pos ps).reach = s.reach := by
  induction ps generalizing s with
  | nil => exact ⟨rfl, rfl, rfl⟩
  | cons p ps ih => exact ih

theorem added_pushParams {t₀ : Table VarDecl} (h : t₀.size ≤ s.tables.vars.size) (pos : Pos)
    (ps : List Param) :
    (s.pushParams pos ps).tables.vars.added t₀ = s.tables.vars.added t₀ ++ ps.map (·.decl pos) := by
  induction ps generalizing s with
  | nil => exact (List.append_nil _).symm
  | cons p ps ih =>
    have hsize : t₀.size ≤ (s.pushed (p.decl pos)).tables.vars.size :=
      h.trans (Table.size_push _ _ ▸ Nat.le_succ _)
    show ((s.pushed (p.decl pos)).pushParams pos ps).tables.vars.added t₀ = _
    rw [ih hsize]
    show (s.tables.vars.push (p.decl pos)).1.added t₀ ++ _ = _
    rw [Table.added_push h, List.map_cons, List.append_assoc, List.singleton_append]

theorem fills_pushParams (pos : Pos) (ps : List Param) :
    ({ vars := ps.map (VarSlot.param · pos) } : Regs).Fills s.tables
      (s.pushParams pos ps).tables := by
  have hpush : s.tables.Pushes (s.pushParams pos ps).tables := pushes_pushParams s ps
  have hsize : (s.pushParams pos ps).tables.vars.size = s.tables.vars.size + ps.length :=
    size_pushParams s ps
  refine ⟨⟨hpush.types ▸ .refl _, hpush.vars, hpush.funs ▸ .refl _⟩, ?_, ?_, ?_⟩
  · simp [hpush.types]
  · rw [hsize, Nat.add_sub_cancel_left]
    refine List.forall₂_of_length_eq_of_get (by simp) fun k hk _ => ?_
    simp only [List.get_eq_getElem, List.getElem_map, List.getElem_range', Nat.one_mul,
      VarSlot.Fills]
    exact get?_pushParams s ps k (by simpa using hk)
  · simp [hpush.funs]

end ParseState

/-! ## Registering keeps a parse tidy

A declaration registered at the position `p` where its rule started, once the cursor has moved
past `p`, comes after everything registered before and stands before the cursor. -/

section Steps

variable {ts₀ : Tables} {s : ParseState} {p : Pos}

theorem Tidy.pos_le_reach (hs : Tidy ts₀ s) : s.current.pos ≤ posAt s.tokens s.reach :=
  hs.placed.posAt_mono hs.cursor_le

theorem Grows.pos_le {t : ParseState} (hs : Tidy ts₀ s) (hg : Grows s t) :
    s.current.pos ≤ t.current.pos := by
  rw [ParseState.current_pos, ParseState.current_pos, ← hg.tokens]
  exact hs.placed.posAt_mono hg.cursor

theorem Tidy.withType (hs : Tidy ts₀ s) (hold : ts₀.AddedBefore s.tables p) {d : TypeDecl}
    (hd : d.pos = some p) (hp : p < s.current.pos) :
    Tidy ts₀ (s.withType d) ∧ Live ts₀ (s.withType d) := by
  have htypes := Table.added_insert hs.ext.types.size_le d.name d
  refine ⟨{ hs with
      ext := hs.ext.trans ⟨Table.extends_insert _ _ _, .refl _, .refl _⟩
      order := hs.order.addType hold hd htypes rfl rfl
      bound := hold.addType hd (hp.trans_le hs.pos_le_reach) htypes rfl rfl }, ?_⟩
  exact hold.addType hd hp htypes rfl rfl

theorem Tidy.withVar (hs : Tidy ts₀ s) (hold : ts₀.AddedBefore s.tables p) {d : VarDecl}
    (hd : d.pos = p) (hp : p < s.current.pos) :
    Tidy ts₀ (s.withVar d) ∧ Live ts₀ (s.withVar d) := by
  have hvars := Table.added_insert hs.ext.vars.size_le d.name d
  refine ⟨{ hs with
      ext := hs.ext.trans ⟨.refl _, Table.extends_insert _ _ _, .refl _⟩
      order := hs.order.addVar hold hd rfl hvars rfl
      bound := hold.addVar hd (hp.trans_le hs.pos_le_reach) rfl hvars rfl }, ?_⟩
  exact hold.addVar hd hp rfl hvars rfl

theorem Tidy.pushed (hs : Tidy ts₀ s) (hold : ts₀.AddedBefore s.tables p) {d : VarDecl}
    (hd : d.pos = p) (hp : p < s.current.pos) :
    Tidy ts₀ (s.pushed d) ∧ Live ts₀ (s.pushed d) := by
  have hvars := Table.added_push hs.ext.vars.size_le d
  refine ⟨{ hs with
      ext := hs.ext.trans ⟨.refl _, Table.extends_push _ _, .refl _⟩
      order := hs.order.addVar hold hd rfl hvars rfl
      bound := hold.addVar hd (hp.trans_le hs.pos_le_reach) rfl hvars rfl }, ?_⟩
  exact hold.addVar hd hp rfl hvars rfl

theorem Tidy.withFun (hs : Tidy ts₀ s) (hold : ts₀.AddedBefore s.tables p) {d : FunDecl}
    (hd : d.pos = p) (hp : p < s.current.pos) :
    Tidy ts₀ (s.withFun d) ∧ Live ts₀ (s.withFun d) := by
  have hfuns := Table.added_insert hs.ext.funs.size_le d.name d
  have hvars : (s.withFun d).tables.vars.added ts₀.vars = s.tables.vars.added ts₀.vars ++ [] :=
    (List.append_nil _).symm
  have hxs : ∀ x ∈ ([] : List VarDecl), x.pos = p := by simp
  refine ⟨{ hs with
      ext := hs.ext.trans ⟨.refl _, .refl _, Table.extends_insert _ _ _⟩
      order := hs.order.addFun hold hd (.inl rfl) rfl hvars hfuns
      bound := hold.addFun hd hxs (hp.trans_le hs.pos_le_reach) rfl hvars hfuns }, ?_⟩
  exact hold.addFun hd hxs hp rfl hvars hfuns

theorem Tidy.function (hs : Tidy ts₀ s) (hold : ts₀.AddedBefore s.tables p) {d : FunDecl}
    (hd : d.pos = p) (hp : p < s.current.pos) :
    Tidy ts₀ ((s.withFun d).unscoped.pushParams p d.params) ∧
      Live ts₀ ((s.withFun d).unscoped.pushParams p d.params) := by
  obtain ⟨htok, hcur, hreach⟩ :=
    ParseState.pushParams_frame (s := (s.withFun d).unscoped) p d.params
  have hpush : (s.withFun d).tables.Pushes ((s.withFun d).unscoped.pushParams p d.params).tables :=
    ParseState.pushes_pushParams (s.withFun d).unscoped d.params
  have hvars := ParseState.added_pushParams (s := (s.withFun d).unscoped) hs.ext.vars.size_le p
    d.params
  have hfuns : ((s.withFun d).unscoped.pushParams p d.params).tables.funs.added ts₀.funs =
      s.tables.funs.added ts₀.funs ++ [d] := by
    rw [hpush.funs]
    exact Table.added_insert hs.ext.funs.size_le d.name d
  have hxs : ∀ x ∈ d.params.map (·.decl p), x.pos = p := by
    simp [Param.decl]
  have hparams : d.params.map (·.decl p) = [] ∨
      d.params.map (·.decl p) = d.params.map (·.decl d.pos) :=
    .inr (by rw [hd])
  have hext : s.tables.Extends ((s.withFun d).unscoped.pushParams p d.params).tables :=
    ⟨hpush.types ▸ .refl _, hpush.vars, hpush.funs ▸ Table.extends_insert _ _ _⟩
  have hbound := hold.addFun hd hxs (hp.trans_le hs.pos_le_reach) hpush.types hvars hfuns
  have hlive := hold.addFun hd hxs hp hpush.types hvars hfuns
  refine ⟨⟨htok ▸ hs.placed, hs.ext.trans hext, hcur ▸ hreach ▸ hs.cursor_le,
    htok ▸ hreach ▸ hs.reach_lt, hs.order.addFun hold hd hparams hpush.types hvars hfuns, ?_⟩, ?_⟩
  · rw [htok, hreach]
    exact hbound
  · unfold Live
    rw [ParseState.current_pos, htok, hcur]
    exact hlive

end Steps

/-! ## Reading past a rule's first token -/

section Frozen

variable {α β : Type} {ts₀ ts : Tables} {s : ParseState}

theorem exec_here_bind (f : Pos → Parser α) (s : ParseState) :
    (here >>= f).exec s = (f s.current.pos).exec s := by
  rw [exec_bind, exec_here]

theorem exec_keyword (k : Keyword) (s : ParseState) :
    (keyword k).exec s = if isKeyword k s.current.token then (.ok (), s.stepped)
      else (.error (s.expected (.keyword k)), s.record (s.expected (.keyword k))) := by
  rw [Parse.keyword, exec_bind, exec_eatKeyword]
  by_cases hk : isKeyword k s.current.token = true
  · rw [if_pos hk, if_pos hk]
    rfl
  · rw [if_neg hk, if_neg hk]
    rfl

theorem frozen_pos_le {t : ParseState} (hs : (frozen ts₀ ts).inv s) (hle : (frozen ts₀ ts).le s t) :
    s.current.pos ≤ t.current.pos := by
  rw [ParseState.current_pos, ParseState.current_pos, ← hle.1]
  exact hs.1.placed.posAt_mono hle.2.1

theorem Discipline.Post.past {s₁ : ParseState} {Q : α → ParseState → Prop}
    {r : Except ParseError α × ParseState} (h : (frozen ts₀ ts).Post Q s₁ r)
    (hs₁ : (frozen ts₀ ts).inv s₁) (hle : (frozen ts₀ ts).le s s₁)
    (hlt : s.current.pos < s₁.current.pos) :
    (frozen ts₀ ts).Post (fun a t => Q a t ∧ s.current.pos < t.current.pos) s r := by
  rcases r with ⟨_ | a, t⟩
  · exact h.le hle
  · exact ⟨h.1, (frozen ts₀ ts).le_trans hle h.2.1, h.2.2, hlt.trans_le (frozen_pos_le hs₁ h.2.1)⟩

theorem post_stepped_past {a : α} {Q : α → ParseState → Prop} (hs : (frozen ts₀ ts).inv s)
    (hne : s.current.token ≠ .eof) (hQ : s.current.pos < s.stepped.current.pos → Q a s.stepped) :
    (frozen ts₀ ts).Post Q s (.ok a, s.stepped) :=
  ⟨((frozen ts₀ ts).step s hs hne).1, ((frozen ts₀ ts).step s hs hne).2,
    hQ (hs.1.pos_lt_stepped hne)⟩

theorem post_keyword (k : Keyword) (hs : (frozen ts₀ ts).inv s) :
    (frozen ts₀ ts).Post
      (fun _ t => isKeyword k s.current.token = true ∧ s.current.pos < t.current.pos) s
      ((keyword k).exec s) := by
  rw [exec_keyword]
  split
  · next hk =>
    exact post_stepped_past hs (ne_eof_of_isKeyword hk) fun h => ⟨hk, h⟩
  · exact (frozen ts₀ ts).fail s _ hs

theorem post_eatKeyword (k : Keyword) (hs : (frozen ts₀ ts).inv s) :
    (frozen ts₀ ts).Post
      (fun b t => (b = true ∧ isKeyword k s.current.token = true ∧
        s.current.pos < t.current.pos) ∨ (b = false ∧ t = s)) s ((eatKeyword k).exec s) := by
  rw [exec_eatKeyword]
  split
  · next hk =>
    exact post_stepped_past hs (ne_eof_of_isKeyword hk) fun h => .inl ⟨rfl, hk, h⟩
  · exact ⟨hs, (frozen ts₀ ts).le_refl s, .inr ⟨rfl, rfl⟩⟩

theorem post_ident_past (rule : Rule) (hs : (frozen ts₀ ts).inv s) :
    (frozen ts₀ ts).Post (fun _ t => s.current.pos < t.current.pos) s ((ident rule).exec s) := by
  simp only [ident, exec_bind, exec_peek]
  split
  · next h =>
    simp only [exec_bind, exec_advance]
    exact post_stepped_past hs (by simp [h]) id
  · exact post_fail hs

theorem post_varDecl_past (fuel : Nat) (pos : Pos) (hs : (frozen ts₀ ts).inv s) :
    (frozen ts₀ ts).Post (fun _ t => s.current.pos < t.current.pos) s
      ((varDecl fuel pos).exec s) := by
  rw [Parse.varDecl, exec_bind]
  have h₁ := post_ident_past .typeName hs
  rcases hr : (ident .typeName).exec s with ⟨_ | typeName, s₁⟩ <;> rw [hr] at h₁
  · exact h₁
  · -- past the type name; the rest of the declaration only reads on
    refine ((?_ : (frozen ts₀ ts).Post (fun _ _ => True) s₁ _).past h₁.1 h₁.2.1 h₁.2.2).mono
      fun _ _ h => h.2
    refine post_bind (keeps_eatKeyword _) h₁.1 fun isArray s₂ hs₂ _ _ => ?_
    refine post_bind (keeps_ident _) hs₂ fun name s₃ hs₃ _ _ => ?_
    refine post_bind (keeps_eatSymbol _) hs₃ fun b s₄ hs₄ _ _ => ?_
    have last : ∀ init t, (frozen ts₀ ts).inv t →
        (frozen ts₀ ts).Post (fun _ _ => True) t ((do
          let r ← resolveType typeName
          pure { type := r, isArray, name, init, pos : VarDecl }).exec t) := fun _ t ht =>
      post_bind (keeps_resolveType typeName) ht fun _ t₁ ht₁ _ _ => post_pure ht₁ trivial
    cases b <;> simp only [pure_bind, Bool.false_eq_true, ↓reduceIte]
    · exact last none s₄ hs₄
    · exact post_bind ((exprRules fuel).expr 0) hs₄ fun e s₅ hs₅ _ _ => last (some e) s₅ hs₅

end Frozen

/-! ## What a rule returns -/

section Yields

variable {α β : Type}

def Yields (p : Parser α) (P : α → Prop) : Prop := ∀ s a t, p.exec s = (.ok a, t) → P a

theorem yields_pure {a : α} {P : α → Prop} (h : P a) : Yields (pure a) P := by
  intro s b t hr
  rw [exec_pure, Prod.mk.injEq, Except.ok.injEq] at hr
  exact hr.1 ▸ h

theorem yields_bind {p : Parser α} {f : α → Parser β} {P : β → Prop}
    (h : ∀ a, Yields (f a) P) : Yields (p >>= f) P := by
  intro s b t hr
  rw [exec_bind] at hr
  rcases hp : p.exec s with ⟨_ | a, s'⟩ <;> rw [hp] at hr
  · cases hr
  · exact h a s' b t hr

theorem Discipline.Post.yields {D : Discipline} {p : Parser α} {Q : α → ParseState → Prop}
    {P : α → Prop} {s : ParseState} (h : D.Post Q s (p.exec s)) (hy : Yields p P) :
    D.Post (fun a t => Q a t ∧ P a) s (p.exec s) := by
  rcases hr : p.exec s with ⟨_ | a, t⟩ <;> rw [hr] at h
  · exact h
  · exact ⟨h.1, h.2.1, h.2.2, hy s a t hr⟩

theorem varDecl_pos (fuel : Nat) (pos : Pos) : Yields (varDecl fuel pos) (·.pos = pos) := by
  rw [Parse.varDecl]
  -- every branch ends in the same record
  repeat' (first | refine yields_bind fun _ => ?_ | dsimp only | split)
  all_goals exact yields_pure rfl

theorem head_pos (fuel : Nat) (pos : Pos) : Yields (head fuel pos) (·.pos = pos) := by
  rw [Parse.head]
  repeat' (first | refine yields_bind fun _ => ?_ | dsimp only | split)
  all_goals exact yields_pure rfl

end Yields

/-! ## The rules, one by one

Each rule is run from a live state over tables that nothing changed since the rule started. The
rules that register once, as their last action, leave the tables as they found them when they
fail; the two that can fail after registering start at a keyword. -/

section Rules

variable {α : Type} {ts₀ : Tables} {s : ParseState}

theorem eq_of_isKeyword {k : Keyword} {t : Token} (h : isKeyword k t = true) : t = .keyword k := by
  cases t <;> simp_all [isKeyword]

theorem ParseState.current_congr {t : ParseState} (htok : t.tokens = s.tokens)
    (hcur : t.cursor = s.cursor) : t.current = s.current := by
  simp only [ParseState.current, htok, hcur]

theorem expected_isSyntax (s : ParseState) (rule : Rule) :
    (s.expected rule).fault.isSyntax = true := by
  simp [ParseState.expected, ParseFault.isSyntax, ParseFault.errorClass]

theorem exec_attempt_of_syntax {p : Parser α} {e : ParseError} {t : ParseState}
    (h : p.exec s = (.error e, t)) (he : e.fault.isSyntax = true) :
    (attempt p).exec s = (.ok none, { t with cursor := s.cursor }) := by
  rw [exec_attempt, h]
  dsimp only
  rw [if_pos he]

theorem AddedBefore.of_frozen {t : ParseState} (hs : (frozen ts₀ s.tables).inv s)
    (ht : (frozen ts₀ s.tables).inv t) : ts₀.AddedBefore t.tables s.current.pos := by
  rw [ht.2.2]
  exact hs.2.1

theorem registers_outOfFuel {Q : α → ParseState → Prop} {F : ParseState → Prop}
    (hs : (frozen ts₀ s.tables).inv s) (hF : F s) : Registers ts₀ s Q F (outOfFuel.exec s) := by
  rw [exec_outOfFuel]
  exact ⟨hs.1, .refl s, fun _ => ⟨hs.2.1, rfl⟩, hF⟩

theorem registers_catch {p : Parser α} {Q : α → ParseState → Prop} {F : ParseState → Prop}
    (h : Registers ts₀ s Q F (p.exec s)) :
    Registers ts₀ s
      (fun r t => (∀ a, r = .ok a → Q a t) ∧ (∀ e, r = .error e → Halts ts₀ e t ∧ F t))
      F ((tryCatch (Except.ok <$> p) fun e => pure (.error e)).exec s) := by
  rw [exec_tryCatch, exec_map]
  rcases hr : p.exec s with ⟨_ | a, t⟩ <;> rw [hr] at h <;> dsimp only
  · rw [exec_pure]
    refine ⟨h.1, h.2.1, fun _ ha => ?_, fun _ he => ?_⟩
    · cases ha
    · cases he
      exact h.2.2
  · refine ⟨h.1, h.2.1, fun _ ha => ?_, fun _ he => ?_⟩
    · cases ha
      exact h.2.2
    · cases he

theorem registers_typeDecl (hs : (frozen ts₀ s.tables).inv s) :
    Registers ts₀ s (fun id t => Live ts₀ t ∧ ({ types := [id] } : Regs).Fills s.tables t.tables)
      (fun t => t.tables = s.tables) (typeDecl.exec s) := by
  rw [Parse.typeDecl, exec_here_bind]
  refine registers_bind_frozen (post_keyword _ hs) rfl (fun _ h => h) fun _ s₁ hs₁ _ h₁ => ?_
  refine registers_bind_frozen (keeps_ident _ s₁ hs₁) hs₁.2.2 (fun _ h => h)
    fun name s₂ hs₂ h₁₂ _ => ?_
  refine registers_bind_frozen (keeps_keyword _ s₂ hs₂) hs₂.2.2 (fun _ h => h)
    fun _ s₃ hs₃ h₂₃ _ => ?_
  refine registers_bind_frozen (keeps_ident _ s₃ hs₃) hs₃.2.2 (fun _ h => h)
    fun parent s₄ hs₄ h₃₄ _ => ?_
  refine registers_bind_frozen (keeps_resolveType parent s₄ hs₄) hs₄.2.2 (fun _ h => h)
    fun parentRef s₅ hs₅ h₄₅ _ => ?_
  rw [exec_insertType]
  have hp : s.current.pos < s₅.current.pos :=
    h₁.2.trans_le ((h₁₂.trans (h₂₃.trans (h₃₄.trans h₄₅))).pos_le hs₁.1)
  have hold := AddedBefore.of_frozen hs hs₅
  obtain ⟨hts, hlive⟩ :=
    hs₅.1.withType (d := { name, parent := some parentRef, pos := some s.current.pos }) hold rfl hp
  exact ⟨hts, ⟨rfl, ⟨Table.extends_insert _ _ _, .refl _, .refl _⟩, le_rfl, le_rfl⟩, hlive,
    (s₅.fills_withType _).of_eq hs₅.2.2.symm⟩

theorem registers_global (fuel : Nat) (hs : (frozen ts₀ s.tables).inv s) :
    Registers ts₀ s
      (fun g t => Live ts₀ t ∧ ({ vars := [.named g.var] } : Regs).Fills s.tables t.tables)
      (fun t => t.tables = s.tables) ((global fuel).exec s) := by
  rw [Parse.global, exec_here_bind]
  refine registers_bind_frozen (keeps_eatKeyword _ s hs) rfl (fun _ h => h)
    fun _ s₁ hs₁ h₀₁ _ => ?_
  refine registers_bind_frozen ((post_varDecl_past fuel _ hs₁).yields (varDecl_pos fuel _))
    hs₁.2.2 (fun _ h => h) fun d s₂ hs₂ _ hd => ?_
  rw [exec_bind, exec_insertVar]
  dsimp only
  rw [exec_pure]
  have hp : s.current.pos < s₂.current.pos := (h₀₁.pos_le hs.1).trans_lt hd.1
  have hold := AddedBefore.of_frozen hs hs₂
  obtain ⟨hts, hlive⟩ := hs₂.1.withVar hold hd.2 hp
  exact ⟨hts, ⟨rfl, ⟨.refl _, Table.extends_insert _ _ _, .refl _⟩, le_rfl, le_rfl⟩, hlive,
    (s₂.fills_withVar d).of_eq hs₂.2.2.symm⟩

theorem registers_native (fuel : Nat) (hs : (frozen ts₀ s.tables).inv s) :
    Registers ts₀ s (fun n t => Live ts₀ t ∧ ({ funs := [n.fn] } : Regs).Fills s.tables t.tables)
      (fun t => t.tables = s.tables) ((native fuel).exec s) := by
  rw [Parse.native, exec_here_bind]
  refine registers_bind_frozen (keeps_eatKeyword _ s hs) rfl (fun _ h => h)
    fun _ s₁ hs₁ h₀₁ _ => ?_
  refine registers_bind_frozen (post_keyword _ hs₁) hs₁.2.2 (fun _ h => h) fun _ s₂ hs₂ _ h₂ => ?_
  refine registers_bind_frozen ((keeps_head fuel _ s₂ hs₂).yields (head_pos fuel _)) hs₂.2.2
    (fun _ h => h) fun d s₃ hs₃ h₂₃ hd => ?_
  rw [exec_bind, exec_insertFun]
  dsimp only
  rw [exec_pure]
  have hp : s.current.pos < s₃.current.pos :=
    ((h₀₁.pos_le hs.1).trans_lt h₂.2).trans_le (h₂₃.pos_le hs₂.1)
  have hold := AddedBefore.of_frozen hs hs₃
  obtain ⟨hts, hlive⟩ := hs₃.1.withFun hold hd.2 hp
  exact ⟨hts, ⟨rfl, ⟨.refl _, .refl _, Table.extends_insert _ _ _⟩, le_rfl, le_rfl⟩, hlive,
    (s₃.fills_withFun d).of_eq hs₃.2.2.symm⟩

theorem registers_localDecl (fuel : Nat) (hs : (frozen ts₀ s.tables).inv s) :
    Registers ts₀ s
      (fun v t => Live ts₀ t ∧ ({ vars := [.named v] } : Regs).Fills s.tables t.tables)
      (fun t => t.tables = s.tables) ((localDecl fuel).exec s) := by
  rw [Parse.localDecl, exec_here_bind]
  refine registers_bind_frozen (post_keyword _ hs) rfl (fun _ h => h) fun _ s₁ hs₁ _ h₁ => ?_
  refine registers_bind_frozen ((keeps_varDecl fuel _ s₁ hs₁).yields (varDecl_pos fuel _))
    hs₁.2.2 (fun _ h => h) fun d s₂ hs₂ h₁₂ hd => ?_
  rw [exec_pushScoped]
  have hp : s.current.pos < s₂.current.pos := h₁.2.trans_le (h₁₂.pos_le hs₁.1)
  have hold := AddedBefore.of_frozen hs hs₂
  obtain ⟨hts, hlive⟩ := hs₂.1.pushed hold hd.2 hp
  exact ⟨hts, ⟨rfl, ⟨.refl _, Table.extends_push _ _, .refl _⟩, le_rfl, le_rfl⟩, hlive,
    (s₂.fills_pushed d).of_eq hs₂.2.2.symm⟩

theorem registers_globalLines : ∀ (fuel : Nat) (s : ParseState), (frozen ts₀ s.tables).inv s →
    Registers ts₀ s (fun gs t => Live ts₀ t ∧
      ({ vars := gs.map (.named ·.var) } : Regs).Fills s.tables t.tables) (fun _ => True)
      ((globalLines fuel).exec s)
  | 0, s, hs => by
    rw [Parse.globalLines]
    exact registers_outOfFuel hs trivial
  | fuel + 1, s, hs => by
    rw [Parse.globalLines]
    refine ((registers_attempt hs.1 (registers_global fuel hs) fun _ h => h).mono (fun _ _ h => h)
      fun _ _ => trivial).bind fun o s₁ hs₁ h₀₁ ho => ?_
    cases o with
    | none =>
      -- the global was given up: nothing registered, the cursor back where it was
      obtain ⟨htab, hcur⟩ := ho.2 rfl
      exact registers_pure hs₁
        ⟨hs.2.1.of_eq h₀₁.tokens.symm htab hcur, Regs.fills_nil_of_eq htab⟩
    | some g =>
      obtain ⟨hl₁, hf₁⟩ := ho.1 g rfl
      refine registers_bind_frozen (keeps_lineBreak s₁ ⟨hs₁, hl₁, rfl⟩) rfl (fun _ _ => trivial)
        fun _ s₂ hs₂ _ _ => ?_
      refine (registers_globalLines fuel s₂ ⟨hs₂.1, hs₂.2.1, rfl⟩).bind
        fun gs s₃ hs₃ _ hgs => ?_
      exact registers_pure hs₃ ⟨hgs.1, hf₁.append (hgs.2.of_eq hs₂.2.2.symm)⟩

theorem registers_globalsBlock (fuel : Nat) (hs : (frozen ts₀ s.tables).inv s) :
    Registers ts₀ s (fun gs t => Live ts₀ t ∧
      ({ vars := gs.map (.named ·.var) } : Regs).Fills s.tables t.tables)
      (fun t => t.tables = s.tables ∨ s.current.token = .keyword .kwGlobals)
      ((globalsBlock fuel).exec s) := by
  rw [Parse.globalsBlock]
  refine registers_bind_frozen (post_keyword _ hs) rfl (fun _ h => .inl h) fun _ s₁ hs₁ _ h₁ => ?_
  refine Registers.mono (F := fun _ => True) ?_ (fun _ _ h => h)
    fun _ _ => .inr (eq_of_isKeyword h₁.1)
  refine registers_bind_frozen (keeps_lineBreak s₁ hs₁) hs₁.2.2 (fun _ _ => trivial)
    fun _ s₂ hs₂ _ _ => ?_
  refine (registers_globalLines fuel s₂ ⟨hs₂.1, hs₂.2.1, rfl⟩).bind fun gs s₃ hs₃ _ hgs => ?_
  refine registers_bind_frozen (keeps_keyword _ s₃ ⟨hs₃, hgs.1, rfl⟩) rfl (fun _ _ => trivial)
    fun _ s₄ hs₄ _ _ => ?_
  refine registers_pure hs₄.1 ⟨hs₄.2.1, ?_⟩
  rw [hs₄.2.2]
  exact hgs.2.of_eq hs₂.2.2.symm

theorem exec_native_off (fuel : Nat) (hc : isKeyword .kwConstant s.current.token = false)
    (hn : isKeyword .kwNative s.current.token = false) :
    (native fuel).exec s =
      (.error (s.expected (.keyword .kwNative)), s.record (s.expected (.keyword .kwNative))) := by
  rw [Parse.native, exec_here_bind, exec_bind, exec_eatKeyword, if_neg (by simp [hc])]
  dsimp only
  rw [exec_bind, exec_keyword, if_neg (by simp [hn])]

theorem exec_function_off (fuel : Nat) (hc : isKeyword .kwConstant s.current.token = false)
    (hf : isKeyword .kwFunction s.current.token = false) :
    (function fuel).exec s =
      (.error (s.expected (.keyword .kwFunction)),
        s.record (s.expected (.keyword .kwFunction))) := by
  rw [Parse.function, exec_here_bind, exec_bind, exec_eatKeyword, if_neg (by simp [hc])]
  dsimp only
  rw [exec_bind, exec_keyword, if_neg (by simp [hf])]

theorem registers_declItem (fuel : Nat) (acc : DeclPart) (hs : (frozen ts₀ s.tables).inv s) :
    Registers ts₀ s (fun o t =>
      (∀ acc', o = some acc' → Live ts₀ t ∧
        ∃ r : Regs, acc'.regs = acc.regs ++ r ∧ r.Fills s.tables t.tables) ∧
      (o = none → (Live ts₀ t ∧ t.tables = s.tables) ∨ t.current.token = .keyword .kwGlobals))
      (fun _ => True) ((declItem fuel acc).exec s) := by
  rw [Parse.declItem]
  refine ((registers_attempt hs.1 (registers_typeDecl hs) fun _ h => h).mono (fun _ _ h => h)
    fun _ _ => trivial).bind fun o₁ s₁ hs₁ h₀₁ ho₁ => ?_
  rcases o₁ with _ | id
  · obtain ⟨htab₁, hcur₁⟩ := ho₁.2 rfl
    have hl₁ : Live ts₀ s₁ := hs.2.1.of_eq h₀₁.tokens.symm htab₁ hcur₁
    refine ((registers_attempt hs₁ (registers_globalsBlock fuel ⟨hs₁, hl₁, rfl⟩)
      fun _ h => h).mono (fun _ _ h => h) fun _ _ => trivial).bind fun o₂ s₂ hs₂ h₁₂ ho₂ => ?_
    rcases o₂ with _ | gs
    · obtain ⟨hF₂, hcur₂⟩ := ho₂.2 rfl
      rcases hF₂ with htab₂ | hg₁
      · -- neither a type nor a block: try a native
        have hl₂ : Live ts₀ s₂ := hl₁.of_eq h₁₂.tokens.symm htab₂ hcur₂
        refine ((registers_attempt hs₂ (registers_native fuel ⟨hs₂, hl₂, rfl⟩)
          fun _ h => h).mono (fun _ _ h => h) fun _ _ => trivial).bind
            fun o₃ s₃ hs₃ h₂₃ ho₃ => ?_
        rcases o₃ with _ | n
        · obtain ⟨htab₃, hcur₃⟩ := ho₃.2 rfl
          refine registers_pure hs₃ ⟨fun _ h => ?_, fun _ => .inl
            ⟨hl₂.of_eq h₂₃.tokens.symm htab₃ hcur₃, htab₃.trans (htab₂.trans htab₁)⟩⟩
          cases h
        · obtain ⟨hl₃, hf₃⟩ := ho₃.1 n rfl
          refine registers_pure hs₃ ⟨fun _ h => ?_, fun h => ?_⟩
          · cases h
            refine ⟨hl₃, { funs := [n.fn] }, ?_, hf₃.of_eq (htab₂.trans htab₁).symm⟩
            ext1 <;> simp [DeclPart.regs]
          · cases h
      · -- a block failed at `globals` after registering: no native starts there
        have hg₂ : s₂.current.token = .keyword .kwGlobals := by
          rw [ParseState.current_congr h₁₂.tokens.symm hcur₂, hg₁]
        rw [exec_bind, exec_attempt_of_syntax (exec_native_off fuel (by rw [hg₂]; rfl)
          (by rw [hg₂]; rfl)) (expected_isSyntax _ _)]
        dsimp only
        rw [exec_pure]
        refine ⟨hs₂.of_eq rfl rfl rfl rfl, ⟨rfl, .refl _, le_rfl, le_rfl⟩,
          fun _ h => ?_, fun _ => .inr hg₂⟩
        cases h
    · obtain ⟨hl₂, hf₂⟩ := ho₂.1 gs rfl
      refine registers_pure hs₂ ⟨fun _ h => ?_, fun h => ?_⟩
      · cases h
        refine ⟨hl₂, { vars := gs.map (.named ·.var) }, ?_, hf₂.of_eq htab₁.symm⟩
        ext1 <;> simp [DeclPart.regs]
      · cases h
  · obtain ⟨hl₁, hf₁⟩ := ho₁.1 id rfl
    refine registers_pure hs₁ ⟨fun _ h => ?_, fun h => ?_⟩
    · cases h
      refine ⟨hl₁, { types := [id] }, ?_, hf₁⟩
      ext1 <;> simp [DeclPart.regs]
    · cases h

theorem registers_declarations : ∀ (fuel : Nat) (acc : DeclPart) (s : ParseState),
    (frozen ts₀ s.tables).inv s →
    Registers ts₀ s (fun acc' t =>
      (Live ts₀ t ∧ ∃ r : Regs, acc'.regs = acc.regs ++ r ∧ r.Fills s.tables t.tables) ∨
        t.current.token = .keyword .kwGlobals) (fun _ => True) ((declarations fuel acc).exec s)
  | 0, _, s, hs => by
    rw [Parse.declarations]
    exact registers_outOfFuel hs trivial
  | fuel + 1, acc, s, hs => by
    rw [Parse.declarations]
    refine (registers_declItem fuel acc hs).bind fun o s₁ hs₁ _ ho => ?_
    cases o with
    | none =>
      refine registers_pure hs₁ ?_
      rcases ho.2 rfl with ⟨hl₁, htab₁⟩ | hg
      · exact .inl ⟨hl₁, {}, (Regs.append_empty _).symm, Regs.fills_nil_of_eq htab₁⟩
      · exact .inr hg
    | some acc₁ =>
      obtain ⟨hl₁, r₁, hr₁, hf₁⟩ := ho.1 acc₁ rfl
      refine registers_bind_frozen (keeps_lineBreak s₁ ⟨hs₁, hl₁, rfl⟩) rfl (fun _ _ => trivial)
        fun _ s₂ hs₂ _ _ => ?_
      refine (registers_declarations fuel acc₁ s₂ ⟨hs₂.1, hs₂.2.1, rfl⟩).mono
        (fun acc' t h => ?_) fun _ _ => trivial
      rcases h with ⟨hl, r₂, hr₂, hf₂⟩ | hg
      · refine .inl ⟨hl, r₁ ++ r₂, ?_, hf₁.append (hf₂.of_eq hs₂.2.2.symm)⟩
        rw [hr₂, hr₁, Regs.append_assoc]
      · exact .inr hg

theorem registers_localLines : ∀ (fuel : Nat) (s : ParseState), (frozen ts₀ s.tables).inv s →
    Registers ts₀ s (fun vs t => Live ts₀ t ∧
      ({ vars := vs.map .named } : Regs).Fills s.tables t.tables) (fun _ => True)
      ((localLines fuel).exec s)
  | 0, s, hs => by
    rw [Parse.localLines]
    exact registers_outOfFuel hs trivial
  | fuel + 1, s, hs => by
    rw [Parse.localLines]
    refine ((registers_attempt hs.1 (registers_localDecl fuel hs) fun _ h => h).mono
      (fun _ _ h => h) fun _ _ => trivial).bind fun o s₁ hs₁ h₀₁ ho => ?_
    cases o with
    | none =>
      obtain ⟨htab, hcur⟩ := ho.2 rfl
      exact registers_pure hs₁
        ⟨hs.2.1.of_eq h₀₁.tokens.symm htab hcur, Regs.fills_nil_of_eq htab⟩
    | some v =>
      obtain ⟨hl₁, hf₁⟩ := ho.1 v rfl
      refine registers_bind_frozen (keeps_lineBreak s₁ ⟨hs₁, hl₁, rfl⟩) rfl (fun _ _ => trivial)
        fun _ s₂ hs₂ _ _ => ?_
      refine (registers_localLines fuel s₂ ⟨hs₂.1, hs₂.2.1, rfl⟩).bind fun vs s₃ hs₃ _ hvs => ?_
      exact registers_pure hs₃ ⟨hvs.1, hf₁.append (hvs.2.of_eq hs₂.2.2.symm)⟩

theorem registers_functionBody (fuel : Nat) (hs : (frozen ts₀ s.tables).inv s) :
    Registers ts₀ s (fun b t => Live ts₀ t ∧
      ({ vars := b.1.map .named } : Regs).Fills s.tables t.tables) (fun _ => True)
      ((functionBody fuel).exec s) := by
  rw [Parse.functionBody]
  refine registers_bind_frozen (keeps_lineBreak s hs) rfl (fun _ _ => trivial)
    fun _ s₁ hs₁ _ _ => ?_
  refine (registers_localLines fuel s₁ ⟨hs₁.1, hs₁.2.1, rfl⟩).bind fun vs s₂ hs₂ _ hvs => ?_
  -- the statements, `endfunction` and the line break register nothing
  refine registers_bind_frozen ((stmtRules fuel).statements 0 s₂ ⟨hs₂, hvs.1, rfl⟩) rfl
    (fun _ _ => trivial) fun _ s₃ hs₃ _ _ => ?_
  refine registers_bind_frozen (keeps_keyword _ s₃ hs₃) hs₃.2.2 (fun _ _ => trivial)
    fun _ s₄ hs₄ _ _ => ?_
  refine registers_bind_frozen (keeps_lineBreak s₄ hs₄) hs₄.2.2 (fun _ _ => trivial)
    fun _ s₅ hs₅ _ _ => ?_
  refine registers_pure hs₅.1 ⟨hs₅.2.1, ?_⟩
  rw [hs₅.2.2]
  exact hvs.2.of_eq hs₁.2.2.symm

theorem fn?_withFun {d : FunDecl} {ts : Tables} (h : (s.withFun d).tables.Extends ts) :
    ts.fn? ⟨s.tables.funs.size⟩ = some d := by
  have hlt : s.tables.funs.size < (s.withFun d).tables.funs.size := by
    simp [ParseState.withFun]
  rw [Tables.fn?, h.funs.get?_eq hlt]
  simp [ParseState.withFun, Table.get?_insert]

theorem registers_function (fuel : Nat) (hs : (frozen ts₀ s.tables).inv s) :
    Registers ts₀ s (fun fd t => Live ts₀ t ∧
      ({ vars := fd.varSlots t.tables, funs := [fd.fn] } : Regs).Fills s.tables t.tables)
      (fun t => t.tables = s.tables ∨
        s.current.token = .keyword .kwConstant ∨ s.current.token = .keyword .kwFunction)
      ((function fuel).exec s) := by
  rw [Parse.function, exec_here_bind]
  refine registers_bind_frozen (post_eatKeyword _ hs) rfl (fun _ h => .inl h)
    fun _ s₁ hs₁ _ h₁ => ?_
  refine registers_bind_frozen (post_keyword _ hs₁) hs₁.2.2 (fun _ h => .inl h)
    fun _ s₂ hs₂ _ h₂ => ?_
  -- the function started at `constant` or at `function`, and has been read past its start
  have hstart : s.current.token = .keyword .kwConstant ∨
      s.current.token = .keyword .kwFunction := by
    rcases h₁ with ⟨_, hc, _⟩ | ⟨_, rfl⟩
    · exact .inl (eq_of_isKeyword hc)
    · exact .inr (eq_of_isKeyword h₂.1)
  have hp₂ : s.current.pos < s₂.current.pos := by
    rcases h₁ with ⟨_, _, hlt⟩ | ⟨_, rfl⟩
    · exact hlt.trans h₂.2
    · exact h₂.2
  refine Registers.mono (F := fun _ => True) ?_ (fun _ _ h => h) fun _ _ => .inr hstart
  refine registers_bind_frozen ((keeps_head fuel _ s₂ hs₂).yields (head_pos fuel _)) hs₂.2.2
    (fun _ _ => trivial) fun d s₃ hs₃ h₂₃ hd => ?_
  have hold := AddedBefore.of_frozen hs hs₃
  obtain ⟨hts₄, hl₄⟩ := hs₃.1.function hold hd.2 (hp₂.trans_le (h₂₃.pos_le hs₂.1))
  rw [exec_bind, exec_insertFun]
  dsimp only
  rw [exec_bind, exec_clearScope]
  dsimp only
  rw [exec_bind, exec_forIn d.params _ (fun p t => t.pushed (p.decl s.current.pos))
    (fun _ _ => rfl)]
  dsimp only
  have hparams := (s₃.withFun d).unscoped.fills_pushParams s.current.pos d.params
  obtain ⟨htok₄, hcur₄, hreach₄⟩ :=
    ParseState.pushParams_frame (s := (s₃.withFun d).unscoped) s.current.pos d.params
  refine Registers.le ?_ ⟨htok₄.symm, ((s₃.fills_withFun d).append hparams).grows, hcur₄.ge,
    hreach₄.ge⟩
  refine (registers_catch (registers_functionBody fuel ⟨hts₄, hl₄, rfl⟩)).bind
    fun body s₅ hs₅ _ hb => ?_
  rw [exec_bind, exec_clearScope]
  dsimp only
  rcases body with e | ⟨locals, stmts⟩
  · -- the scope is emptied and the body's failure passes on
    rw [exec_throw]
    exact ⟨hs₅.of_eq rfl rfl rfl rfl, ⟨rfl, .refl _, le_rfl, le_rfl⟩, (hb.2 e rfl).1, trivial⟩
  · rw [exec_pure]
    obtain ⟨hl₅, hf₅⟩ := hb.1 _ rfl
    have hext := (hparams.append hf₅).grows
    have hslots : ∀ c, FunctionDef.varSlots s₅.tables ⟨c, ⟨s₃.tables.funs.size⟩, locals, stmts⟩ =
        d.params.map (VarSlot.param · s.current.pos) ++ locals.map .named := by
      simp [FunctionDef.varSlots, fn?_withFun hext, hd.2]
    refine ⟨hs₅.of_eq rfl rfl rfl rfl, ⟨rfl, .refl _, le_rfl, le_rfl⟩, hl₅, ?_⟩
    show Regs.Fills { vars := FunctionDef.varSlots s₅.tables _, funs := _ } s.tables s₅.tables
    rw [hslots]
    have hall := ((s₃.fills_withFun d).append (hparams.append hf₅)).of_eq hs₃.2.2.symm
    have hr : (⟨[], d.params.map (VarSlot.param · s.current.pos) ++ locals.map .named,
        [⟨s₃.tables.funs.size⟩]⟩ : Regs) =
        { funs := [⟨s₃.tables.funs.size⟩] } ++
          ({ vars := d.params.map (VarSlot.param · s.current.pos) } ++
            { vars := locals.map .named }) := by
      ext1 <;> simp
    rw [hr]
    exact hall

theorem registers_functions : ∀ (fuel : Nat) (s : ParseState), (frozen ts₀ s.tables).inv s →
    Registers ts₀ s (fun fns t =>
      (Live ts₀ t ∧
        ({ vars := fns.flatMap (·.varSlots t.tables), funs := fns.map (·.fn) } : Regs).Fills
          s.tables t.tables) ∨
      (t.current.token ≠ .eof ∧ t.current.token ≠ .newline)) (fun _ => True)
      ((functions fuel).exec s)
  | 0, s, hs => by
    rw [Parse.functions]
    exact registers_outOfFuel hs trivial
  | fuel + 1, s, hs => by
    rw [Parse.functions]
    refine ((registers_attempt hs.1 (registers_function fuel hs) fun _ h => h).mono
      (fun _ _ h => h) fun _ _ => trivial).bind fun o s₁ hs₁ h₀₁ ho => ?_
    cases o with
    | none =>
      obtain ⟨hF, hcur⟩ := ho.2 rfl
      refine registers_pure hs₁ ?_
      rcases hF with htab | hk
      · exact .inl ⟨hs.2.1.of_eq h₀₁.tokens.symm htab hcur, Regs.fills_nil_of_eq htab⟩
      · -- given up at its first keyword
        right
        rw [ParseState.current_congr h₀₁.tokens.symm hcur]
        rcases hk with hk | hk <;> rw [hk] <;> simp
    | some fd =>
      obtain ⟨hl₁, hf₁⟩ := ho.1 fd rfl
      refine (registers_functions fuel s₁ ⟨hs₁, hl₁, rfl⟩).bind fun fns s₂ hs₂ h₁₂ hfns => ?_
      refine registers_pure hs₂ ?_
      rcases hfns with ⟨hl₂, hf₂⟩ | hstuck
      · -- the function's parameters are read from its signature, which later runs keep
        have hslots : fd.varSlots s₂.tables = fd.varSlots s₁.tables :=
          FunctionDef.varSlots_of_extends h₁₂.tables (hf₁.fun_lt (List.mem_singleton_self _))
        have hr :
            (⟨[], (fd :: fns).flatMap (·.varSlots s₂.tables), (fd :: fns).map (·.fn)⟩ : Regs) =
            ⟨[], fd.varSlots s₁.tables, [fd.fn]⟩ ++
              ⟨[], fns.flatMap (·.varSlots s₂.tables), fns.map (·.fn)⟩ := by
          ext1 <;> simp [hslots]
        exact .inl ⟨hl₂, hr ▸ hf₁.append hf₂⟩
      · exact .inr hstuck

theorem registers_functions_at_globals (fuel : Nat) (hs : Tidy ts₀ s)
    (hg : s.current.token = .keyword .kwGlobals) :
    Registers ts₀ s (fun fns t => fns = [] ∧ t.current.token = .keyword .kwGlobals) (fun _ => True)
      ((functions (fuel + 1)).exec s) := by
  rw [Parse.functions, exec_bind, exec_attempt_of_syntax (exec_function_off fuel
    (by rw [hg]; rfl) (by rw [hg]; rfl)) (expected_isSyntax _ _)]
  dsimp only
  rw [exec_pure]
  exact ⟨hs.of_eq rfl rfl rfl rfl, ⟨rfl, .refl _, le_rfl, le_rfl⟩, rfl, hg⟩

theorem registers_endOfInput_stuck {Q : Unit → ParseState → Prop} (hs : Tidy ts₀ s)
    (h : s.current.token ≠ .eof ∧ s.current.token ≠ .newline) :
    Registers ts₀ s Q (fun _ => True) (endOfInput.exec s) := by
  -- no line break to skip: the token stays
  have hcur : s.skipped.current = s.current := skipped_current h.2
  rw [Parse.endOfInput, exec_bind, exec_skipNewlines]
  dsimp only
  rw [exec_bind, exec_peek]
  dsimp only
  split
  · next heq => exact absurd (hcur ▸ heq) h.1
  · rw [exec_fail]
    exact ⟨hs.skipped.record _, ⟨rfl, .refl _, le_skipLineBreaks _ _, le_max_left _ _⟩,
      fun he => absurd he (by simp [expected_isSyntax]), trivial⟩

/-- A whole file: accepted, it accounts for everything registered while it was read. -/
theorem registers_file (fuel : Nat) (path : String) (hs : (frozen ts₀ s.tables).inv s) :
    Registers ts₀ s (fun f t => (f.regs t.tables).Fills s.tables t.tables) (fun _ => True)
      ((file (fuel + 1) path).exec s) := by
  rw [Parse.file]
  refine registers_bind_frozen (keeps_skipNewlines s hs) rfl (fun _ _ => trivial)
    fun _ s₁ hs₁ _ _ => ?_
  refine (registers_declarations (fuel + 1) {} s₁ ⟨hs₁.1, hs₁.2.1, rfl⟩).bind
    fun decls s₂ hs₂ _ hd => ?_
  rcases hd with ⟨hl₂, r, hr, hf₂⟩ | hg₂
  · refine (registers_functions (fuel + 1) s₂ ⟨hs₂, hl₂, rfl⟩).bind fun fns s₃ hs₃ _ hfns => ?_
    rcases hfns with ⟨hl₃, hf₃⟩ | hstuck
    · refine registers_bind_frozen (keeps_endOfInput s₃ ⟨hs₃, hl₃, rfl⟩) rfl (fun _ _ => trivial)
        fun _ s₄ hs₄ _ _ => ?_
      refine registers_pure hs₄.1 ?_
      rw [hs₄.2.2, File.regs_mk, hr]
      exact (hf₂.of_eq hs₁.2.2.symm).append hf₃
    · -- a function given up: the input does not end at its keyword
      exact (registers_endOfInput_stuck (Q := fun _ _ => False) hs₃ hstuck).bind
        fun _ _ _ _ h => h.elim
  · -- a block given up at `globals`: no function starts there, and the input does not end
    refine (registers_functions_at_globals fuel hs₂ hg₂).bind fun _ s₃ hs₃ _ hfns => ?_
    have hstuck : s₃.current.token ≠ .eof ∧ s₃.current.token ≠ .newline := by
      rw [hfns.2]
      simp
    exact (registers_endOfInput_stuck (Q := fun _ _ => False) hs₃ hstuck).bind
      fun _ _ _ _ h => h.elim

end Rules

end Jass
