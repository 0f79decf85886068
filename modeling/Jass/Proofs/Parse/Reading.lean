import Jass.Proofs.Names
/-!
# Reading names

Most rules read names without storing anything. In the discipline `reading` the tables and the
function scope stay fixed, and every reference read is resolved in them (`AnyRef.ResolvedIn`),
with the scope's positions in view. The rules that store a declaration read it first and store
it last; so what a type declaration, a global or a native stores refers to names as the tables
resolve them at the start of the rule, with no parameter or local in view (`StoresResolved`),
and so does a standalone expression (`parseExpr_resolved`). The declaration part of a file leaves
the scope alone (`declarations_scope`), so that its rules do start with an empty one.
-/

namespace Jass

open Jass.Parser Parse

variable {α β : Type}

/-- The scope `S` holds, for each name, the last variable of that name at positions `[b, j)` of
`t`. -/
def ScopeIs (S : Std.HashMap String VarId) (t : Table VarDecl) (b j : Nat) : Prop :=
  ∀ n, S[n]? = (t.lastNamed VarDecl.name n b j).map VarId.mk

theorem scopeIs_empty (t : Table VarDecl) (j : Nat) : ScopeIs {} t j j := by
  intro n
  simp [Table.lastNamed_of_le _ (Nat.le_refl j)]

theorem ScopeIs.push {S : Std.HashMap String VarId} {t : Table VarDecl} {b : Nat}
    (h : ScopeIs S t b t.size) (hb : b ≤ t.size) (d : VarDecl) :
    ScopeIs (S.insert d.name ⟨t.size⟩) (t.push d).1 b (t.size + 1) := by
  intro n
  have hbelow : (t.push d).1.lastNamed VarDecl.name n b t.size =
      t.lastNamed VarDecl.name n b t.size :=
    Table.lastNamed_congr _ fun i hi => by rw [Table.get?_push, if_neg (by omega)]
  rw [Std.HashMap.getElem?_insert, Table.lastNamed_succ, hbelow, Table.get?_push, if_pos rfl]
  by_cases hn : d.name = n
  · simp [hn, hb]
  · simp [hn, h n]

theorem ParseState.varRef_eq_varIn {s : ParseState} {b j : Nat}
    (h : ScopeIs s.scope s.tables.vars b j) (n : String) : s.varRef n = s.tables.varIn b j n := by
  unfold ParseState.varRef Tables.varIn
  rw [h n]
  cases s.tables.vars.lastNamed VarDecl.name n b j <;> rfl

/-- Reading names without storing anything, in tables `T` and scope `S`, where `S` holds the last
variable of each name at positions `[b, j)`: every reference read is resolved there. -/
def reading (T : Tables) (S : Std.HashMap String VarId) (b j : Nat) : Discipline where
  inv s := s.tables = T ∧ s.scope = S ∧ T.Named ∧ ScopeIs S T.vars b j
  le _ _ := True
  err _ _ := True
  ref r _ := r.ResolvedIn T b j
  le_refl _ := trivial
  le_trans _ _ := trivial
  ref_le h _ := h
  step _ hs _ := ⟨hs, trivial⟩
  skip _ hs := ⟨hs, trivial⟩
  fail _ _ hs := ⟨hs, trivial, trivial⟩
  halt _ _ _ _ := trivial
  rewind _ hs _ _ _ := ⟨hs, trivial⟩
  var s n hs := by
    obtain ⟨rfl, rfl, hn, hS⟩ := hs
    rw [ParseState.varRef_eq_varIn hS]
    exact AnyRef.resolvedIn_var hn n
  fn s n hs := by
    obtain ⟨rfl, -, hn, -⟩ := hs
    exact AnyRef.resolvedIn_fn hn n
  type s n hs := by
    obtain ⟨rfl, -, hn, -⟩ := hs
    exact AnyRef.resolvedIn_type hn n

theorem reading_outside {s : ParseState} (hn : s.tables.Named) (hs : s.scope = {}) :
    (reading s.tables {} s.tables.vars.size s.tables.vars.size).inv s :=
  ⟨rfl, hs, hn, scopeIs_empty _ _⟩

theorem Discipline.post_bind_then {D : Discipline} {p : Parser α} {f : α → Parser β}
    {Q : α → ParseState → Prop} {s : ParseState} {P : Except ParseError β × ParseState → Prop}
    (hp : D.Keeps p Q) (hs : D.inv s) (herr : ∀ e s', D.inv s' → D.err e s' → P (.error e, s'))
    (hok : ∀ a s', D.inv s' → Q a s' → P ((f a).exec s')) : P ((p >>= f).exec s) := by
  have h := hp s hs
  rw [exec_bind]
  rcases hr : p.exec s with ⟨_ | a, s'⟩ <;> rw [hr] at h
  · exact herr _ _ h.1 h.2.2
  · exact hok a s' h.1 h.2.2

/-! ## What the declaration part stores -/

namespace Table

variable {t : Table α} {k : Nat} {P : Nat → α → Prop}

theorem allFrom_size (t : Table α) (P : Nat → α → Prop) : t.AllFrom t.size P :=
  fun _ _ hi hx => by rw [get?_eq_none hi] at hx; cases hx

theorem AllFrom.insert (h : t.AllFrom k P) (n : String) {x : α} (hx : P t.size x) :
    (t.insert n x).1.AllFrom k P := by
  intro i y hi hy
  rw [get?_insert] at hy
  split at hy
  · next heq =>
    cases hy
    exact heq ▸ hx
  · exact h i y hi hy

end Table

/-- A reference read outside functions: resolved with no parameter or local in view, so a
variable name stands for the registered global. -/
def AnyRef.ResolvedOutside (ts : Tables) (r : AnyRef) : Prop :=
  r.ResolvedIn ts ts.vars.size ts.vars.size

/-- Every declaration that a run from `s` stores refers to names as `s`'s tables resolve them,
with no parameter or local in view. -/
structure ParseState.StoresResolved (s : ParseState) (r : Except ParseError α × ParseState) :
    Prop where
  types : r.2.tables.types.AllFrom s.tables.types.size fun _ d =>
    ∀ t ∈ d.refs, t.ResolvedOutside s.tables
  vars : r.2.tables.vars.AllFrom s.tables.vars.size fun _ d =>
    ∀ t ∈ d.refs, t.ResolvedOutside s.tables
  funs : r.2.tables.funs.AllFrom s.tables.funs.size fun _ d =>
    ∀ t ∈ d.refs, t.ResolvedOutside s.tables

namespace ParseState

variable {s t : ParseState}

theorem StoresResolved.of_tables {e : ParseError} (h : t.tables = s.tables) :
    s.StoresResolved ((.error e : Except ParseError α), t) := by
  refine ⟨?_, ?_, ?_⟩ <;> simp only [h] <;> exact Table.allFrom_size _ _

theorem StoresResolved.withType {d : TypeDecl} (a : α) (h : t.tables = s.tables)
    (hd : ∀ r ∈ d.refs, r.ResolvedOutside s.tables) :
    s.StoresResolved ((.ok a : Except ParseError α), t.withType d) := by
  refine ⟨?_, ?_, ?_⟩ <;> simp only [ParseState.withType, h]
  · refine (Table.allFrom_size _ _).insert _ ?_
    exact hd
  all_goals exact Table.allFrom_size _ _

theorem StoresResolved.withVar {d : VarDecl} (a : α) (h : t.tables = s.tables)
    (hd : ∀ r ∈ d.refs, r.ResolvedOutside s.tables) :
    s.StoresResolved ((.ok a : Except ParseError α), t.withVar d) := by
  refine ⟨?_, ?_, ?_⟩ <;> simp only [ParseState.withVar, h]
  · exact Table.allFrom_size _ _
  · refine (Table.allFrom_size _ _).insert _ ?_
    exact hd
  · exact Table.allFrom_size _ _

theorem StoresResolved.withFun {d : FunDecl} (a : α) (h : t.tables = s.tables)
    (hd : ∀ r ∈ d.refs, r.ResolvedOutside s.tables) :
    s.StoresResolved ((.ok a : Except ParseError α), t.withFun d) := by
  refine ⟨?_, ?_, ?_⟩ <;> simp only [ParseState.withFun, h]
  · exact Table.allFrom_size _ _
  · exact Table.allFrom_size _ _
  · refine (Table.allFrom_size _ _).insert _ ?_
    exact hd

end ParseState

open Discipline

section Outside

variable {s : ParseState} (hn : s.tables.Named) (hs : s.scope = {})
include hn hs

theorem typeDecl_stores : s.StoresResolved (typeDecl.exec s) := by
  have herr : ∀ (e : ParseError) t,
      (reading s.tables {} s.tables.vars.size s.tables.vars.size).inv t → True →
      s.StoresResolved ((.error e : Except ParseError TypeId), t) :=
    fun _ _ ht _ => .of_tables ht.1
  rw [Parse.typeDecl]
  refine post_bind_then keeps_here (reading_outside hn hs) herr fun pos s₁ hs₁ _ => ?_
  refine post_bind_then (keeps_keyword _) hs₁ herr fun _ s₂ hs₂ _ => ?_
  refine post_bind_then (keeps_ident _) hs₂ herr fun name s₃ hs₃ _ => ?_
  refine post_bind_then (keeps_keyword _) hs₃ herr fun _ s₄ hs₄ _ => ?_
  refine post_bind_then (keeps_ident _) hs₄ herr fun parent s₅ hs₅ _ => ?_
  refine post_bind_then (keeps_resolveType parent) hs₅ herr fun r s₆ hs₆ hr => ?_
  rw [exec_insertType]
  refine .withType _ hs₆.1 fun t ht => ?_
  simp only [TypeDecl.refs, Option.map_some, Option.getD_some, List.mem_singleton] at ht
  subst ht
  exact hr

theorem global_stores (fuel : Nat) : s.StoresResolved ((global fuel).exec s) := by
  have herr : ∀ (e : ParseError) t,
      (reading s.tables {} s.tables.vars.size s.tables.vars.size).inv t → True →
      s.StoresResolved ((.error e : Except ParseError Global), t) :=
    fun _ _ ht _ => .of_tables ht.1
  rw [Parse.global]
  refine post_bind_then keeps_here (reading_outside hn hs) herr fun pos s₁ hs₁ _ => ?_
  refine post_bind_then (keeps_eatKeyword _) hs₁ herr fun _ s₂ hs₂ _ => ?_
  refine post_bind_then (keeps_varDecl fuel pos) hs₂ herr fun d s₃ hs₃ hd => ?_
  rw [exec_bind, exec_insertVar]
  exact .withVar _ hs₃.1 hd.1

theorem native_stores (fuel : Nat) : s.StoresResolved ((native fuel).exec s) := by
  have herr : ∀ (e : ParseError) t,
      (reading s.tables {} s.tables.vars.size s.tables.vars.size).inv t → True →
      s.StoresResolved ((.error e : Except ParseError Native), t) :=
    fun _ _ ht _ => .of_tables ht.1
  rw [Parse.native]
  refine post_bind_then keeps_here (reading_outside hn hs) herr fun pos s₁ hs₁ _ => ?_
  refine post_bind_then (keeps_eatKeyword _) hs₁ herr fun _ s₂ hs₂ _ => ?_
  refine post_bind_then (keeps_keyword _) hs₂ herr fun _ s₃ hs₃ _ => ?_
  refine post_bind_then (keeps_head fuel pos) hs₃ herr fun d s₄ hs₄ hd => ?_
  rw [exec_bind, exec_insertFun]
  exact .withFun _ hs₄.1 hd

end Outside

def keepsScope (S : Std.HashMap String VarId) : RegDiscipline where
  inv s := s.scope = S
  le _ _ := True
  err _ _ := True
  ref _ _ := True
  le_refl _ := trivial
  le_trans _ _ := trivial
  ref_le _ _ := trivial
  step _ hs _ := ⟨hs, trivial⟩
  skip _ hs := ⟨hs, trivial⟩
  fail _ _ hs := ⟨hs, trivial, trivial⟩
  halt _ _ _ _ := trivial
  rewind _ hs _ _ _ := ⟨hs, trivial⟩
  var _ _ _ := trivial
  fn _ _ _ := trivial
  type _ _ _ := trivial
  insertType _ _ hs _ := ⟨hs, trivial, trivial⟩
  insertVar _ _ hs _ _ := ⟨hs, trivial, trivial⟩
  insertFun _ _ hs _ := ⟨hs, trivial, trivial⟩

theorem declarations_scope (fuel : Nat) (acc : DeclPart) (s : ParseState) :
    ((declarations fuel acc).exec s).2.scope = s.scope := by
  have h := (keepsScope s.scope).declRules.keeps_declarations fuel acc s rfl fun _ _ => trivial
  rcases hr : (declarations fuel acc).exec s with ⟨_ | _, t⟩ <;> rw [hr] at h
  · exact h.1
  · exact h.1

theorem parseExpr_resolved {src : String} {ts : Tables} {lim : Limits} {e : Expr}
    (hn : ts.Named) (h : parseExpr src ts lim = .ok e) : ∀ r ∈ e.refs, r.ResolvedOutside ts := by
  unfold parseExpr at h
  split at h
  · cases h
  · next tokens _ =>
    obtain ⟨_, -, he⟩ := parseExprTokens_keeps ((exprRules (Parse.budget tokens.size)).expr 0)
      (fun _ _ _ hx hst => hx.le hst) (reading_outside hn rfl) h
    exact he

end Jass
