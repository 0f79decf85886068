import Jass.Proofs.Parse.Declarations
import Jass.Session
/-!
# Handles stay valid

A handle is a position in one of the session's tables. The tables only grow at their ends, so a
handle that names an entry keeps naming it. The parser stores a declaration only after reading
its references, and a name becomes a handle only when it is registered or in the function scope;
so every handle that the tables and the parsed files hold names an entry of its own table.

The main statement, `reachable_handlesValid`, says so of every session that a run of parses
reaches from a fresh one, and that each further parse only appends to the tables, whether the
file is accepted or not.
-/

namespace Jass

/-- A reference is valid in `ts` when, resolved, it is the position of an entry of its own
table. -/
def AnyRef.ValidIn (ts : Tables) : AnyRef → Prop
  | .type (.resolved id) => id.index < ts.types.size
  | .var (.resolved id) => id.index < ts.vars.size
  | .fn (.resolved id) => id.index < ts.funs.size
  | .type (.unresolved _) | .var (.unresolved _) | .fn (.unresolved _) => True

namespace Table

variable {α : Type}

/-- `t'` holds the entries of `t` at their positions, and perhaps more after them. -/
def Extends (t t' : Table α) : Prop := t.entries.toList <+: t'.entries.toList

def NamesStored (t : Table α) : Prop := ∀ n i, t.lookup? n = some i → i < t.size

def All (P : α → Prop) (t : Table α) : Prop := ∀ i x, t.get? i = some x → P x

theorem Extends.refl (t : Table α) : t.Extends t := List.prefix_refl _

theorem Extends.trans {t t' t'' : Table α} (h : t.Extends t') (h' : t'.Extends t'') :
    t.Extends t'' :=
  List.IsPrefix.trans h h'

theorem Extends.size_le {t t' : Table α} (h : t.Extends t') : t.size ≤ t'.size := by
  simpa [size] using h.length_le

theorem extends_push (t : Table α) (x : α) : t.Extends (t.push x).1 := by
  simp [Extends, push]

theorem extends_insert (t : Table α) (n : String) (x : α) : t.Extends (t.insert n x).1 := by
  simp [Extends, insert]

theorem namesStored_empty : ({} : Table α).NamesStored := by
  intro n i h
  simp [lookup?] at h

theorem NamesStored.push {t : Table α} (h : t.NamesStored) (x : α) :
    (t.push x).1.NamesStored := by
  intro n i hi
  rw [lookup?_push] at hi
  have := h n i hi
  rw [size_push]
  omega

theorem NamesStored.insert {t : Table α} (h : t.NamesStored) (n : String) (x : α) :
    (t.insert n x).1.NamesStored := by
  intro m i hi
  rw [lookup?_insert] at hi
  rw [size_insert]
  split at hi
  · cases hi
    omega
  · have := h m i hi
    omega

theorem all_empty (P : α → Prop) : ({} : Table α).All P := by
  intro i x h
  simp [get?] at h

theorem All.mono {P Q : α → Prop} {t : Table α} (h : t.All P) (hPQ : ∀ x, P x → Q x) :
    t.All Q :=
  fun i x hx => hPQ x (h i x hx)

theorem All.push {P : α → Prop} {t : Table α} (h : t.All P) {x : α} (hx : P x) :
    (t.push x).1.All P := by
  intro i y hy
  rw [get?_push] at hy
  split at hy
  · cases hy
    exact hx
  · exact h i y hy

theorem All.insert {P : α → Prop} {t : Table α} (h : t.All P) (n : String) {x : α} (hx : P x) :
    (t.insert n x).1.All P := by
  intro i y hy
  rw [get?_insert] at hy
  split at hy
  · cases hy
    exact hx
  · exact h i y hy

end Table

namespace Tables

structure Extends (ts ts' : Tables) : Prop where
  types : ts.types.Extends ts'.types
  vars : ts.vars.Extends ts'.vars
  funs : ts.funs.Extends ts'.funs

theorem Extends.refl (ts : Tables) : ts.Extends ts := ⟨.refl _, .refl _, .refl _⟩

theorem Extends.trans {ts ts' ts'' : Tables} (h : ts.Extends ts') (h' : ts'.Extends ts'') :
    ts.Extends ts'' :=
  ⟨h.types.trans h'.types, h.vars.trans h'.vars, h.funs.trans h'.funs⟩

/-- The tables are closed when every name they register is that of a stored entry, and every
handle inside their entries (type parents, variable types and initializers, parameter and
result types) is valid in them. -/
structure Closed (ts : Tables) : Prop where
  types_named : ts.types.NamesStored
  vars_named : ts.vars.NamesStored
  funs_named : ts.funs.NamesStored
  types : ts.types.All fun d => ∀ r ∈ d.refs, r.ValidIn ts
  vars : ts.vars.All fun d => ∀ r ∈ d.refs, r.ValidIn ts
  funs : ts.funs.All fun d => ∀ r ∈ d.refs, r.ValidIn ts

end Tables

theorem AnyRef.ValidIn.mono {r : AnyRef} {ts ts' : Tables} (h : r.ValidIn ts)
    (hts : ts.Extends ts') : r.ValidIn ts' := by
  rcases r with (id | _) | (id | _) | (id | _)
  · exact Nat.lt_of_lt_of_le h hts.types.size_le
  · trivial
  · exact Nat.lt_of_lt_of_le h hts.vars.size_le
  · trivial
  · exact Nat.lt_of_lt_of_le h hts.funs.size_le
  · trivial

namespace Tables

variable {ts ts' : Tables}

theorem validIn_of_extends (hts : ts.Extends ts') {rs : List AnyRef}
    (h : ∀ r ∈ rs, r.ValidIn ts) : ∀ r ∈ rs, r.ValidIn ts' :=
  fun r hr => (h r hr).mono hts

theorem Closed.grow (h : ts.Closed) (hts : ts.Extends ts')
    (types_named : ts'.types.NamesStored) (vars_named : ts'.vars.NamesStored)
    (funs_named : ts'.funs.NamesStored)
    (types : (ts.types.All fun d => ∀ r ∈ d.refs, r.ValidIn ts') →
      ts'.types.All fun d => ∀ r ∈ d.refs, r.ValidIn ts')
    (vars : (ts.vars.All fun d => ∀ r ∈ d.refs, r.ValidIn ts') →
      ts'.vars.All fun d => ∀ r ∈ d.refs, r.ValidIn ts')
    (funs : (ts.funs.All fun d => ∀ r ∈ d.refs, r.ValidIn ts') →
      ts'.funs.All fun d => ∀ r ∈ d.refs, r.ValidIn ts') : ts'.Closed where
  types_named := types_named
  vars_named := vars_named
  funs_named := funs_named
  types := types (h.types.mono fun _ => validIn_of_extends hts)
  vars := vars (h.vars.mono fun _ => validIn_of_extends hts)
  funs := funs (h.funs.mono fun _ => validIn_of_extends hts)

theorem resolveType_validIn (h : ts.types.NamesStored) (name : String) :
    (AnyRef.type (ts.resolveType name)).ValidIn ts := by
  unfold resolveType
  split
  · exact h name _ ‹_›
  · trivial

theorem resolveVar_validIn (h : ts.vars.NamesStored) (name : String) :
    (AnyRef.var (ts.resolveVar name)).ValidIn ts := by
  unfold resolveVar
  split
  · exact h name _ ‹_›
  · trivial

theorem resolveFun_validIn (h : ts.funs.NamesStored) (name : String) :
    (AnyRef.fn (ts.resolveFun name)).ValidIn ts := by
  unfold resolveFun
  split
  · exact h name _ ‹_›
  · trivial

theorem initial_closed : initial.Closed := by
  -- the base types are registered one after the other, each with no references
  have step : ∀ (l : List String) (t : Table TypeDecl), t.NamesStored →
      t.All (fun d => d.refs = []) →
      (l.foldl (fun t n => (t.insert n ⟨n, none, none⟩).1) t).NamesStored ∧
        (l.foldl (fun t n => (t.insert n ⟨n, none, none⟩).1) t).All (fun d => d.refs = []) := by
    intro l
    induction l with
    | nil => exact fun t hn ha => ⟨hn, ha⟩
    | cons n l ih => exact fun t hn ha => ih _ (hn.insert n _) (ha.insert n rfl)
  obtain ⟨hn, ha⟩ := step baseTypeNames {} Table.namesStored_empty (Table.all_empty _)
  exact {
    types_named := hn
    vars_named := Table.namesStored_empty
    funs_named := Table.namesStored_empty
    types := ha.mono fun d hd r hr => by simp [hd] at hr
    vars := Table.all_empty _
    funs := Table.all_empty _ }

end Tables

/-! ## The discipline of valid handles -/

/-- In every state of a parse the tables are closed and the scope holds only stored
variables. -/
def ParseState.HandlesValid (s : ParseState) : Prop :=
  s.tables.Closed ∧ ∀ (n : String) (id : VarId), s.scope[n]? = some id → id.index < s.tables.vars.size

/-- Valid handles as a discipline: states keep their tables closed, the tables only grow, and
every reference read is valid. -/
def handles : DeclDiscipline where
  inv := ParseState.HandlesValid
  le s t := s.tables.Extends t.tables
  err _ _ := True
  ref r s := r.ValidIn s.tables
  le_refl s := .refl s.tables
  le_trans := Tables.Extends.trans
  ref_le := AnyRef.ValidIn.mono
  step _ hs _ := ⟨hs, .refl _⟩
  skip _ hs := ⟨hs, .refl _⟩
  fail _ _ hs := ⟨hs, .refl _, trivial⟩
  halt _ _ _ _ := trivial
  rewind _ hs h _ _ := ⟨hs, h⟩
  var s name hs := by
    unfold ParseState.varRef
    split
    · exact hs.2 name _ ‹_›
    · exact Tables.resolveVar_validIn hs.1.vars_named name
  fn s name hs := Tables.resolveFun_validIn hs.1.funs_named name
  type s name hs := Tables.resolveType_validIn hs.1.types_named name
  insertType s d hs hd := by
    have hts : s.tables.Extends (s.withType d).tables := ⟨Table.extends_insert .., .refl _, .refl _⟩
    refine ⟨⟨hs.1.grow hts (hs.1.types_named.insert d.name d) hs.1.vars_named hs.1.funs_named
      (·.insert _ (Tables.validIn_of_extends hts hd)) id id, ?_⟩, hts, ?_⟩
    · exact fun n id h => hs.2 n id h
    · simp [AnyRef.ValidIn, ParseState.withType]
  insertVar s d hs hd _ := by
    have hts : s.tables.Extends (s.withVar d).tables := ⟨.refl _, Table.extends_insert .., .refl _⟩
    refine ⟨⟨hs.1.grow hts hs.1.types_named (hs.1.vars_named.insert d.name d) hs.1.funs_named
      id (·.insert _ (Tables.validIn_of_extends hts hd)) id, ?_⟩, hts, ?_⟩
    · exact fun n id h => Nat.lt_of_lt_of_le (hs.2 n id h) hts.vars.size_le
    · simp [AnyRef.ValidIn, ParseState.withVar]
  pushScoped s d hs hd _ := by
    have hts : s.tables.Extends (s.pushed d).tables := ⟨.refl _, Table.extends_push .., .refl _⟩
    refine ⟨⟨hs.1.grow hts hs.1.types_named (hs.1.vars_named.push d) hs.1.funs_named
      id (·.push (Tables.validIn_of_extends hts hd)) id, ?_⟩, hts, ?_⟩
    · -- the new scope entry is the position just stored
      intro n id h
      simp only [ParseState.pushed, Std.HashMap.getElem?_insert] at h
      split at h
      · cases h
        simp [ParseState.pushed]
      · exact Nat.lt_of_lt_of_le (hs.2 n id h) hts.vars.size_le
    · simp [AnyRef.ValidIn, ParseState.pushed]
  insertFun s d hs hd := by
    have hts : s.tables.Extends (s.withFun d).tables := ⟨.refl _, .refl _, Table.extends_insert ..⟩
    refine ⟨⟨hs.1.grow hts hs.1.types_named hs.1.vars_named (hs.1.funs_named.insert d.name d)
      id id (·.insert _ (Tables.validIn_of_extends hts hd)), ?_⟩, hts, ?_⟩
    · exact fun n id h => hs.2 n id h
    · simp [AnyRef.ValidIn, ParseState.withFun]
  clearScope s hs := ⟨⟨hs.1, fun n id h => by simp [ParseState.unscoped] at h⟩, .refl _⟩
  err_clearScope _ _ _ := trivial

theorem parseFile_handles (src path : String) {ts : Tables} (lim : Limits) (h : ts.Closed) :
    ts.Extends (parseFile src path ts lim).2 ∧ (parseFile src path ts lim).2.Closed ∧
      ∀ f, (parseFile src path ts lim).1 = .ok f →
        ∀ r ∈ f.refs, r.ValidIn (parseFile src path ts lim).2 := by
  unfold parseFile
  split
  · exact ⟨.refl _, h, fun _ hf => by simp at hf⟩
  · next tokens _ =>
    rw [Parser.runOn_eq]
    have hrun := handles.fileRules.keeps_file (Parse.budget tokens.size) path
      (ParseState.start tokens ts lim) ⟨h, fun _ _ hn => by simp [ParseState.start] at hn⟩
    rcases hr : (Parse.file (Parse.budget tokens.size) path).exec
      (ParseState.start tokens ts lim) with ⟨_ | f, s⟩ <;> rw [hr] at hrun
    · exact ⟨hrun.2.1, hrun.1.1, fun _ hf => by simp at hf⟩
    · refine ⟨hrun.2.1, hrun.1.1, fun f' hf => ?_⟩
      cases hf
      exact hrun.2.2

namespace Session

theorem parse_tables (s : Session) (src path : String) :
    (s.parse src path).1.tables = (parseFile src path s.tables s.limits).2 := by
  unfold Session.parse
  rcases parseFile src path s.tables s.limits with ⟨_ | f, ts⟩ <;> rfl

/-- Every handle the session holds is valid: those inside the entries of its tables, and those
of every file of its program. -/
def HandlesValid (s : Session) : Prop :=
  s.tables.Closed ∧ ∀ f ∈ s.files, ∀ r ∈ f.refs, r.ValidIn s.tables

/-- The sessions that a run of parses reaches from a fresh session. -/
inductive Reachable : Session → Prop
  | fresh (lim : Limits) (dtors : Destructors) : Reachable { limits := lim, destructors := dtors }
  | parse {s : Session} (src path : String) : Reachable s → Reachable (s.parse src path).1

theorem parse_handlesValid {s : Session} (h : s.HandlesValid) (src path : String) :
    s.tables.Extends (s.parse src path).1.tables ∧ (s.parse src path).1.HandlesValid := by
  obtain ⟨hts, hclosed, hfile⟩ := parseFile_handles src path s.limits h.1
  unfold Session.parse
  split
  · next f ts' heq =>
    rw [heq] at hts hclosed hfile
    refine ⟨hts, hclosed, fun g hg => ?_⟩
    rcases List.mem_append.mp hg with hg | hg
    · exact Tables.validIn_of_extends hts (h.2 g hg)
    · rw [List.mem_singleton.mp hg]
      exact hfile f rfl
  · next e ts' heq =>
    rw [heq] at hts hclosed
    exact ⟨hts, hclosed, fun g hg => Tables.validIn_of_extends hts (h.2 g hg)⟩

theorem Reachable.handlesValid {s : Session} (hs : s.Reachable) : s.HandlesValid := by
  induction hs with
  | fresh => exact ⟨Tables.initial_closed, fun _ h => nomatch h⟩
  | parse src path _ ih => exact (parse_handlesValid ih src path).2

/-- In every session a run of parses reaches, accepted files and rejected ones alike, every
handle in the tables and in the program names an entry of its own table, and a further parse
only appends to the tables. -/
theorem reachable_handlesValid {s : Session} (hs : s.Reachable) (src path : String) :
    s.HandlesValid ∧ s.tables.Extends (s.parse src path).1.tables :=
  ⟨hs.handlesValid, (parse_handlesValid hs.handlesValid src path).1⟩

theorem handlesValid_after_type :
    Reachable (({ limits := {}, destructors := .builtin } : Session).parse
        "type unit extends handle\n" "a.j").1 ∧
      (({ limits := {}, destructors := .builtin } : Session).parse
        "type unit extends handle\n" "a.j").1.HandlesValid ∧
      (({ limits := {}, destructors := .builtin } : Session).parse
        "type unit extends handle\n" "a.j").1.tables.Extends
        ((({ limits := {}, destructors := .builtin } : Session).parse
          "type unit extends handle\n" "a.j").1.parse
          "function f takes unit u returns nothing\nendfunction\n" "b.j").1.tables :=
  ⟨.parse _ _ (.fresh {} .builtin),
    reachable_handlesValid (.parse _ _ (.fresh {} .builtin)) _ _⟩

end Session

end Jass
