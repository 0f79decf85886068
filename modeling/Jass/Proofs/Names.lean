import Jass.Proofs.Handles
/-!
# What a name stands for

A declaration stays stored when a later one takes its name, so what a name stands for depends on
when it is read. `Table.lastNamed` finds the last entry of a name among the positions `[b, j)`.
A function's parameters and locals are stored at such positions, one after the other, and are
never registered; a variable name read inside the function stands for the last of them with that
name stored before the reading, and otherwise for the registered global (`Tables.varIn`).

Types and functions are all registered, so their registries answer the last declaration of each
name (`Table.Latest`); the registry of variables answers a declaration of the name
(`Table.Named`). `Tables.Named` holds in every session a run of parses reaches
(`Session.Reachable.named`). A reference is resolved (`AnyRef.ResolvedIn`) when it is what its
own name stands for.
-/

namespace Jass

namespace Table

variable {α : Type} (name : α → String) {t t' : Table α} {n : String} {b i j : Nat}

/-- The last position in `[b, j)` of an entry that `name` calls `n`. -/
def lastNamed (t : Table α) (n : String) (b : Nat) : Nat → Option Nat
  | 0 => none
  | j + 1 => if b ≤ j ∧ (t.get? j).map name = some n then some j else lastNamed t n b j

def Named (t : Table α) : Prop := ∀ n i, t.lookup? n = some i → (t.get? i).map name = some n

/-- Every registered name answers the last entry of that name: a table whose entries are all
registered. -/
def Latest (t : Table α) : Prop := ∀ n, t.lookup? n = lastNamed name t n 0 t.size

def AllFrom (t : Table α) (k : Nat) (P : Nat → α → Prop) : Prop :=
  ∀ i x, k ≤ i → t.get? i = some x → P i x

theorem lastNamed_succ :
    lastNamed name t n b (j + 1) =
      if b ≤ j ∧ (t.get? j).map name = some n then some j else lastNamed name t n b j :=
  rfl

theorem lastNamed_of_le (h : j ≤ b) : lastNamed name t n b j = none := by
  induction j with
  | zero => rfl
  | succ j ih =>
    rw [lastNamed_succ, if_neg fun hc => absurd hc.1 (by omega), ih (by omega)]

theorem lastNamed_spec (h : lastNamed name t n b j = some i) :
    b ≤ i ∧ i < j ∧ (t.get? i).map name = some n := by
  induction j with
  | zero => cases h
  | succ j ih =>
    rw [lastNamed_succ] at h
    split at h
    · next hc =>
      cases h
      exact ⟨hc.1, by omega, hc.2⟩
    · obtain ⟨hb, hi, hn⟩ := ih h
      exact ⟨hb, by omega, hn⟩

theorem lastNamed_congr (h : ∀ i < j, t.get? i = t'.get? i) :
    lastNamed name t n b j = lastNamed name t' n b j := by
  induction j with
  | zero => rfl
  | succ j ih =>
    rw [lastNamed_succ, lastNamed_succ, h j (by omega), ih fun i hi => h i (by omega)]

variable {name}

theorem get?_lt {x : α} (h : t.get? i = some x) : i < t.size :=
  (Array.getElem?_eq_some_iff.mp h).1

theorem get?_eq_none (h : t.size ≤ i) : t.get? i = none :=
  Array.getElem?_eq_none h

theorem Extends.get?_eq (h : t.Extends t') (hi : i < t.size) : t'.get? i = t.get? i := by
  have := (List.prefix_iff_getElem?.mp h) i (by simpa [size] using hi)
  simp only [get?, ← Array.getElem?_toList, this]
  simp

theorem Named.lt_size (h : t.Named name) (hi : t.lookup? n = some i) : i < t.size := by
  have := h n i hi
  cases hx : t.get? i with
  | none => simp [hx] at this
  | some x => exact get?_lt hx

theorem Named.name_getD (h : t.Named name) (hi : t.lookup? n = some i) :
    ((t.get? i).map name).getD "" = n := by
  rw [h n i hi]
  rfl

theorem Latest.named (h : t.Latest name) : t.Named name :=
  fun n _ hi => (lastNamed_spec name ((h n).symm.trans hi)).2.2

theorem latest_empty : ({} : Table α).Latest name := by
  intro n
  simp [lookup?, size, lastNamed]

theorem named_empty : ({} : Table α).Named name := latest_empty.named

theorem Latest.insert (h : t.Latest name) (x : α) (hx : name x = n) :
    (t.insert n x).1.Latest name := by
  intro m
  have hbelow : lastNamed name (t.insert n x).1 m 0 t.size = lastNamed name t m 0 t.size :=
    lastNamed_congr name fun i hi => by rw [get?_insert, if_neg (by omega)]
  rw [lookup?_insert, size_insert, lastNamed_succ, hbelow, ← h m, get?_insert, if_pos rfl]
  by_cases hnm : n = m
  · subst hnm
    simp [hx]
  · simp [hnm, hx]

theorem Named.insert (h : t.Named name) (x : α) (hx : name x = n) :
    (t.insert n x).1.Named name := by
  intro m i hi
  rw [lookup?_insert] at hi
  split at hi
  · next hnm =>
    cases hi
    simp [get?_insert, hx, hnm]
  · rw [get?_insert, if_neg (Nat.ne_of_lt (h.lt_size hi))]
    exact h m i hi

theorem Named.push (h : t.Named name) (x : α) : (t.push x).1.Named name := by
  intro m i hi
  rw [lookup?_push] at hi
  rw [get?_push, if_neg (Nat.ne_of_lt (h.lt_size hi))]
  exact h m i hi

end Table

namespace Tables

structure Named (ts : Tables) : Prop where
  types : ts.types.Latest TypeDecl.name
  vars : ts.vars.Named VarDecl.name
  funs : ts.funs.Latest FunDecl.name

/-- `ts'` stores more variables after those of `ts` and is otherwise `ts`: what storing a
function's parameters and locals does. -/
structure Pushes (ts ts' : Tables) : Prop where
  types : ts'.types = ts.types
  funs : ts'.funs = ts.funs
  names : ts'.vars.names = ts.vars.names
  vars : ts.vars.Extends ts'.vars

/-- What a variable name stands for inside a function whose parameters and locals stored before
the reading are at positions `[b, j)`: the last of them with that name, else the registered
global. Outside functions the interval is empty. -/
def varIn (ts : Tables) (b j : Nat) (n : String) : Ref VarId :=
  match ts.vars.lastNamed VarDecl.name n b j with
  | some i => .resolved ⟨i⟩
  | none => ts.resolveVar n

variable {ts ts' ts'' : Tables} {b j : Nat}

theorem Pushes.refl (ts : Tables) : ts.Pushes ts := ⟨rfl, rfl, rfl, .refl _⟩

theorem Pushes.trans (h : ts.Pushes ts') (h' : ts'.Pushes ts'') : ts.Pushes ts'' :=
  ⟨h'.types.trans h.types, h'.funs.trans h.funs, h'.names.trans h.names, h.vars.trans h'.vars⟩

theorem pushes_push (ts : Tables) (d : VarDecl) : ts.Pushes { ts with vars := (ts.vars.push d).1 } :=
  ⟨rfl, rfl, rfl, Table.extends_push _ _⟩

theorem Pushes.get?_eq (h : ts.Pushes ts') {i : Nat} (hi : i < ts.vars.size) :
    ts'.vars.get? i = ts.vars.get? i :=
  h.vars.get?_eq hi

theorem Pushes.named (h : ts.Pushes ts') (hn : ts.Named) : ts'.Named where
  types := h.types ▸ hn.types
  funs := h.funs ▸ hn.funs
  vars n i hi := by
    have hi' : ts.vars.lookup? n = some i := by simpa [Table.lookup?, h.names] using hi
    rw [h.get?_eq (hn.vars.lt_size hi')]
    exact hn.vars n i hi'

theorem varIn_self (ts : Tables) (j : Nat) (n : String) : ts.varIn j j n = ts.resolveVar n := by
  simp [varIn, Table.lastNamed_of_le _ (Nat.le_refl j)]

theorem varIn_lt (hn : ts.vars.Named VarDecl.name) (hj : j ≤ ts.vars.size) {n : String}
    {id : VarId} (h : ts.varIn b j n = .resolved id) : id.index < ts.vars.size := by
  unfold varIn at h
  split at h
  · next i hl =>
    cases h
    exact Nat.lt_of_lt_of_le (Table.lastNamed_spec _ hl).2.1 hj
  · unfold resolveVar at h
    split at h
    · cases h
      exact hn.lt_size ‹_›
    · cases h

theorem varIn_pushes (h : ts.Pushes ts') (hj : j ≤ ts.vars.size) (n : String) :
    ts'.varIn b j n = ts.varIn b j n := by
  have hl : ts'.vars.lastNamed VarDecl.name n b j = ts.vars.lastNamed VarDecl.name n b j :=
    Table.lastNamed_congr _ fun i hi => h.get?_eq (by omega)
  simp only [varIn, hl, resolveVar, Table.lookup?, h.names]

/-! ## A resolved name stands for a declaration of that name -/

theorem typeRefName_resolveType (h : ts.types.Named TypeDecl.name) (n : String) :
    ts.typeRefName (ts.resolveType n) = n := by
  unfold resolveType
  split
  · exact h.name_getD ‹_›
  · rfl

theorem funRefName_resolveFun (h : ts.funs.Named FunDecl.name) (n : String) :
    ts.funRefName (ts.resolveFun n) = n := by
  unfold resolveFun
  split
  · exact h.name_getD ‹_›
  · rfl

theorem varRefName_varIn (h : ts.vars.Named VarDecl.name) (n : String) :
    ts.varRefName (ts.varIn b j n) = n := by
  unfold varIn
  split
  · next i hl =>
    simp [varRefName, var?, (Table.lastNamed_spec _ hl).2.2]
  · unfold resolveVar
    split
    · exact h.name_getD ‹_›
    · rfl

end Tables

/-- A reference is resolved in `ts`, inside a function whose parameters and locals stored before it
are at positions `[b, j)`, when it is what its own name stands for there: a type or function the
registry answers, a variable as `Tables.varIn` finds it. -/
def AnyRef.ResolvedIn (ts : Tables) (b j : Nat) : AnyRef → Prop
  | .type r => r = ts.resolveType (ts.typeRefName r)
  | .var r => r = ts.varIn b j (ts.varRefName r)
  | .fn r => r = ts.resolveFun (ts.funRefName r)

namespace AnyRef

variable {ts ts' : Tables} {b j : Nat}

theorem resolvedIn_type (h : ts.Named) (n : String) :
    (AnyRef.type (ts.resolveType n)).ResolvedIn ts b j := by
  simp only [ResolvedIn, Tables.typeRefName_resolveType h.types.named]

theorem resolvedIn_var (h : ts.Named) (n : String) :
    (AnyRef.var (ts.varIn b j n)).ResolvedIn ts b j := by
  simp only [ResolvedIn, Tables.varRefName_varIn h.vars]

theorem resolvedIn_fn (h : ts.Named) (n : String) :
    (AnyRef.fn (ts.resolveFun n)).ResolvedIn ts b j := by
  simp only [ResolvedIn, Tables.funRefName_resolveFun h.funs.named]

theorem resolvedIn_type_congr {r : Ref TypeId} {b' j' : Nat} (h : ts'.types = ts.types) :
    (AnyRef.type r).ResolvedIn ts' b' j' ↔ (AnyRef.type r).ResolvedIn ts b j := by
  simp only [ResolvedIn, Tables.resolveType, Tables.typeRefName, Tables.type?, h]

theorem ResolvedIn.pushes {r : AnyRef} (hr : r.ResolvedIn ts b j) (h : ts.Pushes ts')
    (hn : ts.vars.Named VarDecl.name) (hj : j ≤ ts.vars.size) : r.ResolvedIn ts' b j := by
  rcases r with r | r | r
  · exact (resolvedIn_type_congr h.types).mpr hr
  · -- the variable is stored below the common part, so its name is the same in both
    have hname : ts'.varRefName r = ts.varRefName r := by
      cases r with
      | resolved id =>
        have hr' : Ref.resolved id = ts.varIn b j _ := hr
        have hid := Tables.varIn_lt hn hj hr'.symm
        simp only [Tables.varRefName, Tables.var?, h.get?_eq hid]
      | unresolved => rfl
    show r = _
    rw [hname, Tables.varIn_pushes h hj]
    exact hr
  · show r = _
    simp only [Tables.resolveFun, Tables.funRefName, Tables.fn?, h.funs]
    exact hr

end AnyRef

/-! ## Every session keeps its registries named -/

def named : DeclDiscipline where
  inv s := s.tables.Named
  le _ _ := True
  err _ _ := True
  ref _ _ := True
  le_refl _ := trivial
  le_trans _ _ := trivial
  ref_le _ _ := trivial
  step _ hs _ := ⟨hs, trivial⟩
  skip _ hs := ⟨hs, trivial⟩
  fail _ _ hs := ⟨hs, trivial, trivial⟩
  halt _ _ _ _ := trivial
  rewind _ hs _ _ _ := ⟨hs, trivial⟩
  var _ _ _ := trivial
  fn _ _ _ := trivial
  type _ _ _ := trivial
  insertType _ d hs _ := ⟨{ hs with types := hs.types.insert d rfl }, trivial, trivial⟩
  insertVar _ d hs _ _ := ⟨{ hs with vars := hs.vars.insert d rfl }, trivial, trivial⟩
  insertFun _ d hs _ := ⟨{ hs with funs := hs.funs.insert d rfl }, trivial, trivial⟩
  pushScoped _ d hs _ _ := ⟨{ hs with vars := hs.vars.push d }, trivial, trivial⟩
  clearScope _ hs := ⟨hs, trivial⟩
  err_clearScope _ _ _ := trivial

namespace Tables

theorem initial_named : initial.Named where
  types := by
    have step : ∀ (l : List String) (t : Table TypeDecl), t.Latest TypeDecl.name →
        (l.foldl (fun t n => (t.insert n ⟨n, none, none⟩).1) t).Latest TypeDecl.name := by
      intro l
      induction l with
      | nil => exact fun _ h => h
      | cons n l ih => exact fun t h => ih _ (h.insert _ rfl)
    exact step baseTypeNames {} Table.latest_empty
  vars := Table.named_empty
  funs := Table.latest_empty

theorem initial_resolveType_base : ∀ k (hk : k < baseTypeNames.length),
    initial.resolveType baseTypeNames[k] = .resolved ⟨k⟩ := by
  have hl : ∀ k (hk : k < baseTypeNames.length),
      initial.types.lastNamed TypeDecl.name baseTypeNames[k] 0 initial.types.size = some k := by
    decide
  intro k hk
  rw [resolveType, initial_named.types baseTypeNames[k], hl k hk]

theorem parseFile_named (src path : String) {ts : Tables} (lim : Limits) (h : ts.Named) :
    (parseFile src path ts lim).2.Named := by
  unfold parseFile
  split
  · exact h
  · next tokens _ =>
    rw [Parser.runOn_eq]
    have hrun := named.fileRules.keeps_file (Parse.budget tokens.size) path
      (ParseState.start tokens ts lim) h
    rcases hr : (Parse.file (Parse.budget tokens.size) path).exec
      (ParseState.start tokens ts lim) with ⟨_ | f, s⟩ <;> rw [hr] at hrun
    · exact hrun.1
    · exact hrun.1

end Tables

theorem Session.Reachable.named {s : Session} (hs : s.Reachable) : s.tables.Named := by
  induction hs with
  | fresh => exact Tables.initial_named
  | @parse s src path _ ih =>
    have h := Tables.parseFile_named src path s.limits ih
    unfold Session.parse
    split <;> simp_all

end Jass
