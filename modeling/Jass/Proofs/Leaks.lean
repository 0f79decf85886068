import Jass.Proofs.Parse.Fresh
/-!
# Leaks against their specification

A declared global or local leaks when its type has destructors and no call statement of the
program destroys it: no call in any function body, at any depth inside `if`, `elseif`, `else` and
`loop` blocks or behind `debug`, that has the variable as its one argument, by name or as an
element, and a destructor of the variable's type as its callee (`Tables.Leaks`).

The analysis lists the candidates in declaration order, scans the calls once with the set of
candidates still pending, taking off each one a call destroys and stopping as soon as none is
pending, and keeps the candidates that are still pending. It returns exactly the declared
variables that leak, in program order; stopping early changes nothing, since a scan that stops
has nothing left to take off (`scanCalls_contains`). In a session that parses reach no variable
is declared twice, so none is reported twice (`leaks_match_their_specification`).
-/

namespace Jass

/-- The call statement `callee(args)` is made by a statement: it is the statement, or it lies
inside one of its blocks at any depth, or behind `debug`. -/
inductive Stmt.MakesCall (callee : Ref FunId) (args : List Expr) : Stmt → Prop
  | call : Stmt.MakesCall callee args (.call callee args)
  | thenBody {cond thenBody elseIfs elseBody} {st : Statement} : st ∈ thenBody →
      st.node.MakesCall callee args →
      Stmt.MakesCall callee args (.ifThen cond thenBody elseIfs elseBody)
  | elseIf {cond thenBody elseIfs elseBody} {c : Expr} {body : List Statement} {st : Statement} :
      (c, body) ∈ elseIfs → st ∈ body → st.node.MakesCall callee args →
      Stmt.MakesCall callee args (.ifThen cond thenBody elseIfs elseBody)
  | elseBody {cond thenBody elseIfs body} {st : Statement} : st ∈ body →
      st.node.MakesCall callee args →
      Stmt.MakesCall callee args (.ifThen cond thenBody elseIfs (some body))
  | loop {body} {st : Statement} : st ∈ body → st.node.MakesCall callee args →
      Stmt.MakesCall callee args (.loop body)
  | debug {inner} : inner.MakesCall callee args → Stmt.MakesCall callee args (.debug inner)

/-! ## Collecting the calls -/

theorem Stmt.calls_ifThen (cond : Expr) (thenBody : List Statement)
    (elseIfs : List (Expr × List Statement)) (elseBody : Option (List Statement)) :
    (Stmt.ifThen cond thenBody elseIfs elseBody).calls =
      Stmt.blockCalls thenBody ++ Stmt.elseIfCalls elseIfs ++
        (elseBody.map Stmt.blockCalls).getD [] := by
  cases elseBody <;> rfl

section

variable {callee : Ref FunId} {args : List Expr}

theorem Stmt.mem_blockCalls_of_mem {b : List Statement} {st : Statement} (hst : st ∈ b)
    (h : (callee, args) ∈ st.node.calls) : (callee, args) ∈ Stmt.blockCalls b := by
  induction b with
  | nil => cases hst
  | cons s rest ih =>
    simp only [Stmt.blockCalls, List.mem_append]
    rcases List.mem_cons.1 hst with rfl | hst
    · exact .inl h
    · exact .inr (ih hst)

theorem Stmt.mem_elseIfCalls_of_mem {bs : List (Expr × List Statement)} {c : Expr}
    {body : List Statement} {st : Statement} (hcb : (c, body) ∈ bs) (hst : st ∈ body)
    (h : (callee, args) ∈ st.node.calls) : (callee, args) ∈ Stmt.elseIfCalls bs := by
  induction bs with
  | nil => cases hcb
  | cons b rest ih =>
    simp only [Stmt.elseIfCalls, List.mem_append]
    rcases List.mem_cons.1 hcb with rfl | hcb
    · exact .inl (Stmt.mem_blockCalls_of_mem hst h)
    · exact .inr (ih hcb)

theorem Stmt.MakesCall.mem_calls {st : Stmt} (h : st.MakesCall callee args) :
    (callee, args) ∈ st.calls := by
  induction h with
  | call => simp [Stmt.calls]
  | thenBody hst _ ih =>
    rw [Stmt.calls_ifThen, List.mem_append, List.mem_append]
    exact .inl (.inl (Stmt.mem_blockCalls_of_mem hst ih))
  | elseIf hcb hst _ ih =>
    rw [Stmt.calls_ifThen, List.mem_append, List.mem_append]
    exact .inl (.inr (Stmt.mem_elseIfCalls_of_mem hcb hst ih))
  | elseBody hst _ ih =>
    rw [Stmt.calls_ifThen, List.mem_append]
    exact .inr (Stmt.mem_blockCalls_of_mem hst ih)
  | loop hst _ ih => exact Stmt.mem_blockCalls_of_mem hst ih
  | debug _ ih => exact ih

mutual
theorem Stmt.makesCall_of_mem_calls : ∀ {st : Stmt}, (callee, args) ∈ st.calls →
    st.MakesCall callee args
  | .call fn as, h => by
    simp only [Stmt.calls, List.mem_singleton, Prod.mk.injEq] at h
    obtain ⟨rfl, rfl⟩ := h
    exact .call
  | .ifThen cond thenBody elseIfs none, h => by
    simp only [Stmt.calls_ifThen, List.mem_append, Option.map_none, Option.getD_none,
      List.not_mem_nil, or_false] at h
    rcases h with h | h
    · obtain ⟨st, hst, hc⟩ := Stmt.exists_of_mem_blockCalls h
      exact .thenBody hst hc
    · obtain ⟨c, body, hcb, st, hst, hc⟩ := Stmt.exists_of_mem_elseIfCalls h
      exact .elseIf hcb hst hc
  | .ifThen cond thenBody elseIfs (some body), h => by
    simp only [Stmt.calls_ifThen, List.mem_append, Option.map_some, Option.getD_some] at h
    rcases h with (h | h) | h
    · obtain ⟨st, hst, hc⟩ := Stmt.exists_of_mem_blockCalls h
      exact .thenBody hst hc
    · obtain ⟨c, body, hcb, st, hst, hc⟩ := Stmt.exists_of_mem_elseIfCalls h
      exact .elseIf hcb hst hc
    · obtain ⟨st, hst, hc⟩ := Stmt.exists_of_mem_blockCalls h
      exact .elseBody hst hc
  | .loop body, h => by
    obtain ⟨st, hst, hc⟩ := Stmt.exists_of_mem_blockCalls h
    exact .loop hst hc
  | .debug inner, h => .debug (Stmt.makesCall_of_mem_calls h)
  | .set .., h => by simp [Stmt.calls] at h
  | .exitWhen _, h => by simp [Stmt.calls] at h
  | .ret _, h => by simp [Stmt.calls] at h

theorem Stmt.exists_of_mem_blockCalls : ∀ {b : List Statement},
    (callee, args) ∈ Stmt.blockCalls b → ∃ st ∈ b, st.node.MakesCall callee args
  | [], h => by simp [Stmt.blockCalls] at h
  | ⟨pos, st⟩ :: rest, h => by
    simp only [Stmt.blockCalls, List.mem_append] at h
    rcases h with h | h
    · exact ⟨⟨pos, st⟩, List.mem_cons_self, Stmt.makesCall_of_mem_calls h⟩
    · obtain ⟨st', hst', hc⟩ := Stmt.exists_of_mem_blockCalls h
      exact ⟨st', List.mem_cons_of_mem _ hst', hc⟩

theorem Stmt.exists_of_mem_elseIfCalls : ∀ {bs : List (Expr × List Statement)},
    (callee, args) ∈ Stmt.elseIfCalls bs →
      ∃ c body, (c, body) ∈ bs ∧ ∃ st ∈ body, st.node.MakesCall callee args
  | [], h => by simp [Stmt.elseIfCalls] at h
  | (c, body) :: rest, h => by
    simp only [Stmt.elseIfCalls, List.mem_append] at h
    rcases h with h | h
    · obtain ⟨st, hst, hc⟩ := Stmt.exists_of_mem_blockCalls h
      exact ⟨c, body, List.mem_cons_self, st, hst, hc⟩
    · obtain ⟨c', body', hcb, st, hst, hc⟩ := Stmt.exists_of_mem_elseIfCalls h
      exact ⟨c', body', List.mem_cons_of_mem _ hcb, st, hst, hc⟩
end

theorem Stmt.mem_blockCalls {b : List Statement} :
    (callee, args) ∈ Stmt.blockCalls b ↔ ∃ st ∈ b, st.node.MakesCall callee args :=
  ⟨Stmt.exists_of_mem_blockCalls, fun ⟨_, hst, hc⟩ => Stmt.mem_blockCalls_of_mem hst hc.mem_calls⟩

theorem mem_programCalls {files : List File} :
    (callee, args) ∈ Tables.programCalls files ↔
      ∃ f ∈ files, ∃ fn ∈ f.functions, ∃ st ∈ fn.body, st.node.MakesCall callee args := by
  simp only [Tables.programCalls, List.mem_flatMap, Stmt.mem_blockCalls]

end

/-! ## Destroying calls -/

namespace Tables

variable (ts : Tables) (d : Destructors)

/-- The call `callee(args)` destroys `id`: its one argument is `id` by name or an element of
it, and the callee's name is a destructor of the name of `id`'s declared type. -/
def Destroys (callee : Ref FunId) (args : List Expr) (id : VarId) : Prop :=
  (args = [.var (.resolved id)] ∨ ∃ i, args = [.element (.resolved id) i]) ∧
    ts.funRefName callee ∈ d.forType (ts.varTypeName id)

/-- The declared variable `id` leaks from the program `files`: its type has destructors, and no
call statement of any function destroys it. -/
def Leaks (files : List File) (id : VarId) : Prop :=
  d.forType (ts.varTypeName id) ≠ [] ∧
    ∀ f ∈ files, ∀ fn ∈ f.functions, ∀ st ∈ fn.body, ∀ callee args,
      st.node.MakesCall callee args → ¬ ts.Destroys d callee args id

variable {ts d}

theorem destroyedBy_eq_some {callee : Ref FunId} {args : List Expr} {id : VarId} :
    ts.destroyedBy d callee args = some id ↔ ts.Destroys d callee args id := by
  unfold destroyedBy Destroys
  split
  · next id' =>
    simp only [Option.bind_some, Option.ite_none_right_eq_some, Option.some.injEq,
      Destructors.isDestructor, List.contains_iff_mem, List.cons.injEq, Expr.var.injEq,
      Ref.resolved.injEq, and_true, reduceCtorEq, exists_false, or_false]
    constructor
    · rintro ⟨h, rfl⟩
      exact ⟨rfl, h⟩
    · rintro ⟨rfl, h⟩
      exact ⟨h, rfl⟩
  · next id' i =>
    simp only [Option.bind_some, Option.ite_none_right_eq_some, Option.some.injEq,
      Destructors.isDestructor, List.contains_iff_mem, List.cons.injEq, Expr.element.injEq,
      Ref.resolved.injEq, and_true, reduceCtorEq, false_or]
    constructor
    · rintro ⟨h, rfl⟩
      exact ⟨⟨i, rfl, rfl⟩, h⟩
    · rintro ⟨⟨j, rfl, -⟩, h⟩
      exact ⟨h, rfl⟩
  · next hvar helem =>
    simp only [Option.bind_none, reduceCtorEq, false_iff, not_and]
    rintro (rfl | ⟨i, rfl⟩)
    · exact absurd rfl (hvar id)
    · exact absurd rfl (helem id i)

theorem leaks_iff (files : List File) (id : VarId) :
    ts.Leaks d files id ↔ ((d.forType (ts.varTypeName id)).isEmpty = false ∧
      ((Tables.programCalls files).all fun c => ts.destroyedBy d c.1 c.2 != some id) = true) := by
  simp only [Leaks, List.isEmpty_eq_false_iff, ne_eq, List.all_eq_true, bne_iff_ne,
    destroyedBy_eq_some.not, Prod.forall, mem_programCalls]
  constructor
  · rintro ⟨hd, hc⟩
    refine ⟨hd, fun callee args ⟨f, hf, fn, hfn, st, hst, hmk⟩ => hc f hf fn hfn st hst _ _ hmk⟩
  · rintro ⟨hd, hc⟩
    exact ⟨hd, fun f hf fn hfn st hst callee args hmk => hc callee args ⟨f, hf, fn, hfn, st, hst, hmk⟩⟩

instance (files : List File) : DecidablePred (ts.Leaks d files) :=
  fun id => decidable_of_iff _ (leaks_iff files id).symm

/-! ## The scan -/

theorem scanCalls_contains (id : VarId) : ∀ (pending : Std.HashSet VarId) calls,
    (ts.scanCalls d pending calls).contains id =
      (pending.contains id && calls.all fun c => ts.destroyedBy d c.1 c.2 != some id)
  | pending, [] => by simp [scanCalls]
  | pending, (callee, args) :: rest => by
    rw [scanCalls]
    by_cases he : pending.isEmpty = true
    · rw [if_pos he, Std.HashSet.contains_of_isEmpty he, Bool.false_and]
    rw [if_neg he, List.all_cons]
    split
    · next id' hd =>
      rw [scanCalls_contains id _ rest, Std.HashSet.contains_erase, hd]
      by_cases hid : id' = id
      · subst hid
        simp
      · have h₁ : (id' == id) = false := beq_false_of_ne hid
        have h₂ : (some id' != some id) = true := bne_iff_ne.2 fun h => hid (Option.some.inj h)
        rw [h₁, h₂, Bool.not_false, Bool.true_and, Bool.true_and]
    · next hd =>
      have h₂ : (ts.destroyedBy d callee args != some id) = true := by rw [hd]; rfl
      rw [scanCalls_contains id _ rest, h₂, Bool.true_and]

theorem leakCandidates_map (files : List File) :
    (ts.leakCandidates d files).map (·.1) =
      (files.flatMap File.declaredVars).filter fun id => !(d.forType (ts.varTypeName id)).isEmpty := by
  simp only [leakCandidates, File.declaredVars, List.map_flatMap, List.filter_flatMap]
  congr 1
  funext f
  rw [List.map_filterMap, ← List.filterMap_eq_filter]
  congr 1
  funext id
  by_cases h : (d.forType (ts.varTypeName id)).isEmpty <;> simp [h, Option.guard]

theorem leaks_eq_filter (files : List File) :
    ts.leaks d files = (ts.leakCandidates d files).filter fun c =>
      (programCalls files).all fun call => ts.destroyedBy d call.1 call.2 != some c.1 := by
  unfold leaks
  refine List.filter_congr fun c hc => ?_
  obtain ⟨id, path⟩ := c
  dsimp only
  rw [scanCalls_contains, Std.HashSet.contains_ofList]
  have hmem : ((ts.leakCandidates d files).map (·.1)).contains id = true :=
    List.contains_iff_mem.2 (List.mem_map_of_mem hc)
  rw [hmem, Bool.true_and]

theorem leaks_spec (files : List File) :
    (ts.leaks d files).map (·.1) =
      (files.flatMap File.declaredVars).filter fun id => decide (ts.Leaks d files id) := by
  have hmap : ∀ (g : VarId → Bool) (l : List (VarId × String)),
      (l.filter fun c => g c.1).map (·.1) = (l.map (·.1)).filter g :=
    fun _ _ => List.filter_map.symm
  rw [leaks_eq_filter, hmap (fun id => (programCalls files).all fun call =>
    ts.destroyedBy d call.1 call.2 != some id), leakCandidates_map, List.filter_filter]
  refine List.filter_congr fun id _ => ?_
  rw [Bool.eq_iff_iff, decide_eq_true_iff, leaks_iff, Bool.and_eq_true, Bool.not_eq_true']
  exact And.comm

end Tables

/-- The analysis returns exactly the declared globals and locals that leak, in program order.
In a session that parses reach, that is the list of the session's leaking variables, and no
variable appears in it twice. -/
theorem leaks_match_their_specification :
    (∀ (ts : Tables) (d : Destructors) (files : List File),
      (ts.leaks d files).map (·.1) =
        (files.flatMap File.declaredVars).filter fun id => decide (ts.Leaks d files id)) ∧
    ∀ s : Session, s.Reachable →
      s.leakingVars =
          s.declaredVars.filter (fun id => decide (s.tables.Leaks s.destructors s.files id)) ∧
        s.leakingVars.Nodup := by
  refine ⟨fun _ _ files => Tables.leaks_spec files, fun s hs => ⟨Tables.leaks_spec _, ?_⟩⟩
  rw [Session.leakingVars, Tables.leaks_spec]
  exact hs.declaredVars.nodup.filter _

/-- A session that has read one file with a global group reports each leak once. -/
theorem leaks_of_one_file_listed_once :
    (({ limits := {}, destructors := .builtin } : Session).parse
        "globals\n    group g\nendglobals\n" "a.j").1.Reachable ∧
      (({ limits := {}, destructors := .builtin } : Session).parse
        "globals\n    group g\nendglobals\n" "a.j").1.leakingVars.Nodup :=
  have h := Session.Reachable.parse "globals\n    group g\nendglobals\n" "a.j" (.fresh {} .builtin)
  ⟨h, (leaks_match_their_specification.2 _ h).2⟩

end Jass
