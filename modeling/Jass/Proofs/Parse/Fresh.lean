import Jass.Proofs.Handles
/-!
# Declared variables are new

A global or a local is stored at the end of the variable table, so its handle is the size of the
table at that moment, and the table only grows. So the handles of the globals and locals a file
declares, in the order the file lists them, increase strictly and lie between the sizes of the
table before and after the parse (`parseFile_declaredVars`). Across a session the files follow
one another in the same way, and no handle is declared twice (`Session.Reachable.declaredVars`).

Each rule is proved under `growsFrom n`, the discipline of runs that start with at least `n`
variables; a rule that reads its parts one after the other starts the next part's bound where
the previous part's handles end (`post_restart`).
-/

namespace Jass

open Jass.Parser Parse Discipline

def IdsBetween : Nat → Nat → List VarId → Prop
  | n, m, [] => n ≤ m
  | n, m, id :: rest => n ≤ id.index ∧ IdsBetween (id.index + 1) m rest

namespace IdsBetween

theorem le : ∀ {n m : Nat} {ids : List VarId}, IdsBetween n m ids → n ≤ m
  | _, _, [], h => h
  | _, _, _ :: _, h => h.1.trans (Nat.le_of_succ_le h.2.le)

theorem mono : ∀ {n n' m m' : Nat} {ids : List VarId}, IdsBetween n m ids → n' ≤ n → m ≤ m' →
    IdsBetween n' m' ids
  | _, _, _, _, [], h, hn, hm => hn.trans (h.trans hm)
  | _, _, _, _, _ :: _, h, hn, hm => ⟨hn.trans h.1, h.2.mono le_rfl hm⟩

theorem append : ∀ {n k m : Nat} {l₁ l₂ : List VarId}, IdsBetween n k l₁ → IdsBetween k m l₂ →
    IdsBetween n m (l₁ ++ l₂)
  | _, _, _, [], _, h₁, h₂ => h₂.mono h₁ le_rfl
  | _, _, _, _ :: _, _, h₁, h₂ => ⟨h₁.1, h₁.2.append h₂⟩

theorem bounds : ∀ {n m : Nat} {ids : List VarId}, IdsBetween n m ids →
    ∀ id ∈ ids, n ≤ id.index ∧ id.index < m
  | _, _, [], _ => by simp
  | _, _, i :: _, ⟨hi, hrest⟩ => by
    intro id hid
    rcases List.mem_cons.1 hid with rfl | hid
    · exact ⟨hi, hrest.le⟩
    · have := hrest.bounds id hid
      exact ⟨by omega, this.2⟩

theorem nodup : ∀ {n m : Nat} {ids : List VarId}, IdsBetween n m ids → ids.Nodup
  | _, _, [], _ => List.nodup_nil
  | _, _, i :: _, h => by
    refine List.nodup_cons.2 ⟨fun hi => ?_, h.2.nodup⟩
    have := (h.2.bounds i hi).1
    omega

end IdsBetween

def File.declaredVars (f : File) : List VarId :=
  f.globals.map (·.var) ++ f.functions.flatMap (·.locals)

/-- Runs from a state with at least `n` variables: they only add variables. -/
def growsFrom (n : Nat) : DeclDiscipline where
  inv s := n ≤ s.tables.vars.size
  le s t := s.tables.vars.size ≤ t.tables.vars.size
  err _ _ := True
  ref _ _ := True
  le_refl _ := le_rfl
  le_trans h h' := h.trans h'
  ref_le _ _ := trivial
  step _ h _ := ⟨h, le_rfl⟩
  skip _ h := ⟨h, le_rfl⟩
  fail _ _ h := ⟨h, le_rfl, trivial⟩
  halt _ _ _ _ := trivial
  rewind _ h hle _ _ := ⟨h, hle⟩
  var _ _ _ := trivial
  fn _ _ _ := trivial
  type _ _ _ := trivial
  insertType _ _ h _ := ⟨h, le_rfl, trivial⟩
  insertVar _ _ h _ _ := by
    refine ⟨?_, ?_, trivial⟩ <;> simp only [ParseState.withVar, Table.size_insert] <;> omega
  insertFun _ _ h _ := ⟨h, le_rfl, trivial⟩
  pushScoped _ _ h _ _ := by
    refine ⟨?_, ?_, trivial⟩ <;> simp only [ParseState.pushed, Table.size_push] <;> omega
  clearScope _ h := ⟨h, le_rfl⟩
  err_clearScope _ _ _ := trivial

section

variable {α : Type} {n : Nat}

theorem post_restart (n' : Nat) {Q : α → ParseState → Prop} {s : ParseState}
    {r : Except ParseError α × ParseState} (h : (growsFrom n').Post Q s r)
    (hn : n ≤ s.tables.vars.size) : (growsFrom n).Post Q s r := by
  rcases r with ⟨_ | _, t⟩ <;> exact ⟨hn.trans h.2.1, h.2.1, h.2.2⟩

theorem post_bind_post {β : Type} {D : Discipline} {p : Parser α} {f : α → Parser β}
    {Q₁ : α → ParseState → Prop} {Q : β → ParseState → Prop} {s : ParseState}
    (hp : D.Post Q₁ s (p.exec s))
    (hf : ∀ a s', D.inv s' → D.le s s' → Q₁ a s' → D.Post Q s' ((f a).exec s')) :
    D.Post Q s ((p >>= f).exec s) := by
  rw [exec_bind]
  rcases hr : p.exec s with ⟨_ | a, s'⟩ <;> rw [hr] at hp
  · exact hp
  · exact (hf a s' hp.1 hp.2.1 hp.2.2).le hp.2.1

/-! ## Globals -/

theorem keeps_global_new (fuel : Nat) :
    (growsFrom n).Keeps (global fuel) fun g t => IdsBetween n t.tables.vars.size [g.var] := by
  intro s hs
  rw [Parse.global]
  refine post_bind keeps_here hs fun pos s₁ hs₁ _ _ => ?_
  refine post_bind (keeps_eatKeyword _) hs₁ fun isConstant s₂ hs₂ _ _ => ?_
  refine post_bind (keeps_varDecl fuel pos) hs₂ fun d s₃ hs₃ _ hd => ?_
  -- the global is stored at the end of the table
  rw [exec_bind, exec_insertVar]
  have h := (growsFrom n).insertVar s₃ d hs₃ (fun _ _ => trivial) hd.2
  refine (post_pure h.1 ?_).le h.2.1
  simp only [IdsBetween, ParseState.withVar, Table.size_insert]
  exact ⟨hs₃, le_rfl⟩

theorem keeps_globalLines_new : ∀ fuel n, (growsFrom n).Keeps (globalLines fuel)
    fun gs t => IdsBetween n t.tables.vars.size (gs.map (·.var))
  | 0, _ => by rw [Parse.globalLines]; exact keeps_outOfFuel
  | fuel + 1, n => by
    intro s hs
    rw [Parse.globalLines]
    refine post_bind (keeps_attempt (keeps_global_new fuel)) hs fun o s₁ hs₁ _ ho => ?_
    cases o with
    | none => exact post_pure hs₁ hs₁
    | some g =>
      have hg := ho g rfl
      refine post_bind keeps_lineBreak hs₁ fun _ s₂ hs₂ h₁₂ _ => ?_
      -- the later globals come after this one
      refine post_restart (g.var.index + 1) ?_ hs₂
      exact post_bind (keeps_globalLines_new fuel _) (hg.2.mono le_rfl h₁₂)
        fun gs t ht _ hgs => post_pure ht ⟨hg.1, hgs⟩

theorem keeps_globalsBlock_new (fuel : Nat) :
    (growsFrom n).Keeps (globalsBlock fuel)
      fun gs t => IdsBetween n t.tables.vars.size (gs.map (·.var)) := by
  intro s hs
  rw [Parse.globalsBlock]
  refine post_bind (keeps_keyword _) hs fun _ s₁ hs₁ _ _ => ?_
  refine post_bind keeps_lineBreak hs₁ fun _ s₂ hs₂ _ _ => ?_
  refine post_bind (keeps_globalLines_new fuel n) hs₂ fun gs s₃ hs₃ _ hgs => ?_
  refine post_bind (keeps_keyword _) hs₃ fun _ s₄ hs₄ h₃₄ _ => ?_
  exact post_pure hs₄ (hgs.mono le_rfl h₃₄)

theorem keeps_declItem_new (fuel : Nat) (acc : DeclPart) :
    (growsFrom n).Keeps (declItem fuel acc) fun o t => ∀ p ∈ o,
      ∃ gs, p.globals = acc.globals ++ gs ∧ IdsBetween n t.tables.vars.size (gs.map (·.var)) := by
  intro s hs
  rw [Parse.declItem]
  refine post_bind (keeps_attempt (growsFrom n).keeps_typeDecl) hs fun o₁ s₁ hs₁ _ _ => ?_
  rcases o₁ with _ | id
  · refine post_bind (keeps_attempt (keeps_globalsBlock_new fuel)) hs₁ fun o₂ s₂ hs₂ _ h₂ => ?_
    rcases o₂ with _ | gs
    · refine post_bind (keeps_attempt ((growsFrom n).keeps_native fuel)) hs₂
        fun o₃ s₃ hs₃ _ _ => ?_
      rcases o₃ with _ | _
      · exact post_pure hs₃ fun _ h => by cases h
      · exact post_pure hs₃ fun p hp => by
          cases hp
          exact ⟨[], by simp, hs₃⟩
    · exact post_pure hs₂ fun p hp => by
        cases hp
        exact ⟨gs, rfl, h₂ gs rfl⟩
  · exact post_pure hs₁ fun p hp => by
      cases hp
      exact ⟨[], by simp, hs₁⟩

theorem keeps_declarations_new : ∀ fuel acc n s, IdsBetween n s.tables.vars.size
    (acc.globals.map (·.var)) → (growsFrom n).Post
      (fun p t => IdsBetween n t.tables.vars.size (p.globals.map (·.var))) s
      ((declarations fuel acc).exec s)
  | 0, _, _, s, hacc => by rw [Parse.declarations]; exact keeps_outOfFuel s hacc.le
  | fuel + 1, acc, n, s, hacc => by
    rw [Parse.declarations]
    -- the item's globals start where those of `acc` end
    have hitem := keeps_declItem_new (n := s.tables.vars.size) fuel acc s le_rfl
    refine post_bind_post (post_restart _ hitem hacc.le) fun o s₁ hs₁ h₁ ho => ?_
    cases o with
    | none => exact post_pure hs₁ (hacc.mono le_rfl h₁)
    | some acc' =>
      obtain ⟨gs, hgl, hgs⟩ := ho acc' rfl
      refine post_bind keeps_lineBreak hs₁ fun _ s₂ hs₂ h₁₂ _ => ?_
      refine keeps_declarations_new fuel acc' n s₂ ?_
      rw [hgl, List.map_append]
      exact hacc.append (hgs.mono le_rfl h₁₂)

/-! ## Functions -/

theorem keeps_localDecl_new (fuel : Nat) :
    (growsFrom n).Keeps (localDecl fuel) fun v t => IdsBetween n t.tables.vars.size [v] := by
  intro s hs
  rw [Parse.localDecl]
  refine post_bind keeps_here hs fun pos s₁ hs₁ _ _ => ?_
  refine post_bind (keeps_keyword _) hs₁ fun _ s₂ hs₂ _ _ => ?_
  refine post_bind (keeps_varDecl fuel pos) hs₂ fun d s₃ hs₃ _ hd => ?_
  -- the local is stored at the end of the table
  rw [exec_pushScoped]
  have h := (growsFrom n).pushScoped s₃ d hs₃ (fun _ _ => trivial) hd.2
  refine ⟨h.1, h.2.1, ?_⟩
  simp only [IdsBetween, ParseState.pushed, Table.size_push]
  exact ⟨hs₃, le_rfl⟩

theorem keeps_localLines_new : ∀ fuel n, (growsFrom n).Keeps (localLines fuel)
    fun vs t => IdsBetween n t.tables.vars.size vs
  | 0, _ => by rw [Parse.localLines]; exact keeps_outOfFuel
  | fuel + 1, n => by
    intro s hs
    rw [Parse.localLines]
    refine post_bind (keeps_attempt (keeps_localDecl_new fuel)) hs fun o s₁ hs₁ _ ho => ?_
    cases o with
    | none => exact post_pure hs₁ hs₁
    | some v =>
      have hv := ho v rfl
      refine post_bind keeps_lineBreak hs₁ fun _ s₂ hs₂ h₁₂ _ => ?_
      -- the later locals come after this one
      refine post_restart (v.index + 1) ?_ hs₂
      exact post_bind (keeps_localLines_new fuel _) (hv.2.mono le_rfl h₁₂)
        fun vs t ht _ hvs => post_pure ht ⟨hv.1, hvs⟩

theorem keeps_functionBody_new (fuel : Nat) :
    (growsFrom n).Keeps (functionBody fuel) fun b t => IdsBetween n t.tables.vars.size b.1 := by
  intro s hs
  rw [Parse.functionBody]
  refine post_bind keeps_lineBreak hs fun _ s₁ hs₁ _ _ => ?_
  refine post_bind (keeps_localLines_new fuel n) hs₁ fun vs s₂ hs₂ _ hvs => ?_
  refine post_bind ((stmtRules fuel).statements 0) hs₂ fun b s₃ hs₃ h₂₃ _ => ?_
  refine post_bind (keeps_keyword _) hs₃ fun _ s₄ hs₄ h₃₄ _ => ?_
  refine post_bind keeps_lineBreak hs₄ fun _ s₅ hs₅ h₄₅ _ => ?_
  exact post_pure hs₅ (hvs.mono le_rfl (h₂₃.trans (h₃₄.trans h₄₅)))

theorem keeps_function_new (fuel : Nat) :
    (growsFrom n).Keeps (function fuel) fun f t => IdsBetween n t.tables.vars.size f.locals := by
  intro s hs
  rw [Parse.function]
  refine post_bind keeps_here hs fun pos s₁ hs₁ _ _ => ?_
  refine post_bind (keeps_eatKeyword _) hs₁ fun isConstant s₂ hs₂ _ _ => ?_
  refine post_bind (keeps_keyword _) hs₂ fun _ s₃ hs₃ _ _ => ?_
  refine post_bind (keeps_head fuel pos) hs₃ fun d s₄ hs₄ _ _ => ?_
  obtain ⟨hs₅, h₄₅, -⟩ := (growsFrom n).insertFun s₄ d hs₄ fun _ _ => trivial
  refine post_bind_ok (exec_insertFun d s₄) h₄₅ ?_
  obtain ⟨hs₆, h₅₆⟩ := (growsFrom n).clearScope _ hs₅
  refine post_bind_ok (exec_clearScope _) h₅₆ ?_
  obtain ⟨hs₇, h₆₇⟩ := (growsFrom n).inv_pushParams pos d.params _ hs₆ fun _ _ => trivial
  refine post_bind_ok (exec_forIn d.params _ (fun p t => t.pushed (p.decl pos))
    (fun _ _ => rfl) _) h₆₇ ?_
  refine post_bind (keeps_catch (keeps_functionBody_new fuel)) hs₇ fun body s₈ hs₈ _ hb => ?_
  obtain ⟨hs₉, h₈₉⟩ := (growsFrom n).clearScope s₈ hs₈
  refine post_bind_ok (exec_clearScope s₈) h₈₉ ?_
  rcases body with e | ⟨locals, stmts⟩
  · dsimp only
    rw [exec_throw]
    exact ⟨hs₉, le_rfl, trivial⟩
  · exact post_pure hs₉ (hb.mono le_rfl h₈₉)

theorem keeps_functions_new : ∀ fuel n, (growsFrom n).Keeps (functions fuel)
    fun fs t => IdsBetween n t.tables.vars.size (fs.flatMap (·.locals))
  | 0, _ => by rw [Parse.functions]; exact keeps_outOfFuel
  | fuel + 1, n => by
    intro s hs
    rw [Parse.functions]
    refine post_bind (keeps_attempt (keeps_function_new fuel)) hs fun o s₁ hs₁ _ ho => ?_
    cases o with
    | none => exact post_pure hs₁ hs₁
    | some f =>
      -- the later functions' locals come after this one's
      refine post_restart s₁.tables.vars.size ?_ hs₁
      exact post_bind (keeps_functions_new fuel _) le_rfl fun fs t ht _ hfs =>
        post_pure ht (by rw [List.flatMap_cons]; exact (ho f rfl).append hfs)

theorem keeps_file_new (fuel : Nat) (path : String) :
    (growsFrom n).Keeps (file fuel path) fun f t => IdsBetween n t.tables.vars.size f.declaredVars := by
  intro s hs
  rw [Parse.file]
  refine post_bind keeps_skipNewlines hs fun _ s₁ hs₁ _ _ => ?_
  refine post_bind (fun t ht => keeps_declarations_new fuel {} n t ht) hs₁
    fun p s₂ hs₂ _ hp => ?_
  -- the functions' locals come after the globals
  refine post_restart s₂.tables.vars.size ?_ hs₂
  refine post_bind (keeps_functions_new fuel _) le_rfl fun fs s₃ hs₃ _ hfs => ?_
  refine post_bind keeps_endOfInput hs₃ fun _ s₄ hs₄ h₃₄ _ => ?_
  exact post_pure hs₄ (hp.append (hfs.mono le_rfl h₃₄))

end

theorem parseFile_declaredVars (src path : String) (ts : Tables) (lim : Limits) :
    ts.vars.size ≤ (parseFile src path ts lim).2.vars.size ∧
      ∀ f, (parseFile src path ts lim).1 = .ok f →
        IdsBetween ts.vars.size (parseFile src path ts lim).2.vars.size f.declaredVars := by
  unfold parseFile
  split
  · exact ⟨le_rfl, fun _ h => by cases h⟩
  · next tokens _ =>
    rw [runOn_eq]
    have h := keeps_file_new (n := ts.vars.size) (Parse.budget tokens.size) path
      (ParseState.start tokens ts lim) le_rfl
    rcases hr : (file (Parse.budget tokens.size) path).exec (ParseState.start tokens ts lim) with
      ⟨_ | f, t⟩ <;> rw [hr] at h
    · exact ⟨h.1, fun _ h => by cases h⟩
    · exact ⟨h.1, fun _ hf => by cases hf; exact h.2.2⟩

def Session.declaredVars (s : Session) : List VarId := s.files.flatMap File.declaredVars

/-- In every session that parses reach, the handles of the program's globals and locals increase
strictly, file by file, below the table's size: none is declared twice. -/
theorem Session.Reachable.declaredVars {s : Session} (hs : s.Reachable) :
    IdsBetween 0 s.tables.vars.size s.declaredVars := by
  induction hs with
  | fresh => exact Nat.zero_le _
  | @parse s src path _ ih =>
    obtain ⟨hsize, hnew⟩ := parseFile_declaredVars src path s.tables s.limits
    unfold Session.parse
    split
    · next f ts' heq =>
      rw [heq] at hsize hnew
      simp only [Session.declaredVars, List.flatMap_append, List.flatMap_singleton]
      exact ih.append (hnew f rfl)
    · next e ts' heq =>
      rw [heq] at hsize
      exact ih.mono le_rfl hsize

end Jass
