import Mathlib
import Jass.Proofs.Parse.Furthest
/-!
# The step budget is never used up

Every rule of the grammar takes a step budget, hands one less to the rules it calls, and fails
with `outOfFuel` when the budget is spent. Read from a token list with `eof` at index `e`, the
cursor never passes that `eof` (`upToEof`), and a run never runs out of steps: a rule started at
cursor `c` with a budget of at least `3 * (e - c)` plus a small rank of its own never fails with
`outOfFuel` (`Budget.ExprRules`, `Budget.StmtRules`, and one lemma for each rule of the
declarations and functions). A rule calls one of a lower rank before it reads a token, and each
token it reads pays for three more calls; the loops go round only after a statement, a
declaration or a function has read one. So `Parse.budget`, eight steps a token, is more than
enough for a whole file and for a lone expression (`parsing_never_runs_out_of_steps`).
-/
namespace Jass

open Jass.Parser Parse ParseState

/-! ## The cursor stays at or before the end -/

theorem skipLineBreaks_le {ts : Array Lexeme} {e : Nat} (heof : ts[e]?.map (·.token) = some .eof) :
    ∀ {i : Nat}, i ≤ e → skipLineBreaks ts i ≤ e := by
  intro i
  fun_induction skipLineBreaks ts i with
  | case1 i hi hnl ih =>
    intro hie
    refine ih ?_
    -- a line break is not the `eof` at `e`
    rcases Nat.lt_or_eq_of_le hie with hlt | rfl
    · exact hlt
    · simp only [Array.getElem?_eq_getElem hi, Option.map_some, Option.some.injEq] at heof
      rw [heof] at hnl
      cases hnl
  | case2 => exact id
  | case3 => exact id

/-- The token list has `eof` at `e`, and the cursor and the furthest index reached stand at or
before it. -/
def BeforeEof (e : Nat) (s : ParseState) : Prop :=
  s.tokens[e]?.map (·.token) = some .eof ∧ s.cursor ≤ e ∧ s.reach ≤ e

theorem BeforeEof.stepped {e : Nat} {s : ParseState} (hs : BeforeEof e s)
    (hne : s.current.token ≠ .eof) : BeforeEof e s.stepped ∧ s.stepped.cursor = s.cursor + 1 := by
  obtain ⟨heof, hc, hr⟩ := hs
  have hlt : e < s.tokens.size := by
    by_contra hge
    rw [Array.getElem?_eq_none (by omega)] at heof
    cases heof
  -- the token under the cursor is no `eof`, so the cursor stands before `e`
  have hce : s.cursor < e := by
    rcases Nat.lt_or_eq_of_le hc with h | h
    · exact h
    · refine absurd ?_ hne
      rw [current_eq_getElem (by omega)]
      simp only [Array.getElem?_eq_getElem hlt, Option.map_some, Option.some.injEq] at heof
      simpa only [h] using heof
  have hmin : min (s.cursor + 1) s.tokens.size = s.cursor + 1 := by omega
  simp only [BeforeEof, ParseState.stepped, moveTo, hmin, and_true]
  exact ⟨heof, by omega, by omega⟩

theorem BeforeEof.skipped {e : Nat} {s : ParseState} (hs : BeforeEof e s) :
    BeforeEof e s.skipped := by
  obtain ⟨heof, hc, hr⟩ := hs
  have hk : skipLineBreaks s.tokens s.cursor ≤ e := skipLineBreaks_le heof hc
  refine ⟨heof, hk, ?_⟩
  simp only [ParseState.skipped, moveTo]
  omega

/-- The cursor discipline: the token list keeps its `eof` at `e`, the cursor and the furthest
index reached stay at or before it, and the cursor only moves forward in a run, rewinds
included. -/
def upToEof (e : Nat) : DeclDiscipline where
  inv := BeforeEof e
  le s t := s.tokens = t.tokens ∧ s.cursor ≤ t.cursor
  err _ _ := True
  ref _ _ := True
  le_refl _ := ⟨rfl, Nat.le_refl _⟩
  le_trans h h' := ⟨h.1.trans h'.1, Nat.le_trans h.2 h'.2⟩
  ref_le _ _ := trivial
  step _ hs hne := ⟨(hs.stepped hne).1, rfl, (hs.stepped hne).2 ▸ Nat.le_succ _⟩
  skip s hs := ⟨hs.skipped, rfl, le_skipLineBreaks s.tokens s.cursor⟩
  fail _ _ hs := ⟨hs, ⟨rfl, Nat.le_refl _⟩, trivial⟩
  halt _ _ _ _ := trivial
  rewind hs₀ hs h _ _ := ⟨⟨hs.1, hs₀.2.1, hs.2.2⟩, ⟨h.1, Nat.le_refl _⟩⟩
  var _ _ _ := trivial
  fn _ _ _ := trivial
  type _ _ _ := trivial
  insertType _ _ hs _ := ⟨hs, ⟨rfl, Nat.le_refl _⟩, trivial⟩
  insertVar _ _ hs _ _ := ⟨hs, ⟨rfl, Nat.le_refl _⟩, trivial⟩
  insertFun _ _ hs _ := ⟨hs, ⟨rfl, Nat.le_refl _⟩, trivial⟩
  pushScoped _ _ hs _ _ := ⟨hs, ⟨rfl, Nat.le_refl _⟩, trivial⟩
  clearScope _ hs := ⟨hs, ⟨rfl, Nat.le_refl _⟩⟩
  err_clearScope _ _ h := h

namespace Budget

variable {α β : Type} {e : Nat}

/-! ## Runs that do not run out of steps -/

/-- A parser that never runs out of steps, from any state: one that calls no rule. -/
def Calm (p : Parser α) : Prop := ∀ s err, (p.exec s).1 = .error err → err.fault ≠ .outOfFuel

variable (e) in
/-- A run from `s` that keeps the cursor discipline, yields `Q`, and does not run out of steps. -/
def Sure (p : Parser α) (Q : α → ParseState → Prop) (s : ParseState) : Prop :=
  (upToEof e).Post Q s (p.exec s) ∧ ∀ err, (p.exec s).1 = .error err → err.fault ≠ .outOfFuel

theorem expected_ne_outOfFuel (s : ParseState) (rule : Rule) :
    (s.expected rule).fault ≠ .outOfFuel := by
  intro h
  cases h

theorem calm_pure (a : α) : Calm (pure a : Parser α) := by
  intro s err h
  cases h

theorem calm_fail (rule : Rule) : Calm (fail rule : Parser α) := by
  intro s err h
  rw [exec_fail, Except.error.injEq] at h
  subst h
  exact expected_ne_outOfFuel s rule

theorem calm_checkDepth (depth : Nat) : Calm (checkDepth depth) := by
  intro s err h
  rw [exec_checkDepth] at h
  split at h
  · rw [Except.error.injEq] at h
    subst h
    intro h
    cases h
  · cases h

theorem Sure.of_keeps {p : Parser α} {Q : α → ParseState → Prop} {s : ParseState}
    (hk : (upToEof e).Keeps p Q) (hc : Calm p) (hs : BeforeEof e s) : Sure e p Q s :=
  ⟨hk s hs, hc s⟩

theorem Sure.mono {p : Parser α} {Q Q' : α → ParseState → Prop} {s : ParseState}
    (h : Sure e p Q s) (hQ : ∀ a t, Q a t → Q' a t) : Sure e p Q' s :=
  ⟨h.1.mono hQ, h.2⟩

theorem sure_pure {Q : α → ParseState → Prop} {a : α} {s : ParseState} (hs : BeforeEof e s)
    (ha : Q a s) : Sure e (pure a) Q s :=
  ⟨Discipline.post_pure hs ha, (calm_pure a) s⟩

theorem sure_fail {Q : α → ParseState → Prop} {s : ParseState} (rule : Rule) (hs : BeforeEof e s) :
    Sure e (fail rule) Q s :=
  ⟨Discipline.post_fail hs, (calm_fail rule) s⟩

theorem sure_bind {p : Parser α} {f : α → Parser β} {Q₁ : α → ParseState → Prop}
    {Q : β → ParseState → Prop} {s : ParseState} (hp : Sure e p Q₁ s)
    (hf : ∀ a s', BeforeEof e s' → s.cursor ≤ s'.cursor → Q₁ a s' → Sure e (f a) Q s') :
    Sure e (p >>= f) Q s := by
  obtain ⟨hpost, hcalm⟩ := hp
  rcases hr : p.exec s with ⟨_ | a, s'⟩ <;> rw [hr] at hpost hcalm
  · -- the failure of `p` is the failure of the whole run
    refine ⟨?_, ?_⟩ <;> rw [exec_bind, hr] <;> dsimp only
    · exact hpost
    · exact fun err h => hcalm err (by cases h; rfl)
  · obtain ⟨hpost', hcalm'⟩ := hf a s' hpost.1 hpost.2.1.2 hpost.2.2
    refine ⟨?_, ?_⟩ <;> rw [exec_bind, hr] <;> dsimp only
    · exact hpost'.le hpost.2.1
    · exact hcalm'

theorem sure_attempt {p : Parser α} {Q : α → ParseState → Prop} {s : ParseState}
    (hp : Sure e p Q s) (hs : BeforeEof e s) : Sure e (attempt p) (fun o t => ∀ a ∈ o, Q a t) s := by
  obtain ⟨hpost, hcalm⟩ := hp
  rw [Sure, exec_attempt]
  rcases hr : p.exec s with ⟨_ | a, s'⟩ <;> rw [hr] at hpost hcalm
  · dsimp only
    split
    · -- a syntax failure gives the cursor back
      obtain ⟨hinv, hle⟩ := (upToEof e).rewind hs hpost.1 hpost.2.1 hpost.2.2 ‹_›
      exact ⟨⟨hinv, hle, fun _ ha => by cases ha⟩, fun _ h => by cases h⟩
    · exact ⟨hpost, fun err h => hcalm err (by cases h; rfl)⟩
  · exact ⟨⟨hpost.1, hpost.2.1, fun b hb => Option.some.inj hb ▸ hpost.2.2⟩, fun _ h => by cases h⟩

theorem sure_firstOf (rule : Rule) {Q : α → ParseState → Prop} :
    ∀ {ps : List (Parser α)} {s : ParseState}, BeforeEof e s →
      (∀ p ∈ ps, ∀ t, BeforeEof e t → s.cursor ≤ t.cursor → Sure e p Q t) →
      Sure e (firstOf rule ps) Q s
  | [], s, hs, _ => sure_fail rule hs
  | p :: ps, s, hs, h => by
    rw [firstOf]
    refine sure_bind (sure_attempt (h p (.head _) s hs (Nat.le_refl _)) hs)
      fun o s' hs' hss' ho => ?_
    cases o with
    | none =>
      exact sure_firstOf rule hs' fun q hq t ht hst => h q (.tail _ hq) t ht (hss'.trans hst)
    | some a => exact sure_pure hs' (ho a rfl)

/-! ## The primitives -/

theorem calm_of_ok {p : Parser α} (h : ∀ s, ∃ a t, p.exec s = (.ok a, t)) : Calm p := by
  intro s err hr
  obtain ⟨a, t, hp⟩ := h s
  rw [hp] at hr
  cases hr

theorem calm_here : Calm here := calm_of_ok fun s => ⟨_, _, exec_here s⟩

theorem calm_skipNewlines : Calm skipNewlines := calm_of_ok fun s => ⟨_, _, exec_skipNewlines s⟩

theorem calm_resolveVar (name : String) : Calm (resolveVar name) :=
  calm_of_ok fun s => ⟨_, _, exec_resolveVar name s⟩

theorem calm_resolveType (name : String) : Calm (resolveType name) :=
  calm_of_ok fun s => ⟨_, _, exec_resolveType name s⟩

theorem calm_resolveFun (name : String) : Calm (resolveFun name) :=
  calm_of_ok fun s => ⟨_, _, exec_resolveFun name s⟩

theorem calm_lineBreak : Calm lineBreak := by
  intro s err h
  simp only [lineBreak, exec_bind, exec_peek] at h
  split at h
  · cases h
  · cases h
  · exact calm_fail _ s err h

theorem calm_endOfInput : Calm endOfInput := by
  intro s err h
  simp only [endOfInput, exec_bind, exec_skipNewlines, exec_peek] at h
  split at h
  · cases h
  · exact calm_fail _ _ err h

theorem sure_here {s : ParseState} (hs : BeforeEof e s) : Sure e here (fun _ _ => True) s :=
  .of_keeps Discipline.keeps_here calm_here hs

theorem sure_checkDepth (depth : Nat) {s : ParseState} (hs : BeforeEof e s) :
    Sure e (checkDepth depth) (fun _ _ => True) s :=
  .of_keeps (Discipline.keeps_checkDepth depth) (calm_checkDepth depth) hs

theorem sure_lineBreak {s : ParseState} (hs : BeforeEof e s) : Sure e lineBreak (fun _ _ => True) s :=
  .of_keeps Discipline.keeps_lineBreak calm_lineBreak hs

theorem sure_skipNewlines {s : ParseState} (hs : BeforeEof e s) :
    Sure e skipNewlines (fun _ _ => True) s :=
  .of_keeps Discipline.keeps_skipNewlines calm_skipNewlines hs

theorem sure_endOfInput {s : ParseState} (hs : BeforeEof e s) :
    Sure e endOfInput (fun _ _ => True) s :=
  .of_keeps Discipline.keeps_endOfInput calm_endOfInput hs

theorem sure_resolveVar (name : String) {s : ParseState} (hs : BeforeEof e s) :
    Sure e (resolveVar name) (fun _ _ => True) s :=
  (Sure.of_keeps (Discipline.keeps_resolveVar name) (calm_resolveVar name) hs).mono fun _ _ _ => trivial

theorem sure_resolveType (name : String) {s : ParseState} (hs : BeforeEof e s) :
    Sure e (resolveType name) (fun _ _ => True) s :=
  (Sure.of_keeps (Discipline.keeps_resolveType name) (calm_resolveType name) hs).mono
    fun _ _ _ => trivial

theorem sure_resolveFun (name : String) {s : ParseState} (hs : BeforeEof e s) :
    Sure e (resolveFun name) (fun _ _ => True) s :=
  (Sure.of_keeps (Discipline.keeps_resolveFun name) (calm_resolveFun name) hs).mono fun _ _ _ => trivial

theorem sure_stepped {Q : α → ParseState → Prop} {a : α} {s : ParseState} (hs : BeforeEof e s)
    (hne : s.current.token ≠ .eof) (ha : ∀ t, s.cursor < t.cursor → Q a t) :
    (upToEof e).Post Q s (.ok a, s.stepped) ∧
      ∀ err : ParseError, ((.ok a : Except ParseError α), s.stepped).1 = .error err →
        err.fault ≠ .outOfFuel := by
  obtain ⟨hs', hc⟩ := hs.stepped hne
  exact ⟨⟨hs', ⟨rfl, by omega⟩, ha _ (by omega)⟩, fun _ h => by cases h⟩

theorem sure_eatKeyword (k : Keyword) {s : ParseState} (hs : BeforeEof e s) :
    Sure e (eatKeyword k) (fun b t => b = true → s.cursor < t.cursor) s := by
  rw [Sure, exec_eatKeyword]
  split
  · refine sure_stepped hs (Discipline.ne_eof_of_isKeyword ‹_›) fun _ h => ?_
    exact fun _ => h
  · exact sure_pure hs fun h => by cases h

theorem sure_eatSymbol (c : Symbol) {s : ParseState} (hs : BeforeEof e s) :
    Sure e (eatSymbol c) (fun b t => b = true → s.cursor < t.cursor) s := by
  rw [Sure, exec_eatSymbol]
  split
  · refine sure_stepped hs (Discipline.ne_eof_of_isSymbol ‹_›) fun _ h => ?_
    exact fun _ => h
  · exact sure_pure hs fun h => by cases h

theorem sure_keyword (k : Keyword) {s : ParseState} (hs : BeforeEof e s) :
    Sure e (keyword k) (fun _ t => s.cursor < t.cursor) s := by
  refine sure_bind (sure_eatKeyword k hs) fun b s' hs' _ hb => ?_
  cases b
  · exact sure_fail _ hs'
  · exact sure_pure hs' (hb rfl)

theorem sure_symbol (c : Symbol) {s : ParseState} (hs : BeforeEof e s) :
    Sure e (symbol c) (fun _ t => s.cursor < t.cursor) s := by
  refine sure_bind (sure_eatSymbol c hs) fun b s' hs' _ hb => ?_
  cases b
  · exact sure_fail _ hs'
  · exact sure_pure hs' (hb rfl)

theorem sure_ident (rule : Rule) {s : ParseState} (hs : BeforeEof e s) :
    Sure e (ident rule) (fun _ t => s.cursor < t.cursor) s := by
  rw [Sure]
  simp only [ident, exec_bind, exec_peek]
  split
  · next h =>
    simp only [exec_bind, exec_advance, exec_pure]
    refine sure_stepped hs (by rw [h]; intro h'; cases h') fun _ h => ?_
    exact h
  · exact sure_fail rule hs

theorem sure_binOp {s : ParseState} (hs : BeforeEof e s) :
    Sure e binOp (fun _ t => s.cursor < t.cursor) s := by
  rw [Sure]
  simp only [binOp, exec_bind, exec_peek]
  split
  · next op h =>
    simp only [exec_bind, exec_advance, exec_pure]
    refine sure_stepped hs (fun he => by simp [he] at h) fun _ h => ?_
    exact h
  · exact sure_fail _ hs

theorem sure_unOp {s : ParseState} (hs : BeforeEof e s) :
    Sure e unOp (fun _ t => s.cursor < t.cursor) s := by
  rw [Sure]
  simp only [unOp, exec_bind, exec_peek]
  split
  · next op h =>
    simp only [exec_bind, exec_advance, exec_pure]
    refine sure_stepped hs (fun he => by simp [he] at h) fun _ h => ?_
    exact h
  · exact sure_fail _ hs

theorem sure_constant {s : ParseState} (hs : BeforeEof e s) :
    Sure e constant (fun _ t => s.cursor < t.cursor) s := by
  rw [Sure]
  simp only [constant, exec_bind, exec_peek]
  split
  · next c h =>
    simp only [exec_bind, exec_advance, exec_pure]
    refine sure_stepped hs (fun he => by simp [he] at h) fun _ h => ?_
    exact h
  · exact sure_fail _ hs

theorem sure_map {p : Parser α} {f : α → β} {Q₁ : α → ParseState → Prop}
    {Q : β → ParseState → Prop} {s : ParseState} (hp : Sure e p Q₁ s)
    (hf : ∀ a t, Q₁ a t → Q (f a) t) : Sure e (f <$> p) Q s := by
  obtain ⟨hpost, hcalm⟩ := hp
  rw [Sure, exec_map]
  rcases hr : p.exec s with ⟨_ | a, s'⟩ <;> rw [hr] at hpost hcalm <;> dsimp only
  · exact ⟨hpost, fun err h => hcalm err (by cases h; rfl)⟩
  · exact ⟨⟨hpost.1, hpost.2.1, hf a s' hpost.2.2⟩, fun _ h => by cases h⟩

theorem sure_funRef {s : ParseState} (hs : BeforeEof e s) : Sure e funRef (fun _ _ => True) s := by
  refine sure_bind (sure_keyword _ hs) fun _ s₁ hs₁ _ _ => ?_
  refine sure_bind (sure_ident _ hs₁) fun name s₂ hs₂ _ _ => ?_
  refine sure_bind (sure_resolveFun name hs₂) fun r s₃ hs₃ _ _ => ?_
  exact sure_pure hs₃ trivial

theorem sure_varRef {s : ParseState} (hs : BeforeEof e s) : Sure e varRef (fun _ _ => True) s := by
  refine sure_bind (sure_ident _ hs) fun name s₁ hs₁ _ _ => ?_
  refine sure_bind (sure_resolveVar name hs₁) fun r s₂ hs₂ _ _ => ?_
  exact sure_pure hs₂ trivial

/-! ## The budget a rule needs -/

variable (e) in
/-- What a rule of rank `d` needs from a state: three steps for each token before the `eof` at
`e`, and its rank. -/
def need (s : ParseState) (d : Nat) : Nat := 3 * (e - s.cursor) + d

theorem need_call (k : Nat) {s t : ParseState} {fuel d d' : Nat} (hf : need e s d ≤ fuel + 1)
    (ht : BeforeEof e t) (hst : s.cursor + k ≤ t.cursor) (hd : d' + 1 ≤ d + 3 * k) :
    need e t d' ≤ fuel := by
  unfold need at *
  have := ht.2.1
  omega

theorem need_pos {s : ParseState} {d fuel : Nat} (hd : 0 < d) (hf : need e s d ≤ fuel) :
    0 < fuel := by
  unfold need at hf
  omega

/-! ## Expressions and statements -/

variable (e) in
/-- The expression rules at step budget `fuel` do not run out of steps when the budget covers
their need. -/
structure ExprRules (fuel : Nat) : Prop where
  expr : ∀ depth s, BeforeEof e s → need e s 4 ≤ fuel →
    Sure e (expr fuel depth) (fun _ _ => True) s
  binaryTail : ∀ depth s, BeforeEof e s → need e s 3 ≤ fuel →
    Sure e (binaryTail fuel depth) (fun _ _ => True) s
  operand : ∀ depth s, BeforeEof e s → need e s 3 ≤ fuel →
    Sure e (operand fuel depth) (fun _ _ => True) s
  unary : ∀ depth s, BeforeEof e s → need e s 2 ≤ fuel →
    Sure e (unary fuel depth) (fun _ _ => True) s
  callExpr : ∀ depth s, BeforeEof e s → need e s 2 ≤ fuel →
    Sure e (callExpr fuel depth) (fun _ _ => True) s
  funCall : ∀ depth s, BeforeEof e s → need e s 1 ≤ fuel →
    Sure e (funCall fuel depth) (fun _ _ => True) s
  argList : ∀ depth s, BeforeEof e s → need e s 5 ≤ fuel →
    Sure e (argList fuel depth) (fun _ _ => True) s
  element : ∀ depth s, BeforeEof e s → need e s 2 ≤ fuel →
    Sure e (element fuel depth) (fun _ _ => True) s
  paren : ∀ depth s, BeforeEof e s → need e s 2 ≤ fuel →
    Sure e (paren fuel depth) (fun _ _ => True) s

theorem ExprRules.zero : ExprRules e 0 where
  expr _ _ _ hf := absurd (need_pos (by omega) hf) (by omega)
  binaryTail _ _ _ hf := absurd (need_pos (by omega) hf) (by omega)
  operand _ _ _ hf := absurd (need_pos (by omega) hf) (by omega)
  unary _ _ _ hf := absurd (need_pos (by omega) hf) (by omega)
  callExpr _ _ _ hf := absurd (need_pos (by omega) hf) (by omega)
  funCall _ _ _ hf := absurd (need_pos (by omega) hf) (by omega)
  argList _ _ _ hf := absurd (need_pos (by omega) hf) (by omega)
  element _ _ _ hf := absurd (need_pos (by omega) hf) (by omega)
  paren _ _ _ hf := absurd (need_pos (by omega) hf) (by omega)

theorem ExprRules.succ {fuel : Nat} (ih : ExprRules e fuel) : ExprRules e (fuel + 1) where
  expr depth s hs hf := by
    rw [Parse.expr]
    refine sure_bind (sure_checkDepth depth hs) fun _ s₁ hs₁ h₁ _ => ?_
    refine sure_bind (ih.operand _ s₁ hs₁ (need_call 0 hf hs₁ (by omega) (by omega)))
      fun left s₂ hs₂ h₂ _ => ?_
    refine sure_bind (sure_attempt (ih.binaryTail _ s₂ hs₂ (need_call 0 hf hs₂ (by omega)
      (by omega))) hs₂) fun r s₃ hs₃ _ _ => ?_
    rcases r with _ | ⟨op, right⟩ <;> exact sure_pure hs₃ trivial
  binaryTail depth s hs hf := by
    rw [Parse.binaryTail]
    refine sure_bind (sure_binOp hs) fun op s₁ hs₁ _ h₁ => ?_
    refine sure_bind (ih.expr depth s₁ hs₁ (need_call 1 hf hs₁ (by omega) (by omega)))
      fun right s₂ hs₂ _ _ => ?_
    exact sure_pure hs₂ trivial
  operand depth s hs hf := by
    rw [Parse.operand]
    refine sure_firstOf _ hs ?_
    simp only [List.mem_cons, List.not_mem_nil, or_false]
    rintro p (rfl | rfl | rfl | rfl | rfl | rfl | rfl) t ht hst
    · exact ih.unary depth t ht (need_call 0 hf ht (by omega) (by omega))
    · exact ih.callExpr depth t ht (need_call 0 hf ht (by omega) (by omega))
    · exact ih.element depth t ht (need_call 0 hf ht (by omega) (by omega))
    · exact sure_funRef ht
    · exact sure_map (sure_constant ht) fun _ _ _ => trivial
    · exact sure_varRef ht
    · exact ih.paren depth t ht (need_call 0 hf ht (by omega) (by omega))
  unary depth s hs hf := by
    rw [Parse.unary]
    refine sure_bind (sure_unOp hs) fun op s₁ hs₁ _ h₁ => ?_
    refine sure_bind (ih.expr depth s₁ hs₁ (need_call 1 hf hs₁ (by omega) (by omega)))
      fun x s₂ hs₂ _ _ => ?_
    exact sure_pure hs₂ trivial
  callExpr depth s hs hf := by
    rw [Parse.callExpr]
    refine sure_bind (ih.funCall depth s hs (need_call 0 hf hs (by omega) (by omega)))
      fun c s₁ hs₁ _ _ => ?_
    exact sure_pure hs₁ trivial
  funCall depth s hs hf := by
    rw [Parse.funCall]
    refine sure_bind (sure_ident _ hs) fun name s₁ hs₁ _ h₁ => ?_
    refine sure_bind (sure_symbol _ hs₁) fun _ s₂ hs₂ _ h₂ => ?_
    refine sure_bind (sure_eatSymbol _ hs₂) fun b s₃ hs₃ h₃ _ => ?_
    -- both branches end by resolving the name, after the arguments
    have last : ∀ (args : List Expr) t, BeforeEof e t →
        Sure e (resolveFun name >>= fun r => pure (r, args)) (fun _ _ => True) t :=
      fun args t ht => sure_bind (sure_resolveFun name ht) fun r t' ht' _ _ => sure_pure ht' trivial
    cases b <;> simp only [pure_bind, Bool.false_eq_true, ↓reduceIte]
    · refine sure_bind (ih.argList depth s₃ hs₃ (need_call 2 hf hs₃ (by omega) (by omega)))
        fun args s₄ hs₄ _ _ => ?_
      refine sure_bind (sure_symbol _ hs₄) fun _ s₅ hs₅ _ _ => ?_
      exact last args s₅ hs₅
    · exact last [] s₃ hs₃
  argList depth s hs hf := by
    rw [Parse.argList]
    refine sure_bind (ih.expr depth s hs (need_call 0 hf hs (by omega) (by omega)))
      fun x s₁ hs₁ h₁ _ => ?_
    refine sure_bind (sure_eatSymbol _ hs₁) fun b s₂ hs₂ h₂ hb => ?_
    cases b
    · exact sure_pure hs₂ trivial
    · have h₁₂ := hb rfl
      refine sure_bind (ih.argList depth s₂ hs₂ (need_call 1 hf hs₂ (by omega) (by omega)))
        fun xs s₃ hs₃ _ _ => ?_
      exact sure_pure hs₃ trivial
  element depth s hs hf := by
    rw [Parse.element]
    refine sure_bind (sure_ident _ hs) fun name s₁ hs₁ _ h₁ => ?_
    refine sure_bind (sure_symbol _ hs₁) fun _ s₂ hs₂ _ h₂ => ?_
    refine sure_bind (ih.expr depth s₂ hs₂ (need_call 2 hf hs₂ (by omega) (by omega)))
      fun i s₃ hs₃ _ _ => ?_
    refine sure_bind (sure_symbol _ hs₃) fun _ s₄ hs₄ _ _ => ?_
    refine sure_bind (sure_resolveVar name hs₄) fun r s₅ hs₅ _ _ => ?_
    exact sure_pure hs₅ trivial
  paren depth s hs hf := by
    rw [Parse.paren]
    refine sure_bind (sure_symbol _ hs) fun _ s₁ hs₁ _ h₁ => ?_
    refine sure_bind (ih.expr depth s₁ hs₁ (need_call 1 hf hs₁ (by omega) (by omega)))
      fun x s₂ hs₂ _ _ => ?_
    refine sure_bind (sure_symbol _ hs₂) fun _ s₃ hs₃ _ _ => ?_
    exact sure_pure hs₃ trivial

theorem exprRules : ∀ fuel, ExprRules e fuel
  | 0 => .zero
  | fuel + 1 => (exprRules fuel).succ

variable (e) in
/-- The statement rules at step budget `fuel` do not run out of steps when the budget covers
their need, and a statement that succeeds has read a token. -/
structure StmtRules (fuel : Nat) : Prop where
  statements : ∀ depth s, BeforeEof e s → need e s 4 ≤ fuel →
    Sure e (statements fuel depth) (fun _ _ => True) s
  statement : ∀ depth s, BeforeEof e s → need e s 3 ≤ fuel →
    Sure e (statement fuel depth) (fun _ t => s.cursor < t.cursor) s
  setStmt : ∀ depth s, BeforeEof e s → need e s 2 ≤ fuel →
    Sure e (setStmt fuel depth) (fun _ t => s.cursor < t.cursor) s
  callStmt : ∀ depth s, BeforeEof e s → need e s 2 ≤ fuel →
    Sure e (callStmt fuel depth) (fun _ t => s.cursor < t.cursor) s
  ifStmt : ∀ depth s, BeforeEof e s → need e s 2 ≤ fuel →
    Sure e (ifStmt fuel depth) (fun _ t => s.cursor < t.cursor) s
  elseIfBranches : ∀ depth s, BeforeEof e s → need e s 2 ≤ fuel →
    Sure e (elseIfBranches fuel depth) (fun _ _ => True) s
  loopStmt : ∀ depth s, BeforeEof e s → need e s 2 ≤ fuel →
    Sure e (loopStmt fuel depth) (fun _ t => s.cursor < t.cursor) s
  exitWhenStmt : ∀ depth s, BeforeEof e s → need e s 2 ≤ fuel →
    Sure e (exitWhenStmt fuel depth) (fun _ t => s.cursor < t.cursor) s
  returnStmt : ∀ depth s, BeforeEof e s → need e s 2 ≤ fuel →
    Sure e (returnStmt fuel depth) (fun _ t => s.cursor < t.cursor) s
  debugStmt : ∀ depth s, BeforeEof e s → need e s 2 ≤ fuel →
    Sure e (debugStmt fuel depth) (fun _ t => s.cursor < t.cursor) s

theorem StmtRules.zero : StmtRules e 0 where
  statements _ _ _ hf := absurd (need_pos (by omega) hf) (by omega)
  statement _ _ _ hf := absurd (need_pos (by omega) hf) (by omega)
  setStmt _ _ _ hf := absurd (need_pos (by omega) hf) (by omega)
  callStmt _ _ _ hf := absurd (need_pos (by omega) hf) (by omega)
  ifStmt _ _ _ hf := absurd (need_pos (by omega) hf) (by omega)
  elseIfBranches _ _ _ hf := absurd (need_pos (by omega) hf) (by omega)
  loopStmt _ _ _ hf := absurd (need_pos (by omega) hf) (by omega)
  exitWhenStmt _ _ _ hf := absurd (need_pos (by omega) hf) (by omega)
  returnStmt _ _ _ hf := absurd (need_pos (by omega) hf) (by omega)
  debugStmt _ _ _ hf := absurd (need_pos (by omega) hf) (by omega)

theorem StmtRules.succ {fuel : Nat} (ih : StmtRules e fuel) : StmtRules e (fuel + 1) where
  statements depth s hs hf := by
    rw [Parse.statements]
    refine sure_bind (sure_attempt (ih.statement depth s hs (need_call 0 hf hs (by omega)
      (by omega))) hs) fun o s₁ hs₁ _ ho => ?_
    cases o with
    | none => exact sure_pure hs₁ trivial
    | some st =>
      -- the statement read a token, which pays for the next round
      have h₁ := ho st rfl
      refine sure_bind (sure_lineBreak hs₁) fun _ s₂ hs₂ h₂ _ => ?_
      refine sure_bind (ih.statements depth s₂ hs₂ (need_call 1 hf hs₂ (by omega) (by omega)))
        fun b s₃ hs₃ _ _ => ?_
      exact sure_pure hs₃ trivial
  statement depth s hs hf := by
    rw [Parse.statement]
    refine sure_bind (sure_here hs) fun pos s₁ hs₁ h₁ _ => ?_
    refine sure_bind (sure_firstOf (Q := fun _ t => s.cursor < t.cursor) _ hs₁ ?_)
      fun st s₂ hs₂ _ hst => sure_pure hs₂ hst
    simp only [List.mem_cons, List.not_mem_nil, or_false]
    rintro p (rfl | rfl | rfl | rfl | rfl | rfl | rfl) t ht hst
    · exact (ih.setStmt depth t ht (need_call 0 hf ht (by omega) (by omega))).mono
        fun _ u hu => by omega
    · exact (ih.callStmt depth t ht (need_call 0 hf ht (by omega) (by omega))).mono
        fun _ u hu => by omega
    · exact (ih.ifStmt depth t ht (need_call 0 hf ht (by omega) (by omega))).mono
        fun _ u hu => by omega
    · exact (ih.loopStmt depth t ht (need_call 0 hf ht (by omega) (by omega))).mono
        fun _ u hu => by omega
    · exact (ih.exitWhenStmt depth t ht (need_call 0 hf ht (by omega) (by omega))).mono
        fun _ u hu => by omega
    · exact (ih.returnStmt depth t ht (need_call 0 hf ht (by omega) (by omega))).mono
        fun _ u hu => by omega
    · exact (ih.debugStmt depth t ht (need_call 0 hf ht (by omega) (by omega))).mono
        fun _ u hu => by omega
  setStmt depth s hs hf := by
    rw [Parse.setStmt]
    refine sure_bind (sure_keyword _ hs) fun _ s₁ hs₁ _ h₁ => ?_
    refine sure_bind (sure_ident _ hs₁) fun name s₂ hs₂ _ h₂ => ?_
    refine sure_bind (sure_resolveVar name hs₂) fun target s₃ hs₃ h₃ _ => ?_
    refine sure_bind (sure_eatSymbol _ hs₃) fun b s₄ hs₄ h₄ _ => ?_
    -- after the optional index, both branches read `= value`
    have last : ∀ index t, BeforeEof e t → s₁.cursor ≤ t.cursor →
        Sure e (do
          symbol .assign
          let value ← expr fuel depth
          return Stmt.set target index value) (fun _ u => s.cursor < u.cursor) t :=
      fun index t ht h₁t => sure_bind (sure_symbol _ ht) fun _ t₁ ht₁ _ htt₁ =>
        sure_bind ((exprRules fuel).expr depth t₁ ht₁ (need_call 2 hf ht₁ (by omega) (by omega)))
          fun value t₂ ht₂ ht₁₂ _ => sure_pure ht₂ (by omega)
    cases b <;> simp only [pure_bind, Bool.false_eq_true, ↓reduceIte]
    · exact last none s₄ hs₄ (by omega)
    · refine sure_bind ((exprRules fuel).expr depth s₄ hs₄ (need_call 2 hf hs₄ (by omega)
        (by omega))) fun i s₅ hs₅ h₅ _ => ?_
      refine sure_bind (sure_symbol _ hs₅) fun _ s₆ hs₆ h₆ _ => ?_
      exact last (some i) s₆ hs₆ (by omega)
  callStmt depth s hs hf := by
    rw [Parse.callStmt]
    refine sure_bind (sure_keyword _ hs) fun _ s₁ hs₁ _ h₁ => ?_
    refine sure_bind ((exprRules fuel).funCall depth s₁ hs₁ (need_call 1 hf hs₁ (by omega)
      (by omega))) fun c s₂ hs₂ h₂ _ => ?_
    exact sure_pure hs₂ (by omega)
  ifStmt depth s hs hf := by
    rw [Parse.ifStmt]
    refine sure_bind (sure_checkDepth depth hs) fun _ s₁ hs₁ h₁ _ => ?_
    refine sure_bind (sure_keyword _ hs₁) fun _ s₂ hs₂ _ h₂ => ?_
    refine sure_bind ((exprRules fuel).expr _ s₂ hs₂ (need_call 1 hf hs₂ (by omega) (by omega)))
      fun cond s₃ hs₃ h₃ _ => ?_
    refine sure_bind (sure_keyword _ hs₃) fun _ s₄ hs₄ _ h₄ => ?_
    refine sure_bind (sure_lineBreak hs₄) fun _ s₅ hs₅ h₅ _ => ?_
    refine sure_bind (ih.statements _ s₅ hs₅ (need_call 2 hf hs₅ (by omega) (by omega)))
      fun thenBody s₆ hs₆ h₆ _ => ?_
    refine sure_bind (ih.elseIfBranches _ s₆ hs₆ (need_call 2 hf hs₆ (by omega) (by omega)))
      fun elseIfs s₇ hs₇ h₇ _ => ?_
    refine sure_bind (sure_eatKeyword _ hs₇) fun b s₈ hs₈ h₈ _ => ?_
    -- after the optional `else`, both branches read `endif`
    have last : ∀ elseBody t, BeforeEof e t → s₈.cursor ≤ t.cursor →
        Sure e (do
          keyword .kwEndif
          return Stmt.ifThen cond thenBody elseIfs elseBody) (fun _ u => s.cursor < u.cursor) t :=
      fun elseBody t ht h₈t => sure_bind (sure_keyword _ ht) fun _ t₁ ht₁ _ htt₁ =>
        sure_pure ht₁ (by omega)
    cases b <;> simp only [pure_bind, Bool.false_eq_true, ↓reduceIte]
    · exact last none s₈ hs₈ (Nat.le_refl _)
    · refine sure_bind (sure_lineBreak hs₈) fun _ s₉ hs₉ h₉ _ => ?_
      refine sure_bind (ih.statements _ s₉ hs₉ (need_call 2 hf hs₉ (by omega) (by omega)))
        fun body s₁₀ hs₁₀ h₁₀ _ => ?_
      exact last (some body) s₁₀ hs₁₀ (by omega)
  elseIfBranches depth s hs hf := by
    rw [Parse.elseIfBranches]
    refine sure_bind (sure_eatKeyword _ hs) fun b s₁ hs₁ _ hb => ?_
    cases b <;> simp only [Bool.false_eq_true, ↓reduceIte]
    · exact sure_pure hs₁ trivial
    · have h₁ := hb rfl
      refine sure_bind ((exprRules fuel).expr depth s₁ hs₁ (need_call 1 hf hs₁ (by omega)
        (by omega))) fun cond s₂ hs₂ h₂ _ => ?_
      refine sure_bind (sure_keyword _ hs₂) fun _ s₃ hs₃ _ h₃ => ?_
      refine sure_bind (sure_lineBreak hs₃) fun _ s₄ hs₄ h₄ _ => ?_
      refine sure_bind (ih.statements depth s₄ hs₄ (need_call 2 hf hs₄ (by omega) (by omega)))
        fun body s₅ hs₅ h₅ _ => ?_
      refine sure_bind (ih.elseIfBranches depth s₅ hs₅ (need_call 2 hf hs₅ (by omega)
        (by omega))) fun rest s₆ hs₆ _ _ => ?_
      exact sure_pure hs₆ trivial
  loopStmt depth s hs hf := by
    rw [Parse.loopStmt]
    refine sure_bind (sure_checkDepth depth hs) fun _ s₁ hs₁ h₁ _ => ?_
    refine sure_bind (sure_keyword _ hs₁) fun _ s₂ hs₂ _ h₂ => ?_
    refine sure_bind (sure_lineBreak hs₂) fun _ s₃ hs₃ h₃ _ => ?_
    refine sure_bind (ih.statements _ s₃ hs₃ (need_call 1 hf hs₃ (by omega) (by omega)))
      fun body s₄ hs₄ h₄ _ => ?_
    refine sure_bind (sure_keyword _ hs₄) fun _ s₅ hs₅ h₅ _ => ?_
    exact sure_pure hs₅ (by omega)
  exitWhenStmt depth s hs hf := by
    rw [Parse.exitWhenStmt]
    refine sure_bind (sure_keyword _ hs) fun _ s₁ hs₁ _ h₁ => ?_
    refine sure_bind ((exprRules fuel).expr depth s₁ hs₁ (need_call 1 hf hs₁ (by omega)
      (by omega))) fun cond s₂ hs₂ h₂ _ => ?_
    exact sure_pure hs₂ (by omega)
  returnStmt depth s hs hf := by
    rw [Parse.returnStmt]
    refine sure_bind (sure_keyword _ hs) fun _ s₁ hs₁ _ h₁ => ?_
    refine sure_bind (sure_attempt ((exprRules fuel).expr depth s₁ hs₁ (need_call 1 hf hs₁
      (by omega) (by omega))) hs₁) fun o s₂ hs₂ h₂ _ => ?_
    exact sure_pure hs₂ (by omega)
  debugStmt depth s hs hf := by
    rw [Parse.debugStmt]
    refine sure_bind (sure_keyword _ hs) fun _ s₁ hs₁ _ h₁ => ?_
    -- each body is tried from a cursor past `debug`
    refine sure_bind (sure_attempt (ih.setStmt depth s₁ hs₁ (need_call 1 hf hs₁ (by omega)
      (by omega))) hs₁) fun o₁ s₂ hs₂ h₂ _ => ?_
    rcases o₁ with _ | st
    · refine sure_bind (sure_attempt (ih.callStmt depth s₂ hs₂ (need_call 1 hf hs₂ (by omega)
        (by omega))) hs₂) fun o₂ s₃ hs₃ h₃ _ => ?_
      rcases o₂ with _ | st
      · refine sure_bind (sure_attempt (ih.ifStmt depth s₃ hs₃ (need_call 1 hf hs₃ (by omega)
          (by omega))) hs₃) fun o₃ s₄ hs₄ h₄ _ => ?_
        rcases o₃ with _ | st
        · refine sure_bind (sure_attempt (ih.loopStmt depth s₄ hs₄ (need_call 1 hf hs₄
            (by omega) (by omega))) hs₄) fun o₄ s₅ hs₅ h₅ _ => ?_
          rcases o₄ with _ | st
          · exact sure_fail _ hs₅
          · exact sure_pure hs₅ (by omega)
        · exact sure_pure hs₄ (by omega)
      · exact sure_pure hs₃ (by omega)
    · exact sure_pure hs₂ (by omega)

theorem stmtRules : ∀ fuel, StmtRules e fuel
  | 0 => .zero
  | fuel + 1 => (stmtRules fuel).succ

/-! ## Declarations and functions -/

theorem need_within (k : Nat) {s t : ParseState} {fuel d d' : Nat} (hf : need e s d ≤ fuel)
    (ht : BeforeEof e t) (hst : s.cursor + k ≤ t.cursor) (hd : d' ≤ d + 3 * k) :
    need e t d' ≤ fuel := by
  unfold need at *
  have := ht.2.1
  omega

theorem sure_ok {p : Parser α} {s t : ParseState} {a : α} (hp : p.exec s = (.ok a, t))
    (ht : BeforeEof e t) (hst : (upToEof e).le s t) :
    Sure e p (fun _ u => s.cursor ≤ u.cursor) s := by
  rw [Sure, hp]
  exact ⟨⟨ht, hst, hst.2⟩, fun _ h => by cases h⟩

theorem sure_varDecl (fuel : Nat) (pos : Pos) {s : ParseState} (hs : BeforeEof e s)
    (hf : need e s 0 ≤ fuel) : Sure e (varDecl fuel pos) (fun _ t => s.cursor < t.cursor) s := by
  rw [Parse.varDecl]
  refine sure_bind (sure_ident _ hs) fun typeName s₁ hs₁ _ h₁ => ?_
  refine sure_bind (sure_eatKeyword _ hs₁) fun isArray s₂ hs₂ h₂ _ => ?_
  refine sure_bind (sure_ident _ hs₂) fun name s₃ hs₃ _ h₃ => ?_
  refine sure_bind (sure_eatSymbol _ hs₃) fun b s₄ hs₄ h₄ _ => ?_
  -- the type is resolved last, after the optional initializer
  have last : ∀ init t, BeforeEof e t → s₄.cursor ≤ t.cursor →
      Sure e (do
        let r ← resolveType typeName
        pure { type := r, isArray, name, init, pos : VarDecl }) (fun _ u => s.cursor < u.cursor) t :=
    fun init t ht h₄t => sure_bind (sure_resolveType typeName ht) fun r t₁ ht₁ htt₁ _ =>
      sure_pure ht₁ (by omega)
  cases b <;> simp only [pure_bind, Bool.false_eq_true, ↓reduceIte]
  · exact last none s₄ hs₄ (Nat.le_refl _)
  · refine sure_bind ((exprRules fuel).expr 0 s₄ hs₄ (need_within 2 hf hs₄ (by omega)
      (by omega))) fun x s₅ hs₅ h₅ _ => ?_
    exact last (some x) s₅ hs₅ h₅

theorem sure_typeDecl {s : ParseState} (hs : BeforeEof e s) :
    Sure e typeDecl (fun _ t => s.cursor < t.cursor) s := by
  rw [Parse.typeDecl]
  refine sure_bind (sure_here hs) fun pos s₁ hs₁ h₁ _ => ?_
  refine sure_bind (sure_keyword _ hs₁) fun _ s₂ hs₂ _ h₂ => ?_
  refine sure_bind (sure_ident _ hs₂) fun name s₃ hs₃ h₃ _ => ?_
  refine sure_bind (sure_keyword _ hs₃) fun _ s₄ hs₄ h₄ _ => ?_
  refine sure_bind (sure_ident _ hs₄) fun parent s₅ hs₅ h₅ _ => ?_
  refine sure_bind (sure_resolveType parent hs₅) fun r s₆ hs₆ h₆ _ => ?_
  exact (sure_ok (exec_insertType _ s₆) hs₆ ⟨rfl, Nat.le_refl _⟩).mono fun _ t ht => by omega

theorem sure_global (fuel : Nat) {s : ParseState} (hs : BeforeEof e s) (hf : need e s 0 ≤ fuel) :
    Sure e (global fuel) (fun _ t => s.cursor < t.cursor) s := by
  rw [Parse.global]
  refine sure_bind (sure_here hs) fun pos s₁ hs₁ h₁ _ => ?_
  refine sure_bind (sure_eatKeyword _ hs₁) fun isConstant s₂ hs₂ h₂ _ => ?_
  refine sure_bind (sure_varDecl fuel pos hs₂ (need_within 0 hf hs₂ (by omega) (by omega)))
    fun d s₃ hs₃ _ h₃ => ?_
  refine sure_bind (sure_ok (exec_insertVar d s₃) hs₃ ⟨rfl, Nat.le_refl _⟩) fun v s₄ hs₄ h₄ _ => ?_
  exact sure_pure hs₄ (by omega)

theorem sure_params : ∀ fuel {s : ParseState}, BeforeEof e s → need e s 1 ≤ fuel →
    Sure e (params fuel) (fun _ _ => True) s
  | 0, _, _, hf => absurd (need_pos (by omega) hf) (by omega)
  | fuel + 1, s, hs, hf => by
    rw [Parse.params]
    refine sure_bind (sure_ident _ hs) fun typeName s₁ hs₁ _ h₁ => ?_
    refine sure_bind (sure_ident _ hs₁) fun name s₂ hs₂ _ h₂ => ?_
    refine sure_bind (sure_resolveType typeName hs₂) fun r s₃ hs₃ h₃ _ => ?_
    refine sure_bind (sure_eatSymbol _ hs₃) fun b s₄ hs₄ h₄ hb => ?_
    cases b <;> simp only [Bool.false_eq_true, ↓reduceIte]
    · exact sure_pure hs₄ trivial
    · have h₃₄ := hb rfl
      refine sure_bind (sure_params fuel hs₄ (need_call 3 hf hs₄ (by omega) (by omega)))
        fun ps s₅ hs₅ _ _ => ?_
      exact sure_pure hs₅ trivial

theorem sure_head (fuel : Nat) (pos : Pos) {s : ParseState} (hs : BeforeEof e s)
    (hf : need e s 0 ≤ fuel) : Sure e (head fuel pos) (fun _ t => s.cursor < t.cursor) s := by
  rw [Parse.head]
  refine sure_bind (sure_ident _ hs) fun name s₁ hs₁ _ h₁ => ?_
  refine sure_bind (sure_keyword _ hs₁) fun _ s₂ hs₂ _ h₂ => ?_
  refine sure_bind (sure_eatKeyword _ hs₂) fun b s₃ hs₃ h₃ _ => ?_
  -- after the parameters, both branches read the result type
  have rest : ∀ ps t, BeforeEof e t → s₁.cursor ≤ t.cursor →
      Sure e (do
        keyword .kwReturns
        let result ← if ← eatKeyword .kwNothing then pure none else do
          let t ← ident .returnType
          pure (some (← resolveType t))
        return { name, params := ps, result, pos : FunDecl }) (fun _ u => s.cursor < u.cursor) t := by
    intro ps t ht h₁t
    refine sure_bind (sure_keyword _ ht) fun _ t₁ ht₁ _ htt₁ => ?_
    refine sure_bind (sure_eatKeyword _ ht₁) fun b t₂ ht₂ ht₁₂ _ => ?_
    cases b <;> simp only [pure_bind, Bool.false_eq_true, ↓reduceIte]
    · refine sure_bind (sure_ident _ ht₂) fun r t₃ ht₃ ht₂₃ _ => ?_
      refine sure_bind (sure_resolveType r ht₃) fun r t₄ ht₄ ht₃₄ _ => ?_
      exact sure_pure ht₄ (by omega)
    · exact sure_pure ht₂ (by omega)
  cases b <;> simp only [pure_bind, Bool.false_eq_true, ↓reduceIte]
  · refine sure_bind (sure_params fuel hs₃ (need_within 2 hf hs₃ (by omega) (by omega)))
      fun ps s₄ hs₄ h₄ _ => ?_
    exact rest ps s₄ hs₄ (by omega)
  · exact rest [] s₃ hs₃ (by omega)

theorem sure_native (fuel : Nat) {s : ParseState} (hs : BeforeEof e s) (hf : need e s 0 ≤ fuel) :
    Sure e (native fuel) (fun _ t => s.cursor < t.cursor) s := by
  rw [Parse.native]
  refine sure_bind (sure_here hs) fun pos s₁ hs₁ h₁ _ => ?_
  refine sure_bind (sure_eatKeyword _ hs₁) fun isConstant s₂ hs₂ h₂ _ => ?_
  refine sure_bind (sure_keyword _ hs₂) fun _ s₃ hs₃ _ h₃ => ?_
  refine sure_bind (sure_head fuel pos hs₃ (need_within 0 hf hs₃ (by omega) (by omega)))
    fun d s₄ hs₄ h₄ _ => ?_
  refine sure_bind (sure_ok (exec_insertFun d s₄) hs₄ ⟨rfl, Nat.le_refl _⟩) fun fn s₅ hs₅ h₅ _ => ?_
  exact sure_pure hs₅ (by omega)

theorem sure_globalLines : ∀ fuel {s : ParseState}, BeforeEof e s → need e s 1 ≤ fuel →
    Sure e (globalLines fuel) (fun _ _ => True) s
  | 0, _, _, hf => absurd (need_pos (by omega) hf) (by omega)
  | fuel + 1, s, hs, hf => by
    rw [Parse.globalLines]
    refine sure_bind (sure_attempt (sure_global fuel hs (need_call 0 hf hs (by omega) (by omega)))
      hs) fun o s₁ hs₁ _ ho => ?_
    cases o with
    | none => exact sure_pure hs₁ trivial
    | some g =>
      -- the global read a token, which pays for the next round
      have h₁ := ho g rfl
      refine sure_bind (sure_lineBreak hs₁) fun _ s₂ hs₂ h₂ _ => ?_
      refine sure_bind (sure_globalLines fuel hs₂ (need_call 1 hf hs₂ (by omega) (by omega)))
        fun gs s₃ hs₃ _ _ => ?_
      exact sure_pure hs₃ trivial

theorem sure_globalsBlock (fuel : Nat) {s : ParseState} (hs : BeforeEof e s)
    (hf : need e s 0 ≤ fuel) : Sure e (globalsBlock fuel) (fun _ t => s.cursor < t.cursor) s := by
  rw [Parse.globalsBlock]
  refine sure_bind (sure_keyword _ hs) fun _ s₁ hs₁ _ h₁ => ?_
  refine sure_bind (sure_lineBreak hs₁) fun _ s₂ hs₂ h₂ _ => ?_
  refine sure_bind (sure_globalLines fuel hs₂ (need_within 1 hf hs₂ (by omega) (by omega)))
    fun gs s₃ hs₃ h₃ _ => ?_
  refine sure_bind (sure_keyword _ hs₃) fun _ s₄ hs₄ h₄ _ => ?_
  exact sure_pure hs₄ (by omega)

theorem sure_declItem (fuel : Nat) (acc : DeclPart) {s : ParseState} (hs : BeforeEof e s)
    (hf : need e s 0 ≤ fuel) :
    Sure e (declItem fuel acc) (fun o t => ∀ p ∈ o, s.cursor < t.cursor) s := by
  rw [Parse.declItem]
  refine sure_bind (sure_attempt (sure_typeDecl hs) hs) fun o₁ s₁ hs₁ h₁ ho₁ => ?_
  rcases o₁ with _ | id
  · refine sure_bind (sure_attempt (sure_globalsBlock fuel hs₁ (need_within 0 hf hs₁ (by omega)
      (by omega))) hs₁) fun o₂ s₂ hs₂ h₂ ho₂ => ?_
    rcases o₂ with _ | gs
    · refine sure_bind (sure_attempt (sure_native fuel hs₂ (need_within 0 hf hs₂ (by omega)
        (by omega))) hs₂) fun o₃ s₃ hs₃ h₃ ho₃ => ?_
      rcases o₃ with _ | n
      · exact sure_pure hs₃ fun _ hp => by cases hp
      · have := ho₃ n rfl
        exact sure_pure hs₃ fun _ _ => by omega
    · have := ho₂ gs rfl
      exact sure_pure hs₂ fun _ _ => by omega
  · have := ho₁ id rfl
    exact sure_pure hs₁ fun _ _ => this

theorem sure_declarations : ∀ fuel (acc : DeclPart) {s : ParseState}, BeforeEof e s →
    need e s 1 ≤ fuel → Sure e (declarations fuel acc) (fun _ _ => True) s
  | 0, _, _, _, hf => absurd (need_pos (by omega) hf) (by omega)
  | fuel + 1, acc, s, hs, hf => by
    rw [Parse.declarations]
    refine sure_bind (sure_declItem fuel acc hs (need_call 0 hf hs (by omega) (by omega)))
      fun o s₁ hs₁ _ ho => ?_
    cases o with
    | none => exact sure_pure hs₁ trivial
    | some acc' =>
      -- the item read a token, which pays for the next round
      have h₁ := ho acc' rfl
      refine sure_bind (sure_lineBreak hs₁) fun _ s₂ hs₂ h₂ _ => ?_
      exact sure_declarations fuel acc' hs₂ (need_call 1 hf hs₂ (by omega) (by omega))

theorem sure_localDecl (fuel : Nat) {s : ParseState} (hs : BeforeEof e s) (hf : need e s 0 ≤ fuel) :
    Sure e (localDecl fuel) (fun _ t => s.cursor < t.cursor) s := by
  rw [Parse.localDecl]
  refine sure_bind (sure_here hs) fun pos s₁ hs₁ h₁ _ => ?_
  refine sure_bind (sure_keyword _ hs₁) fun _ s₂ hs₂ _ h₂ => ?_
  refine sure_bind (sure_varDecl fuel pos hs₂ (need_within 0 hf hs₂ (by omega) (by omega)))
    fun d s₃ hs₃ h₃ _ => ?_
  exact (sure_ok (exec_pushScoped d s₃) hs₃ ⟨rfl, Nat.le_refl _⟩).mono fun _ t ht => by omega

theorem sure_localLines : ∀ fuel {s : ParseState}, BeforeEof e s → need e s 1 ≤ fuel →
    Sure e (localLines fuel) (fun _ _ => True) s
  | 0, _, _, hf => absurd (need_pos (by omega) hf) (by omega)
  | fuel + 1, s, hs, hf => by
    rw [Parse.localLines]
    refine sure_bind (sure_attempt (sure_localDecl fuel hs (need_call 0 hf hs (by omega)
      (by omega))) hs) fun o s₁ hs₁ _ ho => ?_
    cases o with
    | none => exact sure_pure hs₁ trivial
    | some v =>
      -- the local read a token, which pays for the next round
      have h₁ := ho v rfl
      refine sure_bind (sure_lineBreak hs₁) fun _ s₂ hs₂ h₂ _ => ?_
      refine sure_bind (sure_localLines fuel hs₂ (need_call 1 hf hs₂ (by omega) (by omega)))
        fun vs s₃ hs₃ _ _ => ?_
      exact sure_pure hs₃ trivial

theorem sure_functionBody (fuel : Nat) {s : ParseState} (hs : BeforeEof e s)
    (hf : need e s 4 ≤ fuel) : Sure e (functionBody fuel) (fun _ _ => True) s := by
  rw [Parse.functionBody]
  refine sure_bind (sure_lineBreak hs) fun _ s₁ hs₁ h₁ _ => ?_
  refine sure_bind (sure_localLines fuel hs₁ (need_within 0 hf hs₁ (by omega) (by omega)))
    fun vs s₂ hs₂ h₂ _ => ?_
  refine sure_bind ((stmtRules fuel).statements 0 s₂ hs₂ (need_within 0 hf hs₂ (by omega)
    (by omega))) fun b s₃ hs₃ _ _ => ?_
  refine sure_bind (sure_keyword _ hs₃) fun _ s₄ hs₄ _ _ => ?_
  refine sure_bind (sure_lineBreak hs₄) fun _ s₅ hs₅ _ _ => ?_
  exact sure_pure hs₅ trivial

theorem sure_catch {p : Parser α} {Q : α → ParseState → Prop} {s : ParseState} (hp : Sure e p Q s) :
    Sure e (tryCatch (Except.ok <$> p) fun err => pure (.error err))
      (fun r t => (∀ a, r = .ok a → Q a t) ∧ ∀ err, r = .error err → err.fault ≠ .outOfFuel) s := by
  obtain ⟨hpost, hfuel⟩ := hp
  rw [Sure, exec_tryCatch, exec_map]
  rcases hr : p.exec s with ⟨_ | a, s'⟩ <;> rw [hr] at hpost hfuel <;> dsimp only
  · rw [exec_pure]
    obtain ⟨hs', hss', -⟩ := hpost
    refine ⟨⟨hs', hss', ⟨fun _ h => (by cases h), fun err h => ?_⟩⟩, fun _ h => by cases h⟩
    cases h
    exact hfuel _ rfl
  · obtain ⟨hs', hss', hq⟩ := hpost
    refine ⟨⟨hs', hss', ⟨fun _ h => ?_, fun _ h => by cases h⟩⟩, fun _ h => by cases h⟩
    cases h
    exact hq

theorem sure_function (fuel : Nat) {s : ParseState} (hs : BeforeEof e s)
    (hf : need e s 0 ≤ fuel) : Sure e (function fuel) (fun _ t => s.cursor < t.cursor) s := by
  rw [Parse.function]
  refine sure_bind (sure_here hs) fun pos s₁ hs₁ h₁ _ => ?_
  refine sure_bind (sure_eatKeyword _ hs₁) fun isConstant s₂ hs₂ h₂ _ => ?_
  refine sure_bind (sure_keyword _ hs₂) fun _ s₃ hs₃ _ h₃ => ?_
  refine sure_bind (sure_head fuel pos hs₃ (need_within 1 hf hs₃ (by omega) (by omega)))
    fun d s₄ hs₄ _ h₄ => ?_
  refine sure_bind (sure_ok (exec_insertFun d s₄) hs₄ ⟨rfl, Nat.le_refl _⟩)
    fun fn s₅ hs₅ h₅ _ => ?_
  refine sure_bind (sure_ok (exec_clearScope s₅) hs₅ ⟨rfl, Nat.le_refl _⟩)
    fun _ s₆ hs₆ h₆ _ => ?_
  obtain ⟨hs₇, h₆₇⟩ := (upToEof e).inv_pushParams pos d.params s₆ hs₆ fun _ _ => trivial
  refine sure_bind (sure_ok (exec_forIn d.params _ (fun p t => t.pushed (p.decl pos))
    (fun _ _ => rfl) s₆) hs₇ h₆₇) fun _ s₇ hs₇ h₇ _ => ?_
  -- the head read two tokens past the start, which pay for the body
  refine sure_bind (sure_catch (sure_functionBody fuel hs₇ (need_within 2 hf hs₇ (by omega)
    (by omega)))) fun body s₈ hs₈ h₈ hb => ?_
  refine sure_bind (sure_ok (exec_clearScope s₈) hs₈ ⟨rfl, Nat.le_refl _⟩)
    fun _ s₉ hs₉ h₉ _ => ?_
  rcases body with err | ⟨locals, stmts⟩
  · refine ⟨?_, fun err' h => ?_⟩
    · rw [exec_throw]
      exact ⟨hs₉, ⟨rfl, Nat.le_refl _⟩, trivial⟩
    · rw [exec_throw] at h
      cases h
      exact hb.2 _ rfl
  · exact sure_pure hs₉ (by omega)

theorem sure_functions : ∀ fuel {s : ParseState}, BeforeEof e s → need e s 1 ≤ fuel →
    Sure e (functions fuel) (fun _ _ => True) s
  | 0, _, _, hf => absurd (need_pos (by omega) hf) (by omega)
  | fuel + 1, s, hs, hf => by
    rw [Parse.functions]
    refine sure_bind (sure_attempt (sure_function fuel hs (need_call 0 hf hs (by omega)
      (by omega))) hs) fun o s₁ hs₁ _ ho => ?_
    cases o with
    | none => exact sure_pure hs₁ trivial
    | some f =>
      -- the function read a token, which pays for the next round
      have h₁ := ho f rfl
      refine sure_bind (sure_functions fuel hs₁ (need_call 1 hf hs₁ (by omega) (by omega)))
        fun fs s₂ hs₂ _ _ => ?_
      exact sure_pure hs₂ trivial

theorem sure_file (fuel : Nat) (path : String) {s : ParseState} (hs : BeforeEof e s)
    (hf : need e s 1 ≤ fuel) : Sure e (file fuel path) (fun _ _ => True) s := by
  rw [Parse.file]
  refine sure_bind (sure_skipNewlines hs) fun _ s₁ hs₁ h₁ _ => ?_
  refine sure_bind (sure_declarations fuel {} hs₁ (need_within 0 hf hs₁ (by omega) (by omega)))
    fun p s₂ hs₂ h₂ _ => ?_
  refine sure_bind (sure_functions fuel hs₂ (need_within 0 hf hs₂ (by omega) (by omega)))
    fun fs s₃ hs₃ _ _ => ?_
  refine sure_bind (sure_endOfInput hs₃) fun _ s₄ hs₄ _ _ => ?_
  exact sure_pure hs₄ trivial

/-! ## Whole parses -/

theorem Sure.final {p : Parser α} {Q : α → ParseState → Prop} {s : ParseState} (hp : Sure e p Q s) :
    BeforeEof e (p.exec s).2 := by
  obtain ⟨hpost, -⟩ := hp
  rcases hr : p.exec s with ⟨_ | a, t⟩ <;> rw [hr] at hpost
  · exact hpost.1
  · exact hpost.1

theorem beforeEof_start {tokens : Array Lexeme} {tables : Tables} {lim : Limits}
    (htok : tokens.back?.map (·.token) = some .eof) :
    BeforeEof (tokens.size - 1) (start tokens tables lim) := by
  rw [Array.back?_eq_getElem?] at htok
  exact ⟨htok, Nat.zero_le _, Nat.zero_le _⟩

theorem need_start (tokens : Array Lexeme) (tables : Tables) (lim : Limits) {d : Nat} (hd : d ≤ 16) :
    need (tokens.size - 1) (start tokens tables lim) d ≤ budget tokens.size := by
  show 3 * (tokens.size - 1 - 0) + d ≤ 8 * (tokens.size + 2)
  omega

theorem report_ne_outOfFuel {s : ParseState} (hs : s.FurthestInv) {err : ParseError}
    (h : err.fault ≠ .outOfFuel) : (s.report err).fault ≠ .outOfFuel := by
  unfold ParseState.report
  split
  · next _ _ _ f _ hf =>
    obtain ⟨hmem, -, -⟩ := furthestOf_spec (hs.furthest ▸ hf)
    obtain ⟨_, rule, hrule⟩ := (hs.failures _ hmem).2
    dsimp only at hrule
    rw [hrule]
    intro hc
    cases hc
  · exact h

theorem runOn_ne_outOfFuel {p : Parser α} {Q Q' : α → ParseState → Prop} {tokens : Array Lexeme}
    {tables : Tables} {lim : Limits} (htok : tokens.back?.map (·.token) = some .eof)
    (hk : furthest.Keeps p Q) (hp : Sure (tokens.size - 1) p Q' (start tokens tables lim)) :
    ∀ err, (p.runOn tokens tables lim).1 = .error err → err.fault ≠ .outOfFuel := by
  intro err h
  rw [runOn_eq] at h
  have hinv := hk (start tokens tables lim) (start_furthestInv htok)
  rcases hr : p.exec (start tokens tables lim) with ⟨e₀ | _, t⟩ <;> rw [hr] at h hinv <;>
    dsimp only at h
  · cases h
    exact report_ne_outOfFuel hinv.1 (hp.2 e₀ (by rw [hr]))
  · cases h

theorem sure_exprInput (n : Nat) {s : ParseState} (hs : BeforeEof e s)
    (hf : need e s 4 ≤ budget n) :
    Sure e (do
      let x ← Parse.expr (budget n) 0
      Parse.endOfInput
      return x : Parser Expr) (fun _ _ => True) s := by
  refine sure_bind ((exprRules _).expr 0 s hs hf) fun _ s₁ hs₁ _ _ => ?_
  refine sure_bind (sure_endOfInput hs₁) fun _ s₂ hs₂ _ _ => ?_
  exact sure_pure hs₂ trivial

theorem furthest_keeps_exprInput (n : Nat) :
    furthest.Keeps (do
      let x ← Parse.expr (budget n) 0
      Parse.endOfInput
      return x : Parser Expr) fun _ _ => True := by
  intro s hs
  refine Discipline.post_bind ((Discipline.exprRules _).expr 0) hs fun _ s₁ hs₁ _ _ => ?_
  refine Discipline.post_bind Discipline.keeps_endOfInput hs₁ fun _ s₂ hs₂ _ _ => ?_
  exact Discipline.post_pure hs₂ trivial

end Budget

open Budget in
/-- Parsing a token list that ends with `eof` never runs out of steps: whatever the tables and
the limits, neither a file nor a lone expression given `Parse.budget` steps fails with
`outOfFuel`, and the cursor never passes the `eof`. -/
theorem parsing_never_runs_out_of_steps {tokens : Array Lexeme}
    (htok : tokens.back?.map (·.token) = some .eof) (tables : Tables) (lim : Limits)
    (path : String) :
    (∀ err, ((Parse.file (budget tokens.size) path).runOn tokens tables lim).1 = .error err →
      err.fault ≠ .outOfFuel) ∧
    ((Parse.file (budget tokens.size) path).exec (start tokens tables lim)).2.reach <
      tokens.size ∧
    (∀ err, parseExprTokens tokens tables lim = .error err → err.fault ≠ .outOfFuel) ∧
    ((do
      let x ← Parse.expr (budget tokens.size) 0
      Parse.endOfInput
      return x : Parser Expr).exec (start tokens tables lim)).2.reach < tokens.size := by
  have hs : BeforeEof (tokens.size - 1) (start tokens tables lim) := beforeEof_start htok
  have hsize : 0 < tokens.size :=
    (start_furthestInv htok : (start tokens tables lim).FurthestInv).reach_lt
  have hfile := sure_file (budget tokens.size) path hs (need_start tokens tables lim (by omega))
  have hexpr := sure_exprInput tokens.size hs (need_start tokens tables lim (by omega))
  refine ⟨runOn_ne_outOfFuel htok (furthest.fileRules.keeps_file _ path) hfile, ?_,
    runOn_ne_outOfFuel htok (furthest_keeps_exprInput _) hexpr, ?_⟩
  · have := hfile.final.2.2
    omega
  · have := hexpr.final.2.2
    omega

/-- The tokens of the source `function`, which fails to parse, but not for want of steps. -/
theorem bare_function_parse_stays_within_budget :
    let tokens : Array Lexeme := #[⟨.keyword .kwFunction, ⟨1, 1⟩⟩, ⟨.eof, ⟨1, 9⟩⟩]
    tokens.back?.map (·.token) = some .eof ∧
    (∀ err, ((Parse.file (budget tokens.size) "a.j").runOn tokens Tables.initial {}).1 =
      .error err → err.fault ≠ .outOfFuel) ∧
    ((Parse.file (budget tokens.size) "a.j").exec (start tokens Tables.initial {})).2.reach <
      tokens.size ∧
    (∀ err, parseExprTokens tokens Tables.initial {} = .error err → err.fault ≠ .outOfFuel) ∧
    ((do
      let x ← Parse.expr (budget tokens.size) 0
      Parse.endOfInput
      return x : Parser Expr).exec (start tokens Tables.initial {})).2.reach < tokens.size := by
  intro tokens
  exact ⟨rfl, parsing_never_runs_out_of_steps rfl Tables.initial {} "a.j"⟩

end Jass
