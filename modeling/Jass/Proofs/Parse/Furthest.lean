import Jass.Proofs.Parse.Declarations
import Jass.Proofs.Lex.Progress
/-!
# Syntax errors are reported at the furthest point reached

Alternatives backtrack: `attempt` gives the cursor back after a syntax failure, so the failure a
parse ends with is often not the one that explains it. The parser instead reports the latest
failure raised at the furthest index its cursor reached, across every alternative tried.

The run keeps `FurthestInv`: the cursor stands at or before the furthest index reached; every
failure was raised there or before; and unless the cursor stands at that index, a failure was
raised there already. A syntax failure can only leave the cursor behind the furthest index
after one was raised at it, so at the end of a failed run the latest failure at the furthest
index is the one reported (`syntax_error_at_furthest_failure`).
-/

namespace Jass

/-! ## Line breaks -/

theorem le_skipLineBreaks (ts : Array Lexeme) (i : Nat) : i ≤ skipLineBreaks ts i := by
  fun_induction skipLineBreaks ts i <;> omega

theorem skipLineBreaks_lt {ts : Array Lexeme} (hlast : ts.back?.map (·.token) = some .eof) :
    ∀ {i : Nat}, i < ts.size → skipLineBreaks ts i < ts.size := by
  intro i
  fun_induction skipLineBreaks ts i with
  | case1 i hi hnl ih =>
    intro _
    refine ih ?_
    -- the last token is `eof`, so a line break is not the last token
    rcases Nat.lt_or_ge (i + 1) ts.size with hlt | hge
    · exact hlt
    · have hlast' : ts[i].token = .eof := by
        rw [Array.back?_eq_getElem?] at hlast
        have : ts.size - 1 = i := by omega
        simp only [this, Array.getElem?_eq_getElem hi, Option.map_some, Option.some.injEq] at hlast
        exact hlast
      rw [hlast'] at hnl
      cases hnl
  | case2 => exact id
  | case3 => exact id

namespace ParseState

/-! ## The failure log -/

/-- The latest failure at the furthest index of a log kept latest first. -/
def furthestOf : List (Nat × ParseError) → Option (Nat × ParseError)
  | [] => none
  | p :: ps =>
    match furthestOf ps with
    | none => some p
    | some q => if p.1 ≥ q.1 then some p else some q

def lastFailureAt (fs : List (Nat × ParseError)) (k : Nat) : Option ParseError :=
  (fs.find? fun p => p.1 == k).map (·.2)

theorem furthestOf_eq_none {fs : List (Nat × ParseError)} : furthestOf fs = none ↔ fs = [] := by
  cases fs with
  | nil => simp [furthestOf]
  | cons p ps =>
    simp only [furthestOf, reduceCtorEq, iff_false]
    split
    · simp
    · split <;> simp

theorem furthestOf_spec : ∀ {fs : List (Nat × ParseError)} {q : Nat × ParseError},
    furthestOf fs = some q → q ∈ fs ∧ (∀ p ∈ fs, p.1 ≤ q.1) ∧ lastFailureAt fs q.1 = some q.2
  | [], _, h => by simp [furthestOf] at h
  | p :: ps, q, h => by
    simp only [furthestOf] at h
    split at h
    · next hnone =>
      cases h
      rw [furthestOf_eq_none.mp hnone]
      simp [lastFailureAt]
    · next q' hq' =>
      obtain ⟨hmem, hle, hlast⟩ := furthestOf_spec hq'
      split at h
      · next hge =>
        cases h
        refine ⟨.head _, ?_, by simp [lastFailureAt]⟩
        intro r hr
        rcases List.mem_cons.mp hr with rfl | hr
        · exact Nat.le_refl _
        · exact Nat.le_trans (hle r hr) hge
      · next hlt =>
        cases h
        refine ⟨.tail _ hmem, ?_, ?_⟩
        · intro r hr
          rcases List.mem_cons.mp hr with rfl | hr
          · omega
          · exact hle r hr
        · have hne : (p.1 == q.1) = false := by simp; omega
          simpa [lastFailureAt, List.find?_cons, hne] using hlast

theorem furthest_record {s : ParseState} (h : s.furthest = furthestOf s.failures) (e : ParseError) :
    (s.record e).furthest = furthestOf (s.record e).failures := by
  simp only [record, atFurthest, furthestOf, h]
  generalize furthestOf s.failures = o
  rcases o with _ | ⟨i, f⟩ <;> simp

/-- A failure of the log was raised at a token of the list, expecting a rule there. -/
def Raised (tokens : Array Lexeme) (p : Nat × ParseError) : Prop :=
  ∃ h : p.1 < tokens.size, ∃ rule, p.2 = ⟨.expected rule tokens[p.1].token, tokens[p.1].pos⟩

theorem current_eq_getElem {s : ParseState} (h : s.cursor < s.tokens.size) :
    s.current = s.tokens[s.cursor] := by
  have : min s.cursor (s.tokens.size - 1) = s.cursor := by omega
  simp [current, this, Array.getElem?_eq_getElem h]

/-! ## The invariant -/

/-- What every state of a run keeps: the token list ends with `eof`; the cursor stands at or
before the furthest index reached, which is a token; every failure was raised at a token at or
before that index; unless the cursor stands at it, a failure was raised there; and `furthest`
is the furthest failure of the log. -/
structure FurthestInv (s : ParseState) : Prop where
  eof : s.tokens.back?.map (·.token) = some .eof
  cursor_le : s.cursor ≤ s.reach
  reach_lt : s.reach < s.tokens.size
  failures : ∀ p ∈ s.failures, p.1 ≤ s.reach ∧ Raised s.tokens p
  at_reach : s.cursor = s.reach ∨ ∃ e, (s.reach, e) ∈ s.failures
  furthest : s.furthest = furthestOf s.failures

variable {s t : ParseState}

theorem FurthestInv.frame (hs : s.FurthestInv) (htok : t.tokens = s.tokens)
    (hcur : t.cursor = s.cursor) (hreach : t.reach = s.reach) (hfail : t.failures = s.failures)
    (hfur : t.furthest = s.furthest) : t.FurthestInv where
  eof := htok ▸ hs.eof
  cursor_le := hcur ▸ hreach ▸ hs.cursor_le
  reach_lt := htok ▸ hreach ▸ hs.reach_lt
  failures := htok ▸ hreach ▸ hfail ▸ hs.failures
  at_reach := hcur ▸ hreach ▸ hfail ▸ hs.at_reach
  furthest := hfur ▸ hfail ▸ hs.furthest

theorem FurthestInv.moveTo (hs : s.FurthestInv) {c : Nat} (hc : s.cursor ≤ c)
    (hlt : c < s.tokens.size) : (s.moveTo c).FurthestInv ∧ s.reach ≤ (s.moveTo c).reach := by
  have hreach : (s.moveTo c).reach = max s.reach c := rfl
  refine ⟨⟨hs.eof, ?_, ?_, ?_, ?_, hs.furthest⟩, by rw [hreach]; omega⟩
  · show c ≤ _
    omega
  · show max s.reach c < s.tokens.size
    have := hs.reach_lt
    omega
  · intro p hp
    obtain ⟨hle, hraised⟩ := hs.failures p hp
    exact ⟨by rw [hreach]; omega, hraised⟩
  · -- past the furthest index the cursor stands at the new one; behind it, a failure is there
    by_cases hrc : s.reach ≤ c
    · exact .inl (show c = max s.reach c by omega)
    · rcases hs.at_reach with hat | hat
      · omega
      · have hmax : max s.reach c = s.reach := by omega
        right
        show ∃ e, (max s.reach c, e) ∈ s.failures
        rw [hmax]
        exact hat

theorem FurthestInv.record (hs : s.FurthestInv) (rule : Rule) :
    (s.record (s.expected rule)).FurthestInv ∧
      ∃ e, (s.reach, e) ∈ (s.record (s.expected rule)).failures := by
  have hlt : s.cursor < s.tokens.size := Nat.lt_of_le_of_lt hs.cursor_le hs.reach_lt
  have hnew : Raised s.tokens (s.cursor, s.expected rule) :=
    ⟨hlt, rule, by simp [expected, current_eq_getElem hlt]⟩
  refine ⟨⟨hs.eof, hs.cursor_le, hs.reach_lt, ?_, ?_, furthest_record hs.furthest _⟩, ?_⟩
  · intro p hp
    rcases List.mem_cons.mp hp with rfl | hp
    · exact ⟨hs.cursor_le, hnew⟩
    · exact hs.failures p hp
  · rcases hs.at_reach with hat | ⟨e, he⟩
    · exact .inl hat
    · exact .inr ⟨e, .tail _ he⟩
  · rcases hs.at_reach with hat | ⟨e, he⟩
    · refine ⟨s.expected rule, ?_⟩
      show (s.reach, s.expected rule) ∈ (s.cursor, s.expected rule) :: s.failures
      rw [hat]
      exact List.Mem.head _
    · exact ⟨e, .tail _ he⟩

theorem FurthestInv.rewind {s₀ : ParseState} (hs₀ : s₀.FurthestInv) (hs : s.FurthestInv)
    (hreach : s₀.reach ≤ s.reach) (hat : ∃ e, (s.reach, e) ∈ s.failures) :
    ({ s with cursor := s₀.cursor } : ParseState).FurthestInv :=
  ⟨hs.eof, Nat.le_trans hs₀.cursor_le hreach, hs.reach_lt, hs.failures, .inr hat, hs.furthest⟩

theorem start_furthestInv {tokens : Array Lexeme} {tables : Tables} {lim : Limits}
    (h : tokens.back?.map (·.token) = some .eof) : (start tokens tables lim).FurthestInv where
  eof := h
  cursor_le := Nat.le_refl 0
  reach_lt := by
    rcases Nat.eq_zero_or_pos tokens.size with hz | hpos
    · simp [Array.back?_eq_getElem?, hz] at h
    · exact hpos
  failures := fun _ h => nomatch h
  at_reach := .inl rfl
  furthest := rfl

end ParseState

open ParseState

/-! ## The discipline -/

/-- The furthest-failure discipline: states keep `FurthestInv`, the token list stays and the
furthest index only grows, and a syntax failure leaves a failure raised at the furthest
index. -/
def furthest : DeclDiscipline where
  inv := FurthestInv
  le s t := s.tokens = t.tokens ∧ s.reach ≤ t.reach
  err e s := e.fault.isSyntax = true → ∃ e', (s.reach, e') ∈ s.failures
  ref _ _ := True
  le_refl _ := ⟨rfl, Nat.le_refl _⟩
  le_trans h h' := ⟨h.1.trans h'.1, Nat.le_trans h.2 h'.2⟩
  ref_le _ _ := trivial
  step s hs hne := by
    have hlt : s.cursor + 1 < s.tokens.size := by
      refine (Nat.lt_or_ge (s.cursor + 1) s.tokens.size).resolve_right fun hge => hne ?_
      have hmin : min s.cursor (s.tokens.size - 1) = s.tokens.size - 1 := by omega
      have hb := hs.eof
      rw [Array.back?_eq_getElem?] at hb
      simp only [current, hmin, Array.getD_eq_getD_getElem?]
      cases hget : s.tokens[s.tokens.size - 1]? with
      | none => simp [hget] at hb
      | some lx => simpa [hget] using hb
    have hmin : min (s.cursor + 1) s.tokens.size = s.cursor + 1 := by omega
    have h := hs.moveTo (Nat.le_succ s.cursor) hlt
    simp only [stepped, hmin]
    exact ⟨h.1, rfl, h.2⟩
  skip s hs := by
    have h := hs.moveTo (le_skipLineBreaks s.tokens s.cursor)
      (skipLineBreaks_lt hs.eof (Nat.lt_of_le_of_lt hs.cursor_le hs.reach_lt))
    exact ⟨h.1, rfl, h.2⟩
  fail s rule hs := by
    obtain ⟨h, hat⟩ := hs.record rule
    exact ⟨h, ⟨rfl, Nat.le_refl _⟩, fun _ => hat⟩
  halt _ _ _ hne hsyn := by simp [hne] at hsyn
  rewind hs₀ hs h herr hsyn := ⟨FurthestInv.rewind hs₀ hs h.2 (herr hsyn), h⟩
  var _ _ _ := trivial
  fn _ _ _ := trivial
  type _ _ _ := trivial
  insertType _ _ hs _ := ⟨hs.frame rfl rfl rfl rfl rfl, ⟨rfl, Nat.le_refl _⟩, trivial⟩
  insertVar _ _ hs _ _ := ⟨hs.frame rfl rfl rfl rfl rfl, ⟨rfl, Nat.le_refl _⟩, trivial⟩
  pushScoped _ _ hs _ _ := ⟨hs.frame rfl rfl rfl rfl rfl, ⟨rfl, Nat.le_refl _⟩, trivial⟩
  insertFun _ _ hs _ := ⟨hs.frame rfl rfl rfl rfl rfl, ⟨rfl, Nat.le_refl _⟩, trivial⟩
  clearScope _ hs := ⟨hs.frame rfl rfl rfl rfl rfl, ⟨rfl, Nat.le_refl _⟩⟩
  err_clearScope _ _ h := h

/-! ## The report -/

/-- What a syntax error `e` reported at the end of a run in `s` over `tokens` is: the latest
failure raised at the furthest index the cursor reached, expecting a rule at the token there;
no failure was raised further. -/
structure FurthestReport (tokens : Array Lexeme) (s : ParseState) (e : ParseError) : Prop where
  cursor_le : s.cursor ≤ s.reach
  reach_lt : s.reach < tokens.size
  raised_before : ∀ p ∈ s.failures, p.1 ≤ s.reach
  last : lastFailureAt s.failures s.reach = some e
  at_token : ∃ rule, e = ⟨.expected rule tokens[s.reach].token, tokens[s.reach].pos⟩

theorem report_at_furthest {α : Type} {p : Parser α} {Q : α → ParseState → Prop}
    (hp : furthest.Keeps p Q) {tokens : Array Lexeme} {tables : Tables} {lim : Limits}
    (htok : tokens.back?.map (·.token) = some .eof) {e : ParseError} {s : ParseState}
    (hr : p.exec (start tokens tables lim) = (.error e, s)) (he : e.fault.isSyntax = true) :
    FurthestReport tokens s (s.report e) := by
  have hpost := hp (start tokens tables lim) (start_furthestInv htok)
  rw [hr] at hpost
  obtain ⟨hs, ⟨htok', -⟩, herr⟩ := hpost
  change tokens = s.tokens at htok'
  subst htok'
  obtain ⟨e', he'⟩ := herr he
  -- the log holds a failure at the furthest index, so its furthest failure is at that index
  obtain ⟨q, hq⟩ : ∃ q, furthestOf s.failures = some q := by
    cases hf : furthestOf s.failures with
    | none => simp [furthestOf_eq_none.mp hf] at he'
    | some q => exact ⟨q, rfl⟩
  obtain ⟨hmem, hle, hlast⟩ := furthestOf_spec hq
  have hidx : q.1 = s.reach := Nat.le_antisymm (hs.failures q hmem).1 (hle _ he')
  have hrep : s.report e = q.2 := by
    have hsyn : e.fault.errorClass = .syntactic := by simpa [ParseFault.isSyntax] using he
    simp [report, hsyn, hs.furthest, hq]
  obtain ⟨hlt, rule, hrule⟩ := (hs.failures q hmem).2
  refine ⟨hs.cursor_le, hs.reach_lt, fun p hp => (hs.failures p hp).1, ?_, ?_⟩
  · rw [hrep, ← hidx]
    exact hlast
  · refine ⟨rule, ?_⟩
    rw [hrep, hrule]
    simp only [hidx]

theorem isSyntax_of_report {s : ParseState} {e : ParseError}
    (h : (s.report e).fault.isSyntax = true) : e.fault.isSyntax = true := by
  by_cases hc : e.fault.errorClass = .syntactic
  · simp [ParseFault.isSyntax, hc]
  · have : s.report e = e := by
      unfold report
      split
      · next hsyn _ => exact absurd hsyn hc
      · rfl
    rwa [this] at h

theorem runOn_reports_furthest {α : Type} {p : Parser α} {Q : α → ParseState → Prop}
    (hp : furthest.Keeps p Q) {tokens : Array Lexeme} {tables : Tables} {lim : Limits}
    (htok : tokens.back?.map (·.token) = some .eof) {e : ParseError}
    (h : (p.runOn tokens tables lim).1 = .error e) (he : e.fault.isSyntax = true) :
    FurthestReport tokens (p.exec (start tokens tables lim)).2 e := by
  rw [Parser.runOn_eq] at h
  rcases hr : p.exec (start tokens tables lim) with ⟨_ | e₀, s⟩ <;> rw [hr] at h
  · simp only [Except.error.injEq] at h
    subst h
    exact report_at_furthest hp htok hr (isSyntax_of_report he)
  · simp at h

theorem lexical_not_isSyntax (f : LexFault) : (ParseFault.lexical f).isSyntax = false := by
  simp only [ParseFault.isSyntax, ParseFault.errorClass]
  split <;> rfl

/-- A file or an expression whose parse fails with a syntax error reports the latest failure
raised at the furthest index the cursor reached anywhere in the run, alternatives given up
included, at the token there; no failure was raised further. -/
theorem syntax_error_at_furthest_failure :
    (∀ (src path : String) (ts : Tables) (lim : Limits) (e : ParseError),
      (parseFile src path ts lim).1 = .error e → e.fault.isSyntax = true →
      ∃ tokens, lex src lim = .ok tokens ∧
        FurthestReport tokens
          ((Parse.file (Parse.budget tokens.size) path).exec (start tokens ts lim)).2 e) ∧
    (∀ (src : String) (ts : Tables) (lim : Limits) (e : ParseError),
      parseExpr src ts lim = .error e → e.fault.isSyntax = true →
      ∃ tokens, lex src lim = .ok tokens ∧
        FurthestReport tokens
          ((do
            let x ← Parse.expr (Parse.budget tokens.size) 0
            Parse.endOfInput
            return x : Parser Expr).exec (start tokens ts lim)).2 e) := by
  refine ⟨fun src path ts lim e h he => ?_, fun src ts lim e h he => ?_⟩
  · unfold parseFile at h
    split at h
    · cases h
      simp [lexical_not_isSyntax] at he
    · next tokens hlex =>
      exact ⟨tokens, hlex, runOn_reports_furthest (furthest.fileRules.keeps_file _ path) (lex_back_eof hlex) h he⟩
  · unfold parseExpr parseExprTokens at h
    split at h
    · cases h
      simp [lexical_not_isSyntax] at he
    · next tokens hlex =>
      refine ⟨tokens, hlex, runOn_reports_furthest (Q := fun _ _ => True) ?_ (lex_back_eof hlex) h he⟩
      intro s hs
      refine Discipline.post_bind ((Discipline.exprRules _).expr 0) hs fun _ s₁ hs₁ _ _ => ?_
      refine Discipline.post_bind Discipline.keeps_endOfInput hs₁ fun _ s₂ hs₂ _ _ => ?_
      exact Discipline.post_pure hs₂ trivial

theorem bare_function_reports_function_name :
    (parseFile "function" "a.j" Tables.initial {}).1 =
        .error ⟨.expected .functionName .eof, ⟨1, 9⟩⟩ ∧
      ∃ tokens, lex "function" {} = .ok tokens ∧
        FurthestReport tokens ((Parse.file (Parse.budget tokens.size) "a.j").exec
          (start tokens Tables.initial {})).2 ⟨.expected .functionName .eof, ⟨1, 9⟩⟩ :=
  have h : (parseFile "function" "a.j" Tables.initial {}).1 =
      .error ⟨.expected .functionName .eof, ⟨1, 9⟩⟩ := by cbv
  ⟨h, syntax_error_at_furthest_failure.1 _ _ _ _ _ h rfl⟩

end Jass
