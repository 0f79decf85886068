import Jass.Proofs.Parse.Twin
import Jass.Proofs.Lex.Bounds
import Jass.Session
/-!
# Limits only reject

Raising the limits never changes what a run that hit none of them does. The lexer checks each
bound in one place and ends at once when it is passed (`lex_raise`). The parser compares the
nesting depth with its bound and ends with a limit error when it is reached; alternatives give
up only on syntax errors, so a limit error ends the whole parse, and a parse that does not end
in one passed every check it made (`Twin.raised`). Under higher limits such a call makes the
same steps: the same tokens, the same file or expression, the same syntax or lexical error, and
the same tables. Across a session, files parsed without a limit error leave the same tables to
the files after them (`raising_limits_only_removes_limit_errors`).
-/

namespace Jass

open Jass.Parser

theorem report_eq_self {s : ParseState} {e : ParseError} (h : e.fault.errorClass ≠ .syntactic) :
    s.report e = e := by
  unfold ParseState.report
  split
  · next hsyn _ => exact absurd hsyn h
  · rfl

theorem hitsNoLimit_of_report {α : Type} {s : ParseState} {e : ParseError}
    (h : HitsNoLimit (.error (s.report e) : Except ParseError α)) :
    HitsNoLimit (.error e : Except ParseError α) := by
  by_cases hc : e.fault.errorClass = .syntactic
  · simp [hc]
  · rwa [report_eq_self hc] at h

theorem hitsNoLimit_lexical {α : Type} (f : LexFault) (pos : Pos) :
    HitsNoLimit (.error ⟨.lexical f, pos⟩ : Except ParseError α) ↔
      LexNoLimit (.error ⟨f, pos⟩ : Except LexError α) := by
  simp only [hitsNoLimit_error, ParseFault.errorClass, LexNoLimit]
  cases f.isLimit <;> simp

theorem runOn_raise {α : Type} {p : Parser α} {L L' : Limits}
    (hp : (Twin.raised L.maxExprDepth L'.maxExprDepth).Repeats p p) (tokens : Array Lexeme)
    (tables : Tables) (hno : HitsNoLimit (p.runOn tokens tables L).1) :
    p.runOn tokens tables L' = p.runOn tokens tables L := by
  rw [runOn_eq] at hno ⊢
  rw [runOn_eq]
  have hrel : (Twin.raised L.maxExprDepth L'.maxExprDepth).rel (ParseState.start tokens tables L)
      (ParseState.start tokens tables L') := ⟨rfl, rfl⟩
  rcases hr : p.exec (ParseState.start tokens tables L) with ⟨_ | a, t⟩ <;> rw [hr] at hno
  · obtain ⟨t', h', -, ht⟩ := hp.run hrel (by rw [hr]; exact hitsNoLimit_of_report hno)
    rw [hr] at h' ht
    rw [h', ht]
    rfl
  · obtain ⟨t', h', -, ht⟩ := hp.run hrel (by rw [hr]; trivial)
    rw [hr] at h' ht
    rw [h', ht]

variable {L L' : Limits}

theorem lexNoLimit_of_parseFile {src path : String} {ts : Tables}
    (hno : HitsNoLimit (parseFile src path ts L).1) : LexNoLimit (lex src L) := by
  unfold parseFile at hno
  rcases hl : lex src L with ⟨f, pos⟩ | tokens
  · rw [hl] at hno
    exact (hitsNoLimit_lexical f pos).1 hno
  · trivial

theorem parseFile_raise (h : L ≤ L') (src path : String) (ts : Tables)
    (hno : HitsNoLimit (parseFile src path ts L).1) :
    parseFile src path ts L' = parseFile src path ts L := by
  have hlex := lexNoLimit_of_parseFile hno
  unfold parseFile at hno ⊢
  rw [lex_raise h src hlex]
  split
  · rfl
  · next tokens hl =>
    rw [hl] at hno
    exact runOn_raise (Twin.repeats_file (h .exprDepth) le_rfl path) tokens ts hno

theorem parseExpr_raise (h : L ≤ L') (src : String) (ts : Tables)
    (hno : HitsNoLimit (parseExpr src ts L)) : parseExpr src ts L' = parseExpr src ts L := by
  have hlex : LexNoLimit (lex src L) := by
    unfold parseExpr at hno
    rcases hl : lex src L with ⟨f, pos⟩ | tokens
    · rw [hl] at hno
      exact (hitsNoLimit_lexical f pos).1 hno
    · trivial
  unfold parseExpr at hno ⊢
  rw [lex_raise h src hlex]
  split
  · rfl
  · next tokens hl =>
    rw [hl] at hno
    unfold parseExprTokens at hno ⊢
    have hp : (Twin.raised L.maxExprDepth L'.maxExprDepth).Repeats
        (do
          let e ← Parse.expr (Parse.budget tokens.size) 0
          Parse.endOfInput
          return e)
        (do
          let e ← Parse.expr (Parse.budget tokens.size) 0
          Parse.endOfInput
          return e) :=
      Twin.repeats_bind ((Twin.exprRules _).expr le_rfl (Nat.add_le_add_right (h .exprDepth) 0))
        fun e => Twin.repeats_bind Twin.repeats_endOfInput fun _ => Twin.repeats_pure e
    rw [runOn_raise hp tokens ts hno]

namespace Session

theorem parse_result (s : Session) (src path : String) :
    (s.parse src path).2 = (parseFile src path s.tables s.limits).1 := by
  unfold Session.parse
  rcases parseFile src path s.tables s.limits with ⟨_ | f, ts⟩ <;> rfl

theorem parse_limits (s : Session) (src path : String) : (s.parse src path).1.limits = s.limits := by
  unfold Session.parse
  rcases parseFile src path s.tables s.limits with ⟨_ | f, ts⟩ <;> rfl

theorem parse_raise {s : Session} (h : s.limits ≤ L') (src path : String)
    (hno : HitsNoLimit (s.parse src path).2) :
    ({ s with limits := L' } : Session).parse src path =
      ({ (s.parse src path).1 with limits := L' }, (s.parse src path).2) := by
  rw [parse_result] at hno
  unfold Session.parse
  dsimp only
  rw [parseFile_raise h src path s.tables hno]
  rcases parseFile src path s.tables s.limits with ⟨_ | f, ts⟩ <;> rfl

theorem parseAll_raise : ∀ (s : Session) (files : List (String × String)), s.limits ≤ L' →
    (∀ r ∈ (s.parseAll files).2, HitsNoLimit r) →
      ({ s with limits := L' } : Session).parseAll files =
        ({ (s.parseAll files).1 with limits := L' }, (s.parseAll files).2)
  | s, [], _, _ => rfl
  | s, (path, src) :: rest, h, hno => by
    simp only [parseAll, List.mem_cons, forall_eq_or_imp] at hno ⊢
    rw [parse_raise h src path hno.1]
    have h' : (s.parse src path).1.limits ≤ L' := by rw [parse_limits]; exact h
    rw [parseAll_raise _ rest h' hno.2]

end Session

/-- Limits only reject. Under limits `L'` at least `L` field by field, a lexing, a file parse
or an expression parse that does not end in a limit error under `L` gives the same result (and
the file parse the same tables); and a session whose files all parse without a limit error
under `L` gives the same results and ends in the same tables under `L'`. -/
theorem raising_limits_only_removes_limit_errors (h : L ≤ L') :
    (∀ src, LexNoLimit (lex src L) → lex src L' = lex src L) ∧
    (∀ src path ts, HitsNoLimit (parseFile src path ts L).1 →
      parseFile src path ts L' = parseFile src path ts L) ∧
    (∀ src ts, HitsNoLimit (parseExpr src ts L) → parseExpr src ts L' = parseExpr src ts L) ∧
    (∀ (s : Session) files, s.limits = L → (∀ r ∈ (s.parseAll files).2, HitsNoLimit r) →
      ({ s with limits := L' } : Session).parseAll files =
        ({ (s.parseAll files).1 with limits := L' }, (s.parseAll files).2)) :=
  ⟨lex_raise h, parseFile_raise h, parseExpr_raise h,
    fun s files hs hno => Session.parseAll_raise s files (hs ▸ h) hno⟩

theorem short_text_lexes_alike :
    ({ maxTokenCount := 10 } : Limits) ≤ {} ∧ LexNoLimit (lex "f(1) + x" { maxTokenCount := 10 }) ∧
      lex "f(1) + x" {} = lex "f(1) + x" { maxTokenCount := 10 } :=
  have h : ({ maxTokenCount := 10 } : Limits) ≤ {} := fun f => by cases f <;> decide
  have hno : LexNoLimit (lex "f(1) + x" { maxTokenCount := 10 }) := by decide
  ⟨h, hno, (raising_limits_only_removes_limit_errors h).1 _ hno⟩

end Jass
