import Mathlib
import Jass.Proofs.Bounds
import Jass.Proofs.Parse.RoundTrip
/-!
# The nesting limit is an exact threshold

`parseExpr` checks the nesting depth of every `expression` it opens against the limit
`maxExprDepth`. Reading a tree `e` opens `e.need` nested levels (`Expr.need`, which is
`Expr.height`), so an expression that parses under some limits parses to the same tree when the
nesting limit is set to any value of at least its need, and under a smaller one the parse fails
with a limit error (`nesting_limit_is_exact`).

The second half follows from the bounds already proved: a parse that hits no limit is repeated
under a higher limit (`parseExpr_raise`), and a parsed tree's height is within the limit it was
read under (`parseExprTokens_drawn`). For the first half every check of the run must stay below
the new limit, those of the alternatives the grammar tried and gave up included. They do: in a
run that reads a tree, an alternative that is given up fails at its first tokens, before it
checks any depth (`LowerRules`). Otherwise the tree read after it would be followed by a token
that no enclosing rule accepts.

The lexer does not read the nesting limit at all (`lex_exprDepth`).
-/

namespace Jass

/-! ## The lexer ignores the nesting limit -/

namespace Lexer

variable (L : Limits) (D : Nat)

theorem skipComment_exprDepth (start : Nat) : ∀ (cs : List Char) (m : Mark),
    skipComment { L with maxExprDepth := D } start cs m = skipComment L start cs m
  | [], _ => rfl
  | c :: r, m => by
    simp only [skipComment, skipComment_exprDepth start r]

theorem scanString_exprDepth (start : Nat) (acc cs : List Char) (m : Mark) :
    scanString { L with maxExprDepth := D } start acc cs m = scanString L start acc cs m := by
  fun_induction scanString L start acc cs m <;> simp_all +zetaDelta [scanString]

theorem scanWord_exprDepth (cs : List Char) (m : Mark) :
    scanWord { L with maxExprDepth := D } cs m = scanWord L cs m := rfl

theorem scanToken_exprDepth (cs : List Char) (m : Mark) :
    scanToken { L with maxExprDepth := D } cs m = scanToken L cs m := by
  simp only [scanToken, scanWord_exprDepth, scanString_exprDepth]

theorem nextLexeme_exprDepth (count : Nat) (cs : List Char) (m : Mark) :
    nextLexeme { L with maxExprDepth := D } count cs m = nextLexeme L count cs m := by
  simp only [nextLexeme, skipComment_exprDepth, scanToken_exprDepth]

theorem lexemes_exprDepth : ∀ (fuel count : Nat) (cs : List Char) (m : Mark) (acc : Array Lexeme),
    lexemes { L with maxExprDepth := D } fuel count cs m acc = lexemes L fuel count cs m acc
  | 0, _, _, _, _ => rfl
  | fuel + 1, count, cs, m, acc => by
    simp only [lexemes, nextLexeme_exprDepth, lexemes_exprDepth fuel]

end Lexer

theorem lex_exprDepth (src : String) (L : Limits) (D : Nat) :
    lex src { L with maxExprDepth := D } = lex src L := by
  simp only [lex, Lexer.lexemes_exprDepth]

/-! ## Runs under another limit -/

open Jass.Parser Parse

variable {α β : Type} {D : Nat}

/-- A run of `p` from `s` that hits no limit is the same run under the depth bound `D`: the same
result, and the same state but for the bound. -/
def Lowers (D : Nat) (p : Parser α) (s : ParseState) : Prop :=
  HitsNoLimit (p.exec s).1 →
    p.exec { s with maxDepth := D } = ((p.exec s).1, { (p.exec s).2 with maxDepth := D })

/-- A run of `p` from `s` that fails in the same frame, and fails alike under the bound `D`. -/
structure Refuses (D : Nat) (p : Parser α) (s : ParseState) : Prop where
  fails : ∃ e t, p.exec s = (.error e, t) ∧ s.SameFrame t
  lowers : Lowers D p s

section

variable {p : Parser α} {f : α → Parser β} {s : ParseState}

theorem lowers_of_repeats (hp : (Twin.raised s.maxDepth D).Repeats p p) : Lowers D p s := by
  intro hno
  obtain ⟨h₁, -, h₂⟩ := hp s { s with maxDepth := D } ⟨rfl, rfl⟩ hno
  rw [← h₁, ← h₂]

theorem Lowers.bind (hp : Lowers D p s) (hf : ∀ a t, p.exec s = (.ok a, t) → Lowers D (f a) t) :
    Lowers D (p >>= f) s := by
  intro hno
  unfold Lowers at hp
  rw [exec_bind] at hno ⊢
  rw [exec_bind]
  rcases hr : p.exec s with ⟨_ | a, t⟩ <;> rw [hr] at hno hp
  · rw [hp hno]
  · rw [hp trivial]
    exact hf a t hr hno

theorem Lowers.attempt (hp : Lowers D p s) : Lowers D (attempt p) s := by
  intro hno
  unfold Lowers at hp
  rw [exec_attempt] at hno ⊢
  rw [exec_attempt]
  rcases hr : p.exec s with ⟨e | a, t⟩ <;> rw [hr] at hno hp
  · by_cases he : e.fault.isSyntax = true
    · rw [hp (hitsNoLimit_of_isSyntax he)]
      simp only [he, if_true]
    · simp only [he, Bool.false_eq_true, if_false] at hno ⊢
      rw [hp hno]
      simp [he]
  · rw [hp trivial]

theorem lowers_checkDepth {d : Nat} (h : d < D) : Lowers D (checkDepth d) s := by
  intro hno
  rw [exec_checkDepth] at hno ⊢
  rw [exec_checkDepth]
  by_cases hM : d ≥ s.maxDepth
  · simp [hM, ParseFault.errorClass] at hno
  · simp only [hM, if_false, show ¬ d ≥ D by omega]

theorem Refuses.bind (hp : Refuses D p s) : Refuses D (p >>= f) s := by
  obtain ⟨e, t, hr, hst⟩ := hp.fails
  refine ⟨⟨e, t, by rw [exec_bind, hr], hst⟩, hp.lowers.bind fun a t' h => ?_⟩
  rw [hr] at h
  cases h

theorem Refuses.map (hp : Refuses D p s) (g : α → β) : Refuses D (g <$> p) s := by
  rw [map_eq_pure_bind]
  exact hp.bind

theorem refuses_of_fails (hp : (Twin.raised s.maxDepth D).Repeats p p) (hf : Fails p s) :
    Refuses D p s := by
  obtain ⟨e, t, hr, -, hst⟩ := hf
  exact ⟨⟨e, t, hr, hst⟩, lowers_of_repeats hp⟩

theorem refuses_outOfFuel : Refuses D (outOfFuel : Parser α) s :=
  ⟨⟨_, s, exec_outOfFuel s, .refl s⟩, fun hno => by simp [ParseFault.errorClass] at hno⟩

theorem Lowers.bind_ok {a : α} {t : ParseState} (hp : Lowers D p s) (hok : p.exec s = (.ok a, t))
    (hf : Lowers D (f a) t) : Lowers D (p >>= f) s :=
  hp.bind fun a' t' h => by
    rw [hok] at h
    cases h
    exact hf

theorem Lowers.bind_refuses {a : α} {t : ParseState} (hp : Lowers D p s)
    (hok : p.exec s = (.ok a, t)) (hst : s.SameFrame t) (hf : Refuses D (f a) t) :
    Refuses D (p >>= f) s := by
  obtain ⟨e, u, hu, htu⟩ := hf.fails
  exact ⟨⟨e, u, by rw [exec_bind, hok]; exact hu, hst.trans htu⟩, hp.bind_ok hok hf.lowers⟩

end

/-! ## Reading runs backwards -/

section

variable {p : Parser α} {f : α → Parser β} {s t : ParseState}

theorem exec_bind_ok {b : β} (h : (p >>= f).exec s = (.ok b, t)) :
    ∃ a u, p.exec s = (.ok a, u) ∧ (f a).exec u = (.ok b, t) := by
  rw [exec_bind] at h
  rcases hp : p.exec s with ⟨e | a, u⟩ <;> rw [hp] at h
  · cases h
  · exact ⟨a, u, rfl, h⟩

theorem exec_pure_ok {a b : α} (h : (pure a : Parser α).exec s = (.ok b, t)) : a = b ∧ s = t := by
  rw [exec_pure] at h
  cases h
  exact ⟨rfl, rfl⟩

theorem exec_firstOf_cons (rule : Rule) (ps : List (Parser α)) (s : ParseState) :
    (firstOf rule (p :: ps)).exec s = match p.exec s with
      | (.ok a, t) => (.ok a, t)
      | (.error e, t) =>
        if e.fault.isSyntax then (firstOf rule ps).exec { t with cursor := s.cursor }
        else (.error e, t) := by
  rw [firstOf, exec_bind, exec_attempt]
  rcases p.exec s with ⟨e | a, t⟩
  · by_cases he : e.fault.isSyntax = true
    · simp only [he, if_true]
    · simp only [he, Bool.false_eq_true, if_false]
  · rfl

theorem firstOf_of_error {rule : Rule} {ps : List (Parser α)} {e : ParseError} {t₁ : ParseState}
    {w : α} (hp : p.exec s = (.error e, t₁)) (hr : (firstOf rule (p :: ps)).exec s = (.ok w, t)) :
    (firstOf rule ps).exec { t₁ with cursor := s.cursor } = (.ok w, t) := by
  rw [exec_firstOf_cons, hp] at hr
  dsimp only at hr
  split at hr
  · exact hr
  · cases hr

theorem firstOf_of_ok {rule : Rule} {ps : List (Parser α)} {a w : α} {t₁ : ParseState}
    (hp : p.exec s = (.ok a, t₁)) (hr : (firstOf rule (p :: ps)).exec s = (.ok w, t)) :
    a = w ∧ t₁ = t := by
  rw [exec_firstOf_cons, hp] at hr
  cases hr
  exact ⟨rfl, rfl⟩

theorem lowers_firstOf_cons {rule : Rule} {ps : List (Parser α)} (hp : Lowers D p s)
    (hps : ∀ e t, p.exec s = (.error e, t) → e.fault.isSyntax = true →
      Lowers D (firstOf rule ps) { t with cursor := s.cursor }) :
    Lowers D (firstOf rule (p :: ps)) s := by
  rw [firstOf]
  refine hp.attempt.bind fun o u h => ?_
  cases o with
  | some a => exact lowers_of_repeats (Twin.repeats_pure a)
  | none =>
    rw [exec_attempt] at h
    rcases hr : p.exec s with ⟨e | a, t₁⟩ <;> rw [hr] at h
    · dsimp only at h
      split at h
      · next he =>
        cases h
        exact hps e t₁ hr he
      · cases h
    · cases h

theorem Refuses.firstOf {rule : Rule} {ps : List (Parser α)} {w : α} (h : Refuses D p s)
    (hr : (firstOf rule (p :: ps)).exec s = (.ok w, t)) :
    ∃ s', s.SamePlace s' ∧ (firstOf rule ps).exec s' = (.ok w, t) ∧
      (Lowers D (firstOf rule ps) s' → Lowers D (firstOf rule (p :: ps)) s) := by
  obtain ⟨e, t₁, h₁, hst⟩ := h.fails
  refine ⟨{ t₁ with cursor := s.cursor }, ⟨hst.rewind, rfl⟩, firstOf_of_error h₁ hr, fun hl => ?_⟩
  refine lowers_firstOf_cons h.lowers fun e' t' h' _ => ?_
  rw [h₁] at h'
  cases h'
  exact hl

end

/-! ## Alternatives that fail at their first tokens -/

theorem ParseState.SamePlace.current_eq {s t : ParseState} (h : s.SamePlace t) :
    t.current = s.current := by
  simp only [ParseState.current, h.1.tokens, h.2]

theorem ParseState.SamePlace.stepped_current_eq {s t : ParseState} (h : s.SamePlace t) :
    t.stepped.current = s.stepped.current := by
  simp only [ParseState.stepped, ParseState.moveTo, ParseState.current, h.1.tokens, h.2]

section

variable {s : ParseState} {fuel d : Nat}

theorem exec_ident_of {n : String} (rule : Rule) (h : s.current.token = .ident n) :
    (ident rule).exec s = (.ok n, s.stepped) := by
  simp only [ident, exec_bind, exec_peek, h, exec_advance, exec_pure]

theorem exec_varRef_of {n : String} (h : s.current.token = .ident n) :
    varRef.exec s = (.ok (.var (s.stepped.varRef n)), s.stepped) := by
  simp only [varRef, exec_bind, exec_ident_of _ h, exec_resolveVar, exec_pure]

theorem symbol_ok {c : Symbol} {u : Unit} {t : ParseState} (h : (symbol c).exec s = (.ok u, t)) :
    s.current.token = .symbol c := by
  by_contra hne
  obtain ⟨e, t', hf, -⟩ := fails_symbol c hne
  rw [hf] at h
  cases h

theorem refuses_unary (h : ∀ op : UnOp, s.current.token ≠ op.token) :
    Refuses D (unary fuel d) s := by
  cases fuel with
  | zero => rw [Parse.unary]; exact refuses_outOfFuel
  | succ g =>
    rw [Parse.unary]
    exact (refuses_of_fails Twin.repeats_unOp (fails_unOp h)).bind

theorem refuses_binaryTail (h : ∀ op : BinOp, s.current.token ≠ op.token) :
    Refuses D (binaryTail fuel d) s := by
  cases fuel with
  | zero => rw [Parse.binaryTail]; exact refuses_outOfFuel
  | succ g =>
    rw [Parse.binaryTail]
    exact (refuses_of_fails Twin.repeats_binOp (fails_binOp h)).bind

theorem refuses_ident_symbol {rule : Rule} {c : Symbol} {f : String → Unit → Parser β}
    (h : ∀ n, s.current.token = .ident n → s.stepped.current.token ≠ .symbol c) :
    Refuses D (ident rule >>= fun name => symbol c >>= f name) s := by
  by_cases hi : ∃ n, s.current.token = .ident n
  · obtain ⟨n, hn⟩ := hi
    refine (lowers_of_repeats (Twin.repeats_ident _)).bind_refuses (exec_ident_of _ hn)
      (ParseState.sameFrame_stepped s) ?_
    exact (refuses_of_fails (Twin.repeats_symbol _) (fails_symbol _ (h n hn))).bind
  · exact (refuses_of_fails (Twin.repeats_ident _) (fails_ident _ fun n hn => hi ⟨n, hn⟩)).bind

theorem refuses_funCall
    (h : ∀ n, s.current.token = .ident n → s.stepped.current.token ≠ .symbol .lParen) :
    Refuses D (funCall fuel d) s := by
  cases fuel with
  | zero => rw [Parse.funCall]; exact refuses_outOfFuel
  | succ g => rw [Parse.funCall]; exact refuses_ident_symbol h

theorem refuses_callExpr
    (h : ∀ n, s.current.token = .ident n → s.stepped.current.token ≠ .symbol .lParen) :
    Refuses D (callExpr fuel d) s := by
  cases fuel with
  | zero => rw [Parse.callExpr]; exact refuses_outOfFuel
  | succ g =>
    rw [Parse.callExpr]
    exact (refuses_funCall h).bind

theorem refuses_element
    (h : ∀ n, s.current.token = .ident n → s.stepped.current.token ≠ .symbol .lBracket) :
    Refuses D (element fuel d) s := by
  cases fuel with
  | zero => rw [Parse.element]; exact refuses_outOfFuel
  | succ g => rw [Parse.element]; exact refuses_ident_symbol h

theorem refuses_paren (h : s.current.token ≠ .symbol .lParen) : Refuses D (paren fuel d) s := by
  cases fuel with
  | zero => rw [Parse.paren]; exact refuses_outOfFuel
  | succ g =>
    rw [Parse.paren]
    exact (refuses_of_fails (Twin.repeats_symbol _) (fails_symbol _ h)).bind

theorem refuses_funRef (h : s.current.token ≠ .keyword .kwFunction) : Refuses D funRef s := by
  unfold funRef
  exact (refuses_of_fails (Twin.repeats_keyword _) (fails_keyword _ h)).bind

theorem refuses_constExpr (h : ∀ c : Const, s.current.token ≠ c.token) :
    Refuses D (Expr.const <$> constant) s :=
  (refuses_of_fails Twin.repeats_constant (fails_constant h)).map _

theorem refuses_varRef (h : ∀ n, s.current.token ≠ .ident n) : Refuses D varRef s := by
  unfold varRef
  exact (refuses_of_fails (Twin.repeats_ident _) (fails_ident _ h)).bind

end

theorem binaryTail_notOpener {s t : ParseState} {fuel d : Nat} {x : BinOp × Expr}
    (h : (binaryTail fuel d).exec s = (.ok x, t)) : s.current.token.NotOpener := by
  by_cases hb : ∃ op : BinOp, s.current.token = op.token
  · obtain ⟨op, hop⟩ := hb
    rw [hop]
    exact BinOp.token_notOpener op
  · obtain ⟨e, u, hu, -⟩ := (refuses_binaryTail (D := 0) fun op h' => hb ⟨op, h'⟩).fails
    rw [h] at hu
    cases hu

theorem refuses_firstOf {rule : Rule} {ps : List (Parser α)} {s : ParseState}
    (h : ∀ p ∈ ps, ∀ s', s.SamePlace s' → Refuses D p s') : Refuses D (firstOf rule ps) s := by
  induction ps generalizing s with
  | nil =>
    rw [firstOf]
    obtain ⟨e, t, hr, -, hst⟩ := fails_fail (α := α) rule s
    exact ⟨⟨e, t, hr, hst⟩, lowers_of_repeats (Twin.repeats_fail _)⟩
  | cons p ps ih =>
    have hp := h p (.head ps) s (.refl s)
    obtain ⟨e, t₁, h₁, hst⟩ := hp.fails
    have hplace : s.SamePlace { t₁ with cursor := s.cursor } := ⟨hst.rewind, rfl⟩
    have hrest : Refuses D (firstOf rule ps) { t₁ with cursor := s.cursor } :=
      ih fun q hq s' hs' => h q (.tail p hq) s' (hplace.trans hs')
    refine ⟨?_, lowers_firstOf_cons hp.lowers fun e' t' h' _ => ?_⟩
    · rw [exec_firstOf_cons, h₁]
      dsimp only
      split
      · obtain ⟨e₂, u, hu, hsu⟩ := hrest.fails
        exact ⟨e₂, u, hu, hst.rewind.trans hsu⟩
      · exact ⟨e, t₁, rfl, hst⟩
    · rw [h₁] at h'
      cases h'
      exact hrest.lowers

/-! ## Facts about the run being lowered -/

open Discipline

section

variable {p : Parser α} {s t : ParseState}

theorem lowers_pure (a : α) : Lowers D (pure a) s := lowers_of_repeats (Twin.repeats_pure a)

theorem frame_of_keeps {Q : α → ParseState → Prop} (h : sameFrame.Keeps p Q) (s : ParseState) :
    s.SameFrame (p.exec s).2 := by
  have hp := h s trivial
  rcases hr : p.exec s with ⟨_ | _, t⟩ <;> rw [hr] at hp
  · exact hp.2.1
  · exact hp.2.1

theorem attempt_some {a : α} (h : (attempt p).exec s = (.ok (some a), t)) :
    p.exec s = (.ok a, t) := by
  rw [exec_attempt] at h
  rcases hp : p.exec s with ⟨e | a', t'⟩ <;> rw [hp] at h
  · dsimp only at h
    split at h <;> cases h
  · cases h
    rfl

theorem attempt_none (h : (attempt p).exec s = (.ok none, t)) :
    ∃ e t₁, p.exec s = (.error e, t₁) ∧ t = { t₁ with cursor := s.cursor } := by
  rw [exec_attempt] at h
  rcases hp : p.exec s with ⟨e | a', t'⟩ <;> rw [hp] at h
  · dsimp only at h
    split at h
    · cases h
      exact ⟨e, t', rfl, rfl⟩
    · cases h
  · cases h

theorem checkDepth_ok {d : Nat} {u : Unit} (h : (checkDepth d).exec s = (.ok u, t)) : t = s := by
  rw [exec_checkDepth] at h
  split at h
  · cases h
  · cases h
    rfl

theorem isSymbol_eq_true {c : Symbol} {tok : Token} (h : isSymbol c tok = true) :
    tok = .symbol c := by
  cases tok <;> simp_all [isSymbol]

theorem unary_isUnary {fuel d : Nat} {w : Expr} (h : (unary fuel d).exec s = (.ok w, t)) :
    w.isUnary = true := by
  cases fuel with
  | zero =>
    rw [Parse.unary, exec_outOfFuel] at h
    cases h
  | succ g =>
    rw [Parse.unary] at h
    obtain ⟨op, s₁, -, h⟩ := exec_bind_ok h
    obtain ⟨e, s₂, -, h⟩ := exec_bind_ok h
    rw [exec_pure] at h
    cases h
    rfl

end

/-! ## Every run that reads a tree lowers to its height -/

/-- At step budget `fuel`, a run of an expression rule that reads a tree, followed by a token
that ends it there, is the same run under the depth bound `D`, as long as the tree's height from
the rule's depth fits below `D`. An operand is read one level below its expression, so its tree
may reach one level further; the token after it need only open nothing, unless it is a unary
operation, whose expression ends where the operand does. -/
structure LowerRules (D fuel : Nat) : Prop where
  expr : ∀ {d : Nat} {s t : ParseState} {v : Expr}, (expr fuel d).exec s = (.ok v, t) →
    t.current.token.Closes → d + v.height ≤ D → Lowers D (expr fuel d) s
  binaryTail : ∀ {d : Nat} {s t : ParseState} {op : BinOp} {r : Expr},
    (binaryTail fuel d).exec s = (.ok (op, r), t) → t.current.token.Closes → d + r.height ≤ D →
      Lowers D (binaryTail fuel d) s
  operand : ∀ {d : Nat} {s t : ParseState} {w : Expr}, (operand fuel d).exec s = (.ok w, t) →
    t.current.token.NotOpener → (w.isUnary = true → t.current.token.Closes) →
      d + w.height ≤ D + 1 → Lowers D (operand fuel d) s
  unary : ∀ {d : Nat} {s t : ParseState} {w : Expr}, (unary fuel d).exec s = (.ok w, t) →
    t.current.token.Closes → d + w.height ≤ D + 1 → Lowers D (unary fuel d) s
  callExpr : ∀ {d : Nat} {s t : ParseState} {w : Expr}, (callExpr fuel d).exec s = (.ok w, t) →
    d + w.height ≤ D + 1 → Lowers D (callExpr fuel d) s
  funCall : ∀ {d : Nat} {s t : ParseState} {c : Ref FunId × List Expr},
    (funCall fuel d).exec s = (.ok c, t) → d + Expr.listHeight c.2 ≤ D → Lowers D (funCall fuel d) s
  argList : ∀ {d : Nat} {s t : ParseState} {es : List Expr}, (argList fuel d).exec s = (.ok es, t) →
    t.current.token.Closes → d + Expr.listHeight es ≤ D → Lowers D (argList fuel d) s
  element : ∀ {d : Nat} {s t : ParseState} {w : Expr}, (element fuel d).exec s = (.ok w, t) →
    d + w.height ≤ D + 1 → Lowers D (element fuel d) s
  paren : ∀ {d : Nat} {s t : ParseState} {w : Expr}, (paren fuel d).exec s = (.ok w, t) →
    d + w.height ≤ D + 1 → Lowers D (paren fuel d) s

theorem LowerRules.zero : LowerRules D 0 where
  expr h _ _ := by rw [Parse.expr, exec_outOfFuel] at h; cases h
  binaryTail h _ _ := by rw [Parse.binaryTail, exec_outOfFuel] at h; cases h
  operand h _ _ _ := by rw [Parse.operand, exec_outOfFuel] at h; cases h
  unary h _ _ := by rw [Parse.unary, exec_outOfFuel] at h; cases h
  callExpr h _ := by rw [Parse.callExpr, exec_outOfFuel] at h; cases h
  funCall h _ := by rw [Parse.funCall, exec_outOfFuel] at h; cases h
  argList h _ _ := by rw [Parse.argList, exec_outOfFuel] at h; cases h
  element h _ := by rw [Parse.element, exec_outOfFuel] at h; cases h
  paren h _ := by rw [Parse.paren, exec_outOfFuel] at h; cases h

/-! ## Which alternative reads an operand -/

section

variable {rule : Rule} {p : Parser α} {ps : List (Parser α)} {s₀ s t : ParseState} {w : α}

theorem firstOf_skip (hs : s₀.SamePlace s) (hp : ∀ s', s₀.SamePlace s' → Refuses D p s')
    (hr : (firstOf rule (p :: ps)).exec s = (.ok w, t)) :
    ∃ s', s₀.SamePlace s' ∧ (firstOf rule ps).exec s' = (.ok w, t) := by
  obtain ⟨s', hs', hr', -⟩ := (hp s hs).firstOf hr
  exact ⟨s', hs.trans hs', hr'⟩

theorem lowers_firstOf_skip (hs : s₀.SamePlace s) (hp : ∀ s', s₀.SamePlace s' → Refuses D p s')
    (hr : (firstOf rule (p :: ps)).exec s = (.ok w, t))
    (hrest : ∀ s', s₀.SamePlace s' → (firstOf rule ps).exec s' = (.ok w, t) →
      Lowers D (firstOf rule ps) s') :
    Lowers D (firstOf rule (p :: ps)) s := by
  obtain ⟨s', hs', hr', hl⟩ := (hp s hs).firstOf hr
  exact hl (hrest s' (hs.trans hs') hr')

theorem firstOf_head_ok {Q : α → ParseState → Prop} (hk : sameFrame.Keeps p Q)
    (hr : (firstOf rule (p :: ps)).exec s = (.ok w, t))
    (hps : ∀ s', s.SamePlace s' → (firstOf rule ps).exec s' ≠ (.ok w, t)) :
    p.exec s = (.ok w, t) := by
  have hst := frame_of_keeps hk s
  rcases hp : p.exec s with ⟨e | a, t₁⟩ <;> rw [hp] at hst
  · exact absurd (firstOf_of_error hp hr) (hps _ ⟨hst.rewind, rfl⟩)
  · obtain ⟨rfl, rfl⟩ := firstOf_of_ok hp hr
    rfl

theorem lowers_firstOf_live {a : α} {t₁ : ParseState} (hp : p.exec s = (.ok a, t₁))
    (hl : Lowers D p s) : Lowers D (firstOf rule (p :: ps)) s :=
  lowers_firstOf_cons hl fun e t' h' _ => by
    rw [hp] at h'
    cases h'

theorem lowers_firstOf (hs : s₀.SamePlace s)
    (h : ∀ p ∈ ps, (∀ s', s₀.SamePlace s' → Refuses D p s') ∨
      ((∀ s', Lowers D p s') ∧ ∀ s' : ParseState, s'.SameFrame (p.exec s').2)) :
    Lowers D (firstOf rule ps) s := by
  induction ps generalizing s with
  | nil =>
    rw [firstOf]
    exact lowers_of_repeats (Twin.repeats_fail _)
  | cons p ps ih =>
    have hrest := fun q hq => h q (List.mem_cons_of_mem p hq)
    rcases h p (by simp) with hp | ⟨hp, hk⟩
    · refine lowers_firstOf_cons (hp s hs).lowers fun e t₁ h₁ _ => ih ?_ hrest
      obtain ⟨e', t', h', hst⟩ := (hp s hs).fails
      rw [h₁] at h'
      cases h'
      exact hs.trans ⟨hst.rewind, rfl⟩
    · refine lowers_firstOf_cons (hp s) fun e t₁ h₁ _ => ih ?_ hrest
      have hst := hk s
      rw [h₁] at hst
      exact hs.trans ⟨hst.rewind, rfl⟩

end

section

variable {rule : Rule} {s₀ s t : ParseState} {fuel d : Nat} {w : Expr}

theorem firstOf_after_name {n : String} (hn : s₀.current.token = .ident n) (hs : s₀.SamePlace s)
    (hr : (firstOf rule [funRef, Expr.const <$> constant, varRef, paren fuel d]).exec s =
      (.ok w, t)) :
    t.current.token = s₀.stepped.current.token := by
  have htok : ∀ s', s₀.SamePlace s' → s'.current.token = .ident n := fun s' hs' => by
    rw [hs'.current_eq, hn]
  obtain ⟨s₁, hs₁, hr₁⟩ := firstOf_skip (D := 0) hs
    (fun s' hs' => refuses_funRef (by rw [htok s' hs']; simp)) hr
  obtain ⟨s₂, hs₂, hr₂⟩ := firstOf_skip (D := 0) hs₁
    (fun s' hs' => refuses_constExpr fun c h => Const.token_ne_ident c n (h.symm.trans (htok s' hs')))
    hr₁
  obtain ⟨-, rfl⟩ := firstOf_of_ok (exec_varRef_of (htok s₂ hs₂)) hr₂
  rw [hs₂.stepped_current_eq]

theorem lowers_operand_unary (ih : LowerRules D fuel) {op : UnOp} (hop : s.current.token = op.token)
    (hr : (operand (fuel + 1) d).exec s = (.ok w, t))
    (hu : w.isUnary = true → t.current.token.Closes) (hh : d + w.height ≤ D + 1) :
    Lowers D (operand (fuel + 1) d) s := by
  rw [Parse.operand] at hr ⊢
  -- every other alternative refuses an operator
  have hrest : ∀ s', s.SamePlace s' → Refuses D (firstOf .expression
      [callExpr fuel d, element fuel d, funRef, .const <$> constant, varRef, paren fuel d]) s' := by
    intro s' hs'
    refine refuses_firstOf fun q hq s'' hs'' => ?_
    have htok : s''.current.token = op.token := by rw [(hs'.trans hs'').current_eq, hop]
    simp only [List.mem_cons, List.not_mem_nil, or_false] at hq
    rcases hq with rfl | rfl | rfl | rfl | rfl | rfl
    · exact refuses_callExpr fun n hn => absurd (htok.symm.trans hn) (UnOp.token_ne_ident op n)
    · exact refuses_element fun n hn => absurd (htok.symm.trans hn) (UnOp.token_ne_ident op n)
    · exact refuses_funRef (by rw [htok]; exact UnOp.token_ne_function op)
    · exact refuses_constExpr fun c hc => Const.token_ne_unOp c op (hc.symm.trans htok)
    · exact refuses_varRef fun n hn => UnOp.token_ne_ident op n (htok.symm.trans hn)
    · exact refuses_paren (by rw [htok]; exact UnOp.token_ne_lParen op)
  have hok := firstOf_head_ok ((nestRules fuel).unary d) hr fun s' hs' h' => by
    obtain ⟨e, u, hu', -⟩ := (hrest s' hs').fails
    rw [hu'] at h'
    cases h'
  exact lowers_firstOf_live hok (ih.unary hok (hu (unary_isUnary hok)) hh)

theorem lowers_operand_paren (ih : LowerRules D fuel) (hp : s.current.token = .symbol .lParen)
    (hr : (operand (fuel + 1) d).exec s = (.ok w, t)) (hh : d + w.height ≤ D + 1) :
    Lowers D (operand (fuel + 1) d) s := by
  rw [Parse.operand] at hr ⊢
  have htok : ∀ s', s.SamePlace s' → s'.current.token = .symbol .lParen := fun s' hs' => by
    rw [hs'.current_eq, hp]
  refine lowers_firstOf_skip (.refl s) (fun s' hs' => refuses_unary fun op h =>
    UnOp.token_ne_lParen op (h.symm.trans (htok s' hs'))) hr fun s₁ hs₁ hr₁ => ?_
  refine lowers_firstOf_skip hs₁ (fun s' hs' => refuses_callExpr fun n h =>
    absurd ((htok s' hs').symm.trans h) (by simp)) hr₁ fun s₂ hs₂ hr₂ => ?_
  refine lowers_firstOf_skip hs₂ (fun s' hs' => refuses_element fun n h =>
    absurd ((htok s' hs').symm.trans h) (by simp)) hr₂ fun s₃ hs₃ hr₃ => ?_
  refine lowers_firstOf_skip hs₃ (fun s' hs' => refuses_funRef (by rw [htok s' hs']; simp))
    hr₃ fun s₄ hs₄ hr₄ => ?_
  refine lowers_firstOf_skip hs₄ (fun s' hs' => refuses_constExpr fun c h =>
    Const.token_ne_lParen c (h.symm.trans (htok s' hs'))) hr₄ fun s₅ hs₅ hr₅ => ?_
  refine lowers_firstOf_skip hs₅ (fun s' hs' => refuses_varRef fun n h =>
    absurd ((htok s' hs').symm.trans h) (by simp)) hr₅ fun s₆ _ hr₆ => ?_
  -- the parenthesis is the last alternative, so it is the one that reads
  have hok := firstOf_head_ok ((nestRules fuel).paren d) hr₆ fun s' _ h' => by
    rw [firstOf, exec_fail] at h'
    cases h'
  exact lowers_firstOf_live hok (ih.paren hok hh)

theorem lowers_operand_call (ih : LowerRules D fuel) {n : String} (hn : s.current.token = .ident n)
    (hp : s.stepped.current.token = .symbol .lParen) (hr : (operand (fuel + 1) d).exec s = (.ok w, t))
    (hno : t.current.token.NotOpener) (hh : d + w.height ≤ D + 1) :
    Lowers D (operand (fuel + 1) d) s := by
  rw [Parse.operand] at hr ⊢
  refine lowers_firstOf_skip (.refl s) (fun s' hs' => refuses_unary fun op h =>
    UnOp.token_ne_ident op n (h.symm.trans (by rw [hs'.current_eq, hn]))) hr fun s₁ hs₁ hr₁ => ?_
  -- had the call failed, the name would be read as a variable, before the `(`
  have hok := firstOf_head_ok ((nestRules fuel).callExpr d) hr₁ fun s₂ hs₂ hr₂ => by
    obtain ⟨s₃, hs₃, hr₃⟩ := firstOf_skip (D := D) (hs₁.trans hs₂) (fun s' hs' =>
      refuses_element fun _ _ => by rw [hs'.stepped_current_eq, hp]; simp) hr₂
    exact hno.1 ((firstOf_after_name hn hs₃ hr₃).trans hp)
  exact lowers_firstOf_live hok (ih.callExpr hok hh)

theorem lowers_operand_element (ih : LowerRules D fuel) {n : String}
    (hn : s.current.token = .ident n) (hb : s.stepped.current.token = .symbol .lBracket)
    (hr : (operand (fuel + 1) d).exec s = (.ok w, t)) (hno : t.current.token.NotOpener)
    (hh : d + w.height ≤ D + 1) : Lowers D (operand (fuel + 1) d) s := by
  rw [Parse.operand] at hr ⊢
  refine lowers_firstOf_skip (.refl s) (fun s' hs' => refuses_unary fun op h =>
    UnOp.token_ne_ident op n (h.symm.trans (by rw [hs'.current_eq, hn]))) hr fun s₁ hs₁ hr₁ => ?_
  refine lowers_firstOf_skip hs₁ (fun s' hs' => refuses_callExpr fun _ _ => by
    rw [hs'.stepped_current_eq, hb]; simp) hr₁ fun s₂ hs₂ hr₂ => ?_
  -- had the element failed, the name would be read as a variable, before the `[`
  have hok := firstOf_head_ok ((nestRules fuel).element d) hr₂ fun s₃ hs₃ hr₃ =>
    hno.2 ((firstOf_after_name hn (hs₂.trans hs₃) hr₃).trans hb)
  exact lowers_firstOf_live hok (ih.element hok hh)

theorem lowers_operand_leaf (hun : ∀ op : UnOp, s.current.token ≠ op.token)
    (hcall : ∀ n, s.current.token = .ident n → s.stepped.current.token ≠ .symbol .lParen)
    (helem : ∀ n, s.current.token = .ident n → s.stepped.current.token ≠ .symbol .lBracket)
    (hpar : s.current.token ≠ .symbol .lParen) : Lowers D (operand (fuel + 1) d) s := by
  rw [Parse.operand]
  refine lowers_firstOf (.refl s) ?_
  simp only [List.mem_cons, List.not_mem_nil, or_false]
  rintro q (rfl | rfl | rfl | rfl | rfl | rfl | rfl)
  · exact .inl fun s' hs' => refuses_unary (by rw [hs'.current_eq]; exact hun)
  · exact .inl fun s' hs' => refuses_callExpr (by
      rw [hs'.current_eq, hs'.stepped_current_eq]; exact hcall)
  · exact .inl fun s' hs' => refuses_element (by
      rw [hs'.current_eq, hs'.stepped_current_eq]; exact helem)
  · exact .inr ⟨fun _ => lowers_of_repeats Twin.repeats_funRef,
      frame_of_keeps (Q := OperandShape 0 0) keeps_funRef_shape⟩
  · exact .inr ⟨fun _ => lowers_of_repeats (Twin.repeats_map _ Twin.repeats_constant),
      frame_of_keeps (Q := OperandShape 0 0) keeps_constExpr_shape⟩
  · exact .inr ⟨fun _ => lowers_of_repeats Twin.repeats_varRef,
      frame_of_keeps (Q := OperandShape 0 0) keeps_varRef_shape⟩
  · exact .inl fun s' hs' => refuses_paren (by rw [hs'.current_eq]; exact hpar)

end

theorem LowerRules.succ {fuel : Nat} (ih : LowerRules D fuel) : LowerRules D (fuel + 1) where
  expr {d s t v} hr hc hh := by
    rw [Parse.expr] at hr ⊢
    have hv := v.one_le_height
    obtain ⟨u, s₁, h₁, hr⟩ := exec_bind_ok hr
    obtain ⟨left, s₂, h₂, hr⟩ := exec_bind_ok hr
    obtain ⟨tail, s₃, h₃, hr⟩ := exec_bind_ok hr
    obtain rfl := checkDepth_ok h₁
    cases tail with
    | none =>
      obtain ⟨rfl, rfl⟩ := exec_pure_ok hr
      -- the tail was given up where the operand ended, so the closing token stands there
      obtain ⟨e, t₁, he, rfl⟩ := attempt_none h₃
      have hplace : s₂.SamePlace { t₁ with cursor := s₂.cursor } :=
        ⟨(he ▸ frame_of_keeps ((nestRules fuel).binaryTail (d + 1)) s₂).rewind, rfl⟩
      have hcl : s₂.current.token.Closes := by rw [← hplace.current_eq]; exact hc
      refine (lowers_checkDepth (by omega)).bind_ok h₁
        ((ih.operand h₂ hcl.1 (fun _ => hcl) (by omega)).bind_ok h₂ ?_)
      exact (refuses_binaryTail hcl.2).lowers.attempt.bind_ok h₃ (lowers_pure _)
    | some x =>
      obtain ⟨op, right⟩ := x
      obtain ⟨rfl, rfl⟩ := exec_pure_ok hr
      have hbt := attempt_some h₃
      -- the operand is no unary operation, after which no tail is read
      have hu : left.isUnary = true → s₂.current.token.Closes := by
        intro hu
        obtain ⟨e, u, he, -⟩ := ((((nestRules fuel).operand (d + 1)).of_exec trivial h₂).tailFails hu)
          fuel (d + 1) le_rfl le_rfl
        rw [hbt] at he
        cases he
      have hlr := Expr.height_binary left op right
      refine (lowers_checkDepth (by omega)).bind_ok h₁
        ((ih.operand h₂ (binaryTail_notOpener hbt) hu (by omega)).bind_ok h₂ ?_)
      exact (ih.binaryTail hbt hc (by omega)).attempt.bind_ok h₃ (lowers_pure _)
  binaryTail {d s t op r} hr hc hh := by
    rw [Parse.binaryTail] at hr ⊢
    obtain ⟨op', s₁, h₁, hr⟩ := exec_bind_ok hr
    obtain ⟨r', s₂, h₂, hr⟩ := exec_bind_ok hr
    obtain ⟨hp, rfl⟩ := exec_pure_ok hr
    cases hp
    exact (lowers_of_repeats Twin.repeats_binOp).bind_ok h₁
      ((ih.expr h₂ hc hh).bind_ok h₂ (lowers_pure _))
  operand {d s t w} hr hno hu hh := by
    -- the first token, and after a name the second, tell which alternative reads the operand
    by_cases hun : ∃ op : UnOp, s.current.token = op.token
    · obtain ⟨op, hop⟩ := hun
      exact lowers_operand_unary ih hop hr hu hh
    by_cases hpar : s.current.token = .symbol .lParen
    · exact lowers_operand_paren ih hpar hr hh
    by_cases hid : ∃ n, s.current.token = .ident n ∧
        (s.stepped.current.token = .symbol .lParen ∨ s.stepped.current.token = .symbol .lBracket)
    · obtain ⟨n, hn, hp | hb⟩ := hid
      · exact lowers_operand_call ih hn hp hr hno hh
      · exact lowers_operand_element ih hn hb hr hno hh
    · exact lowers_operand_leaf (fun op h => hun ⟨op, h⟩) (fun n hn hp => hid ⟨n, hn, .inl hp⟩)
        (fun n hn hb => hid ⟨n, hn, .inr hb⟩) hpar
  unary {d s t w} hr hc hh := by
    rw [Parse.unary] at hr ⊢
    obtain ⟨op, s₁, h₁, hr⟩ := exec_bind_ok hr
    obtain ⟨e, s₂, h₂, hr⟩ := exec_bind_ok hr
    obtain ⟨rfl, rfl⟩ := exec_pure_ok hr
    simp only [Expr.height] at hh
    exact (lowers_of_repeats Twin.repeats_unOp).bind_ok h₁
      ((ih.expr h₂ hc (by omega)).bind_ok h₂ (lowers_pure _))
  callExpr {d s t w} hr hh := by
    rw [Parse.callExpr] at hr ⊢
    obtain ⟨⟨fn, args⟩, s₁, h₁, hr⟩ := exec_bind_ok hr
    obtain ⟨rfl, rfl⟩ := exec_pure_ok hr
    simp only [Expr.height] at hh
    exact (ih.funCall h₁ (show d + Expr.listHeight args ≤ D by omega)).bind_ok h₁ (lowers_pure _)
  funCall {d s t c} hr hh := by
    rw [Parse.funCall] at hr ⊢
    obtain ⟨name, s₁, h₁, hr⟩ := exec_bind_ok hr
    obtain ⟨_, s₂, h₂, hr⟩ := exec_bind_ok hr
    obtain ⟨b, s₃, h₃, hr⟩ := exec_bind_ok hr
    refine (lowers_of_repeats (Twin.repeats_ident _)).bind_ok h₁
      ((lowers_of_repeats (Twin.repeats_symbol _)).bind_ok h₂
        ((lowers_of_repeats (Twin.repeats_eatSymbol _)).bind_ok h₃ ?_))
    have last : ∀ (args : List Expr) u, Lowers D (resolveFun name >>= fun r => pure (r, args)) u :=
      fun _ _ =>
        (lowers_of_repeats (Twin.repeats_resolveFun _)).bind fun _ _ _ => lowers_pure _
    dsimp only at hr ⊢
    cases b <;> simp only [pure_bind, Bool.false_eq_true, ↓reduceIte] at hr ⊢
    · -- the arguments end at the closing parenthesis
      obtain ⟨args, s₄, h₄, hr⟩ := exec_bind_ok hr
      obtain ⟨_, s₅, h₅, hr⟩ := exec_bind_ok hr
      obtain ⟨r, s₆, h₆, hr⟩ := exec_bind_ok hr
      obtain ⟨rfl, rfl⟩ := exec_pure_ok hr
      have hcl : s₄.current.token.Closes := by
        rw [symbol_ok h₅]
        exact closes_of_symbol _ (.inl rfl)
      exact (ih.argList h₄ hcl hh).bind_ok h₄
        ((lowers_of_repeats (Twin.repeats_symbol _)).bind_ok h₅ (last args s₅))
    · exact last [] s₃
  argList {d s t es} hr hc hh := by
    rw [Parse.argList] at hr ⊢
    obtain ⟨e, s₁, h₁, hr₁⟩ := exec_bind_ok hr
    obtain ⟨b, s₂, h₂, hr₂⟩ := exec_bind_ok hr₁
    have hb := h₂
    rw [exec_eatSymbol] at hb
    cases b with
    | false =>
      -- no comma: the list ends after its last expression
      have hs₂ : s₂ = s₁ := by
        split at hb <;> cases hb
        rfl
      obtain ⟨rfl, rfl⟩ := exec_pure_ok hr₂
      have hht := (Expr.height_cons e []).1
      exact (ih.expr h₁ (hs₂ ▸ hc) (by omega)).bind_ok h₁
        ((lowers_of_repeats (Twin.repeats_eatSymbol _)).bind_ok h₂ (lowers_pure _))
    | true =>
      -- a comma ends the expression, and the rest of the list follows
      have hcomma : s₁.current.token = .symbol .comma := by
        split at hb
        · next hs => exact isSymbol_eq_true hs
        · cases hb
      simp only [if_true] at hr₂
      obtain ⟨es', s₃, h₃, hr₃⟩ := exec_bind_ok hr₂
      obtain ⟨rfl, rfl⟩ := exec_pure_ok hr₃
      have hht := Expr.height_cons e es'
      refine (ih.expr h₁ ?_ (by omega)).bind_ok h₁
        ((lowers_of_repeats (Twin.repeats_eatSymbol _)).bind_ok h₂
          ((ih.argList h₃ hc (by omega)).bind_ok h₃ (lowers_pure _)))
      rw [hcomma]
      exact closes_of_symbol _ (.inr (.inr rfl))
  element {d s t w} hr hh := by
    rw [Parse.element] at hr ⊢
    obtain ⟨name, s₁, h₁, hr⟩ := exec_bind_ok hr
    obtain ⟨_, s₂, h₂, hr⟩ := exec_bind_ok hr
    obtain ⟨i, s₃, h₃, hr⟩ := exec_bind_ok hr
    obtain ⟨_, s₄, h₄, hr⟩ := exec_bind_ok hr
    obtain ⟨r, s₅, h₅, hr⟩ := exec_bind_ok hr
    obtain ⟨rfl, rfl⟩ := exec_pure_ok hr
    simp only [Expr.height] at hh
    -- the index ends at the closing bracket
    have hcl : s₃.current.token.Closes := by
      rw [symbol_ok h₄]
      exact closes_of_symbol _ (.inr (.inl rfl))
    exact (lowers_of_repeats (Twin.repeats_ident _)).bind_ok h₁
      ((lowers_of_repeats (Twin.repeats_symbol _)).bind_ok h₂
        ((ih.expr h₃ hcl (by omega)).bind_ok h₃
          ((lowers_of_repeats (Twin.repeats_symbol _)).bind_ok h₄
            ((lowers_of_repeats (Twin.repeats_resolveVar _)).bind_ok h₅ (lowers_pure _)))))
  paren {d s t w} hr hh := by
    rw [Parse.paren] at hr ⊢
    obtain ⟨_, s₁, h₁, hr⟩ := exec_bind_ok hr
    obtain ⟨e, s₂, h₂, hr⟩ := exec_bind_ok hr
    obtain ⟨_, s₃, h₃, hr⟩ := exec_bind_ok hr
    obtain ⟨rfl, rfl⟩ := exec_pure_ok hr
    simp only [Expr.height] at hh
    -- the inner expression ends at the closing parenthesis
    have hcl : s₂.current.token.Closes := by
      rw [symbol_ok h₃]
      exact closes_of_symbol _ (.inl rfl)
    exact (lowers_of_repeats (Twin.repeats_symbol _)).bind_ok h₁
      ((ih.expr h₂ hcl (by omega)).bind_ok h₂
        ((lowers_of_repeats (Twin.repeats_symbol _)).bind_ok h₃ (lowers_pure _)))

theorem lowerRules (D : Nat) : ∀ fuel, LowerRules D fuel
  | 0 => .zero
  | fuel + 1 => (lowerRules D fuel).succ

/-! ## Parsing under a lower limit -/

section

variable {s t : ParseState}

theorem closes_newline : Token.newline.Closes := by
  unfold Token.Closes Token.NotOpener
  exact ⟨⟨by simp, by simp⟩, fun op => by cases op <;> simp [BinOp.token]⟩

theorem skipped_current (hn : s.current.token ≠ .newline) : s.skipped.current = s.current := by
  unfold ParseState.skipped
  by_cases hlt : s.cursor < s.tokens.size
  · have hget : s.tokens[s.cursor].token = s.current.token := by
      rw [ParseState.current, Nat.min_eq_left (by omega), Array.getD_eq_getD_getElem?,
        Array.getElem?_eq_getElem hlt, Option.getD_some]
    rw [skipLineBreaks, dif_pos hlt]
    split
    · next heq => exact absurd (hget ▸ heq) hn
    · rfl
  · rw [skipLineBreaks, dif_neg hlt]
    rfl

theorem endOfInput_closes {u : Unit} (h : endOfInput.exec s = (.ok u, t)) :
    s.current.token.Closes := by
  by_cases hn : s.current.token = .newline
  · rw [hn]
    exact closes_newline
  · simp only [endOfInput, exec_bind, exec_skipNewlines, exec_peek, skipped_current hn] at h
    split at h
    · next heof =>
      rw [heof]
      exact closes_eof
    · rw [exec_fail] at h
      cases h

end

theorem parseExpr_height_le {src : String} {ts : Tables} {L : Limits} {e : Expr}
    (h : parseExpr src ts L = .ok e) : e.height ≤ L.maxExprDepth := by
  unfold parseExpr at h
  split at h
  · cases h
  · obtain ⟨_, _, _, _, _, hh⟩ := parseExprTokens_drawn h
    exact hh

theorem parseExprTokens_lower {tokens : Array Lexeme} {ts : Tables} {L : Limits} {e : Expr}
    (h : parseExprTokens tokens ts L = .ok e) (hD : e.height ≤ D) :
    parseExprTokens tokens ts { L with maxExprDepth := D } = .ok e := by
  unfold parseExprTokens at h ⊢
  rw [runOn_eq] at h ⊢
  have hstart : ParseState.start tokens ts { L with maxExprDepth := D } =
      { ParseState.start tokens ts L with maxDepth := D } := rfl
  rw [hstart]
  split at h
  · next v t hr =>
    obtain ⟨v', s₁, h₁, hr₁⟩ := exec_bind_ok hr
    obtain ⟨_, s₂, h₂, hr₂⟩ := exec_bind_ok hr₁
    simp only [exec_pure, Prod.mk.injEq, Except.ok.injEq] at hr₂ h
    obtain ⟨rfl, rfl⟩ := hr₂
    subst h
    have hl : Lowers D
        (do
          let e ← Parse.expr (Parse.budget tokens.size) 0
          Parse.endOfInput
          return e) (ParseState.start tokens ts L) :=
      ((lowerRules D _).expr h₁ (endOfInput_closes h₂) (by omega)).bind_ok h₁
        ((lowers_of_repeats Twin.repeats_endOfInput).bind_ok h₂ (lowers_pure _))
    rw [hl (by rw [hr]; trivial), hr]
  · cases h

theorem parseExpr_lower {src : String} {ts : Tables} {L : Limits} {e : Expr}
    (h : parseExpr src ts L = .ok e) (hD : e.height ≤ D) :
    parseExpr src ts { L with maxExprDepth := D } = .ok e := by
  unfold parseExpr at h ⊢
  rw [lex_exprDepth]
  split at h
  · cases h
  · exact parseExprTokens_lower h hD

/-! ## The levels an expression needs -/

mutual
/-- The levels the operands of an expression need below it. The left operand of a binary
operation is read at the operation's own level, every other operand one level below. -/
def Expr.inner : Expr → Nat
  | .const _ => 0
  | .var _ => 0
  | .funRef _ => 0
  | .binary l _ r => max l.inner (1 + r.inner)
  | .unary _ x => 1 + x.inner
  | .paren x => 1 + x.inner
  | .element _ x => 1 + x.inner
  | .call _ args => Expr.listInner args
def Expr.listInner : List Expr → Nat
  | [] => 0
  | e :: es => max (1 + e.inner) (Expr.listInner es)
end

/-- The nesting levels reading an expression takes, its own included. -/
def Expr.need (e : Expr) : Nat := 1 + e.inner

mutual
theorem Expr.need_eq_height : ∀ e : Expr, e.need = e.height
  | .const _ | .var _ | .funRef _ => rfl
  | .binary l _ r => by
    have hl := Expr.need_eq_height l
    have hr := Expr.need_eq_height r
    simp only [Expr.need, Expr.inner, Expr.height] at hl hr ⊢
    omega
  | .unary _ x | .paren x | .element _ x => by
    have hx := Expr.need_eq_height x
    simp only [Expr.need, Expr.inner, Expr.height] at hx ⊢
    omega
  | .call _ args => by
    have ha := Expr.listInner_eq_listHeight args
    simp only [Expr.need, Expr.inner, Expr.height] at ha ⊢
    omega
theorem Expr.listInner_eq_listHeight : ∀ es : List Expr, Expr.listInner es = Expr.listHeight es
  | [] => rfl
  | e :: es => by
    have he := Expr.need_eq_height e
    have hes := Expr.listInner_eq_listHeight es
    simp only [Expr.need, Expr.listInner, Expr.listHeight] at he hes ⊢
    omega
end

/-! ## The threshold -/

/-- The nesting limit is an exact threshold. An expression that parses under some limits parses
to the same tree when only the nesting limit is changed to any value of at least the levels the
tree needs; below that, the parse ends in a limit error. -/
theorem nesting_limit_is_exact {src : String} {ts : Tables} {L : Limits} {e : Expr}
    (h : parseExpr src ts L = .ok e) (D : Nat) :
    (e.need ≤ D → parseExpr src ts { L with maxExprDepth := D } = .ok e) ∧
      (D < e.need → ∃ err, parseExpr src ts { L with maxExprDepth := D } = .error err ∧
        err.fault.errorClass = .limitExceeded) := by
  rw [Expr.need_eq_height]
  refine ⟨parseExpr_lower h, fun hlt => ?_⟩
  -- under the lower limit the parse hits a limit: otherwise it is the parse under `L`
  have hle : { L with maxExprDepth := D } ≤ L := by
    have := parseExpr_height_le h
    intro f
    cases f <;> simp only [Limits.get] <;> omega
  rcases hr : parseExpr src ts { L with maxExprDepth := D } with err | v
  · refine ⟨err, rfl, ?_⟩
    by_contra hne
    have hraise := parseExpr_raise hle src ts (by rw [hr]; exact hne)
    rw [h, hr] at hraise
    cases hraise
  · have hraise := parseExpr_raise hle src ts (by rw [hr]; trivial)
    rw [h, hr] at hraise
    cases hraise
    have hv : e.height ≤ D := parseExpr_height_le hr
    omega

theorem negated_parenthesis_needs_three_levels :
    parseExpr "not (true)" Tables.initial {} =
        .ok (.unary .logicalNot (.paren (.const (.boolean true)))) ∧
      ∃ err, parseExpr "not (true)" Tables.initial { maxExprDepth := 2 } = .error err ∧
        err.fault.errorClass = .limitExceeded :=
  have h : parseExpr "not (true)" Tables.initial {} =
      .ok (.unary .logicalNot (.paren (.const (.boolean true)))) := by cbv
  ⟨h, (nesting_limit_is_exact h 2).2 (by decide)⟩

end Jass
