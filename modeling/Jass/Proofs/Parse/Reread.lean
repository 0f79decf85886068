import Jass.Proofs.Lex.Printed
import Jass.Proofs.Parse.Nesting
import Jass.Proofs.Parse.Reading
/-!
# Reading an expression's tokens back

Laid out from the cursor and followed by a token that closes an expression (no binary operator
and no opening bracket), the tokens `Expr.tokens` of an expression are read back by the
expression rules as the same tree. At each operand the alternatives before the right one fail
on their first or second token and give the cursor back, a binary tail is read exactly where the
tree has one, and every name resolves to the reference it was printed from.

The tree has to be one the grammar can produce: its operators nest to the right, since the
printer adds no parentheses, and its references are resolved outside functions. The run must
also have room: the depth bound exceeds the tree's nesting (`Expr.height`), and the step budget
is at least linear in the number of tokens (`RereadRules`, proved at every budget).
-/

namespace Jass

open Jass.Parser Parse

/-! ## How deep a tree is read -/

mutual
/-- The number of nested `expression` levels reading the tree opens, its own included. The left
operand of a binary operation is read at the operation's own level. -/
def Expr.height : Expr → Nat
  | .const _ => 1
  | .binary l _ r => max l.height (r.height + 1)
  | .unary _ e => e.height + 1
  | .call _ args => Expr.listHeight args + 1
  | .element _ i => i.height + 1
  | .funRef _ => 1
  | .var _ => 1
  | .paren e => e.height + 1
def Expr.listHeight : List Expr → Nat
  | [] => 0
  | e :: es => max e.height (Expr.listHeight es)
end

theorem Expr.one_le_height : ∀ e : Expr, 1 ≤ e.height
  | .const _ | .funRef _ | .var _ => le_rfl
  | .binary _ _ r => (Nat.le_add_left 1 r.height).trans (le_max_right _ _)
  | .unary _ e | .element _ e | .paren e => Nat.le_add_left 1 e.height
  | .call _ args => Nat.le_add_left 1 (Expr.listHeight args)

/-! ## Tokens that end an expression -/

/-- A token after which no call or element is read. -/
def Token.NotOpener (t : Token) : Prop := t ≠ .symbol .lParen ∧ t ≠ .symbol .lBracket

/-- A token after which an expression ends: no opening bracket and no binary operator. -/
def Token.Closes (t : Token) : Prop := t.NotOpener ∧ ∀ op : BinOp, t ≠ op.token

theorem closes_of_symbol (s : Symbol) (hs : s = .rParen ∨ s = .rBracket ∨ s = .comma) :
    (Token.symbol s).Closes := by
  unfold Token.Closes Token.NotOpener
  refine ⟨⟨?_, ?_⟩, fun op => ?_⟩ <;> rcases hs with rfl | rfl | rfl <;>
    first | (cases op <;> simp [BinOp.token]) | simp

theorem closes_eof : Token.eof.Closes := by
  unfold Token.Closes Token.NotOpener
  exact ⟨⟨by simp, by simp⟩, fun op => by cases op <;> simp [BinOp.token]⟩

theorem BinOp.token_notOpener (op : BinOp) : op.token.NotOpener := by
  cases op <;> simp [Token.NotOpener, BinOp.token]

theorem Const.token_ne_unOp (c : Const) (op : UnOp) : c.token ≠ op.token := by
  cases c with
  | boolean b => cases b <;> cases op <;> simp [Const.token, UnOp.token]
  | _ => cases op <;> simp [Const.token, UnOp.token]

theorem Expr.tokens_head (ts : Tables) :
    ∀ e : Expr, ∃ t rest, e.tokens ts = t :: rest ∧ t ≠ .symbol .rParen
  | .binary l _ _ => by
    obtain ⟨t, rest, h, ht⟩ := Expr.tokens_head ts l
    exact ⟨t, _, by rw [Expr.tokens, h, List.cons_append], ht⟩
  | .const c => ⟨_, _, rfl, by cases c <;> simp [Const.token]⟩
  | .unary op _ => ⟨_, _, rfl, by cases op <;> simp [UnOp.token]⟩
  | .call _ _ => ⟨_, _, rfl, by simp⟩
  | .element _ _ => ⟨_, _, rfl, by simp⟩
  | .funRef _ => ⟨_, _, rfl, by simp⟩
  | .var _ => ⟨_, _, rfl, by simp⟩
  | .paren _ => ⟨_, _, rfl, by simp⟩

/-! ## The tokens ahead of the cursor -/

namespace ParseState

def Ahead (s : ParseState) (toks : List Token) : Prop :=
  toks <+: (s.tokens.toList.drop s.cursor).map Lexeme.token

theorem SameFrame.refl (s : ParseState) : s.SameFrame s := ⟨rfl, rfl, rfl, rfl⟩

theorem SameFrame.trans {s t u : ParseState} (h : s.SameFrame t) (h' : t.SameFrame u) :
    s.SameFrame u :=
  ⟨h'.tokens.trans h.tokens, h'.tables.trans h.tables, h'.scope.trans h.scope,
    h'.maxDepth.trans h.maxDepth⟩

theorem sameFrame_stepped (s : ParseState) : s.SameFrame s.stepped := ⟨rfl, rfl, rfl, rfl⟩

theorem sameFrame_record (s : ParseState) (e : ParseError) : s.SameFrame (s.record e) :=
  ⟨rfl, rfl, rfl, rfl⟩

theorem SameFrame.rewind {s t : ParseState} (h : s.SameFrame t) :
    s.SameFrame { t with cursor := s.cursor } :=
  ⟨h.tokens, h.tables, h.scope, h.maxDepth⟩

variable {s t : ParseState} {tok : Token} {toks : List Token}

theorem Ahead.current (h : s.Ahead (tok :: toks)) :
    s.cursor < s.tokens.size ∧ s.current.token = tok := by
  obtain ⟨more, hm⟩ := h
  have hlt : s.cursor < s.tokens.size := by
    by_contra hge
    rw [List.drop_eq_nil_of_le (by simpa using Nat.le_of_not_lt hge)] at hm
    simp at hm
  refine ⟨hlt, ?_⟩
  rw [List.drop_eq_getElem_cons (by simpa using hlt)] at hm
  simp only [List.map_cons, List.cons_append, List.cons.injEq] at hm
  rw [ParseState.current, Nat.min_eq_left (by omega), Array.getD_eq_getD_getElem?,
    Array.getElem?_eq_getElem hlt, Option.getD_some, hm.1, Array.getElem_toList]

theorem Ahead.stepped (h : s.Ahead (tok :: toks)) :
    s.stepped.Ahead toks ∧ s.stepped.cursor = s.cursor + 1 := by
  have hlt := h.current.1
  have hc : s.stepped.cursor = s.cursor + 1 := by
    simp only [ParseState.stepped, ParseState.moveTo]
    omega
  refine ⟨?_, hc⟩
  obtain ⟨more, hm⟩ := h
  refine ⟨more, ?_⟩
  rw [hc, show s.stepped.tokens = s.tokens from rfl, ← List.drop_drop, List.map_drop, ← hm]
  simp

theorem Ahead.mono {toks' : List Token} (h : s.Ahead toks) (hp : toks' <+: toks) : s.Ahead toks' :=
  hp.trans h

theorem Ahead.of_append {a b : List Token} (h : s.Ahead (a ++ b)) : s.Ahead a :=
  h.mono (List.prefix_append a b)

theorem Ahead.after {a b : List Token} (h : s.Ahead (a ++ b)) (hst : s.SameFrame t)
    (hc : t.cursor = s.cursor + a.length) : t.Ahead b := by
  obtain ⟨more, hm⟩ := h
  refine ⟨more, ?_⟩
  rw [hc, hst.tokens, ← List.drop_drop, List.map_drop, ← hm]
  simp

theorem Ahead.next (h : s.Ahead (tok :: toks)) (hst : s.SameFrame t)
    (hc : t.cursor = s.cursor + 1) : t.Ahead toks :=
  h.after (a := [tok]) hst hc

theorem Ahead.congr (h : s.Ahead toks) (hf : s.SameFrame t) (hc : t.cursor = s.cursor) :
    t.Ahead toks := by
  unfold Ahead
  rw [hf.tokens, hc]
  exact h

def SamePlace (s t : ParseState) : Prop := s.SameFrame t ∧ t.cursor = s.cursor

theorem SamePlace.refl (s : ParseState) : s.SamePlace s := ⟨.refl s, rfl⟩

theorem SamePlace.trans {u : ParseState} (h : s.SamePlace t) (h' : t.SamePlace u) :
    s.SamePlace u :=
  ⟨h.1.trans h'.1, h'.2.trans h.2⟩

theorem Ahead.samePlace (h : s.Ahead toks) (hp : s.SamePlace t) : t.Ahead toks :=
  h.congr hp.1 hp.2

structure Outside (s : ParseState) (ts : Tables) (m : Nat) : Prop where
  tables : s.tables = ts
  scope : s.scope = {}
  maxDepth : s.maxDepth = m

theorem Outside.frame {ts : Tables} {m : Nat} (h : s.Outside ts m) (hst : s.SameFrame t) :
    t.Outside ts m :=
  ⟨hst.tables.trans h.tables, hst.scope.trans h.scope, hst.maxDepth.trans h.maxDepth⟩

end ParseState

/-! ## Runs that read and runs that fail -/

variable {α β : Type}

/-- A run of `p` from `s` yields `a` and leaves the cursor at `k`, in the same frame. -/
def Reads (p : Parser α) (s : ParseState) (a : α) (k : Nat) : Prop :=
  ∃ t, p.exec s = (.ok a, t) ∧ s.SameFrame t ∧ t.cursor = k

def Fails (p : Parser α) (s : ParseState) : Prop :=
  ∃ e t, p.exec s = (.error e, t) ∧ e.fault.isSyntax = true ∧ s.SameFrame t

section

variable {p : Parser α} {f : α → Parser β} {s : ParseState} {a : α} {b : β} {k k' : Nat}

theorem reads_pure (s : ParseState) (a : α) : Reads (pure a) s a s.cursor :=
  ⟨s, rfl, .refl s, rfl⟩

theorem Reads.bind (hp : Reads p s a k) (hf : ∀ t, s.SameFrame t → t.cursor = k → Reads (f a) t b k') :
    Reads (p >>= f) s b k' := by
  obtain ⟨t, hr, hst, hc⟩ := hp
  obtain ⟨u, hu, htu, hc'⟩ := hf t hst hc
  exact ⟨u, by rw [exec_bind, hr]; exact hu, hst.trans htu, hc'⟩

theorem Fails.bind (hp : Fails p s) : Fails (p >>= f) s := by
  obtain ⟨e, t, hr, he, hst⟩ := hp
  exact ⟨e, t, by rw [exec_bind, hr], he, hst⟩

theorem Reads.bind_fails (hp : Reads p s a k) (hf : ∀ t, s.SameFrame t → t.cursor = k → Fails (f a) t) :
    Fails (p >>= f) s := by
  obtain ⟨t, hr, hst, hc⟩ := hp
  obtain ⟨e, u, hu, he, htu⟩ := hf t hst hc
  exact ⟨e, u, by rw [exec_bind, hr]; exact hu, he, hst.trans htu⟩

theorem Reads.map (hp : Reads p s a k) (g : α → β) : Reads (g <$> p) s (g a) k := by
  obtain ⟨t, hr, hst, hc⟩ := hp
  exact ⟨t, by rw [exec_map, hr], hst, hc⟩

theorem Fails.map (hp : Fails p s) (g : α → β) : Fails (g <$> p) s := by
  obtain ⟨e, t, hr, he, hst⟩ := hp
  exact ⟨e, t, by rw [exec_map, hr], he, hst⟩

theorem Reads.eq (h : Reads p s a k) (hk : k = k') : Reads p s a k' := hk ▸ h

theorem fails_fail (rule : Rule) (s : ParseState) : Fails (Parse.fail rule : Parser α) s :=
  ⟨_, _, exec_fail rule s, rfl, ParseState.sameFrame_record s _⟩

theorem Fails.attempt (hp : Fails p s) : Reads (attempt p) s none s.cursor := by
  obtain ⟨e, t, hr, he, hst⟩ := hp
  exact ⟨_, by rw [exec_attempt, hr]; simp [he], hst.rewind, rfl⟩

theorem Reads.attempt (hp : Reads p s a k) : Reads (attempt p) s (some a) k := by
  obtain ⟨t, hr, hst, hc⟩ := hp
  exact ⟨t, by rw [exec_attempt, hr], hst, hc⟩

theorem reads_firstOf_head {rule : Rule} {ps : List (Parser α)} (hp : Reads p s a k) :
    Reads (firstOf rule (p :: ps)) s a k := by
  rw [firstOf]
  exact hp.attempt.bind fun t _ hc => (reads_pure t a).eq hc

theorem reads_firstOf_skip {rule : Rule} {ps : List (Parser α)}
    (hp : ∀ t, s.SamePlace t → Fails p t) (hps : ∀ t, s.SamePlace t → Reads (firstOf rule ps) t a k) :
    ∀ t, s.SamePlace t → Reads (firstOf rule (p :: ps)) t a k := by
  intro t ht
  rw [firstOf]
  exact (hp t ht).attempt.bind fun u htu hc => hps u (ht.trans ⟨htu, hc⟩)

end

/-! ## The primitives at a known token -/

section

variable {s : ParseState} {toks : List Token}

theorem reads_ident {n : String} (rule : Rule) (h : s.Ahead (.ident n :: toks)) :
    Reads (ident rule) s n (s.cursor + 1) := by
  refine ⟨s.stepped, ?_, ParseState.sameFrame_stepped s, h.stepped.2⟩
  simp only [ident, exec_bind, exec_peek, h.current.2, exec_advance]
  rfl

theorem fails_ident (rule : Rule) (h : ∀ n, s.current.token ≠ .ident n) : Fails (ident rule) s := by
  obtain ⟨e, t, hr, he, hst⟩ := fails_fail (α := String) rule s
  refine ⟨e, t, ?_, he, hst⟩
  simp only [ident, exec_bind, exec_peek]
  exact hr

theorem isSymbol_eq_false {c : Symbol} {t : Token} (h : t ≠ .symbol c) : isSymbol c t = false := by
  cases t with
  | symbol c' =>
    simp only [isSymbol, beq_eq_false_iff_ne]
    exact fun hc => h (hc ▸ rfl)
  | _ => rfl

theorem isKeyword_eq_false {k : Keyword} {t : Token} (h : t ≠ .keyword k) :
    isKeyword k t = false := by
  cases t with
  | keyword k' =>
    simp only [isKeyword, beq_eq_false_iff_ne]
    exact fun hk => h (hk ▸ rfl)
  | _ => rfl

theorem reads_symbol (c : Symbol) (h : s.Ahead (.symbol c :: toks)) : Reads (symbol c) s () (s.cursor + 1) := by
  refine ⟨s.stepped, ?_, ParseState.sameFrame_stepped s, h.stepped.2⟩
  simp [symbol, eatSymbol, exec_bind, exec_peek, h.current.2, isSymbol]

theorem fails_symbol (c : Symbol) (h : s.current.token ≠ .symbol c) : Fails (symbol c) s := by
  have hno := isSymbol_eq_false h
  obtain ⟨e, t, hr, he, hst⟩ := fails_fail (α := Unit) (.symbol c) s
  refine ⟨e, t, ?_, he, hst⟩
  simp only [symbol, exec_bind, exec_eatSymbol, hno]
  exact hr

theorem reads_eatSymbol_true (c : Symbol) (h : s.Ahead (.symbol c :: toks)) :
    Reads (eatSymbol c) s true (s.cursor + 1) :=
  ⟨s.stepped, by simp [exec_eatSymbol, h.current.2, isSymbol], ParseState.sameFrame_stepped s,
    h.stepped.2⟩

theorem reads_eatSymbol_false (c : Symbol) (h : s.current.token ≠ .symbol c) :
    Reads (eatSymbol c) s false s.cursor := by
  have hno := isSymbol_eq_false h
  exact ⟨s, by simp [exec_eatSymbol, hno], .refl s, rfl⟩

theorem reads_keyword (k : Keyword) (h : s.Ahead (.keyword k :: toks)) :
    Reads (keyword k) s () (s.cursor + 1) := by
  refine ⟨s.stepped, ?_, ParseState.sameFrame_stepped s, h.stepped.2⟩
  simp [keyword, eatKeyword, exec_bind, exec_peek, h.current.2, isKeyword]

theorem fails_keyword (k : Keyword) (h : s.current.token ≠ .keyword k) : Fails (keyword k) s := by
  have hno := isKeyword_eq_false h
  obtain ⟨e, t, hr, he, hst⟩ := fails_fail (α := Unit) (.keyword k) s
  refine ⟨e, t, ?_, he, hst⟩
  simp only [keyword, exec_bind, exec_eatKeyword, hno]
  exact hr

theorem reads_binOp (op : BinOp) (h : s.Ahead (op.token :: toks)) : Reads binOp s op (s.cursor + 1) := by
  refine ⟨s.stepped, ?_, ParseState.sameFrame_stepped s, h.stepped.2⟩
  simp only [binOp, exec_bind, exec_peek, h.current.2]
  cases op <;> rfl

theorem fails_binOp (h : ∀ op : BinOp, s.current.token ≠ op.token) : Fails binOp s := by
  obtain ⟨e, t, hr, he, hst⟩ := fails_fail (α := BinOp) .binaryOperator s
  refine ⟨e, t, ?_, he, hst⟩
  simp only [binOp, exec_bind, exec_peek]
  split
  · next op hop =>
    exfalso
    generalize s.current.token = tok at hop h
    cases tok with
    | keyword k => cases k <;> simp at hop <;> exact h op (by subst hop; rfl)
    | symbol c => cases c <;> simp at hop <;> exact h op (by subst hop; rfl)
    | _ => simp at hop
  · exact hr

theorem reads_unOp (op : UnOp) (h : s.Ahead (op.token :: toks)) : Reads unOp s op (s.cursor + 1) := by
  refine ⟨s.stepped, ?_, ParseState.sameFrame_stepped s, h.stepped.2⟩
  simp only [unOp, exec_bind, exec_peek, h.current.2]
  cases op <;> rfl

theorem fails_unOp (h : ∀ op : UnOp, s.current.token ≠ op.token) : Fails unOp s := by
  obtain ⟨e, t, hr, he, hst⟩ := fails_fail (α := UnOp) .unaryOperator s
  refine ⟨e, t, ?_, he, hst⟩
  simp only [unOp, exec_bind, exec_peek]
  split
  · next op hop =>
    exfalso
    generalize s.current.token = tok at hop h
    cases tok with
    | keyword k =>
      cases k <;> simp at hop
      exact h op (by subst hop; rfl)
    | symbol c => cases c <;> simp at hop <;> exact h op (by subst hop; rfl)
    | _ => simp at hop
  · exact hr

theorem reads_constant (c : Const) (h : s.Ahead (c.token :: toks)) : Reads constant s c (s.cursor + 1) := by
  refine ⟨s.stepped, ?_, ParseState.sameFrame_stepped s, h.stepped.2⟩
  simp only [constant, exec_bind, exec_peek, h.current.2]
  cases c with
  | boolean b => cases b <;> rfl
  | _ => rfl

theorem fails_constant (h : ∀ c : Const, s.current.token ≠ c.token) : Fails constant s := by
  obtain ⟨e, t, hr, he, hst⟩ := fails_fail (α := Const) .constant s
  refine ⟨e, t, ?_, he, hst⟩
  simp only [constant, exec_bind, exec_peek]
  split
  · next c hc =>
    exfalso
    generalize s.current.token = tok at hc h
    cases tok with
    | keyword k => cases k <;> simp at hc <;> exact h c (by subst hc; rfl)
    | symbol => simp at hc
    | newline => simp at hc
    | eof => simp at hc
    | ident => simp at hc
    | _ => simp at hc; exact h c (by subst hc; rfl)
  · exact hr

theorem varRef_empty {s : ParseState} (hs : s.scope = {}) (name : String) :
    s.varRef name = s.tables.resolveVar name := by
  simp [ParseState.varRef, hs]

theorem reads_checkDepth {depth : Nat} (h : depth < s.maxDepth) :
    Reads (checkDepth depth) s () s.cursor :=
  ⟨s, by rw [exec_checkDepth, if_neg (by omega)], .refl s, rfl⟩

theorem skipped_at_token {tok : Token} (h : s.Ahead (tok :: toks)) (hn : tok ≠ .newline) :
    s.skipped = s.moveTo s.cursor := by
  obtain ⟨hlt, hcur⟩ := h.current
  have hget : s.tokens[s.cursor].token = tok := by
    rw [← hcur, ParseState.current, Nat.min_eq_left (by omega), Array.getD_eq_getD_getElem?,
      Array.getElem?_eq_getElem hlt, Option.getD_some]
  rw [ParseState.skipped, skipLineBreaks, dif_pos hlt]
  split
  · next heq => exact absurd (hget ▸ heq) hn
  · rfl

theorem reads_endOfInput (h : s.Ahead [.eof]) : Reads endOfInput s () s.cursor := by
  have hskip := skipped_at_token h (by simp)
  have hcur : s.skipped.current.token = .eof := by
    rw [hskip]
    exact h.current.2
  refine ⟨s.skipped, ?_, ⟨rfl, rfl, rfl, rfl⟩, by rw [hskip]; rfl⟩
  simp only [endOfInput, exec_bind, exec_skipNewlines, exec_peek, hcur]
  rfl

theorem fails_endOfInput {tok : Token} (h : s.Ahead (tok :: toks)) (he : tok ≠ .eof)
    (hn : tok ≠ .newline) : Fails endOfInput s := by
  have hskip := skipped_at_token h hn
  have hcur : s.skipped.current.token = tok := by
    rw [hskip]
    exact h.current.2
  obtain ⟨e, t, hr, hsyn, hst⟩ := fails_fail (α := Unit) .endOfFile s.skipped
  refine ⟨e, t, ?_, hsyn, (⟨rfl, rfl, rfl, rfl⟩ : s.SameFrame s.skipped).trans hst⟩
  simp only [endOfInput, exec_bind, exec_skipNewlines, exec_peek, hcur]
  exact hr
end

/-! ## Trees the rules can give back -/

theorem Expr.mem_listRefs {es : List Expr} {e : Expr} (he : e ∈ es) {x : AnyRef}
    (hx : x ∈ e.refs) : x ∈ Expr.listRefs es := by
  induction es with
  | nil => cases he
  | cons f fs ih =>
    rw [Expr.listRefs_cons, List.mem_append]
    rcases List.mem_cons.1 he with rfl | he
    · exact .inl hx
    · exact .inr (ih he)

/-- A tree the expression rules produce outside functions: its operators nest to the right and
each of its references is what its name stands for with no parameter or local in view. -/
structure Expr.Rereadable (ts : Tables) (e : Expr) : Prop where
  nests : e.nestsRight = true
  resolved : ∀ r ∈ e.refs, r.ResolvedOutside ts

namespace Expr.Rereadable

variable {ts : Tables}

theorem binary {l r : Expr} {op : BinOp} (h : (Expr.binary l op r).Rereadable ts) :
    l.Rereadable ts ∧ r.Rereadable ts ∧ l.isBinary = false ∧ l.isUnary = false := by
  obtain ⟨hn, hr⟩ := h
  simp only [Expr.nestsRight, Bool.and_eq_true, Bool.not_eq_true'] at hn
  simp only [Expr.refs, List.mem_append] at hr
  exact ⟨⟨hn.1.2, fun x hx => hr x (.inl hx)⟩, ⟨hn.2, fun x hx => hr x (.inr hx)⟩, hn.1.1.1,
    hn.1.1.2⟩

theorem unary {op : UnOp} {e : Expr} (h : (Expr.unary op e).Rereadable ts) : e.Rereadable ts :=
  ⟨h.nests, h.resolved⟩

theorem paren {e : Expr} (h : (Expr.paren e).Rereadable ts) : e.Rereadable ts :=
  ⟨h.nests, h.resolved⟩

theorem element {v : Ref VarId} {i : Expr} (h : (Expr.element v i).Rereadable ts) :
    i.Rereadable ts ∧ (AnyRef.var v).ResolvedOutside ts :=
  ⟨⟨h.nests, fun x hx => h.resolved x (List.mem_cons_of_mem _ hx)⟩,
    h.resolved _ List.mem_cons_self⟩

theorem call {fn : Ref FunId} {args : List Expr} (h : (Expr.call fn args).Rereadable ts) :
    (∀ e ∈ args, e.Rereadable ts) ∧ (AnyRef.fn fn).ResolvedOutside ts :=
  ⟨fun e he => ⟨Expr.allNestRight_iff.1 h.nests e he,
      fun x hx => h.resolved x (List.mem_cons_of_mem _ (Expr.mem_listRefs he hx))⟩,
    h.resolved _ List.mem_cons_self⟩

theorem var {v : Ref VarId} (h : (Expr.var v).Rereadable ts) : (AnyRef.var v).ResolvedOutside ts :=
  h.resolved _ List.mem_cons_self

theorem funRef {fn : Ref FunId} (h : (Expr.funRef fn).Rereadable ts) :
    (AnyRef.fn fn).ResolvedOutside ts :=
  h.resolved _ List.mem_cons_self

end Expr.Rereadable

theorem AnyRef.resolveVar_of_outside {ts : Tables} {v : Ref VarId}
    (h : (AnyRef.var v).ResolvedOutside ts) : ts.resolveVar (ts.varRefName v) = v := by
  rw [← Tables.varIn_self ts ts.vars.size]
  exact h.symm

theorem AnyRef.resolveFun_of_outside {ts : Tables} {fn : Ref FunId}
    (h : (AnyRef.fn fn).ResolvedOutside ts) : ts.resolveFun (ts.funRefName fn) = fn :=
  h.symm

/-! ## The rules that read a leaf, and the alternatives that give up -/

theorem UnOp.token_ne_ident (op : UnOp) (n : String) : op.token ≠ .ident n := by
  cases op <;> simp [UnOp.token]

theorem UnOp.token_ne_function (op : UnOp) : op.token ≠ .keyword .kwFunction := by
  cases op <;> simp [UnOp.token]

theorem UnOp.token_ne_lParen (op : UnOp) : op.token ≠ .symbol .lParen := by
  cases op <;> simp [UnOp.token]

theorem Const.token_ne_ident (c : Const) (n : String) : c.token ≠ .ident n := by
  cases c <;> simp [Const.token]

theorem Const.token_ne_function (c : Const) : c.token ≠ .keyword .kwFunction := by
  cases c with
  | boolean b => cases b <;> simp [Const.token]
  | _ => simp [Const.token]

theorem Const.token_ne_lParen (c : Const) : c.token ≠ .symbol .lParen := by
  cases c <;> simp [Const.token]

section

variable {s : ParseState} {ts : Tables} {m : Nat} {tok : Token} {toks : List Token}

theorem reads_resolveVar {v : Ref VarId} (ho : s.Outside ts m)
    (hv : (AnyRef.var v).ResolvedOutside ts) : Reads (resolveVar (ts.varRefName v)) s v s.cursor :=
  ⟨s, by rw [exec_resolveVar, varRef_empty ho.scope, ho.tables, AnyRef.resolveVar_of_outside hv], .refl s,
    rfl⟩

theorem reads_resolveFun {fn : Ref FunId} (ho : s.Outside ts m)
    (hf : (AnyRef.fn fn).ResolvedOutside ts) : Reads (resolveFun (ts.funRefName fn)) s fn s.cursor :=
  ⟨s, by rw [exec_resolveFun, ho.tables, AnyRef.resolveFun_of_outside hf], .refl s, rfl⟩

theorem reads_funRef {fn : Ref FunId} (ho : s.Outside ts m) (hf : (AnyRef.fn fn).ResolvedOutside ts)
    (h : s.Ahead (.keyword .kwFunction :: .ident (ts.funRefName fn) :: toks)) :
    Reads funRef s (.funRef fn) (s.cursor + 2) := by
  unfold funRef
  refine (reads_keyword _ h).bind fun t₁ h₁ c₁ => ?_
  refine (reads_ident _ (h.next h₁ c₁)).bind fun t₂ h₂ c₂ => ?_
  refine (reads_resolveFun ((ho.frame h₁).frame h₂) hf).bind fun t₃ _ c₃ => ?_
  exact (reads_pure t₃ _).eq (by omega)

theorem reads_varRef {v : Ref VarId} (ho : s.Outside ts m) (hv : (AnyRef.var v).ResolvedOutside ts)
    (h : s.Ahead (.ident (ts.varRefName v) :: toks)) : Reads varRef s (.var v) (s.cursor + 1) := by
  unfold varRef
  refine (reads_ident _ h).bind fun t₁ h₁ c₁ => ?_
  refine (reads_resolveVar (ho.frame h₁) hv).bind fun t₂ _ c₂ => ?_
  exact (reads_pure t₂ _).eq (by omega)

theorem reads_constExpr (c : Const) (h : s.Ahead (c.token :: toks)) :
    Reads (Expr.const <$> constant) s (.const c) (s.cursor + 1) :=
  (reads_constant c h).map _

theorem fails_funRef (h : s.Ahead (tok :: toks)) (ht : tok ≠ .keyword .kwFunction) :
    Fails funRef s := by
  unfold funRef
  exact (fails_keyword _ (by rw [h.current.2]; exact ht)).bind

theorem fails_constExpr (h : s.Ahead (tok :: toks)) (ht : ∀ c : Const, tok ≠ c.token) :
    Fails (Expr.const <$> constant) s :=
  (fails_constant (by rw [h.current.2]; exact ht)).map _

theorem fails_varRef (h : s.Ahead (tok :: toks)) (ht : ∀ n, tok ≠ .ident n) : Fails varRef s := by
  unfold varRef
  exact (fails_ident _ (by rw [h.current.2]; exact ht)).bind

variable {fuel depth : Nat}

theorem fails_binaryTail (h : s.Ahead (tok :: toks)) (ht : ∀ op : BinOp, tok ≠ op.token) :
    Fails (binaryTail (fuel + 1) depth) s := by
  rw [Parse.binaryTail]
  exact (fails_binOp (by rw [h.current.2]; exact ht)).bind

theorem fails_unary (h : s.Ahead (tok :: toks)) (ht : ∀ op : UnOp, tok ≠ op.token) :
    Fails (unary (fuel + 1) depth) s := by
  rw [Parse.unary]
  exact (fails_unOp (by rw [h.current.2]; exact ht)).bind

theorem fails_funCall_ident (h : s.Ahead (tok :: toks)) (ht : ∀ n, tok ≠ .ident n) :
    Fails (funCall (fuel + 1) depth) s := by
  rw [Parse.funCall]
  exact (fails_ident _ (by rw [h.current.2]; exact ht)).bind

theorem fails_funCall_paren {n : String} (h : s.Ahead (.ident n :: tok :: toks))
    (ht : tok ≠ .symbol .lParen) : Fails (funCall (fuel + 1) depth) s := by
  rw [Parse.funCall]
  refine (reads_ident _ h).bind_fails fun t₁ h₁ c₁ => ?_
  exact (fails_symbol _ (by rw [(h.next h₁ c₁).current.2]; exact ht)).bind

theorem fails_callExpr (h : Fails (funCall fuel depth) s) : Fails (callExpr (fuel + 1) depth) s := by
  rw [Parse.callExpr]
  exact h.bind

theorem fails_element_ident (h : s.Ahead (tok :: toks)) (ht : ∀ n, tok ≠ .ident n) :
    Fails (element (fuel + 1) depth) s := by
  rw [Parse.element]
  exact (fails_ident _ (by rw [h.current.2]; exact ht)).bind

theorem fails_element_bracket {n : String} (h : s.Ahead (.ident n :: tok :: toks))
    (ht : tok ≠ .symbol .lBracket) : Fails (element (fuel + 1) depth) s := by
  rw [Parse.element]
  refine (reads_ident _ h).bind_fails fun t₁ h₁ c₁ => ?_
  exact (fails_symbol _ (by rw [(h.next h₁ c₁).current.2]; exact ht)).bind

end

/-! ## Every rule reads its own trees back -/

theorem Expr.height_binary (l : Expr) (op : BinOp) (r : Expr) :
    l.height ≤ (Expr.binary l op r).height ∧ r.height + 1 ≤ (Expr.binary l op r).height :=
  ⟨le_max_left _ _, le_max_right _ _⟩

theorem Expr.height_cons (e : Expr) (es : List Expr) :
    e.height ≤ Expr.listHeight (e :: es) ∧ Expr.listHeight es ≤ Expr.listHeight (e :: es) :=
  ⟨le_max_left _ _, le_max_right _ _⟩

theorem Expr.height_binary_le {l r : Expr} {op : BinOp} {d m : Nat} (hl : d + l.height ≤ m)
    (hr : d + (r.height + 1) ≤ m) : d + (Expr.binary l op r).height ≤ m := by
  change d + max l.height (r.height + 1) ≤ m
  rcases le_total l.height (r.height + 1) with h | h
  · rw [max_eq_right h]
    exact hr
  · rw [max_eq_left h]
    exact hl

theorem Expr.listHeight_cons_le {e : Expr} {es : List Expr} {d m : Nat} (he : d + e.height ≤ m)
    (hes : d + Expr.listHeight es ≤ m) : d + Expr.listHeight (e :: es) ≤ m := by
  change d + max e.height (Expr.listHeight es) ≤ m
  rcases le_total e.height (Expr.listHeight es) with h | h
  · rw [max_eq_right h]
    exact hes
  · rw [max_eq_left h]
    exact he

theorem Expr.listTokens_cons_cons (ts : Tables) (e f : Expr) (fs : List Expr) :
    Expr.listTokens ts (e :: f :: fs) = e.tokens ts ++ .symbol .comma :: Expr.listTokens ts (f :: fs) :=
  rfl

theorem Expr.listTokens_head (ts : Tables) (e : Expr) (es : List Expr) :
    ∃ t rest, Expr.listTokens ts (e :: es) = t :: rest ∧ t ≠ .symbol .rParen := by
  obtain ⟨t, rest, h, ht⟩ := e.tokens_head ts
  cases es with
  | nil => exact ⟨t, rest, h, ht⟩
  | cons f fs => exact ⟨t, _, by rw [Expr.listTokens_cons_cons, h, List.cons_append], ht⟩

/-- At step budget `fuel`, each expression rule, run outside functions with the depth bound `m`
on the tokens of a tree it can produce, reads exactly those tokens and gives the tree back. The
token after them must end the tree there (`Token.Closes`, or less after an operand), and the
budget and the bound must cover the tree's tokens and height. -/
structure RereadRules (ts : Tables) (m fuel : Nat) : Prop where
  expr : ∀ {depth : Nat} {e : Expr} {closer : Token} {s : ParseState}, s.Outside ts m →
    e.Rereadable ts → closer.Closes → s.Ahead (e.tokens ts ++ [closer]) → depth + e.height ≤ m →
    4 * (e.tokens ts).length + 4 ≤ fuel →
    Reads (expr fuel depth) s e (s.cursor + (e.tokens ts).length)
  binaryTail : ∀ {depth : Nat} {op : BinOp} {r : Expr} {closer : Token} {s : ParseState},
    s.Outside ts m → r.Rereadable ts → closer.Closes →
    s.Ahead (op.token :: r.tokens ts ++ [closer]) → depth + r.height ≤ m →
    4 * (r.tokens ts).length + 5 ≤ fuel →
    Reads (binaryTail fuel depth) s (op, r) (s.cursor + (r.tokens ts).length + 1)
  operand : ∀ {depth : Nat} {e : Expr} {closer : Token} {s : ParseState}, s.Outside ts m →
    e.Rereadable ts → e.isBinary = false → closer.NotOpener → (e.isUnary = true → closer.Closes) →
    s.Ahead (e.tokens ts ++ [closer]) → depth + e.height ≤ m + 1 →
    4 * (e.tokens ts).length + 3 ≤ fuel →
    Reads (operand fuel depth) s e (s.cursor + (e.tokens ts).length)
  unary : ∀ {depth : Nat} {op : UnOp} {e : Expr} {closer : Token} {s : ParseState},
    s.Outside ts m → e.Rereadable ts → closer.Closes →
    s.Ahead (op.token :: e.tokens ts ++ [closer]) → depth + e.height ≤ m →
    4 * (e.tokens ts).length + 5 ≤ fuel →
    Reads (unary fuel depth) s (.unary op e) (s.cursor + (e.tokens ts).length + 1)
  callExpr : ∀ {depth : Nat} {fn : Ref FunId} {args : List Expr} {s : ParseState},
    s.Outside ts m → (Expr.call fn args).Rereadable ts → s.Ahead ((Expr.call fn args).tokens ts) →
    depth + Expr.listHeight args ≤ m → 4 * (Expr.listTokens ts args).length + 7 ≤ fuel →
    Reads (callExpr fuel depth) s (.call fn args) (s.cursor + (Expr.listTokens ts args).length + 3)
  funCall : ∀ {depth : Nat} {fn : Ref FunId} {args : List Expr} {s : ParseState},
    s.Outside ts m → (Expr.call fn args).Rereadable ts → s.Ahead ((Expr.call fn args).tokens ts) →
    depth + Expr.listHeight args ≤ m → 4 * (Expr.listTokens ts args).length + 6 ≤ fuel →
    Reads (funCall fuel depth) s (fn, args) (s.cursor + (Expr.listTokens ts args).length + 3)
  argList : ∀ {depth : Nat} {es : List Expr} {closer : Token} {s : ParseState},
    s.Outside ts m → es ≠ [] → (∀ e ∈ es, e.Rereadable ts) → closer.Closes →
    closer ≠ .symbol .comma → s.Ahead (Expr.listTokens ts es ++ [closer]) →
    depth + Expr.listHeight es ≤ m → 4 * (Expr.listTokens ts es).length + 5 ≤ fuel →
    Reads (argList fuel depth) s es (s.cursor + (Expr.listTokens ts es).length)
  element : ∀ {depth : Nat} {v : Ref VarId} {i : Expr} {s : ParseState},
    s.Outside ts m → (Expr.element v i).Rereadable ts → s.Ahead ((Expr.element v i).tokens ts) →
    depth + i.height ≤ m → 4 * (i.tokens ts).length + 5 ≤ fuel →
    Reads (element fuel depth) s (.element v i) (s.cursor + (i.tokens ts).length + 3)
  paren : ∀ {depth : Nat} {e : Expr} {s : ParseState},
    s.Outside ts m → e.Rereadable ts → s.Ahead ((Expr.paren e).tokens ts) →
    depth + e.height ≤ m → 4 * (e.tokens ts).length + 5 ≤ fuel →
    Reads (paren fuel depth) s (.paren e) (s.cursor + (e.tokens ts).length + 2)

theorem RereadRules.zero (ts : Tables) (m : Nat) : RereadRules ts m 0 where
  expr := by intros; omega
  binaryTail := by intros; omega
  operand := by intros; omega
  unary := by intros; omega
  callExpr := by intros; omega
  funCall := by intros; omega
  argList := by intros; omega
  element := by intros; omega
  paren := by intros; omega

theorem RereadRules.succ {ts : Tables} {m fuel : Nat} (ih : RereadRules ts m fuel) :
    RereadRules ts m (fuel + 1) where
  expr {depth e closer s} ho hr hcl ha hd hf := by
    obtain ⟨g, rfl⟩ : ∃ g, fuel = g + 1 := ⟨fuel - 1, by omega⟩
    rw [Parse.expr]
    have hh := e.one_le_height
    refine (reads_checkDepth (by rw [ho.maxDepth]; omega)).bind fun t₀ h₀ c₀ => ?_
    have ho₀ := ho.frame h₀
    have ha₀ := ha.congr h₀ c₀
    cases hb : e.isBinary
    · -- an operand alone: the closer is no binary operator, so no tail is read after it
      refine (ih.operand ho₀ hr hb hcl.1 (fun _ => hcl) ha₀ (by omega) (by omega)).bind
        fun t₁ h₁ c₁ => ?_
      refine (fails_binaryTail (ha₀.after h₁ c₁) hcl.2).attempt.bind fun t₂ _ c₂ => ?_
      exact (reads_pure t₂ e).eq (by omega)
    · cases e with
      | binary l op r =>
        -- the left operand is closed by the operator, the tail by the closer
        obtain ⟨hl, hr', hlb, hlu⟩ := hr.binary
        have hlr := Expr.height_binary l op r
        simp only [Expr.tokens, List.length_append, List.length_cons, List.append_assoc,
          List.cons_append] at ha₀ hf ⊢
        refine (ih.operand ho₀ hl hlb (BinOp.token_notOpener op)
          (fun h => absurd (hlu.symm.trans h) Bool.false_ne_true)
          (ha₀.mono ⟨r.tokens ts ++ [closer], by simp⟩) (by omega) (by omega)).bind
          fun t₁ h₁ c₁ => ?_
        refine (ih.binaryTail (ho₀.frame h₁) hr' hcl (ha₀.after h₁ c₁) (by omega)
          (by omega)).attempt.bind fun t₂ _ c₂ => ?_
        exact (reads_pure t₂ _).eq (by omega)
      | _ => exact absurd hb (by simp [Expr.isBinary])
  binaryTail {depth op r closer s} ho hr hcl ha hd hf := by
    rw [Parse.binaryTail]
    refine (reads_binOp op ha).bind fun t₁ h₁ c₁ => ?_
    refine (ih.expr (ho.frame h₁) hr hcl (ha.next h₁ c₁) hd (by omega)).bind fun t₂ _ c₂ => ?_
    exact (reads_pure t₂ _).eq (by omega)
  operand {depth e closer s} ho hr hb hno hu ha hd hf := by
    have hlen := List.length_pos_of_ne_nil (Expr.tokens_ne_nil ts e)
    obtain ⟨g, rfl⟩ : ∃ g, fuel = g + 1 + 1 := ⟨fuel - 2, by omega⟩
    rw [Parse.operand]
    -- the alternatives before the tree's own give up on its first token, or on the token after
    -- a name
    have ha' := ha
    cases e <;> simp only [Expr.tokens, List.cons_append, List.nil_append] at ha'
    case binary => exact absurd hb (by simp [Expr.isBinary])
    case unary op e =>
      simp only [Expr.tokens, Expr.height, List.length_cons] at hd hf ⊢
      exact reads_firstOf_head
        ((ih.unary ho hr.unary (hu rfl) ha' (by omega) (by omega)).eq (by omega))
    case call fn args =>
      refine reads_firstOf_skip (fun t ht => fails_unary (ha'.samePlace ht)
        fun op => (UnOp.token_ne_ident op _).symm) ?_ s (.refl s)
      intro t ht
      simp only [Expr.tokens, Expr.height, List.length_cons, List.length_append,
        List.length_nil] at hd hf ⊢
      exact reads_firstOf_head ((ih.callExpr (ho.frame ht.1) hr (ha.of_append.samePlace ht) (by omega)
        (by omega)).eq (by rw [ht.2]; omega))
    case element v i =>
      refine reads_firstOf_skip (fun t ht => fails_unary (ha'.samePlace ht)
        fun op => (UnOp.token_ne_ident op _).symm) ?_ s (.refl s)
      refine reads_firstOf_skip (fun t ht => fails_callExpr
        (fails_funCall_paren (ha'.samePlace ht) (by simp))) ?_
      intro t ht
      simp only [Expr.tokens, Expr.height, List.length_cons, List.length_append,
        List.length_nil] at hd hf ⊢
      exact reads_firstOf_head ((ih.element (ho.frame ht.1) hr (ha.of_append.samePlace ht) (by omega)
        (by omega)).eq (by rw [ht.2]; omega))
    case funRef fn =>
      refine reads_firstOf_skip (fun t ht => fails_unary (ha'.samePlace ht)
        fun op => (UnOp.token_ne_function op).symm) ?_ s (.refl s)
      refine reads_firstOf_skip (fun t ht => fails_callExpr
        (fails_funCall_ident (ha'.samePlace ht) (by simp))) ?_
      refine reads_firstOf_skip (fun t ht => fails_element_ident (ha'.samePlace ht) (by simp)) ?_
      intro t ht
      exact reads_firstOf_head ((reads_funRef (ho.frame ht.1) hr.funRef (ha'.samePlace ht)).eq
        (by rw [ht.2]; rfl))
    case const c =>
      refine reads_firstOf_skip (fun t ht => fails_unary (ha'.samePlace ht)
        (Const.token_ne_unOp c)) ?_ s (.refl s)
      refine reads_firstOf_skip (fun t ht => fails_callExpr
        (fails_funCall_ident (ha'.samePlace ht) (Const.token_ne_ident c))) ?_
      refine reads_firstOf_skip (fun t ht => fails_element_ident (ha'.samePlace ht)
        (Const.token_ne_ident c)) ?_
      refine reads_firstOf_skip (fun t ht => fails_funRef (ha'.samePlace ht)
        (Const.token_ne_function c)) ?_
      intro t ht
      exact reads_firstOf_head ((reads_constExpr c (ha'.samePlace ht)).eq (by rw [ht.2]; rfl))
    case var v =>
      -- a name followed by the closer: neither a call nor an array element
      refine reads_firstOf_skip (fun t ht => fails_unary (ha'.samePlace ht)
        fun op => (UnOp.token_ne_ident op _).symm) ?_ s (.refl s)
      refine reads_firstOf_skip (fun t ht => fails_callExpr
        (fails_funCall_paren (ha'.samePlace ht) hno.1)) ?_
      refine reads_firstOf_skip (fun t ht => fails_element_bracket (ha'.samePlace ht) hno.2) ?_
      refine reads_firstOf_skip (fun t ht => fails_funRef (ha'.samePlace ht) (by simp)) ?_
      refine reads_firstOf_skip (fun t ht => fails_constExpr (ha'.samePlace ht)
        fun c => (Const.token_ne_ident c _).symm) ?_
      intro t ht
      exact reads_firstOf_head ((reads_varRef (ho.frame ht.1) hr.var (ha'.samePlace ht)).eq
        (by rw [ht.2]; rfl))
    case paren e =>
      refine reads_firstOf_skip (fun t ht => fails_unary (ha'.samePlace ht)
        fun op => (UnOp.token_ne_lParen op).symm) ?_ s (.refl s)
      refine reads_firstOf_skip (fun t ht => fails_callExpr
        (fails_funCall_ident (ha'.samePlace ht) (by simp))) ?_
      refine reads_firstOf_skip (fun t ht => fails_element_ident (ha'.samePlace ht) (by simp)) ?_
      refine reads_firstOf_skip (fun t ht => fails_funRef (ha'.samePlace ht) (by simp)) ?_
      refine reads_firstOf_skip (fun t ht => fails_constExpr (ha'.samePlace ht)
        fun c => (Const.token_ne_lParen c).symm) ?_
      refine reads_firstOf_skip (fun t ht => fails_varRef (ha'.samePlace ht) (by simp)) ?_
      intro t ht
      simp only [Expr.tokens, Expr.height, List.length_cons, List.length_append,
        List.length_nil] at hd hf ⊢
      exact reads_firstOf_head ((ih.paren (ho.frame ht.1) hr.paren (ha.of_append.samePlace ht)
        (by omega) (by omega)).eq (by rw [ht.2]; omega))
  unary {depth op e closer s} ho hr hcl ha hd hf := by
    rw [Parse.unary]
    refine (reads_unOp op ha).bind fun t₁ h₁ c₁ => ?_
    refine (ih.expr (ho.frame h₁) hr hcl (ha.next h₁ c₁) hd (by omega)).bind fun t₂ _ c₂ => ?_
    exact (reads_pure t₂ _).eq (by omega)
  callExpr {depth fn args s} ho hr ha hd hf := by
    rw [Parse.callExpr]
    refine (ih.funCall ho hr ha hd (by omega)).bind fun t₁ _ c₁ => ?_
    exact (reads_pure t₁ _).eq c₁
  funCall {depth fn args s} ho hr ha hd hf := by
    rw [Parse.funCall]
    obtain ⟨hargs, hfn⟩ := hr.call
    refine (reads_ident _ ha).bind fun t₁ h₁ c₁ => ?_
    have ha₁ := ha.next h₁ c₁
    refine (reads_symbol _ ha₁).bind fun t₂ h₂ c₂ => ?_
    have ha₂ := ha₁.next h₂ c₂
    have ho₂ := (ho.frame h₁).frame h₂
    cases args with
    | nil =>
      -- no arguments: the parenthesis closes at once
      refine (reads_eatSymbol_true _ ha₂).bind fun t₃ h₃ c₃ => ?_
      simp only [↓reduceIte, pure_bind]
      refine (reads_resolveFun (ho₂.frame h₃) hfn).bind fun t₄ _ c₄ => ?_
      exact (reads_pure t₄ _).eq (by simp [Expr.listTokens]; omega)
    | cons a as =>
      -- the first argument does not start with a closing parenthesis
      obtain ⟨tok, rest, hl, hne⟩ := Expr.listTokens_head ts a as
      have hcur : t₂.current.token ≠ .symbol .rParen := by
        have h : t₂.Ahead (tok :: (rest ++ [.symbol .rParen])) := by
          rw [← List.cons_append, ← hl]
          exact ha₂
        rw [h.current.2]
        exact hne
      refine (reads_eatSymbol_false _ hcur).bind fun t₃ h₃ c₃ => ?_
      simp only [Bool.false_eq_true, ↓reduceIte, pure_bind]
      have ha₃ := ha₂.congr h₃ c₃
      refine (ih.argList (ho₂.frame h₃) (List.cons_ne_nil a as) hargs (closes_of_symbol _ (.inl rfl))
        (by simp) ha₃ hd (by omega)).bind fun t₄ h₄ c₄ => ?_
      refine (reads_symbol _ (ha₃.after h₄ c₄)).bind fun t₅ h₅ c₅ => ?_
      refine (reads_resolveFun (((ho₂.frame h₃).frame h₄).frame h₅) hfn).bind fun t₆ _ c₆ => ?_
      exact (reads_pure t₆ _).eq (by omega)
  argList {depth es closer s} ho hne hes hcl hcom ha hd hf := by
    rw [Parse.argList]
    obtain ⟨e, rest, rfl⟩ := List.exists_cons_of_ne_nil hne
    have he := hes e List.mem_cons_self
    have hh := Expr.height_cons e rest
    cases rest with
    | nil =>
      -- the last argument, ended by the closer
      refine (ih.expr ho he hcl ha (by omega) (by simp only [Expr.listTokens] at hf; omega)).bind
        fun t₁ h₁ c₁ => ?_
      refine (reads_eatSymbol_false _ (by rw [(ha.after h₁ c₁).current.2]; exact hcom)).bind
        fun t₂ _ c₂ => ?_
      simp only [Bool.false_eq_true, ↓reduceIte]
      exact (reads_pure t₂ _).eq (by simp only [Expr.listTokens]; omega)
    | cons f fs =>
      -- an argument ended by a comma, then the others
      have hlen : (Expr.listTokens ts (e :: f :: fs)).length =
          (e.tokens ts).length + 1 + (Expr.listTokens ts (f :: fs)).length := by
        rw [Expr.listTokens_cons_cons]
        simp
        omega
      rw [Expr.listTokens_cons_cons, List.append_assoc, List.cons_append] at ha
      refine (ih.expr ho he (closes_of_symbol _ (.inr (.inr rfl)))
        (ha.mono ⟨Expr.listTokens ts (f :: fs) ++ [closer], by simp⟩) (by omega) (by omega)).bind
        fun t₁ h₁ c₁ => ?_
      have ha₁ := ha.after h₁ c₁
      refine (reads_eatSymbol_true _ ha₁).bind fun t₂ h₂ c₂ => ?_
      simp only [↓reduceIte]
      refine (ih.argList ((ho.frame h₁).frame h₂) (List.cons_ne_nil f fs)
        (fun x hx => hes x (List.mem_cons_of_mem e hx)) hcl hcom (ha₁.next h₂ c₂) (by omega)
        (by omega)).bind fun t₃ _ c₃ => ?_
      exact (reads_pure t₃ _).eq (by omega)
  element {depth v i s} ho hr ha hd hf := by
    rw [Parse.element]
    obtain ⟨hi, hv⟩ := hr.element
    refine (reads_ident _ ha).bind fun t₁ h₁ c₁ => ?_
    have ha₁ := ha.next h₁ c₁
    refine (reads_symbol _ ha₁).bind fun t₂ h₂ c₂ => ?_
    have ha₂ := ha₁.next h₂ c₂
    have ho₂ := (ho.frame h₁).frame h₂
    refine (ih.expr ho₂ hi (closes_of_symbol _ (.inr (.inl rfl))) ha₂ hd (by omega)).bind
      fun t₃ h₃ c₃ => ?_
    refine (reads_symbol _ (ha₂.after h₃ c₃)).bind fun t₄ h₄ c₄ => ?_
    refine (reads_resolveVar ((ho₂.frame h₃).frame h₄) hv).bind fun t₅ _ c₅ => ?_
    exact (reads_pure t₅ _).eq (by omega)
  paren {depth e s} ho hr ha hd hf := by
    rw [Parse.paren]
    refine (reads_symbol _ ha).bind fun t₁ h₁ c₁ => ?_
    have ha₁ := ha.next h₁ c₁
    refine (ih.expr (ho.frame h₁) hr (closes_of_symbol _ (.inl rfl)) ha₁ hd (by omega)).bind
      fun t₂ h₂ c₂ => ?_
    refine (reads_symbol _ (ha₁.after h₂ c₂)).bind fun t₃ _ c₃ => ?_
    exact (reads_pure t₃ _).eq (by omega)

theorem rereadRules (ts : Tables) (m : Nat) : ∀ fuel, RereadRules ts m fuel
  | 0 => .zero ts m
  | fuel + 1 => (rereadRules ts m fuel).succ

/-- Tokens that are those of a tree the rules can produce, then the end of the input, parse as
that tree, whenever the depth bound covers its height. -/
theorem parseExprTokens_of_tokens {tokens : Array Lexeme} {ts : Tables} {lim : Limits} {e : Expr}
    (htok : tokens.toList.map Lexeme.token = e.tokens ts ++ [.eof]) (hr : e.Rereadable ts)
    (hd : e.height ≤ lim.maxExprDepth) : parseExprTokens tokens ts lim = .ok e := by
  have hlen : tokens.size = (e.tokens ts).length + 1 := by
    simpa using congrArg List.length htok
  have h₀ : (ParseState.start tokens ts lim).cursor = 0 := rfl
  have ho : (ParseState.start tokens ts lim).Outside ts lim.maxExprDepth := ⟨rfl, rfl, rfl⟩
  have ha : (ParseState.start tokens ts lim).Ahead (e.tokens ts ++ [.eof]) :=
    ⟨[], by simp [ParseState.start, htok]⟩
  have hread : Reads (do
      let x ← Parse.expr (Parse.budget tokens.size) 0
      Parse.endOfInput
      return x : Parser Expr) (ParseState.start tokens ts lim) e (e.tokens ts).length := by
    refine ((rereadRules ts lim.maxExprDepth _).expr ho hr closes_eof ha (by omega)
      (by unfold budget; omega)).bind fun t ht hc => ?_
    refine (reads_endOfInput (ha.after ht hc)).bind fun u _ hu => ?_
    exact (reads_pure u e).eq (by omega)
  obtain ⟨t, hx, -, -⟩ := hread
  unfold parseExprTokens
  rw [runOn_eq, hx]

end Jass
