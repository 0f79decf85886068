import Jass.Proofs.Lex.Printable
import Jass.Proofs.Parse.Reread
/-!
# Parsed expressions print to text that parses back to them

An expression that `parseExpr` returns is built from its tokens: each name it refers to is the
text of an identifier token, resolved in the tables with no function scope, and each literal is
one of its tokens (`DrawRules`). The lexer reads identifiers and four-character codes only in a
form the printer writes back unchanged (`lex_printable`), so the printed text lexes to the
tree's own tokens (`lex_toSource`), and those parse back to the tree (`parseExprTokens_of_tokens`):
`printed_expressions_read_back`. The depth bound must be at least the first parse's and the other
bounds must exceed the printed text's size.

A real is printed as its shortest decimal, which reads back as the same value when the real is
finite (`Binary32.realReadsBack_of_finite`). A literal beyond the single-precision range, though,
reads as infinity and prints as `inf.0`, which is a name followed by another real, so the printed
text does not parse at all (`overflowing_real_does_not_read_back`). The round trip therefore holds
of the expressions whose reals are finite.
-/

namespace Jass

open Jass.Parser Parse Discipline

/-! ## Trees made of the tokens -/

namespace ParseState

variable {s t : ParseState}

def HasToken (s : ParseState) (tok : Token) : Prop := ∃ l ∈ s.tokens.toList, l.token = tok

def NamesRef (s : ParseState) : AnyRef → Prop
  | .type r => ∃ n, s.HasToken (.ident n) ∧ r = s.tables.resolveType n
  | .var v => ∃ n, s.HasToken (.ident n) ∧ v = s.varRef n
  | .fn f => ∃ n, s.HasToken (.ident n) ∧ f = s.tables.resolveFun n

/-- The references `rs` are names among the state's tokens and the constants `cs` are tokens. -/
def Draws (s : ParseState) (rs : List AnyRef) (cs : List Const) : Prop :=
  (∀ r ∈ rs, s.NamesRef r) ∧ ∀ c ∈ cs, s.HasToken c.token

theorem hasToken_current (h : s.current.token ≠ .eof) : s.HasToken s.current.token := by
  unfold current at h ⊢
  rw [Array.getD_eq_getD_getElem?] at h ⊢
  cases hg : s.tokens[min s.cursor (s.tokens.size - 1)]? with
  | none =>
    rw [hg] at h
    exact absurd rfl h
  | some l => exact ⟨l, Array.mem_toList_iff.2 (Array.mem_of_getElem? hg), rfl⟩

theorem HasToken.frame {tok : Token} (h : s.HasToken tok) (hst : s.SameFrame t) : t.HasToken tok := by
  unfold HasToken
  rw [hst.tokens]
  exact h

theorem NamesRef.frame {r : AnyRef} (h : s.NamesRef r) (hst : s.SameFrame t) : t.NamesRef r := by
  cases r with
  | type r =>
    obtain ⟨n, hn, rfl⟩ := h
    exact ⟨n, hn.frame hst, by rw [hst.tables]⟩
  | var v =>
    obtain ⟨n, hn, rfl⟩ := h
    exact ⟨n, hn.frame hst, by unfold varRef; rw [hst.scope, hst.tables]⟩
  | fn f =>
    obtain ⟨n, hn, rfl⟩ := h
    exact ⟨n, hn.frame hst, by rw [hst.tables]⟩

theorem Draws.frame {rs : List AnyRef} {cs : List Const} (h : s.Draws rs cs) (hst : s.SameFrame t) :
    t.Draws rs cs :=
  ⟨fun r hr => (h.1 r hr).frame hst, fun c hc => (h.2 c hc).frame hst⟩

theorem draws_nil (s : ParseState) : s.Draws [] [] :=
  ⟨fun _ h => absurd h List.not_mem_nil, fun _ h => absurd h List.not_mem_nil⟩

theorem Draws.append {rs rs' : List AnyRef} {cs cs' : List Const} (h : s.Draws rs cs)
    (h' : s.Draws rs' cs') : s.Draws (rs ++ rs') (cs ++ cs') := by
  refine ⟨fun r hr => ?_, fun c hc => ?_⟩
  · rcases List.mem_append.1 hr with hr | hr
    exacts [h.1 r hr, h'.1 r hr]
  · rcases List.mem_append.1 hc with hc | hc
    exacts [h.2 c hc, h'.2 c hc]

theorem Draws.cons {r : AnyRef} {rs : List AnyRef} {cs : List Const} (hr : s.NamesRef r)
    (h : s.Draws rs cs) : s.Draws (r :: rs) cs :=
  ⟨fun x hx => (List.mem_cons.1 hx).elim (fun he => he ▸ hr) (h.1 x), h.2⟩

end ParseState

/-- What the expression rule gives from `depth`: a tree made of the tokens whose height the
depth bound covers. -/
def ExprDrawn (depth : Nat) (e : Expr) (t : ParseState) : Prop :=
  t.Draws e.refs e.consts ∧ depth + e.height ≤ t.maxDepth

/-- What an operand rule gives from `depth`: a tree made of the tokens, one level higher than
the bound allows at most, as an operand is read one level below its expression. -/
def OperandDrawn (depth : Nat) (e : Expr) (t : ParseState) : Prop :=
  t.Draws e.refs e.consts ∧ (depth ≤ t.maxDepth → depth + e.height ≤ t.maxDepth + 1)

theorem ExprDrawn.frame {depth : Nat} {e : Expr} {s t : ParseState} (h : ExprDrawn depth e s)
    (hst : s.SameFrame t) : ExprDrawn depth e t :=
  ⟨h.1.frame hst, hst.maxDepth ▸ h.2⟩

/-! ## The primitives -/

theorem keeps_ident_token (rule : Rule) :
    sameFrame.Keeps (ident rule) fun n t => t.HasToken (.ident n) := by
  intro s hs
  simp only [ident, exec_bind, exec_peek]
  split
  · next n hn =>
    simp only [exec_bind, exec_advance]
    exact post_stepped hs (by simp [hn]) fun t ht =>
      (hn ▸ ParseState.hasToken_current (by simp [hn])).frame ht
  · exact post_fail hs

theorem keeps_constant_token : sameFrame.Keeps constant fun c t => t.HasToken c.token := by
  intro s hs
  simp only [constant, exec_bind, exec_peek]
  split
  · next c h =>
    have hc : s.current.token = c.token := by
      generalize s.current.token = tok at h ⊢
      cases tok with
      | keyword k => cases k <;> simp at h <;> (subst h; rfl)
      | symbol => simp at h
      | newline => simp at h
      | eof => simp at h
      | ident => simp at h
      | _ => simp at h; subst h; rfl
    simp only [exec_bind, exec_advance]
    exact post_stepped hs (by cases c <;> simp [hc, Const.token]) fun t ht =>
      (hc ▸ ParseState.hasToken_current (by cases c <;> simp [hc, Const.token])).frame ht
  · exact post_fail hs

theorem keeps_checkDepth_lt (depth : Nat) :
    sameFrame.Keeps (checkDepth depth) fun _ t => depth < t.maxDepth := by
  intro s hs
  rw [exec_checkDepth]
  split
  · exact ⟨hs, sameFrame.le_refl s, sameFrame.halt s _ hs rfl⟩
  · exact ⟨hs, sameFrame.le_refl s, by omega⟩

theorem keeps_resolveVar_eq (name : String) :
    sameFrame.Keeps (resolveVar name) fun r t => r = t.varRef name :=
  fun s hs => by rw [exec_resolveVar]; exact post_pure hs rfl

theorem keeps_resolveFun_eq (name : String) :
    sameFrame.Keeps (resolveFun name) fun r t => r = t.tables.resolveFun name :=
  fun s hs => by rw [exec_resolveFun]; exact post_pure hs rfl

section

variable {depth : Nat}

theorem keeps_funRef_drawn : sameFrame.Keeps funRef (OperandDrawn depth) := by
  intro s hs
  refine post_bind (keeps_keyword _) hs fun _ s₁ hs₁ _ _ => ?_
  refine post_bind (keeps_ident_token _) hs₁ fun name s₂ hs₂ _ hn => ?_
  refine post_bind (keeps_resolveFun_eq name) hs₂ fun r s₃ hs₃ h₂₃ hr => ?_
  exact post_pure hs₃ ⟨(ParseState.draws_nil s₃).cons ⟨name, hn.frame h₂₃, hr⟩,
    fun hd => by simp only [Expr.height]; omega⟩

theorem keeps_varRef_drawn : sameFrame.Keeps varRef (OperandDrawn depth) := by
  intro s hs
  refine post_bind (keeps_ident_token _) hs fun name s₁ hs₁ _ hn => ?_
  refine post_bind (keeps_resolveVar_eq name) hs₁ fun r s₂ hs₂ h₁₂ hr => ?_
  exact post_pure hs₂ ⟨(ParseState.draws_nil s₂).cons ⟨name, hn.frame h₁₂, hr⟩,
    fun hd => by simp only [Expr.height]; omega⟩

theorem keeps_constExpr_drawn : sameFrame.Keeps (Expr.const <$> constant) (OperandDrawn depth) :=
  fun _ hs => post_map keeps_constant_token hs fun c t hc =>
    ⟨⟨fun _ h => absurd h List.not_mem_nil, fun c' h => List.mem_singleton.1 h ▸ hc⟩,
      fun hd => by simp only [Expr.height]; omega⟩

end

/-! ## Every rule gives a tree made of its tokens -/

/-- The expression rules at step budget `fuel` give trees made of the tokens, whose height the
depth bound covers from where they were read. -/
structure DrawRules (fuel : Nat) : Prop where
  expr : ∀ depth, sameFrame.Keeps (expr fuel depth) (ExprDrawn depth)
  binaryTail : ∀ depth, sameFrame.Keeps (binaryTail fuel depth) fun p => ExprDrawn depth p.2
  operand : ∀ depth, sameFrame.Keeps (operand fuel depth) (OperandDrawn depth)
  unary : ∀ depth, sameFrame.Keeps (unary fuel depth) (OperandDrawn depth)
  callExpr : ∀ depth, sameFrame.Keeps (callExpr fuel depth) (OperandDrawn depth)
  funCall : ∀ depth, sameFrame.Keeps (funCall fuel depth) fun c t =>
    t.Draws (.fn c.1 :: Expr.listRefs c.2) (Expr.listConsts c.2) ∧
      (depth ≤ t.maxDepth → depth + Expr.listHeight c.2 ≤ t.maxDepth)
  argList : ∀ depth, sameFrame.Keeps (argList fuel depth) fun es t =>
    t.Draws (Expr.listRefs es) (Expr.listConsts es) ∧ depth + Expr.listHeight es ≤ t.maxDepth
  element : ∀ depth, sameFrame.Keeps (element fuel depth) (OperandDrawn depth)
  paren : ∀ depth, sameFrame.Keeps (paren fuel depth) (OperandDrawn depth)

theorem DrawRules.zero : DrawRules 0 where
  expr _ := by rw [Parse.expr]; exact keeps_outOfFuel
  binaryTail _ := by rw [Parse.binaryTail]; exact keeps_outOfFuel
  operand _ := by rw [Parse.operand]; exact keeps_outOfFuel
  unary _ := by rw [Parse.unary]; exact keeps_outOfFuel
  callExpr _ := by rw [Parse.callExpr]; exact keeps_outOfFuel
  funCall _ := by rw [Parse.funCall]; exact keeps_outOfFuel
  argList _ := by rw [Parse.argList]; exact keeps_outOfFuel
  element _ := by rw [Parse.element]; exact keeps_outOfFuel
  paren _ := by rw [Parse.paren]; exact keeps_outOfFuel

theorem DrawRules.succ {fuel : Nat} (ih : DrawRules fuel) : DrawRules (fuel + 1) where
  expr depth s hs := by
    rw [Parse.expr]
    refine post_bind (keeps_checkDepth_lt depth) hs fun _ s₁ hs₁ _ hd => ?_
    refine post_bind (ih.operand (depth + 1)) hs₁ fun left s₂ hs₂ h₁₂ hl => ?_
    -- the operand was read one level down, below the bound the check passed
    have hl₂ := hl.2 (by rw [h₁₂.maxDepth]; omega)
    refine post_attempt (ih.binaryTail (depth + 1)) hs₂ (fun _ t _ _ ht h₂t => ?_)
      fun tail t _ ht h₂t htail => ?_
    · exact post_pure ht ⟨hl.1.frame h₂t, by rw [h₂t.maxDepth]; omega⟩
    · obtain ⟨op, right⟩ := tail
      have hr : depth + 1 + right.height ≤ s₂.maxDepth := h₂t.maxDepth ▸ htail.2
      refine post_pure ht ⟨(hl.1.frame h₂t).append htail.1, ?_⟩
      rw [h₂t.maxDepth]
      exact Expr.height_binary_le (by omega) (by omega)
  binaryTail depth s hs := by
    rw [Parse.binaryTail]
    refine post_bind keeps_binOp hs fun op s₁ hs₁ _ _ => ?_
    refine post_bind (ih.expr depth) hs₁ fun e s₂ hs₂ _ he => ?_
    exact post_pure hs₂ he
  operand depth := by
    rw [Parse.operand]
    refine keeps_firstOf _ ?_
    simp only [List.mem_cons, List.not_mem_nil, or_false]
    rintro p (rfl | rfl | rfl | rfl | rfl | rfl | rfl)
    · exact ih.unary depth
    · exact ih.callExpr depth
    · exact ih.element depth
    · exact keeps_funRef_drawn
    · exact keeps_constExpr_drawn
    · exact keeps_varRef_drawn
    · exact ih.paren depth
  unary depth s hs := by
    rw [Parse.unary]
    refine post_bind keeps_unOp hs fun op s₁ hs₁ _ _ => ?_
    refine post_bind (ih.expr depth) hs₁ fun e s₂ hs₂ _ he => ?_
    exact post_pure hs₂ ⟨he.1, fun _ => by simp only [Expr.height]; have := he.2; omega⟩
  callExpr depth s hs := by
    rw [Parse.callExpr]
    refine post_bind (ih.funCall depth) hs fun c s₁ hs₁ _ hc => ?_
    obtain ⟨fn, args⟩ := c
    exact post_pure hs₁ ⟨hc.1, fun hd => by
      have h := hc.2 hd
      dsimp only at h
      simp only [Expr.height]
      omega⟩
  funCall depth s hs := by
    rw [Parse.funCall]
    refine post_bind (keeps_ident_token _) hs fun name s₁ hs₁ _ hname => ?_
    refine post_bind (keeps_symbol _) hs₁ fun _ s₂ hs₂ h₁₂ _ => ?_
    refine post_bind (keeps_eatSymbol _) hs₂ fun b s₃ hs₃ h₂₃ _ => ?_
    -- both branches end by resolving the name, after the arguments
    have last : ∀ args t, s₁.SameFrame t → t.Draws (Expr.listRefs args) (Expr.listConsts args) →
        (depth ≤ t.maxDepth → depth + Expr.listHeight args ≤ t.maxDepth) →
        sameFrame.Post (fun c t => t.Draws (.fn c.1 :: Expr.listRefs c.2) (Expr.listConsts c.2) ∧
          (depth ≤ t.maxDepth → depth + Expr.listHeight c.2 ≤ t.maxDepth)) t
          ((resolveFun name >>= fun r => pure (r, args)).exec t) := fun args t h₁t ha hh =>
      post_bind (keeps_resolveFun_eq name) trivial fun r t' ht' htt' hr =>
        post_pure ht' ⟨(ha.frame htt').cons ⟨name, hname.frame (h₁t.trans htt'), hr⟩,
          htt'.maxDepth ▸ hh⟩
    cases b <;> simp only [pure_bind, Bool.false_eq_true, ↓reduceIte]
    · refine post_bind (ih.argList depth) hs₃ fun args s₄ hs₄ h₃₄ ha => ?_
      refine post_bind (keeps_symbol _) hs₄ fun _ s₅ hs₅ h₄₅ _ => ?_
      exact last args s₅ (((h₁₂.trans h₂₃).trans h₃₄).trans h₄₅) (ha.1.frame h₄₅)
        fun _ => h₄₅.maxDepth ▸ ha.2
    · exact last [] s₃ (h₁₂.trans h₂₃) (ParseState.draws_nil s₃) fun hd => by
        simp only [Expr.listHeight]
        omega
  argList depth s hs := by
    rw [Parse.argList]
    refine post_bind (ih.expr depth) hs fun e s₁ hs₁ _ he => ?_
    refine post_bind (keeps_eatSymbol _) hs₁ fun b s₂ hs₂ h₁₂ _ => ?_
    have he₂ := he.frame h₁₂
    cases b
    · -- the last argument
      refine post_pure hs₂ ⟨?_, ?_⟩
      · simpa [Expr.listConsts] using he₂.1
      · exact Expr.listHeight_cons_le he₂.2 (by simp only [Expr.listHeight]; have := he₂.2; omega)
    · refine post_bind (ih.argList depth) hs₂ fun es s₃ hs₃ h₂₃ hes => ?_
      have he₃ := he₂.frame h₂₃
      refine post_pure hs₃ ⟨?_, ?_⟩
      · simpa [Expr.listConsts] using he₃.1.append hes.1
      · exact Expr.listHeight_cons_le he₃.2 hes.2
  element depth s hs := by
    rw [Parse.element]
    refine post_bind (keeps_ident_token _) hs fun name s₁ hs₁ _ hname => ?_
    refine post_bind (keeps_symbol _) hs₁ fun _ s₂ hs₂ h₁₂ _ => ?_
    refine post_bind (ih.expr depth) hs₂ fun i s₃ hs₃ h₂₃ hi => ?_
    refine post_bind (keeps_symbol _) hs₃ fun _ s₄ hs₄ h₃₄ _ => ?_
    refine post_bind (keeps_resolveVar_eq name) hs₄ fun r s₅ hs₅ h₄₅ hr => ?_
    have hi₅ := (hi.frame h₃₄).frame h₄₅
    exact post_pure hs₅ ⟨hi₅.1.cons
      ⟨name, hname.frame ((((h₁₂.trans h₂₃).trans h₃₄).trans h₄₅)), hr⟩,
      fun _ => by simp only [Expr.height]; have := hi₅.2; omega⟩
  paren depth s hs := by
    rw [Parse.paren]
    refine post_bind (keeps_symbol _) hs fun _ s₁ hs₁ _ _ => ?_
    refine post_bind (ih.expr depth) hs₁ fun e s₂ hs₂ _ he => ?_
    refine post_bind (keeps_symbol _) hs₂ fun _ s₃ hs₃ h₂₃ _ => ?_
    have he₃ := he.frame h₂₃
    exact post_pure hs₃ ⟨he₃.1, fun _ => by simp only [Expr.height]; have := he₃.2; omega⟩

theorem drawRules : ∀ fuel, DrawRules fuel
  | 0 => .zero
  | fuel + 1 => (drawRules fuel).succ

/-! ## What a parsed expression is made of -/

theorem parseExprTokens_drawn {tokens : Array Lexeme} {ts : Tables} {lim : Limits} {e : Expr}
    (h : parseExprTokens tokens ts lim = .ok e) :
    ∃ t : ParseState, t.tokens = tokens ∧ t.tables = ts ∧ t.scope = {} ∧
      t.Draws e.refs e.consts ∧ e.height ≤ lim.maxExprDepth := by
  obtain ⟨t, hst, hd, hh⟩ := parseExprTokens_keeps ((drawRules _).expr 0)
    (fun _ _ _ hx hst => hx.frame hst) trivial h
  exact ⟨t, hst.tokens, hst.tables, hst.scope, hd, by rw [hst.maxDepth] at hh; simpa [ParseState.start] using hh⟩

theorem parseExpr_printable {src : String} {ts : Tables} {lim : Limits} {e : Expr} (hn : ts.Named)
    (h : parseExpr src ts lim = .ok e) :
    (∀ r ∈ e.refs, Lexer.IdentText (ts.anyRefName r)) ∧ (∀ c ∈ e.consts, c.token.Printable) ∧
      e.height ≤ lim.maxExprDepth := by
  unfold parseExpr at h
  split at h
  · cases h
  · next tokens hlex =>
    obtain ⟨t, htok, hts, hsc, hd, hh⟩ := parseExprTokens_drawn h
    have hprint : ∀ tok, t.HasToken tok → tok.Printable := fun tok ⟨l, hl, hlt⟩ =>
      hlt ▸ lex_printable hlex l (htok ▸ hl)
    refine ⟨fun r hr => ?_, fun c hc => hprint _ (hd.2 c hc), hh⟩
    -- a resolved name is named back by the tables as it was written
    have hname := hd.1 r hr
    cases r with
    | type r =>
      obtain ⟨n, hn', rfl⟩ := hname
      rw [hts, Tables.anyRefName, Tables.typeRefName_resolveType hn.types.named]
      exact hprint _ hn'
    | var v =>
      obtain ⟨n, hn', rfl⟩ := hname
      rw [varRef_empty hsc, hts, Tables.anyRefName, ← Tables.varIn_self ts ts.vars.size,
        Tables.varRefName_varIn hn.vars]
      exact hprint _ hn'
    | fn f =>
      obtain ⟨n, hn', rfl⟩ := hname
      rw [hts, Tables.anyRefName, Tables.funRefName_resolveFun hn.funs.named]
      exact hprint _ hn'

/-! ## The round trip -/

/-- A tree whose names are written as identifiers and whose literals read back, nested and
resolved as the parser builds trees, parses from its printed text. -/
theorem parseExpr_toSource {ts : Tables} {L : Limits} {e : Expr}
    (hnames : ∀ r ∈ e.refs, Lexer.IdentText (ts.anyRefName r)) (hreads : ∀ c ∈ e.consts, c.Reads)
    (hr : e.Rereadable ts) (hd : e.height ≤ L.maxExprDepth)
    (hbound : ∀ f, f ≠ .exprDepth → (e.toSource ts).utf8ByteSize < L.get f) :
    parseExpr (e.toSource ts) ts L = .ok e := by
  obtain ⟨out, hlex, htok⟩ := lex_toSource ts e hnames hreads hbound
  simp only [parseExpr, hlex]
  exact parseExprTokens_of_tokens htok hr hd

/-- A parsed expression whose reals are finite, printed, parses back to itself, under limits whose
depth bound is at least the first parse's and whose other bounds exceed the printed text's size. -/
theorem printed_expressions_read_back {src : String} {ts : Tables} {L : Limits} {e : Expr}
    (hn : ts.Named) (h : parseExpr src ts L = .ok e)
    (hfin : ∀ x, Const.real x ∈ e.consts → x.isFinite = true) {L' : Limits}
    (hdepth : L.maxExprDepth ≤ L'.maxExprDepth)
    (hbound : ∀ f, f ≠ .exprDepth → (e.toSource ts).utf8ByteSize < L'.get f) :
    parseExpr (e.toSource ts) ts L' = .ok e := by
  obtain ⟨hnames, hconsts, hh⟩ := parseExpr_printable hn h
  -- the lexer reads only reals with the sign bit clear, and those that are finite read back
  have hreads : ∀ c ∈ e.consts, c.Reads := fun c hc => by
    cases c with
    | real x => exact Binary32.realReadsBack_of_finite (hfin x hc) (hconsts _ hc)
    | fourcc q => exact hconsts _ hc
    | _ => trivial
  exact parseExpr_toSource hnames hreads ⟨parseExpr_nestsRight h, parseExpr_resolved hn h⟩
    (hh.trans hdepth) hbound

theorem negation_chain_reads_back :
    parseExpr "not 0.1 < 2.5" Tables.initial {} =
        .ok (.unary .logicalNot (.binary (.const (.real (Float32.ofScientific 1 true 1))) .less
          (.const (.real (Float32.ofScientific 25 true 1))))) ∧
      parseExpr ((Expr.unary .logicalNot (.binary (.const (.real (Float32.ofScientific 1 true 1)))
          .less (.const (.real (Float32.ofScientific 25 true 1))))).toSource Tables.initial)
          Tables.initial {} =
        .ok (.unary .logicalNot (.binary (.const (.real (Float32.ofScientific 1 true 1))) .less
          (.const (.real (Float32.ofScientific 25 true 1))))) := by
  generalize he : Expr.unary .logicalNot (.binary (.const (.real (Float32.ofScientific 1 true 1)))
    .less (.const (.real (Float32.ofScientific 25 true 1)))) = e
  have hsrc : e.toSource Tables.initial = "not 0.1 < 2.5" := by
    simp only [← he, Expr.toSource, Const.toSource, Const.text, realText, String.contains_char_eq]
    decide
  have hfin : ∀ x, Const.real x ∈ e.consts → x.isFinite = true := by
    intro x hx
    simp only [← he, Expr.consts, List.mem_append, List.mem_singleton, Const.real.injEq] at hx
    rcases hx with rfl | rfl <;> decide
  have hbound : ∀ f, f ≠ .exprDepth → (e.toSource Tables.initial).utf8ByteSize < ({} : Limits).get f :=
    fun f _ => by
      rw [hsrc]
      cases f <;> decide
  -- the source is the printed text of the tree, so the first parse is a round trip too
  have h : parseExpr "not 0.1 < 2.5" Tables.initial {} = .ok e := by
    rw [← hsrc]
    refine parseExpr_toSource (by simp [← he, Expr.refs]) (fun c hc => ?_)
      ⟨by rw [← he]; rfl, by simp [← he, Expr.refs]⟩ (by rw [← he]; decide) hbound
    simp only [← he, Expr.consts, List.mem_append, List.mem_singleton] at hc
    rcases hc with rfl | rfl <;>
      exact Binary32.realReadsBack_of_finite (by decide) (Binary32.ofScientific_toBits_lt _ _)
  exact ⟨h, printed_expressions_read_back Tables.initial_named h hfin le_rfl hbound⟩

/-! ## Where the round trip fails: an overflowing real -/

namespace Lexer

theorem lexes_overflow :
    Lexes {} "1000000000000000000000000000000000000000.0".toList
      [.real (Float32.ofScientific (10 ^ 40) true 1)] [] := by
  have hlit : "1000000000000000000000000000000000000000.0".toList =
      ('1' :: List.replicate 39 '0') ++ '.' :: ['0'] := by decide
  have hi : ∀ c ∈ '1' :: List.replicate 39 '0', c.isDigit := List.all_eq_true.1 (by decide)
  have hf : ∀ c ∈ ['0'], c.isDigit := List.all_eq_true.1 (by decide)
  have hval : digitsValue 10 (('1' :: List.replicate 39 '0') ++ ['0']) = 10 ^ 40 := by decide
  refine .of_scan (fun h => by cases h) (fun h => by cases h) fun m =>
    ⟨((m.advance ('1' :: List.replicate 39 '0')).next '.').advance ['0'], ?_⟩
  rw [hlit, scanToken_realLiteral {} ⟨_, ['0'], by simp, hi, hf, rfl, rfl⟩, scanNumber_realLiteral hi hf,
    hval, List.length_singleton]

theorem lexes_inf_text :
    Lexes {} "inf.0".toList [.ident "inf", .real (Float32.ofScientific (digitsValue 10 ['0']) true 1)]
      [] := by
  have htext : "inf.0".toList = "inf".toList ++ ([] ++ '.' :: ['0']) := by decide
  have hinf : IdentText "inf" :=
    ⟨'i', ['n', 'f'], by decide, by decide, List.all_eq_true.1 (by decide), by decide⟩
  have hpoint : ∀ c ∈ ([] ++ '.' :: ['0'] : List Char).head?, isIdentContinue c = false :=
    fun c hc => by
      simp only [List.nil_append, List.head?_cons, Option.mem_def, Option.some.injEq] at hc
      subst hc
      decide
  rw [htext]
  refine .append (.of_scan (fun h => by cases h) (fun h => by cases h)
    (scanToken_ident {} hinf hpoint (by decide))) (.of_scan (fun h => by cases h)
    (fun h => by cases h) fun m => ⟨((m.advance []).next '.').advance ['0'], ?_⟩)
  rw [show scanToken {} ([] ++ '.' :: ['0']) m = scanNumber ([] ++ '.' :: ['0']) m from rfl]
  exact scanNumber_realLiteral (fun _ h => absurd h List.not_mem_nil) (List.all_eq_true.1 (by decide)) m

end Lexer

theorem parseExpr_overflow (ts : Tables) :
    parseExpr "1000000000000000000000000000000000000000.0" ts {} =
      .ok (.const (.real (Float32.ofScientific (10 ^ 40) true 1))) := by
  obtain ⟨out, hlex, htok⟩ := Lexer.lex_lexes Lexer.lexes_overflow (by decide) (by decide)
  simp only [parseExpr, hlex]
  exact parseExprTokens_of_tokens htok ⟨rfl, fun r hr => absurd hr List.not_mem_nil⟩ (by decide)

set_option maxRecDepth 20000 in
theorem toSource_overflow (ts : Tables) :
    (Expr.const (.real (Float32.ofScientific (10 ^ 40) true 1))).toSource ts = "inf.0" := by
  have hbits : (Float32.ofScientific (10 ^ 40) true 1).toBits = 0x7f800000 := by decide
  have hk : Decimal.Kind.of (Float32.ofScientific (10 ^ 40) true 1) = .infinite false := by
    rw [Decimal.Kind.of, hbits]
    rfl
  change realText _ = _
  simp only [realText, Decimal.text, hk, Bool.false_eq_true, ↓reduceIte, String.contains_char_eq]
  decide

/-- `inf.0` does not parse: `inf` is read as a variable, and the real after it is not the end of
the input. -/
theorem parseExpr_inf_text {ts : Tables} (hn : ts.Named) (e : Expr) : parseExpr "inf.0" ts {} ≠ .ok e := by
  obtain ⟨out, hlex, htok⟩ := Lexer.lex_lexes Lexer.lexes_inf_text (by decide) (by decide)
  have hsize : out.size = 3 := by simpa using congrArg List.length htok
  have hname : ts.varRefName (ts.varIn ts.vars.size ts.vars.size "inf") = "inf" :=
    Tables.varRefName_varIn hn.vars "inf"
  have hr : (Expr.var (ts.varIn ts.vars.size ts.vars.size "inf")).Rereadable ts :=
    ⟨rfl, fun r hr => by
      rw [Expr.refs, List.mem_singleton] at hr
      subst hr
      exact AnyRef.resolvedIn_var hn "inf"⟩
  have ho : (ParseState.start out ts {}).Outside ts ({} : Limits).maxExprDepth := ⟨rfl, rfl, rfl⟩
  have ha : (ParseState.start out ts {}).Ahead
      ((Expr.var (ts.varIn ts.vars.size ts.vars.size "inf")).tokens ts ++
        [.real (Float32.ofScientific (Lexer.digitsValue 10 ['0']) true 1), .eof]) :=
    ⟨[], by simp [ParseState.start, htok, Expr.tokens, hname]⟩
  have hcl : (Token.real (Float32.ofScientific (Lexer.digitsValue 10 ['0']) true 1)).Closes :=
    ⟨⟨by simp, by simp⟩, fun op => by cases op <;> simp [BinOp.token]⟩
  -- the variable is read, and the real after it is no end of input
  have hfails : Fails (do
      let x ← Parse.expr (Parse.budget out.size) 0
      Parse.endOfInput
      return x : Parser Expr) (ParseState.start out ts {}) := by
    refine ((rereadRules ts _ _).expr ho hr hcl (ha.mono ⟨[.eof], by simp⟩) (by simp [Expr.height])
      (by simp [Expr.tokens, budget, hsize])).bind_fails fun t ht hc => ?_
    exact (fails_endOfInput (ha.after ht hc) (by simp) (by simp)).bind
  obtain ⟨err, t, hx, -, -⟩ := hfails
  simp only [parseExpr, hlex, parseExprTokens, runOn_eq, hx]
  simp

/-- An overflowing real literal parses as a constant that prints as `inf.0`, and that text does
not parse at all. -/
theorem overflowing_real_does_not_read_back :
    ∃ x : Float32, parseExpr "1000000000000000000000000000000000000000.0" Tables.initial {} =
        .ok (.const (.real x)) ∧
      (Expr.const (.real x)).toSource Tables.initial = "inf.0" ∧
      ∀ e, parseExpr "inf.0" Tables.initial {} ≠ .ok e :=
  ⟨_, parseExpr_overflow Tables.initial, toSource_overflow Tables.initial,
    parseExpr_inf_text Tables.initial_named⟩

end Jass
