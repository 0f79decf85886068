import Mathlib
import Jass.Lex.Lexer
/-!
# The lexer under raised bounds

Limits are ordered field by field. Each of the lexer's five bounds is checked in one place, and
a check that fails ends the scan with a limit error at once. So a scan that ends without a limit
error passed every check it made, and under higher bounds it passes them all again and makes the
same steps: it gives the same lexemes or the same lexical error (`lex_raise`).
-/

namespace Jass

/-- One set of limits is below another when each of the six bounds is. -/
instance : LE Limits := ⟨fun l l' => ∀ f : Limits.Field, l.get f ≤ l'.get f⟩

theorem Limits.le_def {l l' : Limits} : l ≤ l' ↔ ∀ f : Limits.Field, l.get f ≤ l'.get f := Iff.rfl

def LexNoLimit {α : Type} : Except LexError α → Prop
  | .ok _ => True
  | .error e => e.fault.isLimit = false

instance {α : Type} (r : Except LexError α) : Decidable (LexNoLimit r) :=
  match r with
  | .ok _ => isTrue trivial
  | .error e => inferInstanceAs (Decidable (e.fault.isLimit = false))

namespace Lexer

variable {L L' : Limits}

theorem skipComment_raise (h : L ≤ L') (start : Nat) :
    ∀ (cs : List Char) (m : Mark), LexNoLimit (skipComment L start cs m) →
      skipComment L' start cs m = skipComment L start cs m
  | [], _, _ => rfl
  | c :: r, m, hno => by
    have hle : L.maxCommentLength ≤ L'.maxCommentLength := h .commentLength
    by_cases hc : c = '\n'
    · simp only [skipComment, hc, if_true]
    by_cases hgt : (m.next c).offset - start > L.maxCommentLength
    · simp [skipComment, hc, hgt, LexNoLimit, LexFault.isLimit] at hno
    · have hgt' : ¬ (m.next c).offset - start > L'.maxCommentLength := by omega
      simp only [skipComment, hc, hgt, hgt', if_false] at hno ⊢
      exact skipComment_raise h start r _ hno

theorem scanString_raise (h : L ≤ L') (start : Nat) (acc cs : List Char) (m : Mark)
    (hno : LexNoLimit (scanString L start acc cs m)) :
    scanString L' start acc cs m = scanString L start acc cs m := by
  have hle : L.maxStringLength ≤ L'.maxStringLength := h .stringLength
  fun_induction scanString L start acc cs m with
  | case1 => simp only [scanString]
  | case2 => simp only [scanString]
  | case3 => simp only [scanString]
  | case4 => simp [LexNoLimit, LexFault.isLimit] at hno
  | case5 acc e r m m' hle' ih =>
    have hle'' : ¬ ((m.next '\\').next e).offset - start > L.maxStringLength := hle'
    rw [scanString.eq_4, if_neg (by omega)]
    exact ih hno
  | case6 => simp [LexNoLimit, LexFault.isLimit] at hno
  | case7 acc c r m hq hb hbe m' hle' ih =>
    have hle'' : ¬ (m.next c).offset - start > L.maxStringLength := hle'
    rw [scanString.eq_5 _ _ _ _ _ _ hq hb hbe, if_neg (by omega)]
    exact ih hno

theorem scanWord_raise (h : L ≤ L') (cs : List Char) (m : Mark)
    (hno : LexNoLimit (scanWord L cs m)) : scanWord L' cs m = scanWord L cs m := by
  have hle : L.maxIdentifierLength ≤ L'.maxIdentifierLength := h .identifierLength
  unfold scanWord at hno ⊢
  by_cases hgt : (cs.takeWhile isIdentContinue).length > L.maxIdentifierLength
  · simp [hgt, LexNoLimit, LexFault.isLimit] at hno
  · rw [if_neg hgt, if_neg (by omega)]

theorem scanToken_raise (h : L ≤ L') (cs : List Char) (m : Mark)
    (hno : LexNoLimit (scanToken L cs m)) : scanToken L' cs m = scanToken L cs m := by
  revert hno
  rw [scanToken.eq_def, scanToken.eq_def]
  split
  · exact fun _ => rfl
  · exact fun _ => rfl
  · exact fun _ => rfl
  · -- the first character decides the scanner
    split_ifs
    · exact fun _ => rfl
    · exact fun _ => rfl
    · exact fun _ => rfl
    · exact scanWord_raise h _ _
    · exact scanString_raise h _ _ _ _
    · exact fun _ => rfl
    · exact fun _ => rfl

theorem LexNoLimit.bind {α β : Type} {x x' : Except LexError α} {f f' : α → Except LexError β}
    (hno : LexNoLimit (x >>= f)) (hx : LexNoLimit x → x' = x)
    (hf : ∀ a, LexNoLimit (f a) → f' a = f a) : x' >>= f' = x >>= f := by
  cases x with
  | error e => rw [hx hno]; rfl
  | ok a => rw [hx trivial]; exact hf a hno

theorem nextLexeme_raise (h : L ≤ L') (count : Nat) (cs : List Char) (m : Mark)
    (hno : LexNoLimit (nextLexeme L count cs m)) :
    nextLexeme L' count cs m = nextLexeme L count cs m := by
  have hle : L.maxTokenCount ≤ L'.maxTokenCount := h .tokenCount
  unfold nextLexeme at hno ⊢
  dsimp only at hno ⊢
  by_cases hc : count ≥ L.maxTokenCount
  · rw [if_pos hc] at hno
    cases (hno : (LexFault.tooManyTokens count L.maxTokenCount).isLimit = false)
  have hc' : ¬ count ≥ L'.maxTokenCount := by omega
  rw [if_neg hc] at hno
  rw [if_neg hc, if_neg hc']
  generalize skipBlanks cs m = b at hno ⊢
  obtain ⟨cs₁, m₁⟩ := b
  dsimp only at hno ⊢
  -- past the blanks, a comment is skipped against its bound and a token is scanned
  revert hno
  split
  · exact fun hno => LexNoLimit.bind hno (skipComment_raise h _ _ _) fun _ ha =>
      LexNoLimit.bind ha (scanToken_raise h _ _) fun _ _ => rfl
  · exact fun hno => LexNoLimit.bind hno (fun _ => rfl) fun _ ha =>
      LexNoLimit.bind ha (scanToken_raise h _ _) fun _ _ => rfl

theorem lexemes_raise (h : L ≤ L') : ∀ (fuel count : Nat) (cs : List Char) (m : Mark)
    (acc : Array Lexeme), LexNoLimit (lexemes L fuel count cs m acc) →
      lexemes L' fuel count cs m acc = lexemes L fuel count cs m acc
  | 0, _, _, _, _, _ => rfl
  | fuel + 1, count, cs, m, acc, hno => by
    rw [lexemes] at hno ⊢
    rw [lexemes]
    refine LexNoLimit.bind hno (nextLexeme_raise h _ _ _) fun ⟨lx, rest, m'⟩ ha => ?_
    dsimp only at ha ⊢
    revert ha
    split
    · exact fun _ => rfl
    · exact lexemes_raise h fuel _ _ _ _

end Lexer

theorem lex_raise {L L' : Limits} (h : L ≤ L') (src : String) (hno : LexNoLimit (lex src L)) :
    lex src L' = lex src L := by
  have hle : L.maxInputSize ≤ L'.maxInputSize := h .inputSize
  unfold lex at hno ⊢
  by_cases hgt : src.utf8ByteSize > L.maxInputSize
  · rw [if_pos hgt] at hno
    cases (hno : (LexFault.inputTooLarge src.utf8ByteSize L.maxInputSize).isLimit = false)
  · rw [if_neg hgt] at hno
    rw [if_neg hgt, if_neg (by omega)]
    exact Lexer.lexemes_raise h _ _ _ _ _ hno

end Jass
