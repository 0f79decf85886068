import Mathlib
import Jass.Lex.Lexer
/-!
# Every lexeme consumes text, so lexing ends with `eof`

Each scanner returns the text after its token, and that rest is shorter than the text the token
started at: only the end of the text scans without consuming, as `eof`. So the lexer's fuel, one
more than the number of characters, never runs out, and an accepted text lexes to a list whose
last lexeme is `eof` (`lex_back_eof`).
-/

namespace Jass

namespace Lexer

theorem bind_eq_ok {ε α β : Type} {x : Except ε α} {f : α → Except ε β} {b : β}
    (h : (x >>= f) = .ok b) : ∃ a, x = .ok a ∧ f a = .ok b := by
  cases x with
  | error e => simp [bind, Except.bind] at h
  | ok a => exact ⟨a, rfl, h⟩

theorem length_dropWhile_le (p : Char → Bool) (l : List Char) :
    (l.dropWhile p).length ≤ l.length :=
  (List.dropWhile_suffix p).length_le

/-! ## What each scanner leaves -/

variable {lim : Limits} {t : Token} {rest : List Char} {m m' : Mark}

theorem scanHex_rest {cs : List Char} (h : scanHex cs m = .ok (t, rest, m')) :
    rest.length ≤ cs.length := by
  unfold scanHex at h
  dsimp only at h
  split at h
  · simp at h
  · obtain ⟨_, -, h⟩ := bind_eq_ok h
    cases h
    exact length_dropWhile_le _ _

theorem scanNumber_rest {cs : List Char} (h : scanNumber cs m = .ok (t, rest, m')) :
    (∃ r, cs.dropWhile Char.isDigit = '.' :: r ∧ rest.length ≤ r.length) ∨
      rest = cs.dropWhile Char.isDigit ∧ ∀ r, cs.dropWhile Char.isDigit ≠ '.' :: r := by
  unfold scanNumber at h
  dsimp only at h
  split at h
  · next r heq =>
    cases h
    exact .inl ⟨r, heq, length_dropWhile_le _ _⟩
  · next hne =>
    split at h <;>
    · obtain ⟨_, -, h⟩ := bind_eq_ok h
      cases h
      exact .inr ⟨rfl, hne⟩

theorem scanNumber_shrinks {c : Char} {r : List Char} (h : scanNumber (c :: r) m = .ok (t, rest, m'))
    (hc : c.isDigit ∨ c = '.') : rest.length < r.length + 1 := by
  rcases hc with hc | rfl
  · -- the digits run at least over `c`
    have hd : ((c :: r).dropWhile Char.isDigit).length ≤ r.length := by
      rw [List.dropWhile_cons_of_pos hc]
      exact length_dropWhile_le _ _
    rcases scanNumber_rest h with ⟨r', heq, hr⟩ | ⟨rfl, -⟩
    · rw [heq] at hd
      simp only [List.length_cons] at hd
      omega
    · omega
  · have hd : ('.' :: r).dropWhile Char.isDigit = '.' :: r :=
      List.dropWhile_cons_of_neg (by decide)
    rcases scanNumber_rest h with ⟨r', heq, hr⟩ | ⟨-, hne⟩
    · rw [hd] at heq
      cases heq
      omega
    · exact absurd hd (hne r)

theorem scanWord_rest {c : Char} {r : List Char} (h : scanWord lim (c :: r) m = .ok (t, rest, m'))
    (hc : isIdentStart c = true) : rest.length ≤ r.length := by
  unfold scanWord at h
  dsimp only at h
  split at h
  · simp at h
  · cases h
    have hcont : isIdentContinue c = true := by
      simp only [isIdentStart, isIdentContinue, Bool.or_eq_true, Char.isAlphanum] at hc ⊢
      rcases hc with hc | hc
      · exact .inl (by simp [hc])
      · exact .inr hc
    rw [List.dropWhile_cons_of_pos hcont]
    exact length_dropWhile_le _ _

theorem scanString_rest {start : Nat} {acc cs : List Char}
    (h : scanString lim start acc cs m = .ok (t, rest, m')) : rest.length < cs.length := by
  fun_induction scanString lim start acc cs m with
  | case1 => simp at h
  | case2 =>
    simp only [Except.ok.injEq, Prod.mk.injEq] at h
    obtain ⟨-, rfl, -⟩ := h
    simp
  | case3 => simp at h
  | case4 => simp at h
  | case5 _ _ r _ _ _ ih =>
    have := ih h
    simp only [List.length_cons]
    omega
  | case6 => simp at h
  | case7 _ _ r _ _ _ _ _ _ ih =>
    have := ih h
    simp only [List.length_cons]
    omega

theorem scanQuoted_rest {acc cs body : List Char}
    (h : scanQuoted acc cs m = .ok (body, rest, m')) : rest.length < cs.length := by
  fun_induction scanQuoted acc cs m with
  | case1 => simp at h
  | case2 => simp at h
  | case3 =>
    simp only [Except.ok.injEq, Prod.mk.injEq] at h
    obtain ⟨-, rfl, -⟩ := h
    simp
  | case4 _ _ r _ _ _ ih =>
    have := ih h
    simp only [List.length_cons]
    omega

theorem scanFourCC_rest {cs : List Char} (h : scanFourCC cs m = .ok (t, rest, m')) :
    rest.length < cs.length := by
  unfold scanFourCC at h
  obtain ⟨⟨body, rest', m''⟩, hq, h⟩ := bind_eq_ok h
  have hr := scanQuoted_rest hq
  dsimp only at h
  split at h
  · cases h
    exact hr
  · cases h
    exact hr
  · cases h

theorem scanSymbol_rest {c : Char} {r : List Char} (h : scanSymbol c r m = .ok (t, rest, m')) :
    rest.length ≤ r.length := by
  unfold scanSymbol at h
  dsimp only at h
  -- every symbol takes one character, or two with a following `=`
  split at h <;> cases h <;> simp

theorem scanToken_rest {cs : List Char} (h : scanToken lim cs m = .ok (t, rest, m')) :
    t = .eof ∨ rest.length < cs.length := by
  unfold scanToken at h
  split at h
  · cases h
    exact .inl rfl
  · cases h
    exact .inr (by simp)
  · split at h
    · have := scanHex_rest h
      exact .inr (by simp; omega)
    · exact .inr (scanNumber_shrinks h (.inl (by decide)))
  · next c r _ _ _ =>
    -- the first character decides the scanner
    split at h
    · exact .inr (scanNumber_shrinks h (.inl ‹_›))
    split at h
    · next hdot => exact .inr (scanNumber_shrinks h (.inr hdot.1))
    split at h
    · have := scanHex_rest h
      exact .inr (by simp; omega)
    split at h
    · have := scanWord_rest h ‹_›
      exact .inr (by simp; omega)
    split at h
    · have := scanString_rest h
      exact .inr (by simp; omega)
    split at h
    · have := scanFourCC_rest h
      exact .inr (by simp; omega)
    · have := scanSymbol_rest h
      exact .inr (by simp; omega)

theorem skipBlanks_length : ∀ (cs : List Char) (m : Mark), (skipBlanks cs m).1.length ≤ cs.length
  | [], _ => Nat.le_refl _
  | c :: r, m => by
    unfold skipBlanks
    split
    · have := skipBlanks_length r (m.next c)
      simp only [List.length_cons]
      omega
    · exact Nat.le_refl _

theorem skipComment_length {start : Nat} :
    ∀ {cs cs' : List Char} {m m' : Mark}, skipComment lim start cs m = .ok (cs', m') →
      cs'.length ≤ cs.length
  | [], _, _, _, h => by
    simp only [skipComment, Except.ok.injEq, Prod.mk.injEq] at h
    obtain ⟨rfl, -⟩ := h
    exact Nat.le_refl _
  | c :: r, _, _, _, h => by
    unfold skipComment at h
    split at h
    · cases h
      exact Nat.le_refl _
    · dsimp only at h
      split at h
      · cases h
      · have := skipComment_length h
        simp only [List.length_cons]
        omega

theorem nextLexeme_rest {count : Nat} {cs : List Char} {lx : Lexeme}
    (h : nextLexeme lim count cs m = .ok (lx, rest, m')) :
    lx.token = .eof ∨ rest.length < cs.length := by
  unfold nextLexeme at h
  dsimp only at h
  split at h
  · obtain ⟨_, h', -⟩ := bind_eq_ok h
    cases h'
  -- both ways past a comment end by scanning a token from a shorter text
  have last : ∀ cs₂ m₂, cs₂.length ≤ cs.length →
      (scanToken lim cs₂ m₂ >>= fun x => pure (⟨x.1, m₂.pos⟩, x.2.1, x.2.2)) =
        .ok (lx, rest, m') → lx.token = .eof ∨ rest.length < cs.length := by
    intro cs₂ m₂ h₂ h
    obtain ⟨⟨tok, rest', m''⟩, ht, h⟩ := bind_eq_ok h
    simp only [pure, Except.pure, Except.ok.injEq, Prod.mk.injEq] at h
    obtain ⟨rfl, rfl, -⟩ := h
    rcases scanToken_rest ht with heof | hlt
    · exact .inl heof
    · exact .inr (by omega)
  have hb := skipBlanks_length cs m
  rcases hs : skipBlanks cs m with ⟨cs₁, m₁⟩
  rw [hs] at h hb
  dsimp only at h hb
  split at h
  · obtain ⟨⟨cs₂, m₂⟩, hsc, h⟩ := bind_eq_ok h
    exact last cs₂ m₂ (Nat.le_trans (skipComment_length hsc) hb) h
  · exact last cs₁ m₁ hb h

theorem lexemes_back_eof : ∀ (fuel count : Nat) (cs : List Char) (m : Mark) (acc out : Array Lexeme),
    cs.length < fuel → lexemes lim fuel count cs m acc = .ok out →
      out.back?.map (·.token) = some .eof
  | 0, _, _, _, _, _, hf, _ => absurd hf (Nat.not_lt_zero _)
  | fuel + 1, count, cs, m, acc, out, hf, h => by
    unfold lexemes at h
    obtain ⟨⟨lx, rest, m'⟩, hn, h⟩ := bind_eq_ok h
    dsimp only at h
    split at h
    · next heof =>
      cases h
      simp [heof]
    · next hne =>
      rcases nextLexeme_rest hn with heof | hlt
      · exact absurd heof hne
      · exact lexemes_back_eof fuel _ rest m' _ out (by omega) h

end Lexer

theorem lex_back_eof {src : String} {lim : Limits} {tokens : Array Lexeme}
    (h : lex src lim = .ok tokens) : tokens.back?.map (·.token) = some .eof := by
  unfold lex at h
  split at h
  · simp at h
  · exact Lexer.lexemes_back_eof _ _ _ _ _ _ (by rw [String.length_toList]; omega) h

end Jass
