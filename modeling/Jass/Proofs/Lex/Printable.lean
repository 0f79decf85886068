import Jass.Proofs.Real.Reading
/-!
# The tokens the lexer reads can be printed back

Two kinds of token carry text that the printer writes as it stands: a name, which must lex
again as that one identifier, and a four-character code, which is written between quotes only
when its bytes are text with no quote and no line break. A real is written as a literal only when
it is not negative. Every token the lexer reads meets these conditions (`Token.Printable`): a
name is a letter or an underscore followed by letters, digits and underscores that spell no
keyword, since that is the only run `scanWord` reads as one; a code's bytes are the text the
lexer found between two quotes, which holds neither; a real literal reads as a value with its
sign bit clear.
-/

namespace Jass

open Lexer

/-- A token the printer can write back as it was read. -/
def Token.Printable : Token → Prop
  | .ident n => IdentText n
  | .fourcc c => c.Quoted
  | .real x => x.toBits.toNat < 2 ^ 31
  | _ => True

namespace Lexer

variable {lim : Limits} {t : Token} {rest : List Char} {m m' : Mark}

/-! ## Numbers, strings and symbols -/

theorem wordLiteral_printable {ds : List Char} {base : Nat} (h : wordLiteral ds base m = .ok t) :
    t.Printable := by
  unfold wordLiteral at h
  dsimp only at h
  split at h
  · cases h
    trivial
  · cases h

theorem scanHex_printable {cs : List Char} (h : scanHex cs m = .ok (t, rest, m')) : t.Printable := by
  unfold scanHex at h
  dsimp only at h
  split at h
  · cases h
  · obtain ⟨_, hw, h⟩ := bind_eq_ok h
    cases h
    exact wordLiteral_printable hw

theorem scanNumber_printable {cs : List Char} (h : scanNumber cs m = .ok (t, rest, m')) :
    t.Printable := by
  unfold scanNumber at h
  dsimp only at h
  split at h
  · cases h
    exact Binary32.ofScientific_toBits_lt _ _
  · split at h <;>
    · obtain ⟨_, hw, h⟩ := bind_eq_ok h
      cases h
      exact wordLiteral_printable hw

theorem scanString_printable {start : Nat} {acc cs : List Char}
    (h : scanString lim start acc cs m = .ok (t, rest, m')) : t.Printable := by
  fun_induction scanString lim start acc cs m with
  | case1 => cases h
  | case2 =>
    cases h
    trivial
  | case3 => cases h
  | case4 => cases h
  | case5 _ _ _ _ _ _ ih => exact ih h
  | case6 => cases h
  | case7 _ _ _ _ _ _ _ _ _ ih => exact ih h

theorem scanSymbol_printable {c : Char} {r : List Char} (h : scanSymbol c r m = .ok (t, rest, m')) :
    t.Printable := by
  unfold scanSymbol at h
  dsimp only at h
  split at h <;> cases h <;> trivial

/-! ## Words -/

theorem scanWord_printable {c : Char} {r : List Char} (hc : isIdentStart c = true)
    (h : scanWord lim (c :: r) m = .ok (t, rest, m')) : t.Printable := by
  unfold scanWord at h
  dsimp only at h
  split at h
  · cases h
  · -- the word runs from `c` over the identifier characters after it
    have hw : (c :: r).takeWhile isIdentContinue = c :: r.takeWhile isIdentContinue :=
      List.takeWhile_cons_of_pos (identStart_continue hc)
    split at h
    · cases h
      trivial
    · next hk =>
      cases h
      refine ⟨c, r.takeWhile isIdentContinue, by rw [String.toList_ofList, hw], hc,
        fun x hx => List.mem_takeWhile_imp hx, hk⟩

/-! ## Four-character codes -/

theorem scanQuoted_body {acc cs body : List Char} (h : scanQuoted acc cs m = .ok (body, rest, m'))
    (hacc : ∀ x ∈ acc, x ≠ '\'' ∧ x ≠ '\n') : ∀ x ∈ body, x ≠ '\'' ∧ x ≠ '\n' := by
  fun_induction scanQuoted acc cs m with
  | case1 => cases h
  | case2 => cases h
  | case3 =>
    cases h
    exact fun x hx => hacc x (List.mem_reverse.1 hx)
  | case4 acc c r m hn hq ih =>
    refine ih h fun x hx => ?_
    rcases List.mem_cons.1 hx with rfl | hx
    · exact ⟨hq, hn⟩
    · exact hacc x hx

theorem byteArray_mk_toList (b : ByteArray) : ByteArray.mk b.toList.toArray = b := by
  rw [ByteArray.toList, toList_loop]
  simp

theorem fromUTF8?_toByteArray (s : String) : String.fromUTF8? s.toByteArray = some s := by
  simp only [String.fromUTF8?, s.isValidUTF8, dite_true]
  rfl

theorem quoted_of_text {c : FourCC} {body : List Char}
    (hc : FourCC.ofBytes? (String.ofList body).toUTF8.toList = some c)
    (hbody : ∀ x ∈ body, x ≠ '\'' ∧ x ≠ '\n') : c.Quoted := by
  have hbytes : c.bytes = (String.ofList body).toUTF8.toList := by
    unfold FourCC.ofBytes? at hc
    split at hc
    · next heq =>
      cases hc
      rw [heq]
      rfl
    · cases hc
  refine ⟨String.ofList body, ?_, fun hq => ?_, fun hn => ?_⟩
  · rw [hbytes, byteArray_mk_toList, String.toUTF8_eq_toByteArray, fromUTF8?_toByteArray]
  · exact (hbody _ (by rwa [String.toList_ofList] at hq)).1 rfl
  · exact (hbody _ (by rwa [String.toList_ofList] at hn)).2 rfl

theorem scanFourCC_printable {cs : List Char} (h : scanFourCC cs m = .ok (t, rest, m')) :
    t.Printable := by
  unfold scanFourCC at h
  obtain ⟨⟨body, rest', m''⟩, hq, h⟩ := bind_eq_ok h
  have hbody := scanQuoted_body hq (by simp)
  dsimp only at h
  split at h
  · next hc =>
    cases h
    exact quoted_of_text hc hbody
  · cases h
    trivial
  · cases h

/-! ## The lexer -/

theorem scanToken_printable {cs : List Char} (h : scanToken lim cs m = .ok (t, rest, m')) :
    t.Printable := by
  unfold scanToken at h
  split at h
  · cases h
    trivial
  · cases h
    trivial
  · split at h
    · exact scanHex_printable h
    · exact scanNumber_printable h
  · -- the first character decides the scanner
    split at h
    · exact scanNumber_printable h
    split at h
    · exact scanNumber_printable h
    split at h
    · exact scanHex_printable h
    split at h
    · exact scanWord_printable ‹_› h
    split at h
    · exact scanString_printable h
    split at h
    · exact scanFourCC_printable h
    · exact scanSymbol_printable h

theorem nextLexeme_printable {count : Nat} {cs : List Char} {lx : Lexeme}
    (h : nextLexeme lim count cs m = .ok (lx, rest, m')) : lx.token.Printable := by
  unfold nextLexeme at h
  dsimp only at h
  split at h
  · obtain ⟨_, h', -⟩ := bind_eq_ok h
    cases h'
  -- past the blanks and a comment, one token is scanned
  have last : ∀ cs₂ m₂, (scanToken lim cs₂ m₂ >>= fun x => pure (⟨x.1, m₂.pos⟩, x.2.1, x.2.2)) =
      (.ok (lx, rest, m') : Except LexError _) → lx.token.Printable := by
    intro cs₂ m₂ h
    obtain ⟨⟨tok, rest', m''⟩, ht, h⟩ := bind_eq_ok h
    simp only [pure, Except.pure, Except.ok.injEq, Prod.mk.injEq] at h
    obtain ⟨rfl, -, -⟩ := h
    exact scanToken_printable ht
  rcases hs : skipBlanks cs m with ⟨cs₁, m₁⟩
  rw [hs] at h
  dsimp only at h
  split at h
  · obtain ⟨⟨cs₂, m₂⟩, -, h⟩ := bind_eq_ok h
    exact last cs₂ m₂ h
  · exact last cs₁ m₁ h

theorem lexemes_printable : ∀ (fuel count : Nat) (cs : List Char) (m : Mark) (acc out : Array Lexeme),
    lexemes lim fuel count cs m acc = .ok out → (∀ l ∈ acc.toList, l.token.Printable) →
      ∀ l ∈ out.toList, l.token.Printable
  | 0, _, _, _, _, _, h, hacc => by
    cases h
    exact hacc
  | fuel + 1, count, cs, m, acc, out, h, hacc => by
    unfold lexemes at h
    obtain ⟨⟨lx, rest, m'⟩, hn, h⟩ := bind_eq_ok h
    have hpush : ∀ l ∈ (acc.push lx).toList, l.token.Printable := by
      intro l hl
      rw [Array.toList_push, List.mem_append, List.mem_singleton] at hl
      rcases hl with hl | rfl
      · exact hacc l hl
      · exact nextLexeme_printable hn
    dsimp only at h
    split at h
    · cases h
      exact hpush
    · exact lexemes_printable fuel _ rest m' _ out h hpush

end Lexer

/-- Every token of an accepted text can be printed back as it was read. -/
theorem lex_printable {src : String} {lim : Limits} {tokens : Array Lexeme}
    (h : lex src lim = .ok tokens) : ∀ l ∈ tokens.toList, l.token.Printable := by
  unfold lex at h
  split at h
  · cases h
  · exact Lexer.lexemes_printable _ _ _ _ _ _ h (by simp)

end Jass
