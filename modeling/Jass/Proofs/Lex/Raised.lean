import Jass.Proofs.Lex.Positions
/-!
# Where the lexer stops on an error

The lexer reads lexeme after lexeme, and an error is raised while one of them is read. Its
position is that of the cursor at that moment: after the text of the lexemes read before
(`Leads`), then the part of the failing lexeme read so far (`Halts`). How far that part reaches
depends on the fault: nowhere for the input size and the token budget; past the characters of a
comment up to the first one over its bound; and for a token, past the text its scanner read
(`Scanned`): the character that starts no token, all the digits of a literal that is not a word,
the whole of a word that is too long, a string or code up to where it is cut off or over its
bound, and a code whose size is wrong up to its closing quote.

Main statement: `lexemes_stand_where_they_start`, with the layout of an accepted text.
-/

namespace Jass

namespace Lexer

variable {lim : Limits}

/-! ## The text read before the cursor -/

def hexPrefixes : List (List Char) := [['$'], ['0', 'x'], ['0', 'X']]

/-- `Scanned lim piece rest f`: reading a token from `piece ++ rest`, the lexer raises `f` with its
cursor after `piece`. -/
inductive Scanned (lim : Limits) : List Char → List Char → LexFault → Prop
  | unexpected {c : Char} {rest : List Char} : Scanned lim [c] rest (.unexpectedChar c)
  | noHexDigits {pre rest : List Char} : pre ∈ hexPrefixes →
      (∀ c ∈ rest.head?, isHexDigit c = false) → Scanned lim pre rest .missingHexDigits
  | badHex {pre ds rest : List Char} : pre ∈ hexPrefixes →
      (∀ c ∈ rest.head?, isHexDigit c = false) →
      Scanned lim (pre ++ ds) rest (.badInteger (String.ofList ds) 16)
  | badOctal {ds rest : List Char} : (∀ c ∈ rest.head?, c.isDigit = false) →
      Scanned lim ('0' :: ds) rest (.badInteger (String.ofList ds) 8)
  | badDecimal {ds rest : List Char} : (∀ c ∈ rest.head?, c.isDigit = false) →
      Scanned lim ds rest (.badInteger (String.ofList ds) 10)
  | unterminatedString {body : List Char} : Scanned lim ('"' :: body) [] .unterminatedString
  | unterminatedEscape {body : List Char} :
      Scanned lim ('"' :: body ++ ['\\']) [] .unterminatedEscape
  | stringTooLong {body rest : List Char} :
      lim.maxStringLength < (String.ofList ('"' :: body)).utf8ByteSize →
      Scanned lim ('"' :: body) rest
        (.stringTooLong (String.ofList ('"' :: body)).utf8ByteSize lim.maxStringLength)
  | unterminatedFourCC {body rest : List Char} : (∀ c ∈ rest.head?, c = '\n') →
      Scanned lim ('\'' :: body) rest .unterminatedFourCC
  | fourCCSize {body rest : List Char} :
      Scanned lim ('\'' :: body ++ ['\'']) rest (.fourCCSize (String.ofList body).utf8ByteSize)
  | identifierTooLong {w rest : List Char} : (∀ c ∈ w, isIdentContinue c = true) →
      (∀ c ∈ rest.head?, isIdentContinue c = false) → lim.maxIdentifierLength < w.length →
      Scanned lim w rest (.identifierTooLong w.length lim.maxIdentifierLength)

/-- `Halts lim count part rest f`: with `count` lexemes read, the lexer raises `f` with its cursor
after `part`, the text read since the last of them, and `rest` after it. -/
inductive Halts (lim : Limits) (count : Nat) : List Char → List Char → LexFault → Prop
  | size {n : Nat} {rest : List Char} : count = 0 → n = (String.ofList rest).utf8ByteSize →
      lim.maxInputSize < n → Halts lim count [] rest (.inputTooLarge n lim.maxInputSize)
  | budget {rest : List Char} : lim.maxTokenCount ≤ count →
      Halts lim count [] rest (.tooManyTokens count lim.maxTokenCount)
  | comment {blanks body rest : List Char} : (∀ c ∈ blanks, c = ' ' ∨ c = '\t' ∨ c = '\r') →
      (body ++ rest).head? = some '/' → '\n' ∉ body →
      lim.maxCommentLength < (String.ofList ('/' :: body)).utf8ByteSize →
      Halts lim count (blanks ++ '/' :: body) rest
        (.commentTooLong (String.ofList ('/' :: body)).utf8ByteSize lim.maxCommentLength)
  | scan {gap piece rest : List Char} {f : LexFault} : Skipped gap → Scanned lim piece rest f →
      Halts lim count (gap ++ piece) rest f

/-- `Leads lim done cs lxs rest`: after the text `done`, the lexer reads from `cs` the lexemes
`lxs`, none of them the end, and `rest` is left; each lexeme is read as in `Spans`. -/
inductive Leads (lim : Limits) : List Char → List Char → List Lexeme → List Char → Prop
  | nil {done cs : List Char} : Leads lim done cs [] cs
  | token {done gap text rest cs : List Char} {t : Token} {m' : Mark} {lxs : List Lexeme} :
      Skipped gap → t ≠ .eof →
      scanToken lim (text ++ rest) (Mark.advance {} (done ++ gap)) = .ok (t, rest, m') →
      Leads lim (done ++ gap ++ text) rest lxs cs →
      Leads lim done (gap ++ text ++ rest) (⟨t, posAfter (done ++ gap)⟩ :: lxs) cs

/-! ## Each scanner -/

/-- A scan of `cs` from the cursor `m` that fails on `e` has read some `piece` of `cs`, at whose
end `e` stands, as `Scanned` says. -/
def Raised (lim : Limits) (cs : List Char) (m : Mark) (e : LexError) : Prop :=
  ∃ piece rest, cs = piece ++ rest ∧ e.pos = (m.advance piece).pos ∧ Scanned lim piece rest e.fault

theorem head_dropWhile (p : Char → Bool) (l : List Char) : ∀ c ∈ (l.dropWhile p).head?, p c = false := by
  intro c hc
  have h := List.head?_dropWhile_not p l
  rw [Option.mem_def] at hc
  rw [hc] at h
  exact h

theorem head_of_takeWhile_nil {p : Char → Bool} {l : List Char} (h : (l.takeWhile p).isEmpty = true) :
    ∀ c ∈ l.head?, p c = false := by
  cases l with
  | nil => exact fun _ hc => by cases hc
  | cons x r =>
    intro c hc
    simp only [List.head?_cons, Option.mem_def, Option.some.injEq] at hc
    subst hc
    simpa [List.takeWhile_cons] using h

theorem wordLiteral_error {ds : List Char} {base : Nat} {m : Mark} {e : LexError}
    (h : wordLiteral ds base m = .error e) : e = ⟨.badInteger (String.ofList ds) base, m.pos⟩ := by
  unfold wordLiteral at h
  dsimp only at h
  split at h
  · cases h
  · cases h
    rfl

theorem word_error {ds rest : List Char} {base : Nat} {m : Mark} {e : LexError}
    (h : (wordLiteral ds base m >>= fun t => pure (t, rest, m) : Scan) = .error e) :
    e = ⟨.badInteger (String.ofList ds) base, m.pos⟩ := by
  rcases bind_eq_error h with h | ⟨_, -, h⟩
  · exact wordLiteral_error h
  · cases h

theorem scanHex_raised {pre r : List Char} {m : Mark} {e : LexError} (hpre : pre ∈ hexPrefixes)
    (h : scanHex r (m.advance pre) = .error e) : Raised lim (pre ++ r) m e := by
  unfold scanHex at h
  dsimp only at h
  split at h
  · next hds =>
    cases h
    exact ⟨pre, r, rfl, rfl, .noHexDigits hpre (head_of_takeWhile_nil hds)⟩
  · rw [word_error h, ← Mark.advance_append]
    refine ⟨pre ++ r.takeWhile isHexDigit, r.dropWhile isHexDigit, ?_, rfl,
      .badHex hpre (head_dropWhile _ _)⟩
    rw [List.append_assoc, List.takeWhile_append_dropWhile]

theorem scanNumber_raised {cs : List Char} {m : Mark} {e : LexError}
    (h : scanNumber cs m = .error e) : Raised lim cs m e := by
  unfold scanNumber at h
  dsimp only at h
  have hsplit := (List.takeWhile_append_dropWhile (p := Char.isDigit) (l := cs)).symm
  have hstop := head_dropWhile Char.isDigit cs
  split at h
  · cases h
  · -- the digits read as an octal word after a leading zero, or else as a decimal word
    split at h
    · next tail _ hints =>
      rw [word_error h]
      rw [hints] at hsplit ⊢
      exact ⟨_, _, hsplit, rfl, .badOctal hstop⟩
    · rw [word_error h]
      exact ⟨_, _, hsplit, rfl, .badDecimal hstop⟩

theorem scanWord_raised {cs : List Char} {m : Mark} {e : LexError}
    (h : scanWord lim cs m = .error e) : Raised lim cs m e := by
  unfold scanWord at h
  dsimp only at h
  split at h
  · next hlong =>
    cases h
    exact ⟨_, _, (List.takeWhile_append_dropWhile).symm, rfl,
      .identifierTooLong (fun _ hc => List.mem_takeWhile_imp hc) (head_dropWhile _ _) hlong⟩
  · cases h

theorem scanString_raised {m : Mark} {acc cs : List Char} {mk : Mark} {e : LexError}
    (h : scanString lim m.offset acc cs mk = .error e) :
    ∀ body, mk = m.advance ('"' :: body) → Raised lim ('"' :: body ++ cs) m e := by
  fun_induction scanString lim m.offset acc cs mk with
  | case1 _ mk =>
    intro body hmk
    cases h
    exact ⟨'"' :: body, [], by simp, by rw [hmk], .unterminatedString⟩
  | case2 => cases h
  | case3 _ mk =>
    intro body hmk
    cases h
    have hpiece : mk.next '\\' = m.advance ('"' :: body ++ ['\\']) := by
      rw [List.cons_append, ← List.cons_append, Mark.advance_append, ← hmk]
      rfl
    exact ⟨'"' :: body ++ ['\\'], [], by simp, by rw [← hpiece], .unterminatedEscape⟩
  | case4 _ c r mk m' hgt =>
    intro body hmk
    cases h
    simp only [m'] at hgt ⊢
    have hpiece : (mk.next '\\').next c = m.advance ('"' :: (body ++ ['\\', c])) := by
      rw [← List.cons_append, Mark.advance_append, ← hmk]
      rfl
    have hbytes : ((mk.next '\\').next c).offset - m.offset =
        (String.ofList ('"' :: (body ++ ['\\', c]))).utf8ByteSize := by
      rw [hpiece, Mark.offset_advance]
      omega
    rw [hbytes] at hgt ⊢
    exact ⟨'"' :: (body ++ ['\\', c]), r, by simp, by rw [hpiece], .stringTooLong hgt⟩
  | case5 _ c r mk _ _ ih =>
    intro body hmk
    obtain ⟨piece, rest, hcs, hpos, hsc⟩ := ih h (body ++ ['\\', c]) (by
      rw [← List.cons_append, Mark.advance_append, ← hmk]
      rfl)
    exact ⟨piece, rest, by rw [← hcs]; simp, hpos, hsc⟩
  | case6 _ c r mk _ _ _ m' hgt =>
    intro body hmk
    cases h
    simp only [m'] at hgt ⊢
    have hpiece : mk.next c = m.advance ('"' :: (body ++ [c])) := by
      rw [← List.cons_append, Mark.advance_append, ← hmk]
      rfl
    have hbytes : (mk.next c).offset - m.offset =
        (String.ofList ('"' :: (body ++ [c]))).utf8ByteSize := by
      rw [hpiece, Mark.offset_advance]
      omega
    rw [hbytes] at hgt ⊢
    exact ⟨'"' :: (body ++ [c]), r, by simp, by rw [hpiece], .stringTooLong hgt⟩
  | case7 _ c r mk _ _ _ _ _ ih =>
    intro body hmk
    obtain ⟨piece, rest, hcs, hpos, hsc⟩ := ih h (body ++ [c]) (by
      rw [← List.cons_append, Mark.advance_append, ← hmk]
      rfl)
    exact ⟨piece, rest, by rw [← hcs]; simp, hpos, hsc⟩

theorem scanQuoted_raised {acc cs : List Char} {mk : Mark} {e : LexError}
    (h : scanQuoted acc cs mk = .error e) :
    ∃ read rest, cs = read ++ rest ∧ (∀ c ∈ rest.head?, c = '\n') ∧
      e = ⟨.unterminatedFourCC, (mk.advance read).pos⟩ := by
  fun_induction scanQuoted acc cs mk with
  | case1 _ mk =>
    cases h
    exact ⟨[], [], rfl, (fun _ hc => by simp at hc), rfl⟩
  | case2 _ r mk =>
    cases h
    exact ⟨[], '\n' :: r, rfl, fun _ hc => (Option.some.inj hc).symm, rfl⟩
  | case3 => cases h
  | case4 _ c r mk _ _ ih =>
    obtain ⟨read, rest, hr, hn, he⟩ := ih h
    exact ⟨c :: read, rest, by rw [hr]; rfl, hn, he⟩

theorem scanQuoted_closed {acc cs body rest : List Char} {mk mk' : Mark}
    (h : scanQuoted acc cs mk = .ok (body, rest, mk')) :
    ∃ read, cs = read ++ '\'' :: rest ∧ body = acc.reverse ++ read ∧
      mk' = mk.advance (read ++ ['\'']) := by
  fun_induction scanQuoted acc cs mk with
  | case1 => cases h
  | case2 => cases h
  | case3 acc r mk =>
    simp only [Except.ok.injEq, Prod.mk.injEq] at h
    obtain ⟨rfl, rfl, rfl⟩ := h
    exact ⟨[], rfl, by simp, rfl⟩
  | case4 acc c r mk _ _ ih =>
    obtain ⟨read, hr, hb, hm⟩ := ih h
    exact ⟨c :: read, by rw [hr]; rfl, by rw [hb]; simp, hm⟩

theorem byteArray_length_toList (b : ByteArray) : b.toList.length = b.size := by
  rw [ByteArray.toList, toList_loop, List.reverse_nil, List.nil_append, List.drop_zero,
    Array.length_toList]
  rfl

theorem scanFourCC_raised {r : List Char} {m : Mark} {e : LexError}
    (h : scanFourCC r (m.next '\'') = .error e) : Raised lim ('\'' :: r) m e := by
  unfold scanFourCC at h
  rcases hq : scanQuoted [] r (m.next '\'') with e' | ⟨body, rest, mk⟩
  · rw [hq] at h
    cases h
    obtain ⟨read, rest, hr, hn, rfl⟩ := scanQuoted_raised hq
    exact ⟨'\'' :: read, rest, by rw [hr]; rfl, rfl, .unterminatedFourCC hn⟩
  · rw [hq] at h
    obtain ⟨read, hr, hb, rfl⟩ := scanQuoted_closed hq
    simp only [List.reverse_nil, List.nil_append] at hb
    subst hb
    dsimp only [bind, Except.bind] at h
    -- only a code of the wrong size fails, after its closing quote
    split at h
    · cases h
    · cases h
    · cases h
      refine ⟨'\'' :: body ++ ['\''], rest, by rw [hr]; simp, ?_, ?_⟩
      · rw [List.cons_append, Mark.advance_cons, Mark.advance_append]
      · rw [byteArray_length_toList]
        exact .fourCCSize

theorem scanSymbol_raised {c : Char} {r : List Char} {m : Mark} {e : LexError}
    (h : scanSymbol c r m = .error e) : Raised lim (c :: r) m e := by
  unfold scanSymbol at h
  dsimp only at h
  -- every symbol is read, and any other character fails at once
  split at h <;> cases h
  exact ⟨[c], r, rfl, rfl, .unexpected⟩

theorem scanToken_raised {cs : List Char} {m : Mark} {e : LexError}
    (h : scanToken lim cs m = .error e) : Raised lim cs m e := by
  unfold scanToken at h
  split at h
  · cases h
  · cases h
  · next x r =>
    split at h
    · next hx =>
      have hpre : ['0', x] ∈ hexPrefixes := by
        rcases hx with rfl | rfl <;> decide
      exact scanHex_raised hpre h
    · exact scanNumber_raised h
  · -- the first character decides the scanner
    next c r _ _ =>
    split at h
    · exact scanNumber_raised h
    split at h
    · exact scanNumber_raised h
    split at h
    · next hc =>
      subst hc
      exact scanHex_raised (show ['$'] ∈ hexPrefixes by decide) h
    split at h
    · exact scanWord_raised h
    split at h
    · next hc =>
      subst hc
      obtain ⟨piece, rest, hcs, hpos, hsc⟩ := scanString_raised h [] rfl
      exact ⟨piece, rest, by simpa using hcs, hpos, hsc⟩
    split at h
    · next hc =>
      subst hc
      exact scanFourCC_raised h
    · exact scanSymbol_raised h

/-! ## One lexeme -/

theorem skipComment_raised {start : Nat} : ∀ {cs : List Char} {m : Mark} {e : LexError},
    skipComment lim start cs m = .error e →
      ∃ body rest, cs = body ++ rest ∧ body ≠ [] ∧ '\n' ∉ body ∧
        lim.maxCommentLength < (m.advance body).offset - start ∧
        e = ⟨.commentTooLong ((m.advance body).offset - start) lim.maxCommentLength,
          (m.advance body).pos⟩
  | [], _, _, h => by simp [skipComment] at h
  | c :: r, m, _, h => by
    unfold skipComment at h
    split at h
    · cases h
    · next hc =>
      dsimp only at h
      split at h
      · next hgt =>
        cases h
        exact ⟨[c], r, rfl, by simp, by simpa using Ne.symm hc, hgt, rfl⟩
      · obtain ⟨body, rest, hr, hne, hn, hgt, he⟩ := skipComment_raised h
        exact ⟨c :: body, rest, by rw [hr]; rfl, by simp, by simp [hn, Ne.symm hc], hgt, he⟩

theorem nextLexeme_raised {count : Nat} {cs : List Char} {m : Mark} {e : LexError}
    (h : nextLexeme lim count cs m = .error e) :
    ∃ part rest, cs = part ++ rest ∧ e.pos = (m.advance part).pos ∧ Halts lim count part rest e.fault := by
  unfold nextLexeme at h
  dsimp only at h
  split at h
  · -- the token budget is spent before anything is read
    next hc =>
    rcases bind_eq_error h with h | ⟨_, h, -⟩
    · cases h
      exact ⟨[], cs, rfl, rfl, .budget hc⟩
    · cases h
  have last : ∀ gap cs₂, cs = gap ++ cs₂ → Skipped gap →
      (scanToken lim cs₂ (m.advance gap) >>= fun x =>
        pure ((⟨x.1, (m.advance gap).pos⟩ : Lexeme), x.2.1, x.2.2)) = .error e →
      ∃ part rest, cs = part ++ rest ∧ e.pos = (m.advance part).pos ∧
        Halts lim count part rest e.fault := by
    intro gap cs₂ hcs hgap h
    rcases bind_eq_error h with h | ⟨_, -, h⟩
    · obtain ⟨piece, rest, rfl, hpos, hsc⟩ := scanToken_raised h
      exact ⟨gap ++ piece, rest, by rw [hcs, List.append_assoc],
        by rw [Mark.advance_append]; exact hpos, .scan hgap hsc⟩
    · cases h
  rcases hs : skipBlanks cs m with ⟨cs₁, m₁⟩
  rw [hs] at h
  dsimp only at h
  split at h
  · next x =>
    rcases bind_eq_error h with h | ⟨⟨cs₂, m₂⟩, hc, h⟩
    · -- the comment after the blanks runs over its bound
      obtain ⟨blanks, hcs, hm, hb⟩ := skipBlanks_reads cs m
      rw [hs] at hcs hm
      dsimp only at hcs hm
      obtain ⟨body, rest, hr, hne, hn, hgt, rfl⟩ := skipComment_raised h
      obtain ⟨c, body, rfl⟩ := List.exists_cons_of_ne_nil hne
      simp only [List.cons_append, List.cons.injEq] at hr
      obtain ⟨rfl, hr⟩ := hr
      have hbytes : (m₁.advance ('/' :: body)).offset - m₁.offset =
          (String.ofList ('/' :: body)).utf8ByteSize := by
        rw [Mark.offset_advance]
        omega
      rw [hbytes] at hgt ⊢
      refine ⟨blanks ++ '/' :: body, rest, by rw [hcs, hr]; simp, ?_,
        .comment hb (by rw [← hr]; rfl) (fun h => hn (.tail _ h)) hgt⟩
      rw [Mark.advance_append, ← hm]
    · obtain ⟨gap, hcs, rfl, hgap⟩ := skipped_blanks_comment hs hc
      exact last gap cs₂ hcs hgap h
  · obtain ⟨gap, hcs, rfl, hgap⟩ := skipped_blanks hs
    exact last gap cs₁ hcs hgap h

/-! ## The lexemes of a text -/

theorem lexemes_raised : ∀ (fuel count : Nat) (done cs : List Char) (acc : Array Lexeme)
    (e : LexError), lexemes lim fuel count cs (Mark.advance {} done) acc = .error e →
      ∃ lxs read part rest, cs = read ++ part ++ rest ∧ Leads lim done cs lxs (part ++ rest) ∧
        e.pos = posAfter (done ++ read ++ part) ∧ Halts lim (count + lxs.length) part rest e.fault
  | 0, _, _, _, _, _, h => by cases h
  | fuel + 1, count, done, cs, acc, e, h => by
    unfold lexemes at h
    rcases bind_eq_error h with h | ⟨⟨lx, rest, m'⟩, hn, h⟩
    · obtain ⟨part, rest, hcs, hpos, hh⟩ := nextLexeme_raised h
      refine ⟨[], [], part, rest, by simpa using hcs, hcs ▸ .nil, ?_, hh⟩
      rw [hpos, ← Mark.advance_append, Mark.pos_advance_start, List.append_nil]
    · obtain ⟨gap, text, rfl, hgap, hpos, hscan, rfl⟩ := nextLexeme_reads hn
      rw [← Mark.advance_append] at hpos hscan
      rw [← Mark.advance_append, ← Mark.advance_append] at h
      rw [Mark.pos_advance_start] at hpos
      obtain ⟨tok, pos⟩ := lx
      dsimp only at hpos hscan h
      subst hpos
      split at h
      · cases h
      · next hne =>
        obtain ⟨lxs, read, part, rest', hr, hl, he, hh⟩ :=
          lexemes_raised fuel (count + 1) (done ++ gap ++ text) rest _ e (by rwa [List.append_assoc])
        have hcount : count + 1 + lxs.length = count + (lxs.length + 1) := by omega
        rw [hcount] at hh
        exact ⟨_ :: lxs, gap ++ text ++ read, part, rest', by rw [hr]; simp,
          .token hgap hne hscan hl, by rw [he]; simp, hh⟩

end Lexer

/-- Lexing places every lexeme at the line and column of the text before it: an accepted text
is cut, in the lexer's own way, into the gaps it skips and the texts of its lexemes, whose
starts strictly increase and end with the end of the text, where the one `eof` stands; each
lexeme stands one line below each line break before its start and one column right of each
character since the last of them, so a line break token stands at its own line break. A
failure is reported at the position, counted the same way, of the cursor when it is raised:
after the lexemes read before it and the part of the failing one read so far. -/
theorem lexemes_stand_where_they_start (src : String) (lim : Limits) :
    (∀ toks : Array Lexeme, lex src lim = .ok toks →
      ∃ starts, Lexer.Layout lim src.toList toks.toList starts) ∧
    (∀ e : LexError, lex src lim = .error e →
      ∃ lxs read part rest, src.toList = read ++ part ++ rest ∧
        Lexer.Leads lim [] src.toList lxs (part ++ rest) ∧ e.pos = Lexer.posAfter (read ++ part) ∧
        Lexer.Halts lim lxs.length part rest e.fault) := by
  unfold lex
  split
  · -- the size check fails before anything is read
    next hgt =>
    refine ⟨fun _ h => (by cases h), fun e h => ?_⟩
    cases h
    exact ⟨[], [], [], src.toList, rfl, .nil, rfl, .size rfl (by rw [String.ofList_toList]) hgt⟩
  · refine ⟨fun toks h => ?_, fun e h => ?_⟩
    · obtain ⟨lxs, hspans, hout⟩ :=
        Lexer.lexemes_spans _ 0 [] src.toList #[] toks (by simp [String.length_toList]) h
      rw [hout, Array.toList_empty, List.nil_append]
      exact ⟨_, hspans.layout⟩
    · simpa using Lexer.lexemes_raised _ 0 [] src.toList #[] e h

theorem carriage_return_counts_one_column :
    lex "local integer i\r\n  set i = 2" {} = .ok #[⟨.keyword .kwLocal, ⟨1, 1⟩⟩,
      ⟨.ident "integer", ⟨1, 7⟩⟩, ⟨.ident "i", ⟨1, 15⟩⟩, ⟨.newline, ⟨1, 17⟩⟩,
      ⟨.keyword .kwSet, ⟨2, 3⟩⟩, ⟨.ident "i", ⟨2, 7⟩⟩, ⟨.symbol .assign, ⟨2, 9⟩⟩,
      ⟨.integer 2, ⟨2, 11⟩⟩, ⟨.eof, ⟨2, 12⟩⟩] ∧
    (∃ starts, Lexer.Layout {} "local integer i\r\n  set i = 2".toList [⟨.keyword .kwLocal, ⟨1, 1⟩⟩,
      ⟨.ident "integer", ⟨1, 7⟩⟩, ⟨.ident "i", ⟨1, 15⟩⟩, ⟨.newline, ⟨1, 17⟩⟩,
      ⟨.keyword .kwSet, ⟨2, 3⟩⟩, ⟨.ident "i", ⟨2, 7⟩⟩, ⟨.symbol .assign, ⟨2, 9⟩⟩,
      ⟨.integer 2, ⟨2, 11⟩⟩, ⟨.eof, ⟨2, 12⟩⟩] starts) ∧
    lex "a ?" {} = .error ⟨.unexpectedChar '?', ⟨1, 4⟩⟩ ∧
    ∃ lxs read part rest, "a ?".toList = read ++ part ++ rest ∧
      Lexer.Leads {} [] "a ?".toList lxs (part ++ rest) ∧ (⟨1, 4⟩ : Pos) = Lexer.posAfter (read ++ part) ∧
      Lexer.Halts {} lxs.length part rest (.unexpectedChar '?') :=
  have hok : lex "local integer i\r\n  set i = 2" {} = .ok #[⟨.keyword .kwLocal, ⟨1, 1⟩⟩,
      ⟨.ident "integer", ⟨1, 7⟩⟩, ⟨.ident "i", ⟨1, 15⟩⟩, ⟨.newline, ⟨1, 17⟩⟩,
      ⟨.keyword .kwSet, ⟨2, 3⟩⟩, ⟨.ident "i", ⟨2, 7⟩⟩, ⟨.symbol .assign, ⟨2, 9⟩⟩,
      ⟨.integer 2, ⟨2, 11⟩⟩, ⟨.eof, ⟨2, 12⟩⟩] := rfl
  have herr : lex "a ?" {} = .error ⟨.unexpectedChar '?', ⟨1, 4⟩⟩ := rfl
  ⟨hok, (lexemes_stand_where_they_start _ _).1 _ hok, herr,
    (lexemes_stand_where_they_start _ _).2 _ herr⟩

end Jass
