import Jass.Proofs.Lex.Printed
/-!
# Where the lexer places its lexemes

The lexer's cursor (`Mark`) moves over one character at a time: a line break starts the next
line at column one, every other character (a tab and a carriage return too) moves one column on,
and the byte offset grows by the character's UTF-8 size. So the cursor after a text depends on
that text alone (`Mark.advance_start`): its line is one more than the text's line breaks, its
column one more than the characters after the last of them (`posAfter`).

Every scanner moves the cursor over exactly the characters it reads, and raises its errors at a
cursor inside the text it was given (`Follows`). A lexed text is therefore cut into pieces, one
per lexeme (`Spans`): the blanks and the comment the lexer skips, then the lexeme's own text,
read by `scanToken` from the cursor where it starts; the lexeme stands at the position of the
text before that start (`Layout`). Where the lexer stops on an error is the subject of
`Jass.Proofs.Lex.Raised`.
-/

namespace Jass

def Token.isBreak : Token → Bool
  | .newline | .eof => true
  | _ => false

namespace Lexer

/-- The position after the text `p`: one more than its line breaks, and one more than the
characters after the last of them. -/
def posAfter (p : List Char) : Pos :=
  ⟨p.count '\n' + 1, (p.reverse.takeWhile (· != '\n')).length + 1⟩

/-! ## The cursor after a text -/

@[simp] theorem Mark.advance_nil (m : Mark) : m.advance [] = m := rfl

@[simp] theorem Mark.advance_cons (m : Mark) (c : Char) (cs : List Char) :
    m.advance (c :: cs) = (m.next c).advance cs := rfl

theorem Mark.advance_append (m : Mark) (a b : List Char) :
    m.advance (a ++ b) = (m.advance a).advance b :=
  List.foldl_append

theorem byteSize_append_singleton (p : List Char) (c : Char) :
    (String.ofList (p ++ [c])).utf8ByteSize = (String.ofList p).utf8ByteSize + c.utf8Size := by
  simp [utf8ByteSize_eq_sum]

/-- The cursor after a text, from the start of the input, counts the text's lines, its
characters since the last line break, and its bytes. -/
theorem Mark.advance_start (p : List Char) :
    Mark.advance {} p =
      ⟨(posAfter p).line, (posAfter p).column, (String.ofList p).utf8ByteSize⟩ := by
  induction p using List.reverseRecOn with
  | nil => rfl
  | append_singleton p c ih =>
    rw [Mark.advance_append, ih, byteSize_append_singleton]
    simp only [Mark.advance_cons, Mark.advance_nil, Mark.next, posAfter, List.count_append,
      List.reverse_append, List.reverse_singleton, List.singleton_append]
    by_cases hc : c = '\n'
    · subst hc
      simp
    · simp [hc]

@[simp] theorem Mark.pos_advance_start (p : List Char) : (Mark.advance {} p).pos = posAfter p := by
  rw [Mark.advance_start]
  rfl

theorem Mark.offset_advance_start (p : List Char) :
    (Mark.advance {} p).offset = (String.ofList p).utf8ByteSize := by
  rw [Mark.advance_start]

theorem byteSize_cons (c : Char) (p : List Char) :
    (String.ofList (c :: p)).utf8ByteSize = c.utf8Size + (String.ofList p).utf8ByteSize := by
  simp [utf8ByteSize_eq_sum]

theorem Mark.offset_advance (m : Mark) (p : List Char) :
    (m.advance p).offset = m.offset + (String.ofList p).utf8ByteSize := by
  induction p generalizing m with
  | nil => simp
  | cons c p ih =>
    rw [Mark.advance_cons, ih, Mark.offset_next, byteSize_cons]
    omega

/-! ## Each scanner moves the cursor over what it reads -/

/-- A scan of the text `cs` from the cursor `m` either moved the cursor over exactly the text it
read, which the `rest` it returns follows, or failed at a cursor inside `cs`. -/
def Follows {α : Type} (cs : List Char) (m : Mark) : Except LexError (α × List Char × Mark) → Prop
  | .ok (_, rest, m') => ∃ text, cs = text ++ rest ∧ m' = m.advance text
  | .error e => ∃ text rest, cs = text ++ rest ∧ e.pos = (m.advance text).pos

variable {α : Type} {lim : Limits} {cs : List Char} {m : Mark}

theorem follows_ok {a : α} {rest : List Char} {m' : Mark} (text : List Char)
    (hcs : cs = text ++ rest) (hm : m' = m.advance text) : Follows cs m (.ok (a, rest, m')) :=
  ⟨text, hcs, hm⟩

theorem follows_error {e : LexError} (text rest : List Char) (hcs : cs = text ++ rest)
    (he : e.pos = (m.advance text).pos) : Follows cs m (.error e : Except LexError (α × _)) :=
  ⟨text, rest, hcs, he⟩

theorem Follows.ok_of {a : α} {rest : List Char} {m' : Mark} {x : Except LexError (α × List Char × Mark)}
    (h : Follows cs m x) (hx : x = .ok (a, rest, m')) : ∃ text, cs = text ++ rest ∧ m' = m.advance text := by
  subst hx
  exact h

theorem Follows.after (pre : List Char) {x : Except LexError (α × List Char × Mark)}
    (h : Follows cs (m.advance pre) x) : Follows (pre ++ cs) m x := by
  rcases x with e | ⟨a, rest, m'⟩
  · obtain ⟨text, r, rfl, he⟩ := h
    exact follows_error (pre ++ text) r (by simp) (by rw [Mark.advance_append]; exact he)
  · obtain ⟨text, rfl, rfl⟩ := h
    exact follows_ok (pre ++ text) (by simp) (Mark.advance_append ..).symm

theorem wordLiteral_follows {ds text rest : List Char} {base : Nat} (hcs : cs = text ++ rest) :
    Follows cs m (wordLiteral ds base (m.advance text) >>= fun t => pure (t, rest, m.advance text)) := by
  unfold wordLiteral
  dsimp only
  split
  · exact follows_ok text hcs rfl
  · exact follows_error text rest hcs rfl

theorem scanHex_follows (cs : List Char) (m : Mark) : Follows cs m (scanHex cs m) := by
  unfold scanHex
  dsimp only
  split
  · exact follows_error [] cs rfl rfl
  · exact wordLiteral_follows (List.takeWhile_append_dropWhile).symm

theorem scanNumber_follows (cs : List Char) (m : Mark) : Follows cs m (scanNumber cs m) := by
  unfold scanNumber
  dsimp only
  have hsplit := (List.takeWhile_append_dropWhile (p := Char.isDigit) (l := cs)).symm
  split
  · next r hr =>
    -- the digits, the point and the digits after it
    rw [hr] at hsplit
    refine follows_ok (cs.takeWhile Char.isDigit ++ '.' :: r.takeWhile Char.isDigit) ?_ ?_
    · conv_lhs => rw [hsplit, ← List.takeWhile_append_dropWhile (p := Char.isDigit) (l := r)]
      simp
    · simp [Mark.advance_append]
  · split
    · exact wordLiteral_follows hsplit
    · exact wordLiteral_follows hsplit

theorem scanWord_follows (cs : List Char) (m : Mark) : Follows cs m (scanWord lim cs m) := by
  unfold scanWord
  dsimp only
  have hsplit := (List.takeWhile_append_dropWhile (p := isIdentContinue) (l := cs)).symm
  split
  · exact follows_error _ _ hsplit rfl
  · exact follows_ok _ hsplit rfl

theorem scanString_follows {start : Nat} {acc : List Char} (cs : List Char) (m : Mark) :
    Follows cs m (scanString lim start acc cs m) := by
  fun_induction scanString lim start acc cs m with
  | case1 m => exact follows_error [] [] rfl rfl
  | case2 _ r m => exact follows_ok ['"'] rfl rfl
  | case3 m => exact follows_error ['\\'] [] rfl rfl
  | case4 _ e r m => exact follows_error ['\\', e] r rfl rfl
  | case5 _ e r m _ _ ih => exact Follows.after ['\\', e] ih
  | case6 _ c r m => exact follows_error [c] r rfl rfl
  | case7 _ c r m _ _ _ _ _ ih => exact Follows.after [c] ih

theorem scanQuoted_follows {acc : List Char} (cs : List Char) (m : Mark) :
    Follows cs m (scanQuoted acc cs m) := by
  fun_induction scanQuoted acc cs m with
  | case1 m => exact follows_error [] [] rfl rfl
  | case2 r m => exact follows_error [] _ rfl rfl
  | case3 _ r m => exact follows_ok ['\''] rfl rfl
  | case4 _ c r m _ _ ih => exact Follows.after [c] ih

theorem scanFourCC_follows (cs : List Char) (m : Mark) : Follows cs m (scanFourCC cs m) := by
  unfold scanFourCC
  have hq : Follows cs m (scanQuoted [] cs m) := scanQuoted_follows cs m
  rcases hr : scanQuoted [] cs m with e | ⟨body, rest, m'⟩
  · rw [hr] at hq
    exact hq
  · rw [hr] at hq
    obtain ⟨text, hcs, rfl⟩ := hq
    dsimp only [bind, Except.bind]
    split
    · exact follows_ok text hcs rfl
    · exact follows_ok text hcs rfl
    · exact follows_error text rest hcs rfl

theorem scanSymbol_follows (c : Char) (r : List Char) (m : Mark) :
    Follows (c :: r) m (scanSymbol c r m) := by
  unfold scanSymbol
  dsimp only
  -- one character, or two with a following `=`
  split <;> first
    | exact follows_ok [_] rfl rfl
    | exact follows_ok [_, '='] rfl rfl
    | exact follows_error [_] _ rfl rfl

theorem scanToken_follows (cs : List Char) (m : Mark) : Follows cs m (scanToken lim cs m) := by
  unfold scanToken
  split
  · exact follows_ok [] rfl rfl
  · exact follows_ok ['\n'] rfl rfl
  · split
    · exact Follows.after ['0', _] (scanHex_follows _ _)
    · exact scanNumber_follows _ _
  · -- the first character decides the scanner
    split
    · exact scanNumber_follows _ _
    split
    · exact scanNumber_follows _ _
    split
    · next hc =>
      subst hc
      exact Follows.after ['$'] (scanHex_follows _ _)
    split
    · exact scanWord_follows _ _
    split
    · next hc =>
      subst hc
      exact Follows.after ['"'] (scanString_follows _ _)
    split
    · next hc =>
      subst hc
      exact Follows.after ['\''] (scanFourCC_follows _ _)
    · exact scanSymbol_follows _ _ m

/-! ## Line breaks and the end are read from themselves -/

theorem wordLiteral_word {ds : List Char} {base : Nat} {t : Token}
    (h : wordLiteral ds base m = .ok t) : t.isBreak = false := by
  unfold wordLiteral at h
  dsimp only at h
  split at h
  · cases h
    rfl
  · cases h

variable {t : Token} {rest : List Char} {m' : Mark}

theorem scanHex_word (h : scanHex cs m = .ok (t, rest, m')) : t.isBreak = false := by
  unfold scanHex at h
  dsimp only at h
  split at h
  · cases h
  · obtain ⟨_, hw, h⟩ := bind_eq_ok h
    cases h
    exact wordLiteral_word hw

theorem scanNumber_word (h : scanNumber cs m = .ok (t, rest, m')) : t.isBreak = false := by
  unfold scanNumber at h
  dsimp only at h
  split at h
  · cases h
    rfl
  · split at h <;>
    · obtain ⟨_, hw, h⟩ := bind_eq_ok h
      cases h
      exact wordLiteral_word hw

theorem scanWord_word (h : scanWord lim cs m = .ok (t, rest, m')) : t.isBreak = false := by
  unfold scanWord at h
  dsimp only at h
  split at h
  · cases h
  · cases h
    split <;> rfl

theorem scanString_word {start : Nat} {acc : List Char}
    (h : scanString lim start acc cs m = .ok (t, rest, m')) : t.isBreak = false := by
  fun_induction scanString lim start acc cs m with
  | case2 =>
    cases h
    rfl
  | case5 _ _ _ _ _ _ ih => exact ih h
  | case7 _ _ _ _ _ _ _ _ _ ih => exact ih h
  | _ => cases h

theorem scanFourCC_word (h : scanFourCC cs m = .ok (t, rest, m')) : t.isBreak = false := by
  unfold scanFourCC at h
  obtain ⟨_, -, h⟩ := bind_eq_ok h
  dsimp only at h
  split at h <;> cases h <;> rfl

theorem scanSymbol_word {c : Char} {r : List Char} (h : scanSymbol c r m = .ok (t, rest, m')) :
    t.isBreak = false := by
  unfold scanSymbol at h
  dsimp only at h
  split at h <;> cases h <;> rfl

theorem scanToken_break (h : scanToken lim cs m = .ok (t, rest, m')) (ht : t.isBreak = true) :
    (t = .eof ∧ cs = [] ∧ rest = []) ∨ (t = .newline ∧ cs = '\n' :: rest) := by
  unfold scanToken at h
  split at h
  · cases h
    exact .inl ⟨rfl, rfl, rfl⟩
  · cases h
    exact .inr ⟨rfl, rfl⟩
  · split at h
    · exact absurd ht (by rw [scanHex_word h]; decide)
    · exact absurd ht (by rw [scanNumber_word h]; decide)
  · split at h
    · exact absurd ht (by rw [scanNumber_word h]; decide)
    split at h
    · exact absurd ht (by rw [scanNumber_word h]; decide)
    split at h
    · exact absurd ht (by rw [scanHex_word h]; decide)
    split at h
    · exact absurd ht (by rw [scanWord_word h]; decide)
    split at h
    · exact absurd ht (by rw [scanString_word h]; decide)
    split at h
    · exact absurd ht (by rw [scanFourCC_word h]; decide)
    · exact absurd ht (by rw [scanSymbol_word h]; decide)

/-! ## Blanks and comments -/

/-- What the lexer skips before a token: blanks (space, tab, carriage return), then perhaps a
comment, from `//` up to the line break. -/
def Skipped (gap : List Char) : Prop :=
  ∃ blanks comment, gap = blanks ++ comment ∧ (∀ c ∈ blanks, c = ' ' ∨ c = '\t' ∨ c = '\r') ∧
    (comment = [] ∨ ∃ body, comment = '/' :: '/' :: body ∧ '\n' ∉ body)

theorem skipBlanks_reads : ∀ (cs : List Char) (m : Mark), ∃ blanks,
    cs = blanks ++ (skipBlanks cs m).1 ∧ (skipBlanks cs m).2 = m.advance blanks ∧
      ∀ c ∈ blanks, c = ' ' ∨ c = '\t' ∨ c = '\r'
  | [], m => ⟨[], rfl, rfl, by simp⟩
  | c :: r, m => by
    unfold skipBlanks
    split
    · next hc =>
      obtain ⟨blanks, hr, hm, hb⟩ := skipBlanks_reads r (m.next c)
      refine ⟨c :: blanks, by rw [List.cons_append, ← hr], hm, ?_⟩
      intro x hx
      rcases List.mem_cons.mp hx with rfl | hx
      · exact hc
      · exact hb x hx
    · exact ⟨[], rfl, rfl, by simp⟩

theorem skipComment_reads {start : Nat} : ∀ {cs rest : List Char} {m m' : Mark},
    skipComment lim start cs m = .ok (rest, m') →
      ∃ body, cs = body ++ rest ∧ m' = m.advance body ∧ '\n' ∉ body ∧ ∀ c ∈ rest.head?, c = '\n'
  | [], _, _, _, h => by
    simp only [skipComment, Except.ok.injEq, Prod.mk.injEq] at h
    obtain ⟨rfl, rfl⟩ := h
    exact ⟨[], rfl, rfl, by simp, by simp⟩
  | c :: r, _, m, _, h => by
    unfold skipComment at h
    split at h
    · next hc =>
      cases h
      exact ⟨[], rfl, rfl, by simp, by simp [hc]⟩
    · next hc =>
      dsimp only at h
      split at h
      · cases h
      · obtain ⟨body, hr, hm, hn, hstop⟩ := skipComment_reads h
        exact ⟨c :: body, by rw [hr]; rfl, hm, by simp [hn, Ne.symm hc], hstop⟩

theorem skipComment_comment {start : Nat} {x rest : List Char} {m m' : Mark}
    (h : skipComment lim start ('/' :: '/' :: x) m = .ok (rest, m')) :
    ∃ body, x = body ++ rest ∧ m' = m.advance ('/' :: '/' :: body) ∧ '\n' ∉ body := by
  obtain ⟨body, hcs, hm, hn, hstop⟩ := skipComment_reads h
  -- the two slashes are no line break, so the comment runs over them
  match body, hcs with
  | [], hcs =>
    rw [List.nil_append] at hcs
    subst hcs
    exact absurd (hstop '/' rfl) (by decide)
  | [_], hcs =>
    simp only [List.cons_append, List.nil_append, List.cons.injEq] at hcs
    obtain ⟨rfl, rfl⟩ := hcs
    exact absurd (hstop '/' rfl) (by decide)
  | c₁ :: c₂ :: body, hcs =>
    simp only [List.cons_append, List.cons.injEq] at hcs
    obtain ⟨rfl, rfl, rfl⟩ := hcs
    exact ⟨body, rfl, hm, fun h => hn (List.mem_cons_of_mem _ (List.mem_cons_of_mem _ h))⟩

/-! ## One lexeme -/

theorem bind_eq_error {ε α β : Type} {x : Except ε α} {f : α → Except ε β} {e : ε}
    (h : (x >>= f) = .error e) : x = .error e ∨ ∃ a, x = .ok a ∧ f a = .error e := by
  cases x with
  | error e' =>
    injection h with h
    exact .inl (h ▸ rfl)
  | ok a => exact .inr ⟨a, rfl, h⟩

theorem skipped_blanks {cs cs₁ : List Char} {m m₁ : Mark} (hs : skipBlanks cs m = (cs₁, m₁)) :
    ∃ gap, cs = gap ++ cs₁ ∧ m₁ = m.advance gap ∧ Skipped gap := by
  obtain ⟨blanks, hcs, hm, hb⟩ := skipBlanks_reads cs m
  rw [hs] at hcs hm
  dsimp only at hcs hm
  exact ⟨blanks, hcs, hm, blanks, [], by simp, hb, .inl rfl⟩

theorem skipped_blanks_comment {cs x cs₂ : List Char} {m m₁ m₂ : Mark} {start : Nat}
    (hs : skipBlanks cs m = ('/' :: '/' :: x, m₁))
    (hc : skipComment lim start ('/' :: '/' :: x) m₁ = .ok (cs₂, m₂)) :
    ∃ gap, cs = gap ++ cs₂ ∧ m₂ = m.advance gap ∧ Skipped gap := by
  obtain ⟨blanks, hcs, hm, hb⟩ := skipBlanks_reads cs m
  rw [hs] at hcs hm
  dsimp only at hcs hm
  obtain ⟨body, hx, hm₂, hn⟩ := skipComment_comment hc
  refine ⟨blanks ++ '/' :: '/' :: body, ?_, ?_, blanks, _, rfl, hb, .inr ⟨body, rfl, hn⟩⟩
  · rw [hcs, hx]
    simp
  · rw [hm₂, hm, Mark.advance_append]

theorem nextLexeme_reads {count : Nat} {cs rest : List Char} {m m' : Mark} {lx : Lexeme}
    (h : nextLexeme lim count cs m = .ok (lx, rest, m')) :
    ∃ gap text, cs = gap ++ text ++ rest ∧ Skipped gap ∧ lx.pos = (m.advance gap).pos ∧
      scanToken lim (text ++ rest) (m.advance gap) = .ok (lx.token, rest, m') ∧
      m' = (m.advance gap).advance text := by
  unfold nextLexeme at h
  dsimp only at h
  split at h
  · obtain ⟨_, h', -⟩ := bind_eq_ok h
    cases h'
  -- both ways past a comment end by scanning a token from the cursor after the gap
  have last : ∀ gap cs₂, cs = gap ++ cs₂ → Skipped gap →
      (scanToken lim cs₂ (m.advance gap) >>= fun x =>
        pure (⟨x.1, (m.advance gap).pos⟩, x.2.1, x.2.2)) = .ok (lx, rest, m') →
      ∃ gap text, cs = gap ++ text ++ rest ∧ Skipped gap ∧ lx.pos = (m.advance gap).pos ∧
        scanToken lim (text ++ rest) (m.advance gap) = .ok (lx.token, rest, m') ∧
        m' = (m.advance gap).advance text := by
    intro gap cs₂ hcs hgap h
    obtain ⟨⟨tok, rest', m''⟩, ht, h⟩ := bind_eq_ok h
    simp only [pure, Except.pure, Except.ok.injEq, Prod.mk.injEq] at h
    obtain ⟨rfl, rfl, rfl⟩ := h
    have hf : Follows cs₂ (m.advance gap) (scanToken lim cs₂ (m.advance gap)) := scanToken_follows _ _
    obtain ⟨text, rfl, rfl⟩ := hf.ok_of ht
    exact ⟨gap, text, by rw [hcs, List.append_assoc], hgap, rfl, ht, rfl⟩
  rcases hs : skipBlanks cs m with ⟨cs₁, m₁⟩
  rw [hs] at h
  dsimp only at h
  split at h
  · next x =>
    obtain ⟨⟨cs₂, m₂⟩, hc, h⟩ := bind_eq_ok h
    obtain ⟨gap, hcs, rfl, hgap⟩ := skipped_blanks_comment hs hc
    exact last gap cs₂ hcs hgap h
  · obtain ⟨gap, hcs, rfl, hgap⟩ := skipped_blanks hs
    exact last gap cs₁ hcs hgap h

/-! ## The lexemes of a text -/

/-- `Spans lim done cs lxs`: the text `cs`, read after the text `done`, lexes to the lexemes of
`lxs`, each paired with the text before its start. Before each lexeme the lexer skips a gap; a
lexeme other than the end is read by `scanToken` from the cursor after the gap, and the end
comes last, after the final gap. -/
inductive Spans (lim : Limits) : List Char → List Char → List (Lexeme × List Char) → Prop
  | last {done gap : List Char} : Skipped gap →
      Spans lim done gap [(⟨.eof, posAfter (done ++ gap)⟩, done ++ gap)]
  | token {done gap text rest : List Char} {t : Token} {m' : Mark}
      {lxs : List (Lexeme × List Char)} : Skipped gap → t ≠ .eof →
      scanToken lim (text ++ rest) (Mark.advance {} (done ++ gap)) = .ok (t, rest, m') →
      Spans lim (done ++ gap ++ text) rest lxs →
      Spans lim done (gap ++ text ++ rest) ((⟨t, posAfter (done ++ gap)⟩, done ++ gap) :: lxs)

theorem lexemes_spans : ∀ (fuel count : Nat) (done cs : List Char) (acc out : Array Lexeme),
    cs.length < fuel → lexemes lim fuel count cs (Mark.advance {} done) acc = .ok out →
      ∃ lxs, Spans lim done cs lxs ∧ out.toList = acc.toList ++ lxs.map (·.1)
  | 0, _, _, _, _, _, hf, _ => absurd hf (Nat.not_lt_zero _)
  | fuel + 1, count, done, cs, acc, out, hf, h => by
    unfold lexemes at h
    obtain ⟨⟨lx, rest, m'⟩, hn, h⟩ := bind_eq_ok h
    obtain ⟨gap, text, rfl, hgap, hpos, hscan, rfl⟩ := nextLexeme_reads hn
    rw [← Mark.advance_append] at hpos hscan
    rw [← Mark.advance_append, ← Mark.advance_append] at h
    rw [Mark.pos_advance_start] at hpos
    obtain ⟨tok, pos⟩ := lx
    dsimp only at hpos hscan h
    subst hpos
    split at h
    · -- the end is read from the end of the text
      cases h
      obtain ⟨-, htext, rfl⟩ | ⟨h, -⟩ := scanToken_break hscan rfl
      · rw [List.append_eq_nil_iff] at htext
        obtain ⟨rfl, -⟩ := htext
        rw [List.append_nil, List.append_nil]
        exact ⟨_, .last hgap, by simp⟩
      · cases h
    · next hne =>
      have htext : rest.length < (text ++ rest).length :=
        (scanToken_rest hscan).resolve_left hne
      obtain ⟨lxs, hspans, hout⟩ := lexemes_spans fuel (count + 1) (done ++ gap ++ text) rest
        (acc.push ⟨tok, posAfter (done ++ gap)⟩) out (by simp at htext hf ⊢; omega)
        (by rwa [List.append_assoc])
      refine ⟨_, .token hgap hne hscan hspans, ?_⟩
      rw [hout]
      simp

/-! ## What the cut says about starts -/

namespace Spans

variable {done cs : List Char} {lxs : List (Lexeme × List Char)}

theorem byteSize_append (a b : List Char) :
    (String.ofList (a ++ b)).utf8ByteSize = (String.ofList a).utf8ByteSize + (String.ofList b).utf8ByteSize := by
  simp [utf8ByteSize_eq_sum]

theorem byteSize_pos {text : List Char} (h : text ≠ []) : 0 < (String.ofList text).utf8ByteSize := by
  obtain ⟨c, r, rfl⟩ := List.exists_cons_of_ne_nil h
  simp only [utf8ByteSize_eq_sum, String.toList_ofList, List.map_cons, List.sum_cons]
  have := Char.utf8Size_pos c
  omega

theorem starts_between (h : Spans lim done cs lxs) : ∀ x ∈ lxs, done <+: x.2 ∧ x.2 <+: done ++ cs := by
  induction h with
  | last _ =>
    intro x hx
    rw [List.mem_singleton] at hx
    subst hx
    exact ⟨List.prefix_append _ _, List.prefix_refl _⟩
  | @token done gap text rest _ _ _ _ _ _ _ ih =>
    intro x hx
    rcases List.mem_cons.mp hx with rfl | hx
    · exact ⟨List.prefix_append _ _, by simp⟩
    · obtain ⟨h₁, h₂⟩ := ih x hx
      exact ⟨(List.prefix_append _ _).trans ((List.prefix_append _ _).trans h₁), by simpa using h₂⟩

theorem positions (h : Spans lim done cs lxs) : ∀ x ∈ lxs, x.1.pos = posAfter x.2 := by
  induction h with
  | last _ =>
    intro x hx
    rw [List.mem_singleton] at hx
    subst hx
    rfl
  | token _ _ _ _ ih =>
    intro x hx
    rcases List.mem_cons.mp hx with rfl | hx
    · rfl
    · exact ih x hx

theorem text_ne_nil {gap text rest : List Char} {t : Token} {m' : Mark} (hne : t ≠ .eof)
    (hscan : scanToken lim (text ++ rest) (Mark.advance {} (done ++ gap)) = .ok (t, rest, m')) :
    text ≠ [] := by
  rintro rfl
  have := (scanToken_rest hscan).resolve_left hne
  simp at this

theorem offsets_increase (h : Spans lim done cs lxs) :
    (lxs.map fun x => (String.ofList x.2).utf8ByteSize).Pairwise (· < ·) := by
  induction h with
  | last _ => exact List.pairwise_singleton _ _
  | @token done gap text rest t m' lxs _ hne hscan hspans ih =>
    refine List.Pairwise.cons ?_ ih
    intro n hn
    obtain ⟨x, hx, rfl⟩ := List.mem_map.mp hn
    -- every later start extends this one by the token's text, which is not empty
    obtain ⟨⟨more, hmore⟩, -⟩ := hspans.starts_between x hx
    have := byteSize_pos (text_ne_nil hne hscan)
    dsimp only
    rw [← hmore]
    simp only [byteSize_append]
    omega

theorem last_start (h : Spans lim done cs lxs) : (lxs.map (·.2)).getLast? = some (done ++ cs) := by
  induction h with
  | last _ => rfl
  | @token done gap text rest _ _ lxs _ _ _ hspans ih =>
    cases lxs with
    | nil => cases hspans
    | cons y ys =>
      rw [List.map_cons, List.map_cons, List.getLast?_cons_cons, ← List.map_cons, ih]
      simp

theorem eof_last (h : Spans lim done cs lxs) :
    (lxs.map (·.1.token)).getLast? = some .eof ∧ ∀ x ∈ lxs.dropLast, x.1.token ≠ .eof := by
  induction h with
  | last _ => exact ⟨rfl, by simp⟩
  | @token done gap text rest _ _ lxs _ hne _ hspans ih =>
    cases lxs with
    | nil => cases hspans
    | cons y ys =>
      refine ⟨?_, ?_⟩
      · rw [List.map_cons, List.map_cons, List.getLast?_cons_cons]
        exact ih.1
      · intro x hx
        rw [List.dropLast_cons_cons, List.mem_cons] at hx
        rcases hx with rfl | hx
        · exact hne
        · exact ih.2 x hx

theorem newlines (h : Spans lim done cs lxs) :
    ∀ x ∈ lxs, x.1.token = .newline → (done ++ cs)[x.2.length]? = some '\n' := by
  induction h with
  | last _ =>
    intro x hx ht
    rw [List.mem_singleton] at hx
    subst hx
    cases ht
  | @token done gap text rest t _ _ _ _ hscan _ ih =>
    intro x hx ht
    rcases List.mem_cons.mp hx with rfl | hx
    · have ht' : t = .newline := ht
      subst ht'
      obtain ⟨h, -, -⟩ | ⟨-, htext⟩ := scanToken_break hscan rfl
      · cases h
      · -- the token's text is the line break itself
        have : text = ['\n'] := List.append_cancel_right (htext.trans (List.singleton_append).symm)
        subst this
        simp
    · simpa using ih x hx ht

end Spans

/-- Where the lexemes `toks` of the text `src` stand, cut at the texts `starts` before each of
them: the cut follows the lexer (`Spans`); the starts are prefixes of the text whose byte
offsets strictly increase, the last being the whole text; the last lexeme is the end and no
other one is; each lexeme stands at the position after its start, and a line break token at a
line break. -/
structure Layout (lim : Limits) (src : List Char) (toks : List Lexeme) (starts : List (List Char)) :
    Prop where
  spans : Spans lim [] src (toks.zip starts)
  length : starts.length = toks.length
  prefixes : ∀ p ∈ starts, p <+: src
  increasing : (starts.map fun p => (String.ofList p).utf8ByteSize).Pairwise (· < ·)
  last_start : starts.getLast? = some src
  last_eof : (toks.map (·.token)).getLast? = some .eof
  only_last_eof : ∀ l ∈ toks.dropLast, l.token ≠ .eof
  positions : ∀ x ∈ toks.zip starts, x.1.pos = posAfter x.2
  newlines : ∀ x ∈ toks.zip starts, x.1.token = .newline → src[x.2.length]? = some '\n'

theorem Spans.layout {src : List Char} {lxs : List (Lexeme × List Char)} (h : Spans lim [] src lxs) :
    Layout lim src (lxs.map (·.1)) (lxs.map (·.2)) := by
  have hzip : (lxs.map (·.1)).zip (lxs.map (·.2)) = lxs := by
    rw [← List.unzip_fst, ← List.unzip_snd, List.zip_unzip]
  have hstarts := h.starts_between
  have heof := h.eof_last
  refine ⟨by rw [hzip]; exact h, by simp, ?_, ?_, ?_, ?_, ?_, ?_, ?_⟩
  · intro p hp
    obtain ⟨x, hx, rfl⟩ := List.mem_map.mp hp
    simpa using (hstarts x hx).2
  · simpa [List.map_map, Function.comp_def] using h.offsets_increase
  · simpa using h.last_start
  · simpa [List.map_map, Function.comp_def] using heof.1
  · intro l hl
    rw [← List.map_dropLast] at hl
    obtain ⟨x, hx, rfl⟩ := List.mem_map.mp hl
    exact heof.2 x hx
  · rw [hzip]
    exact h.positions
  · rw [hzip]
    simpa using h.newlines

end Lexer

end Jass
