import Mathlib
import Jass.Proofs.Lex.Positions
/-!
# The lexer's limits are exact thresholds

A text that lexes under some limits is cut by the lexer into pieces, one per lexeme
(`Lexer.Cut`): the blanks and the comment skipped before it, and the text its token is read
from. Each bound of the lexer measures one thing of the text, and lexing under any other limits
gives the same lexemes exactly when every measure is within its bound, and a limit error
otherwise (`lexer_limits_are_exact_thresholds`): the bytes of the input, the number of lexemes
(the end included), the bytes of each word, one more than the raw bytes of each string
literal's content when it has any, and the bytes of each comment from `//` to the line break.

Each bound is checked while the scan that reads the measured text goes on, with `>` or `≥`, on
a count that only grows along the scan. So the scan passes all the checks exactly when it
passes the last one, made at the end of the measured text.
-/

namespace Jass

def Token.isWord : Token → Bool
  | .ident _ | .keyword _ => true
  | _ => false

namespace Lexer

/-- The comment at the head of a text: from `//` up to, not including, the line break or the
end. -/
def commentAt : List Char → List Char
  | '/' :: '/' :: r => '/' :: '/' :: r.takeWhile (· != '\n')
  | _ => []

/-- What the lexer skips before the token of the text `blanks ++ comment ++ after`: all the
blanks there, then the comment that starts after them, if one does. -/
structure Gap (blanks comment after : List Char) : Prop where
  blank : ∀ c ∈ blanks, c = ' ' ∨ c = '\t' ∨ c = '\r'
  stop : ∀ c ∈ (comment ++ after).head?, ¬ (c = ' ' ∨ c = '\t' ∨ c = '\r')
  comment : comment = commentAt (comment ++ after)

/-- One lexeme as the text shows it: the blanks and the comment skipped before it, the text its
token is read from, and the lexeme. -/
structure Piece where
  blanks : List Char
  comment : List Char
  text : List Char
  lexeme : Lexeme

/-- `Cut lim m cs ps`: from the cursor `m`, the lexer reads the text `cs` as the pieces `ps`.
Before each token it skips a gap; a token other than the end is what `scanToken` reads from
the cursor after the gap, and the end comes last, after the final gap. -/
inductive Cut (lim : Limits) : Mark → List Char → List Piece → Prop
  | last {m : Mark} {blanks comment : List Char} : Gap blanks comment [] →
      Cut lim m (blanks ++ comment)
        [⟨blanks, comment, [], ⟨.eof, (m.advance (blanks ++ comment)).pos⟩⟩]
  | token {m m' : Mark} {blanks comment text rest : List Char} {t : Token} {ps : List Piece} :
      Gap blanks comment (text ++ rest) → t ≠ .eof →
      scanToken lim (text ++ rest) (m.advance (blanks ++ comment)) = .ok (t, rest, m') →
      Cut lim m' rest ps →
      Cut lim m (blanks ++ comment ++ text ++ rest)
        (⟨blanks, comment, text, ⟨t, (m.advance (blanks ++ comment)).pos⟩⟩ :: ps)

/-- The bounds a token read from `text` is held to: a word's bytes, and one more than the raw
bytes of a string literal's content, when it has any. -/
def TextFits (L : Limits) (t : Token) (text : List Char) : Prop :=
  (t.isWord = true → (String.ofList text).utf8ByteSize ≤ L.maxIdentifierLength) ∧
  ∀ body, text = '"' :: body ++ ['"'] → body ≠ [] →
    1 + (String.ofList body).utf8ByteSize ≤ L.maxStringLength

def Piece.Fits (L : Limits) (p : Piece) : Prop :=
  (String.ofList p.comment).utf8ByteSize ≤ L.maxCommentLength ∧
    TextFits L p.lexeme.token p.text

/-- A run that either gives `r` or stops at a limit error, as `fits` says. -/
def Settles {α : Type} (fits : Prop) (x : Except LexError α) (r : α) : Prop :=
  (fits → x = .ok r) ∧ (¬ fits → ∃ e, x = .error e ∧ e.fault.isLimit = true)

namespace Settles

variable {α β : Type} {P Q : Prop} {x : Except LexError α} {a : α}

theorem of_ok (hP : P) (h : x = .ok a) : Settles P x a :=
  ⟨fun _ => h, fun hn => absurd hP hn⟩

theorem of_iff (h : P ↔ Q) (hx : Settles P x a) : Settles Q x a :=
  ⟨fun q => hx.1 (h.mpr q), fun hq => hx.2 fun p => hq (h.mp p)⟩

theorem bind {f : α → Except LexError β} {b : β} (hx : Settles P x a) (hf : Settles Q (f a) b) :
    Settles (P ∧ Q) (x >>= f) b := by
  refine ⟨fun ⟨p, q⟩ => ?_, fun hn => ?_⟩
  · rw [hx.1 p]
    exact hf.1 q
  · by_cases p : P
    · rw [hx.1 p]
      exact hf.2 fun q => hn ⟨p, q⟩
    · obtain ⟨e, he, hl⟩ := hx.2 p
      exact ⟨e, by rw [he]; rfl, hl⟩

theorem ok_iff (h : Settles P x a) : x = .ok a ↔ P := by
  refine ⟨fun hx => ?_, h.1⟩
  by_contra hn
  obtain ⟨e, he, -⟩ := h.2 hn
  rw [hx] at he
  cases he

end Settles

/-! ## Bytes and the cursor -/

theorem identContinue_utf8Size {c : Char} (h : isIdentContinue c = true) : c.utf8Size = 1 := by
  apply Char.utf8Size_eq_one_iff.mpr
  simp only [isIdentContinue, Char.isAlphanum, Char.isAlpha, Char.isUpper, Char.isLower,
    Char.isDigit, Bool.or_eq_true, Bool.and_eq_true, decide_eq_true_eq, beq_iff_eq,
    UInt32.le_iff_toNat_le, ge_iff_le] at h ⊢
  have hz : 'z'.val.toNat = 122 := rfl
  have hZ : 'Z'.val.toNat = 90 := rfl
  have h9 : '9'.val.toNat = 57 := rfl
  have h127 : (0x7f : UInt32).toNat = 127 := rfl
  rcases h with ((h | h) | h) | rfl
  all_goals first | omega | decide

theorem byteSize_of_identContinue {w : List Char} (h : ∀ c ∈ w, isIdentContinue c = true) :
    (String.ofList w).utf8ByteSize = w.length := by
  induction w with
  | nil => rfl
  | cons c w ih =>
    rw [byteSize_cons, identContinue_utf8Size (h c (.head _)),
      ih fun c hc => h c (.tail _ hc), List.length_cons]
    omega

/-! ## Each scanner against its bound -/

variable {L₀ : Limits}

theorem scanWord_settles {cs text rest : List Char} {m mr : Mark} {t : Token}
    (h₀ : scanWord L₀ cs m = .ok (t, rest, mr)) (hcs : cs = text ++ rest) (L : Limits) :
    Settles ((String.ofList text).utf8ByteSize ≤ L.maxIdentifierLength) (scanWord L cs m)
      (t, rest, mr) := by
  unfold scanWord at h₀ ⊢
  dsimp only at h₀ ⊢
  split at h₀
  · cases h₀
  · -- the word is the longest run of identifier characters, one byte each
    have hrest : cs.dropWhile isIdentContinue = rest := by
      simp only [Except.ok.injEq, Prod.mk.injEq] at h₀
      exact h₀.2.1
    have htext : cs.takeWhile isIdentContinue = text := by
      have hsplit := @List.takeWhile_append_dropWhile _ isIdentContinue cs
      rw [hrest] at hsplit
      exact List.append_cancel_right (hsplit.trans hcs)
    have hbytes : (String.ofList text).utf8ByteSize = text.length :=
      byteSize_of_identContinue fun c hc => List.mem_takeWhile_imp (htext ▸ hc)
    rw [htext] at h₀ ⊢
    refine ⟨fun hfit => ?_, fun hn => ?_⟩
    · rw [if_neg (by omega)]
      exact h₀
    · rw [if_pos (by omega)]
      exact ⟨_, rfl, rfl⟩

theorem settles_unit {α : Type} {m' : Mark} {start bound : Nat} {body : List Char}
    {x : Except LexError α} {r : α} {err : LexError}
    (hmono : m'.offset ≤ (m'.advance body).offset)
    (hset : Settles (body = [] ∨ (m'.advance body).offset - start ≤ bound) x r)
    (herr : err.fault.isLimit = true) :
    Settles ((m'.advance body).offset - start ≤ bound)
      (if m'.offset - start > bound then .error err else x) r := by
  refine ⟨fun hfit => ?_, fun hn => ?_⟩
  · rw [if_neg (by omega)]
    exact hset.1 (.inr hfit)
  · split
    · exact ⟨_, rfl, herr⟩
    · refine hset.2 fun hfit => hn ?_
      rcases hfit with rfl | hfit
      · simp only [Mark.advance_nil]
        omega
      · exact hfit

theorem scanString_settles {start : Nat} {acc cs rest : List Char} {m mr : Mark} {t : Token}
    (hs : start ≤ m.offset) (h₀ : scanString L₀ start acc cs m = .ok (t, rest, mr))
    (L : Limits) :
    ∃ body, cs = body ++ '"' :: rest ∧
      Settles (body = [] ∨ (m.advance body).offset - start ≤ L.maxStringLength)
        (scanString L start acc cs m) (t, rest, mr) := by
  fun_induction scanString L₀ start acc cs m with
  | case1 => cases h₀
  | case2 acc r m =>
    rw [scanString.eq_2]
    simp only [Except.ok.injEq, Prod.mk.injEq] at h₀
    obtain ⟨rfl, rfl, rfl⟩ := h₀
    exact ⟨[], rfl, fun _ => rfl, fun hn => absurd (.inl rfl) hn⟩
  | case3 => cases h₀
  | case4 => cases h₀
  | case5 acc e r m m' hle ih =>
    obtain ⟨body, hr, hset⟩ := ih (by rw [Mark.offset_next, Mark.offset_next]; omega) h₀
    refine ⟨'\\' :: e :: body, by rw [hr]; rfl, ?_⟩
    have hmono : m'.offset ≤ (m'.advance body).offset := by rw [Mark.offset_advance]; omega
    simp only [m'] at hset hmono
    rw [scanString.eq_4]
    simp only [Mark.advance_cons, reduceCtorEq, false_or]
    exact settles_unit hmono hset rfl
  | case6 => cases h₀
  | case7 acc c r m hq hb hbe m' hle ih =>
    obtain ⟨body, hr, hset⟩ := ih (by rw [Mark.offset_next]; omega) h₀
    refine ⟨c :: body, by rw [hr]; rfl, ?_⟩
    have hmono : m'.offset ≤ (m'.advance body).offset := by rw [Mark.offset_advance]; omega
    simp only [m'] at hset hmono
    rw [scanString.eq_5 _ _ _ _ _ _ hq hb hbe]
    simp only [Mark.advance_cons, reduceCtorEq, false_or]
    exact settles_unit hmono hset rfl

/-! ## Which scanner reads a word -/

variable {lim : Limits} {cs rest : List Char} {m m' : Mark} {t : Token}

theorem wordLiteral_not_word {ds : List Char} {base : Nat}
    (h : wordLiteral ds base m = .ok t) : t.isWord = false := by
  unfold wordLiteral at h
  dsimp only at h
  split at h
  · cases h
    rfl
  · cases h

theorem scanHex_not_word (h : scanHex cs m = .ok (t, rest, m')) : t.isWord = false := by
  unfold scanHex at h
  dsimp only at h
  split at h
  · cases h
  · obtain ⟨_, hw, h⟩ := bind_eq_ok h
    cases h
    exact wordLiteral_not_word hw

theorem scanNumber_not_word (h : scanNumber cs m = .ok (t, rest, m')) : t.isWord = false := by
  unfold scanNumber at h
  dsimp only at h
  split at h
  · cases h
    rfl
  · split at h <;>
    · obtain ⟨_, hw, h⟩ := bind_eq_ok h
      cases h
      exact wordLiteral_not_word hw

theorem scanString_not_word {start : Nat} {acc : List Char}
    (h : scanString lim start acc cs m = .ok (t, rest, m')) : t.isWord = false := by
  fun_induction scanString lim start acc cs m with
  | case2 =>
    cases h
    rfl
  | case5 _ _ _ _ _ _ ih => exact ih h
  | case7 _ _ _ _ _ _ _ _ _ ih => exact ih h
  | _ => cases h

theorem scanFourCC_not_word (h : scanFourCC cs m = .ok (t, rest, m')) : t.isWord = false := by
  unfold scanFourCC at h
  obtain ⟨_, -, h⟩ := bind_eq_ok h
  dsimp only at h
  split at h <;> cases h <;> rfl

theorem scanSymbol_not_word {c : Char} {r : List Char} (h : scanSymbol c r m = .ok (t, rest, m')) :
    t.isWord = false := by
  unfold scanSymbol at h
  dsimp only at h
  split at h <;> cases h <;> rfl

theorem scanToken_word (h : scanToken lim cs m = .ok (t, rest, m')) (ht : t.isWord = true) :
    ∃ c r, cs = c :: r ∧ isIdentStart c = true := by
  unfold scanToken at h
  split at h
  · cases h
    cases ht
  · cases h
    cases ht
  · split at h
    · exact absurd ht (by rw [scanHex_not_word h]; decide)
    · exact absurd ht (by rw [scanNumber_not_word h]; decide)
  · next _ c r _ _ =>
    split at h
    · exact absurd ht (by rw [scanNumber_not_word h]; decide)
    split at h
    · exact absurd ht (by rw [scanNumber_not_word h]; decide)
    split at h
    · exact absurd ht (by rw [scanHex_not_word h]; decide)
    split at h
    · exact ⟨c, r, rfl, ‹_›⟩
    split at h
    · exact absurd ht (by rw [scanString_not_word h]; decide)
    split at h
    · exact absurd ht (by rw [scanFourCC_not_word h]; decide)
    · exact absurd ht (by rw [scanSymbol_not_word h]; decide)

theorem scanWord_isWord (h : scanWord lim cs m = .ok (t, rest, m')) : t.isWord = true := by
  unfold scanWord at h
  dsimp only at h
  split at h
  · cases h
  · cases h
    split <;> rfl

theorem scanToken_dquote (lim : Limits) (r : List Char) (m : Mark) :
    scanToken lim ('"' :: r) m = scanString lim m.offset [] r (m.next '"') := by
  simp [scanToken, isIdentStart]

theorem scanToken_limits_free {c : Char} {r : List Char} (hc : isIdentStart c = false)
    (hq : c ≠ '"') (L L' : Limits) (m : Mark) : scanToken L (c :: r) m = scanToken L' (c :: r) m := by
  unfold scanToken
  split
  · rfl
  · rfl
  · rfl
  · next c' r' _ _ heq =>
    obtain ⟨rfl, rfl⟩ := List.cons.inj heq
    split_ifs <;> first | rfl | simp_all

/-! ## One token -/

theorem textFits_of_not_word {L : Limits} {text : List Char} (hw : t.isWord = false)
    (hq : ∀ body, text ≠ '"' :: body) : TextFits L t text :=
  ⟨fun h => absurd h (by rw [hw]; decide), fun body h => absurd h (hq _)⟩

theorem scanToken_quote_settles {r text : List Char} {mr : Mark}
    (h₀ : scanToken L₀ ('"' :: r) m = .ok (t, rest, mr)) (hcs : '"' :: r = text ++ rest)
    (L : Limits) : Settles (TextFits L t text) (scanToken L ('"' :: r) m) (t, rest, mr) := by
  rw [scanToken_dquote] at h₀ ⊢
  obtain ⟨body, hr, hset⟩ := scanString_settles (by rw [Mark.offset_next]; omega) h₀ L
  -- the literal's text is the body between its quotes
  have htext : text = '"' :: body ++ ['"'] := by
    refine (List.append_cancel_right (?_ : ('"' :: body ++ ['"']) ++ rest = text ++ rest)).symm
    rw [← hcs, hr]
    simp
  have hoff : ((m.next '"').advance body).offset - m.offset = 1 + (String.ofList body).utf8ByteSize := by
    rw [Mark.offset_advance, Mark.offset_next]
    have : '"'.utf8Size = 1 := rfl
    omega
  have hw := scanString_not_word h₀
  rw [hoff] at hset
  refine hset.of_iff ⟨fun h => ⟨fun h' => absurd h' (by rw [hw]; decide), fun b hb hne => ?_⟩,
    fun h => ?_⟩
  · rw [htext] at hb
    obtain ⟨-, rfl⟩ := List.cons.inj (List.append_cancel_right hb)
    exact h.resolve_left hne
  · by_cases hne : body = []
    · exact .inl hne
    · exact .inr (h.2 body htext hne)

theorem scanToken_settles {text : List Char} {mr : Mark}
    (h₀ : scanToken L₀ cs m = .ok (t, rest, mr)) (hcs : cs = text ++ rest) (L : Limits) :
    Settles (TextFits L t text) (scanToken L cs m) (t, rest, mr) := by
  rcases cs with _ | ⟨c, r⟩
  · -- the end of the text
    simp only [scanToken, Except.ok.injEq, Prod.mk.injEq] at h₀
    obtain ⟨rfl, rfl, rfl⟩ := h₀
    obtain ⟨rfl, -⟩ := List.append_eq_nil_iff.mp hcs.symm
    exact Settles.of_ok (textFits_of_not_word rfl fun _ h => by cases h) rfl
  -- a text read from `c :: r` that opens a string literal starts with `c`
  have hopen : ∀ body, text = '"' :: body → c = '"' := by
    rintro body rfl
    exact (List.cons.inj hcs).1
  by_cases hc : isIdentStart c = true
  · rw [scanToken_identStart _ _ hc] at h₀ ⊢
    have hw := scanWord_isWord h₀
    refine (scanWord_settles h₀ hcs L).of_iff ⟨fun h => ⟨fun _ => h, fun body hb => ?_⟩, fun h => h.1 hw⟩
    rw [hopen _ hb] at hc
    exact absurd hc (by decide)
  by_cases hq : c = '"'
  · subst hq
    exact scanToken_quote_settles h₀ hcs L
  · rw [Bool.not_eq_true] at hc
    rw [scanToken_limits_free hc hq L L₀]
    refine Settles.of_ok (textFits_of_not_word ?_ fun body h => hq (hopen _ h)) h₀
    cases hw : t.isWord
    · rfl
    · obtain ⟨c', r', hcr, hc'⟩ := scanToken_word h₀ hw
      rw [(List.cons.inj hcr).1] at hc
      exact absurd hc' (by rw [hc]; decide)

/-! ## The gap before a token -/

theorem skipBlanks_blanks {blanks after : List Char}
    (hb : ∀ c ∈ blanks, c = ' ' ∨ c = '\t' ∨ c = '\r')
    (hs : ∀ c ∈ after.head?, ¬ (c = ' ' ∨ c = '\t' ∨ c = '\r')) (m : Mark) :
    skipBlanks (blanks ++ after) m = (after, m.advance blanks) := by
  induction blanks generalizing m with
  | nil =>
    cases after with
    | nil => rfl
    | cons c r =>
      rw [List.nil_append, skipBlanks, if_neg (hs c rfl)]
      rfl
  | cons c b ih =>
    rw [List.cons_append, skipBlanks, if_pos (hb c (.head _)), ih fun x hx => hb x (.tail _ hx),
      Mark.advance_cons]

theorem commentAt_cases {comment after : List Char} (h : comment = commentAt (comment ++ after)) :
    (comment = [] ∧ commentAt after = []) ∨
      ∃ body, comment = '/' :: '/' :: body ∧ '\n' ∉ body ∧ ∀ c ∈ after.head?, c = '\n' := by
  rcases comment with _ | ⟨a, l⟩
  · exact .inl ⟨rfl, h.symm⟩
  right
  unfold commentAt at h
  split at h
  · next r heq =>
    obtain ⟨rfl, rfl⟩ := List.cons.inj h
    simp only [List.cons_append, List.cons.injEq, true_and] at heq
    -- the run free of line breaks stops where `after` starts
    have hnl : ∀ c ∈ r.takeWhile (· != '\n'), c ≠ '\n' := fun c hc => by
      simpa using List.mem_takeWhile_imp hc
    have hafter : after.takeWhile (· != '\n') = [] := by
      have hrun := congrArg (List.takeWhile (· != '\n')) heq
      rw [List.takeWhile_append_of_pos fun c hc => by simpa using hnl c hc] at hrun
      simpa using hrun
    refine ⟨_, rfl, fun h => hnl _ h rfl, fun c hc => ?_⟩
    rcases after with _ | ⟨c', r'⟩
    · cases hc
    · obtain rfl := Option.some.inj hc
      by_contra hne
      simp [hne] at hafter
  · cases h

theorem commentAt_comment {body after : List Char} (hn : '\n' ∉ body)
    (hstop : ∀ c ∈ after.head?, c = '\n') :
    '/' :: '/' :: body = commentAt ('/' :: '/' :: body ++ after) := by
  have hrun : (body ++ after).takeWhile (· != '\n') = body := by
    rw [List.takeWhile_append_of_pos fun c hc => by simpa using ne_of_mem_of_not_mem hc hn]
    rcases after with _ | ⟨c, r⟩
    · simp
    · simp [hstop c rfl]
  simp only [List.cons_append, commentAt, hrun]

theorem commentAt_none {cs : List Char} (h : ∀ x, cs = '/' :: '/' :: x → False) :
    commentAt cs = [] := by
  unfold commentAt
  split
  · exact absurd rfl (h _)
  · rfl

theorem skipBlanks_stop : ∀ (cs : List Char) (m : Mark),
    ∀ c ∈ (skipBlanks cs m).1.head?, ¬ (c = ' ' ∨ c = '\t' ∨ c = '\r')
  | [], _ => by simp [skipBlanks]
  | c :: r, m => by
    unfold skipBlanks
    split
    · exact skipBlanks_stop r (m.next c)
    · next hc =>
      intro x hx
      obtain rfl := Option.some.inj hx
      exact hc

theorem Gap.unique {b c a b' c' a' : List Char} (hg : Gap b c a) (hg' : Gap b' c' a')
    (h : b ++ c ++ a = b' ++ c' ++ a') : b = b' ∧ c = c' ∧ a = a' := by
  -- the blanks are the longest blank run of the text
  have hrun : ∀ {b c a : List Char}, Gap b c a →
      (b ++ c ++ a).takeWhile (fun x => x = ' ' ∨ x = '\t' ∨ x = '\r') = b := by
    intro b c a hg
    rw [List.append_assoc, List.takeWhile_append_of_pos fun x hx => by simpa using hg.blank x hx]
    rcases hca : c ++ a with _ | ⟨x, r⟩
    · simp
    · have := hg.stop x (by rw [hca]; rfl)
      simp [this]
  have hb : b = b' := by rw [← hrun hg, ← hrun hg', h]
  subst hb
  rw [List.append_assoc, List.append_assoc, List.append_cancel_left_eq] at h
  have hc : c = c' := by rw [hg.comment, hg'.comment, h]
  subst hc
  exact ⟨rfl, rfl, List.append_cancel_left h⟩

theorem skipComment_settles {start : Nat} {body after : List Char} {m : Mark}
    (hs : start ≤ m.offset) (hn : '\n' ∉ body) (hstop : ∀ c ∈ after.head?, c = '\n') (L : Limits) :
    Settles (body = [] ∨ (m.advance body).offset - start ≤ L.maxCommentLength)
      (skipComment L start (body ++ after) m) (after, m.advance body) := by
  induction body generalizing m with
  | nil =>
    -- the comment stops at the line break, or at the end of the text
    refine Settles.of_ok (.inl rfl) ?_
    cases after with
    | nil => rfl
    | cons c r =>
      rw [List.nil_append, skipComment, if_pos (hstop c rfl)]
      rfl
  | cons c b ih =>
    have hc : c ≠ '\n' := fun h => hn (h ▸ .head _)
    have hset := ih (show start ≤ (m.next c).offset by rw [Mark.offset_next]; omega)
      fun h => hn (.tail _ h)
    have hmono : (m.next c).offset ≤ ((m.next c).advance b).offset := by
      rw [Mark.offset_advance]
      omega
    rw [List.cons_append, skipComment, if_neg hc]
    dsimp only
    simp only [Mark.advance_cons, reduceCtorEq, false_or]
    refine ⟨fun hfit => ?_, fun hn => ?_⟩
    · rw [if_neg (by omega)]
      exact hset.1 (.inr hfit)
    · split
      · exact ⟨_, rfl, rfl⟩
      · refine hset.2 fun hfit => hn ?_
        rcases hfit with rfl | hfit
        · simp only [Mark.advance_nil]
          omega
        · exact hfit

/-! ## One lexeme -/

theorem nextLexeme_settles {blanks comment text : List Char} {mr : Mark}
    (hg : Gap blanks comment (text ++ rest))
    (h₀ : scanToken L₀ (text ++ rest) (m.advance (blanks ++ comment)) = .ok (t, rest, mr))
    (L : Limits) (count : Nat) :
    Settles (count < L.maxTokenCount ∧ (String.ofList comment).utf8ByteSize ≤ L.maxCommentLength ∧
        TextFits L t text)
      (nextLexeme L count (blanks ++ comment ++ text ++ rest) m)
      (⟨t, (m.advance (blanks ++ comment)).pos⟩, rest, mr) := by
  have htok := scanToken_settles h₀ rfl L
  unfold nextLexeme
  dsimp only
  by_cases hc : count ≥ L.maxTokenCount
  · rw [if_pos hc]
    exact ⟨fun h => absurd h.1 (by omega), fun _ => ⟨_, rfl, rfl⟩⟩
  rw [if_neg hc, List.append_assoc, List.append_assoc, skipBlanks_blanks hg.blank hg.stop]
  dsimp only
  rw [Mark.advance_append] at htok ⊢
  rcases commentAt_cases hg.comment with ⟨rfl, hnone⟩ | ⟨body, rfl, hn, hstop⟩
  · -- no comment: the text after the blanks opens none
    simp only [List.nil_append, Mark.advance_nil] at htok ⊢
    split
    · next heq =>
      rw [heq] at hnone
      exact absurd hnone (by simp [commentAt])
    · rw [pure_bind]
      refine Settles.of_iff ?_ (Settles.bind htok (Settles.of_ok trivial rfl))
      simp only [true_and, and_true, String.ofList_nil, String.utf8ByteSize_empty, zero_le]
      exact ⟨fun h => ⟨by omega, h⟩, fun h => h.2⟩
  · -- a comment, measured from its `//`
    simp only [List.cons_append]
    have hcom := skipComment_settles (le_refl (m.advance blanks).offset)
      (show '\n' ∉ '/' :: '/' :: body by simpa [eq_comm] using hn) hstop L
    refine Settles.of_iff ?_ (Settles.bind hcom (Settles.bind htok (Settles.of_ok trivial rfl)))
    rw [Mark.offset_advance, Nat.add_sub_cancel_left]
    simp only [reduceCtorEq, false_or, and_true]
    exact ⟨fun h => ⟨by omega, h⟩, fun h => h.2⟩

/-! ## The whole text -/

theorem Cut.length_le {ps : List Piece} (h : Cut lim m cs ps) : ps.length ≤ cs.length + 1 := by
  induction h with
  | last => simp
  | token _ hne hscan _ ih =>
    have := (scanToken_rest hscan).resolve_left hne
    simp only [List.length_append, List.length_cons] at this ⊢
    omega

theorem lexemes_settles {ps : List Piece} (h : Cut L₀ m cs ps) (L : Limits) :
    ∀ (fuel count : Nat) (acc : Array Lexeme), ps.length ≤ fuel →
      Settles (count + ps.length ≤ L.maxTokenCount ∧ ∀ p ∈ ps, p.Fits L)
        (lexemes L fuel count cs m acc) (acc ++ (ps.map (·.lexeme)).toArray) := by
  induction h with
  | @last m blanks comment hg =>
    intro fuel count acc hfuel
    obtain ⟨fuel, rfl⟩ : ∃ f, fuel = f + 1 := ⟨fuel - 1, by simp at hfuel; omega⟩
    have hlx := nextLexeme_settles (show Gap blanks comment ([] ++ []) from hg)
      (show scanToken L₀ ([] ++ []) (m.advance (blanks ++ comment)) =
        .ok (.eof, [], m.advance (blanks ++ comment)) from rfl) L count
    rw [List.append_nil, List.append_nil] at hlx
    unfold lexemes
    refine Settles.of_iff ?_ (Settles.bind hlx (Settles.of_ok trivial (by simp [pure, Except.pure])))
    have hfits : TextFits L .eof [] := textFits_of_not_word rfl fun _ h => by cases h
    simp only [hfits, List.length_singleton, List.mem_singleton, forall_eq, Piece.Fits, and_true]
    constructor <;> rintro ⟨h₁, h₂⟩ <;> exact ⟨by omega, h₂⟩
  | token hg hne hscan _ ih =>
    intro fuel count acc hfuel
    obtain ⟨fuel, rfl⟩ : ∃ f, fuel = f + 1 := ⟨fuel - 1, by simp at hfuel; omega⟩
    have hlx := nextLexeme_settles hg hscan L count
    unfold lexemes
    -- past a token other than the end, the run goes on with one more lexeme counted
    refine Settles.of_iff ?_ (Settles.bind hlx (by
      dsimp only
      split
      · exact absurd rfl hne
      · rw [List.map_cons,
          show ∀ (lx : Lexeme) lxs, acc ++ (lx :: lxs).toArray = acc.push lx ++ lxs.toArray by simp]
        exact ih fuel (count + 1) _ (by simp at hfuel; omega)))
    simp only [List.length_cons, List.forall_mem_cons, Piece.Fits]
    constructor
    · rintro ⟨⟨h₁, h₂, h₃⟩, h₄, h₅⟩
      exact ⟨by omega, ⟨h₂, h₃⟩, h₅⟩
    · rintro ⟨h₁, ⟨h₂, h₃⟩, h₅⟩
      exact ⟨⟨by omega, h₂, h₃⟩, by omega, h₅⟩

theorem nextLexeme_gap {count : Nat} {lx : Lexeme}
    (h : nextLexeme lim count cs m = .ok (lx, rest, m')) :
    ∃ blanks comment text, cs = blanks ++ comment ++ text ++ rest ∧
      Gap blanks comment (text ++ rest) ∧ lx.pos = (m.advance (blanks ++ comment)).pos ∧
      scanToken lim (text ++ rest) (m.advance (blanks ++ comment)) = .ok (lx.token, rest, m') := by
  unfold nextLexeme at h
  dsimp only at h
  split at h
  · obtain ⟨_, h', -⟩ := bind_eq_ok h
    cases h'
  obtain ⟨blanks, hcs, hm, hb⟩ := skipBlanks_reads cs m
  have hstop := skipBlanks_stop cs m
  rcases hs : skipBlanks cs m with ⟨cs₁, m₁⟩
  rw [hs] at h hcs hm hstop
  dsimp only at h hcs hm hstop
  subst hm
  -- both ways past a comment end by scanning a token from the cursor after the gap
  have last : ∀ comment cs₂, cs₁ = comment ++ cs₂ → Gap blanks comment cs₂ →
      (scanToken lim cs₂ (m.advance (blanks ++ comment)) >>= fun x =>
        pure ((⟨x.1, (m.advance (blanks ++ comment)).pos⟩ : Lexeme), x.2.1, x.2.2)) =
        .ok (lx, rest, m') →
      ∃ blanks comment text, cs = blanks ++ comment ++ text ++ rest ∧
        Gap blanks comment (text ++ rest) ∧ lx.pos = (m.advance (blanks ++ comment)).pos ∧
        scanToken lim (text ++ rest) (m.advance (blanks ++ comment)) = .ok (lx.token, rest, m') := by
    intro comment cs₂ hcs₁ hgap h
    obtain ⟨⟨tok, rest', m''⟩, ht, h⟩ := bind_eq_ok h
    simp only [pure, Except.pure, Except.ok.injEq, Prod.mk.injEq] at h
    obtain ⟨rfl, rfl, rfl⟩ := h
    obtain ⟨text, rfl, -⟩ := (scanToken_follows cs₂ _).ok_of ht
    exact ⟨blanks, comment, text, by rw [hcs, hcs₁]; simp, hgap, rfl, ht⟩
  split at h
  · next x =>
    obtain ⟨⟨cs₂, m₂⟩, hc, h⟩ := bind_eq_ok h
    obtain ⟨body, hx, rfl, hn⟩ := skipComment_comment hc
    obtain ⟨-, -, -, -, hstop₂⟩ := skipComment_reads hc
    refine last ('/' :: '/' :: body) cs₂ (by rw [hx]; rfl)
      ⟨hb, by simp, commentAt_comment hn hstop₂⟩ ?_
    rwa [Mark.advance_append]
  · next hno =>
    refine last [] cs₁ rfl ⟨hb, by simpa using hstop, (commentAt_none hno).symm⟩ ?_
    rwa [List.append_nil]

/-- A run of the lexer that reaches the end cuts its text into pieces, one per lexeme. -/
theorem lexemes_cut : ∀ (fuel count : Nat) (cs : List Char) (m : Mark) (acc out : Array Lexeme),
    cs.length < fuel → lexemes lim fuel count cs m acc = .ok out →
      ∃ ps, Cut lim m cs ps ∧ out = acc ++ (ps.map (·.lexeme)).toArray
  | 0, _, _, _, _, _, hf, _ => absurd hf (Nat.not_lt_zero _)
  | fuel + 1, count, cs, m, acc, out, hf, h => by
    unfold lexemes at h
    obtain ⟨⟨lx, rest, m'⟩, hn, h⟩ := bind_eq_ok h
    obtain ⟨blanks, comment, text, rfl, hgap, hpos, hscan⟩ := nextLexeme_gap hn
    obtain ⟨tok, pos⟩ := lx
    dsimp only at hpos hscan h
    subst hpos
    split at h
    · -- the end is read from the end of the text
      cases h
      obtain ⟨-, htext, rfl⟩ | ⟨h, -⟩ := scanToken_break hscan rfl
      · obtain ⟨rfl, -⟩ := List.append_eq_nil_iff.mp htext
        have hcut : Cut lim m (blanks ++ comment ++ [] ++ [])
            [⟨blanks, comment, [], ⟨.eof, (m.advance (blanks ++ comment)).pos⟩⟩] := by
          rw [List.append_nil, List.append_nil]
          exact .last hgap
        exact ⟨_, hcut, by simp⟩
      · cases h
    · next hne =>
      have htext : rest.length < (text ++ rest).length := (scanToken_rest hscan).resolve_left hne
      obtain ⟨ps, hcut, hout⟩ := lexemes_cut fuel (count + 1) rest m' _ out
        (by simp at htext hf ⊢; omega) h
      refine ⟨_, .token hgap hne hscan hcut, ?_⟩
      rw [hout]
      simp

theorem Cut.unique {ps ps' : List Piece} (h : Cut lim m cs ps) (h' : Cut lim m cs ps') :
    ps = ps' := by
  induction h generalizing ps' with
  | @last m blanks comment hg =>
    generalize hcs : blanks ++ comment = cs at h'
    cases h' with
    | last hg' =>
      obtain ⟨rfl, rfl, -⟩ := Gap.unique hg hg' (by simpa using hcs)
      rfl
    | token hg' hne hscan _ =>
      -- a token other than the end needs text after the gap
      obtain ⟨-, -, htr⟩ := Gap.unique hg hg' (by simpa using hcs)
      obtain ⟨rfl, rfl⟩ := List.append_eq_nil_iff.mp htr.symm
      simp only [List.append_nil, scanToken, Except.ok.injEq, Prod.mk.injEq] at hscan
      exact absurd hscan.1.symm hne
  | @token m m' blanks comment text rest t ps hg hne hscan _ ih =>
    generalize hcs : blanks ++ comment ++ text ++ rest = cs at h'
    cases h' with
    | last hg' =>
      obtain ⟨-, -, htr⟩ := Gap.unique hg hg' (by simpa using hcs)
      obtain ⟨rfl, rfl⟩ := List.append_eq_nil_iff.mp htr
      simp only [List.append_nil, scanToken, Except.ok.injEq, Prod.mk.injEq] at hscan
      exact absurd hscan.1.symm hne
    | token hg' hne' hscan' hcut' =>
      obtain ⟨rfl, rfl, htr⟩ := Gap.unique hg hg' (by simpa using hcs)
      rw [htr, hscan'] at hscan
      simp only [Except.ok.injEq, Prod.mk.injEq] at hscan
      obtain ⟨rfl, rfl, rfl⟩ := hscan
      obtain rfl := List.append_cancel_right htr
      rw [ih hcut']

end Lexer

open Lexer in
/-- The lexer's limits are exact thresholds. A text that lexes under some limits is cut, one way
only, into pieces, one per lexeme: the blanks and the comment skipped before it and the text its
token is read from. Under any limits the text lexes to the same lexemes exactly when its bytes,
the number of lexemes (the end included), and each piece's comment, word and string literal are
within their bounds, and under any others it fails with a limit error. -/
theorem lexer_limits_are_exact_thresholds {src : String} {L₀ : Limits} {ts : Array Lexeme}
    (h₀ : lex src L₀ = .ok ts) :
    ∃ ps, Cut L₀ {} src.toList ps ∧ (∀ ps', Cut L₀ {} src.toList ps' → ps' = ps) ∧
      ts.toList = ps.map (·.lexeme) ∧
      ∀ L : Limits,
        (lex src L = .ok ts ↔ src.utf8ByteSize ≤ L.maxInputSize ∧ ts.size ≤ L.maxTokenCount ∧
          ∀ p ∈ ps, p.Fits L) ∧
        (¬ (src.utf8ByteSize ≤ L.maxInputSize ∧ ts.size ≤ L.maxTokenCount ∧ ∀ p ∈ ps, p.Fits L) →
          ∃ e, lex src L = .error e ∧ e.fault.isLimit = true) := by
  unfold lex at h₀
  split at h₀
  · cases h₀
  obtain ⟨ps, hcut, rfl⟩ :=
    lexemes_cut _ 0 src.toList {} #[] ts (by simp [String.length_toList]) h₀
  refine ⟨ps, hcut, fun ps' h' => h'.unique hcut, by simp, fun L => ?_⟩
  have hsize : (#[] ++ (ps.map (·.lexeme)).toArray : Array Lexeme).size = ps.length := by simp
  -- the size check comes first, then the lexemes of the cut, one after the other
  have hsettle : Settles (src.utf8ByteSize ≤ L.maxInputSize ∧ ps.length ≤ L.maxTokenCount ∧
      ∀ p ∈ ps, p.Fits L) (lex src L) (#[] ++ (ps.map (·.lexeme)).toArray) := by
    unfold lex
    by_cases hin : src.utf8ByteSize > L.maxInputSize
    · rw [if_pos hin]
      exact ⟨fun h => absurd h.1 (by omega), fun _ => ⟨_, rfl, rfl⟩⟩
    · rw [if_neg hin]
      have hfuel : ps.length ≤ src.length + 1 := by
        simpa [String.length_toList] using hcut.length_le
      refine (lexemes_settles hcut L _ 0 #[] hfuel).of_iff ?_
      rw [zero_add]
      exact ⟨fun h => ⟨by omega, h⟩, fun h => h.2⟩
  rw [hsize]
  exact ⟨hsettle.ok_iff, hsettle.2⟩

open Lexer in
theorem string_and_comment_are_measured :
    lex "s = \"ab\" // c" {} = .ok #[⟨.ident "s", ⟨1, 1⟩⟩, ⟨.symbol .assign, ⟨1, 3⟩⟩,
      ⟨.string "ab", ⟨1, 5⟩⟩, ⟨.eof, ⟨1, 14⟩⟩] ∧
    ∃ ps, Cut {} {} "s = \"ab\" // c".toList ps ∧
      (∀ ps', Cut {} {} "s = \"ab\" // c".toList ps' → ps' = ps) ∧
      [⟨.ident "s", ⟨1, 1⟩⟩, ⟨.symbol .assign, ⟨1, 3⟩⟩, ⟨.string "ab", ⟨1, 5⟩⟩, ⟨.eof, ⟨1, 14⟩⟩] =
        ps.map (·.lexeme) ∧
      ∀ L : Limits,
        (lex "s = \"ab\" // c" L = .ok #[⟨.ident "s", ⟨1, 1⟩⟩, ⟨.symbol .assign, ⟨1, 3⟩⟩,
            ⟨.string "ab", ⟨1, 5⟩⟩, ⟨.eof, ⟨1, 14⟩⟩] ↔
          "s = \"ab\" // c".utf8ByteSize ≤ L.maxInputSize ∧ 4 ≤ L.maxTokenCount ∧
            ∀ p ∈ ps, p.Fits L) ∧
        (¬ ("s = \"ab\" // c".utf8ByteSize ≤ L.maxInputSize ∧ 4 ≤ L.maxTokenCount ∧
            ∀ p ∈ ps, p.Fits L) →
          ∃ e, lex "s = \"ab\" // c" L = .error e ∧ e.fault.isLimit = true) :=
  have hok : lex "s = \"ab\" // c" {} = .ok #[⟨.ident "s", ⟨1, 1⟩⟩, ⟨.symbol .assign, ⟨1, 3⟩⟩,
      ⟨.string "ab", ⟨1, 5⟩⟩, ⟨.eof, ⟨1, 14⟩⟩] := rfl
  ⟨hok, lexer_limits_are_exact_thresholds hok⟩

end Jass
