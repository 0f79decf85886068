import Jass.Proofs.Lex.RealText
import Jass.Proofs.Lex.Progress
import Jass.Proofs.Refs
/-!
# Printed expressions lex back to their tokens

`Expr.toSource` writes every token of an expression so that the lexer reads the same token
back: a name as itself, an operator with a blank after it, a non-negative integer in decimal
and a negative one as the hexadecimal word of its bits, a string between double quotes with
its escapes, a four-character code between single quotes and a real as its shortest decimal.
`Expr.tokens` lists those tokens, and `lex_toSource` says that the printed text lexes to them
and then `eof`.

Two literals carry an assumption. A four-character code is written between quotes only when its
bytes are text with no quote and no line break (`FourCC.Quoted`), which every code the lexer
reads is. A real is written as text that need not read back as the same value: an overflowed
literal is infinite and prints as `inf.0`. `RealReadsBack` says that it does, which holds of every
finite real with its sign bit clear (`Binary32.realReadsBack_of_finite`).

`Lexes lim cs toks rest` says that the lexer reads `toks` from `cs` and stops before `rest`;
it composes by `Lexes.append`, so the lexing of a whole expression is assembled from one
lemma per token.
-/

namespace Jass

open Lexer

/-! ## The tokens an expression is read from -/

def BinOp.token : BinOp → Token
  | .add => .symbol .plus | .sub => .symbol .minus | .mul => .symbol .star
  | .div => .symbol .slash | .greater => .symbol .gt | .less => .symbol .lt
  | .equal => .symbol .eqEq | .notEqual => .symbol .notEq | .greaterEq => .symbol .gtEq
  | .lessEq => .symbol .ltEq | .logicalAnd => .keyword .kwAnd | .logicalOr => .keyword .kwOr

def UnOp.token : UnOp → Token
  | .plus => .symbol .plus
  | .minus => .symbol .minus
  | .logicalNot => .keyword .kwNot

def Const.token : Const → Token
  | .integer v => .integer v
  | .real x => .real x
  | .fourcc c => .fourcc c
  | .boolean b => .keyword (if b then .kwTrue else .kwFalse)
  | .string s => .string s
  | .null => .keyword .kwNull

mutual
def Expr.tokens (ts : Tables) : Expr → List Token
  | .const c => [c.token]
  | .binary l op r => l.tokens ts ++ op.token :: r.tokens ts
  | .unary op e => op.token :: e.tokens ts
  | .call fn args =>
    .ident (ts.funRefName fn) :: .symbol .lParen :: Expr.listTokens ts args ++ [.symbol .rParen]
  | .element v i =>
    .ident (ts.varRefName v) :: .symbol .lBracket :: i.tokens ts ++ [.symbol .rBracket]
  | .funRef fn => [.keyword .kwFunction, .ident (ts.funRefName fn)]
  | .var v => [.ident (ts.varRefName v)]
  | .paren e => .symbol .lParen :: e.tokens ts ++ [.symbol .rParen]
def Expr.listTokens (ts : Tables) : List Expr → List Token
  | [] => []
  | [e] => e.tokens ts
  | e :: rest => e.tokens ts ++ .symbol .comma :: Expr.listTokens ts rest
end

mutual
def Expr.consts : Expr → List Const
  | .const c => [c]
  | .binary l _ r => l.consts ++ r.consts
  | .unary _ e => e.consts
  | .call _ args => Expr.listConsts args
  | .element _ i => i.consts
  | .funRef _ => []
  | .var _ => []
  | .paren e => e.consts
def Expr.listConsts : List Expr → List Const
  | [] => []
  | e :: es => e.consts ++ Expr.listConsts es
end

def Tables.anyRefName (ts : Tables) : AnyRef → String
  | .type r => ts.typeRefName r
  | .var r => ts.varRefName r
  | .fn r => ts.funRefName r

/-! ## Literals whose text reads back -/

/-- A word the lexer reads as an identifier: a letter or an underscore, then letters, digits
and underscores, and not a keyword. -/
def Lexer.IdentText (n : String) : Prop :=
  ∃ c cs, n.toList = c :: cs ∧ isIdentStart c = true ∧ (∀ x ∈ cs, isIdentContinue x = true) ∧
    Keyword.ofText? n = none

/-- The bytes of the code are text with no quote and no line break, so it prints quoted. -/
def FourCC.Quoted (c : FourCC) : Prop :=
  ∃ t, String.fromUTF8? (ByteArray.mk c.bytes.toArray) = some t ∧ '\'' ∉ t.toList ∧ '\n' ∉ t.toList

/-- The printed text of the real is a real literal, digits, a point and digits, that reads as
the same value. -/
def RealReadsBack (x : Float32) : Prop :=
  ∃ ints fracs, ints ≠ [] ∧ (∀ c ∈ ints, c.isDigit) ∧ (∀ c ∈ fracs, c.isDigit) ∧
    (realText x).toList = ints ++ '.' :: fracs ∧
    Float32.ofScientific (digitsValue 10 (ints ++ fracs)) true fracs.length = x

def Const.Reads : Const → Prop
  | .real x => RealReadsBack x
  | .fourcc c => c.Quoted
  | _ => True

/-! ## Characters and runs of characters -/

namespace Lexer

theorem Mark.offset_next (m : Mark) (c : Char) : (m.next c).offset = m.offset + c.utf8Size := by
  unfold Mark.next
  split <;> rfl

theorem utf8ByteSize_eq_sum (s : String) : s.utf8ByteSize = (s.toList.map Char.utf8Size).sum := by
  rw [← String.size_toByteArray, ← String.utf8Encode_toList]
  generalize s.toList = l
  induction l with
  | nil => rfl
  | cons c l ih =>
    rw [List.utf8Encode_cons, ByteArray.size_append, ih, List.utf8Encode_singleton,
      List.size_toByteArray, String.length_utf8EncodeChar, List.map_cons, List.sum_cons]

theorem length_le_utf8ByteSize (s : String) : s.length ≤ s.utf8ByteSize := by
  rw [utf8ByteSize_eq_sum, ← String.length_toList]
  generalize s.toList = l
  induction l with
  | nil => simp
  | cons c l ih =>
    have := c.utf8Size_pos
    simp only [List.length_cons, List.map_cons, List.sum_cons]
    omega

theorem identStart_not_digit {c : Char} (hc : isIdentStart c = true) : c.isDigit = false := by
  simp only [isIdentStart, Char.isAlpha, Char.isUpper, Char.isLower, Char.isDigit, Bool.or_eq_true,
    Bool.and_eq_true, decide_eq_true_eq, beq_iff_eq] at hc ⊢
  rcases hc with (⟨h1, h2⟩ | ⟨h1, h2⟩) | rfl
  all_goals first | decide | (simp only [UInt32.le_iff_toNat_le] at *; simp at *; omega)

theorem identStart_continue {c : Char} (hc : isIdentStart c = true) : isIdentContinue c = true := by
  simp only [isIdentStart, isIdentContinue, Char.isAlphanum, Bool.or_eq_true] at hc ⊢
  rcases hc with h | h
  · exact .inl (.inl h)
  · exact .inr h

/-- What the printer writes after a name, a literal or an expression: a blank, a bracket, a
comma, or nothing. -/
def Stops (rest : List Char) : Prop :=
  ∀ c ∈ rest.head?, c = ' ' ∨ c = '(' ∨ c = ')' ∨ c = '[' ∨ c = ']' ∨ c = ','

theorem Stops.head_false {rest : List Char} (h : Stops rest) {p : Char → Bool}
    (hp : [' ', '(', ')', '[', ']', ','].all (fun c => !p c) = true) :
    ∀ c ∈ rest.head?, p c = false := by
  intro c hc
  rcases h c hc with rfl | rfl | rfl | rfl | rfl | rfl <;> simp_all

theorem stops_nil : Stops [] := fun _ h => by cases h

theorem stops_cons {c : Char} (r : List Char)
    (hc : c = ' ' ∨ c = '(' ∨ c = ')' ∨ c = '[' ∨ c = ']' ∨ c = ',') : Stops (c :: r) :=
  fun _ h => Option.some.inj h ▸ hc

theorem takeWhile_append_stop {p : Char → Bool} {w rest : List Char} (hw : ∀ x ∈ w, p x = true)
    (hr : ∀ c ∈ rest.head?, p c = false) : (w ++ rest).takeWhile p = w := by
  rw [List.takeWhile_append_of_pos hw]
  cases rest with
  | nil => simp
  | cons c r => simp [hr c rfl]

theorem dropWhile_append_stop {p : Char → Bool} {w rest : List Char} (hw : ∀ x ∈ w, p x = true)
    (hr : ∀ c ∈ rest.head?, p c = false) : (w ++ rest).dropWhile p = rest := by
  rw [List.dropWhile_append_of_pos hw]
  cases rest with
  | nil => simp
  | cons c r => simp [hr c rfl]

/-! ## Words -/

theorem scanToken_identStart (lim : Limits) {c : Char} (r : List Char) (hc : isIdentStart c = true)
    (m : Mark) : scanToken lim (c :: r) m = scanWord lim (c :: r) m := by
  unfold scanToken
  split
  · next heq => cases heq
  · next heq =>
    cases heq
    exact absurd hc (by decide)
  · next x r' heq =>
    cases heq
    exact absurd hc (by decide)
  · next _ _ _ _ _ heq =>
    cases heq
    have hdot : c ≠ '.' := by rintro rfl; exact absurd hc (by decide)
    have hdollar : c ≠ '$' := by rintro rfl; exact absurd hc (by decide)
    rw [if_neg (by simp [identStart_not_digit hc]), if_neg (by simp [hdot]), if_neg hdollar,
      if_pos hc]

theorem scanWord_ident {w rest : List Char} (lim : Limits) (hw : ∀ x ∈ w, isIdentContinue x = true)
    (hr : ∀ c ∈ rest.head?, isIdentContinue c = false) (hlen : w.length ≤ lim.maxIdentifierLength)
    (hk : Keyword.ofText? (String.ofList w) = none) (m : Mark) :
    scanWord lim (w ++ rest) m = .ok (.ident (String.ofList w), rest, m.advance w) := by
  simp only [scanWord, takeWhile_append_stop hw hr, dropWhile_append_stop hw hr,
    if_neg (Nat.not_lt.2 hlen), hk]

theorem scanWord_keyword {w rest : List Char} (lim : Limits) (hw : ∀ x ∈ w, isIdentContinue x = true)
    (hr : ∀ c ∈ rest.head?, isIdentContinue c = false) (hlen : w.length ≤ lim.maxIdentifierLength)
    {k : Keyword} (hk : Keyword.ofText? (String.ofList w) = some k) (m : Mark) :
    scanWord lim (w ++ rest) m = .ok (.keyword k, rest, m.advance w) := by
  simp only [scanWord, takeWhile_append_stop hw hr, dropWhile_append_stop hw hr,
    if_neg (Nat.not_lt.2 hlen), hk]

theorem scanToken_ident {n : String} {rest : List Char} (lim : Limits) (hn : IdentText n)
    (hr : ∀ c ∈ rest.head?, isIdentContinue c = false) (hlen : n.length ≤ lim.maxIdentifierLength)
    (m : Mark) : ∃ m', scanToken lim (n.toList ++ rest) m = .ok (.ident n, rest, m') := by
  obtain ⟨c, cs, hcs, hc, hrest, hk⟩ := hn
  have hw : ∀ x ∈ n.toList, isIdentContinue x = true := by
    rw [hcs]
    rintro x (_ | ⟨_, hx⟩)
    · exact identStart_continue hc
    · exact hrest x hx
  refine ⟨m.advance n.toList, ?_⟩
  rw [hcs, List.cons_append, scanToken_identStart lim _ hc, ← List.cons_append, ← hcs,
    scanWord_ident lim hw hr (by rwa [String.length_toList]) (by rw [String.ofList_toList, hk]) m,
    String.ofList_toList]

theorem keyword_ofText (k : Keyword) : Keyword.ofText? k.text = some k := by
  cases k <;> rfl

theorem keyword_text_shape (k : Keyword) :
    ∃ c cs, k.text.toList = c :: cs ∧ isIdentStart c = true ∧ ∀ x ∈ cs, isIdentContinue x = true := by
  cases k <;> exact ⟨_, _, rfl, by decide, List.all_eq_true.1 (by decide)⟩

theorem scanToken_keyword {rest : List Char} (lim : Limits) (k : Keyword)
    (hr : ∀ c ∈ rest.head?, isIdentContinue c = false) (hlen : k.text.length ≤ lim.maxIdentifierLength)
    (m : Mark) : ∃ m', scanToken lim (k.text.toList ++ rest) m = .ok (.keyword k, rest, m') := by
  obtain ⟨c, cs, hcs, hc, hrest⟩ := keyword_text_shape k
  have hw : ∀ x ∈ k.text.toList, isIdentContinue x = true := by
    rw [hcs]
    rintro x (_ | ⟨_, hx⟩)
    · exact identStart_continue hc
    · exact hrest x hx
  refine ⟨m.advance k.text.toList, ?_⟩
  rw [hcs, List.cons_append, scanToken_identStart lim _ hc, ← List.cons_append, ← hcs,
    scanWord_keyword lim hw hr (by rwa [String.length_toList])
      (by rw [String.ofList_toList, keyword_ofText]) m]

/-! ## Operators and brackets -/

theorem scanToken_binOp (lim : Limits) (op : BinOp) (hlen : op.symbol.length ≤ lim.maxIdentifierLength)
    (r : List Char) (m : Mark) :
    ∃ m', scanToken lim (op.symbol.toList ++ ' ' :: r) m = .ok (op.token, ' ' :: r, m') := by
  have hr : ∀ c ∈ (' ' :: r).head?, isIdentContinue c = false := fun c hc => by
    cases hc
    decide
  cases op
  case logicalAnd => exact scanToken_keyword lim .kwAnd hr hlen m
  case logicalOr => exact scanToken_keyword lim .kwOr hr hlen m
  all_goals exact ⟨_, rfl⟩

theorem scanToken_unOp (lim : Limits) (op : UnOp) (hop : op ≠ .logicalNot) (r : List Char) (m : Mark) :
    ∃ m', scanToken lim (op.symbol.toList ++ r) m = .ok (op.token, r, m') := by
  cases op
  · exact ⟨_, rfl⟩
  · exact ⟨_, rfl⟩
  · exact absurd rfl hop

/-! ## Integers -/

theorem digitsValue_replicate_zero (b k : Nat) : digitsValue b (List.replicate k '0') = 0 := by
  induction k with
  | zero => rfl
  | succ k ih =>
    rw [List.replicate_succ', digitsValue_append, ih, digitsValue_singleton, Nat.zero_mul, Nat.zero_add]
    rfl

theorem hexDigit_upper : ∀ d : Fin 16,
    isHexDigit (Nat.digitChar d).toUpper = true ∧ digitValue (Nat.digitChar d).toUpper = d := by
  decide

theorem toDigits_upper (n : Nat) :
    (∀ c ∈ (Nat.toDigits 16 n).map Char.toUpper, isHexDigit c = true ∧ digitValue c < 16) ∧
      digitsValue 16 ((Nat.toDigits 16 n).map Char.toUpper) = n := by
  induction n using Nat.strong_induction_on with
  | _ n ih =>
    rw [Nat.toDigits_eq_if (by decide)]
    split
    · next hn =>
      obtain ⟨hhex, hval⟩ := hexDigit_upper ⟨n, hn⟩
      refine ⟨?_, ?_⟩
      · simp only [List.map_cons, List.map_nil, List.mem_singleton]
        rintro c rfl
        exact ⟨hhex, hval ▸ hn⟩
      · simpa [digitsValue_singleton] using hval
    · next hn =>
      obtain ⟨hall, hval⟩ := ih (n / 16) (by omega)
      obtain ⟨hhex, hd⟩ := hexDigit_upper ⟨n % 16, Nat.mod_lt n (by decide)⟩
      refine ⟨?_, ?_⟩
      · simp only [List.map_append, List.map_cons, List.map_nil, List.mem_append, List.mem_singleton]
        rintro c (hc | rfl)
        · exact hall c hc
        · exact ⟨hhex, hd ▸ Nat.mod_lt n (by decide)⟩
      · rw [List.map_append, digitsValue_append, hval, List.map_cons, List.map_nil,
          List.length_singleton, pow_one, digitsValue_singleton, hd, Fin.val_mk]
        omega

theorem hexWord_toList (n : Nat) : ∃ ds, (hexWord n).toList = '$' :: ds ∧ ds ≠ [] ∧
    (∀ c ∈ ds, isHexDigit c = true ∧ digitValue c < 16) ∧ digitsValue 16 ds = n % 2 ^ 32 := by
  obtain ⟨hall, hval⟩ := toDigits_upper (n % Nat.pow 2 32)
  refine ⟨(List.replicate (8 - (Nat.toDigits 16 (n % Nat.pow 2 32)).length) '0' ++
    Nat.toDigits 16 (n % Nat.pow 2 32)).map Char.toUpper, ?_, ?_, ?_, ?_⟩
  · simp only [hexWord, String.toList_append, String.toList_ofList]
    rfl
  · simp [Nat.toDigits_ne_nil]
  · simp only [List.map_append, List.mem_append]
    rintro c (hc | hc)
    · obtain ⟨k, hk, rfl⟩ := List.mem_map.1 hc
      rw [List.eq_of_mem_replicate hk]
      decide
    · exact hall c hc
  · have hzero : '0'.toUpper = '0' := by decide
    rw [List.map_append, digitsValue_append, List.map_replicate, hzero, digitsValue_replicate_zero, hval]
    simp

theorem scanToken_hexWord {rest : List Char} (lim : Limits) (n : Nat) (hs : Stops rest) (m : Mark) :
    ∃ m', scanToken lim ((hexWord n).toList ++ rest) m =
      .ok (.integer (Int32.ofNat (n % 2 ^ 32)), rest, m') := by
  obtain ⟨ds, hds, hne, hall, hval⟩ := hexWord_toList n
  have hhex : ∀ x ∈ ds, isHexDigit x = true := fun x hx => (hall x hx).1
  have hr := hs.head_false (p := isHexDigit) (by decide)
  refine ⟨(m.next '$').advance ds, ?_⟩
  rw [hds, List.cons_append]
  change scanHex (ds ++ rest) (m.next '$') = _
  have hlt : n % 2 ^ 32 < Nat.pow 2 32 := Nat.mod_lt _ (by decide)
  simp only [scanHex, takeWhile_append_stop hhex hr, dropWhile_append_stop hhex hr, wordLiteral, hval,
    List.isEmpty_eq_false_iff.2 hne, List.all_eq_true.2 fun x hx => decide_eq_true (hall x hx).2,
    hlt]
  rfl

theorem toDigits_ten_head_pos (k : Nat) (hk : 0 < k) : (Nat.toDigits 10 k).head? ≠ some '0' := by
  induction k using Nat.strong_induction_on with
  | _ k ih =>
    rw [Nat.toDigits_eq_if (by decide)]
    split
    · next hlt =>
      have : ∀ d : Fin 10, 0 < d.val → Nat.digitChar d ≠ '0' := by decide
      simpa using this ⟨k, hlt⟩ hk
    · next hge =>
      obtain ⟨c, r, hcr⟩ := List.exists_cons_of_ne_nil (Nat.toDigits_ne_nil (b := 10) (n := k / 10))
      have := ih (k / 10) (by omega) (by omega)
      rw [hcr] at this ⊢
      simpa using this

theorem toDigits_ten_head {n : Nat} {t : List Char} (h : Nat.toDigits 10 n = '0' :: t) : t = [] := by
  rw [Nat.toDigits_eq_if (by decide)] at h
  split at h
  · exact (List.cons.inj h).2.symm
  · next hge =>
    obtain ⟨c, r, hcr⟩ := List.exists_cons_of_ne_nil (Nat.toDigits_ne_nil (b := 10) (n := n / 10))
    rw [hcr, List.cons_append, List.cons.injEq] at h
    exact absurd (by rw [hcr, h.1]; rfl) (toDigits_ten_head_pos (n / 10) (by omega))

theorem digitValue_lt_ten {c : Char} (hc : c.isDigit = true) : digitValue c < 10 := by
  have := Char.isDigit_iff_toNat.1 hc
  have h0 : '0'.toNat = 48 := rfl
  have h9 : '9'.toNat = 57 := rfl
  simp only [digitValue, hc, if_true]
  omega

theorem scanToken_repr {rest : List Char} (lim : Limits) (n : Nat) (hn : n < 2 ^ 32) (hs : Stops rest)
    (m : Mark) :
    ∃ m', scanToken lim ((Nat.repr n).toList ++ rest) m = .ok (.integer (Int32.ofNat n), rest, m') := by
  obtain ⟨hne, hdig, hval⟩ := numeral_repr n
  have hr := hs.head_false (p := Char.isDigit) (by decide)
  obtain ⟨c, r, hcr⟩ := List.exists_cons_of_ne_nil hne
  -- after the first digit comes a digit or what follows the number, never an `x`
  have hnext : ∀ x r', r ++ rest = x :: r' → ¬(x = 'x' ∨ x = 'X') := by
    intro x r' h
    cases r with
    | nil =>
      rw [List.nil_append] at h
      rcases hs x (by rw [h]; rfl) with rfl | rfl | rfl | rfl | rfl | rfl <;> decide
    | cons d r =>
      obtain ⟨rfl, -⟩ := List.cons.inj h
      have hd : d.isDigit = true := hdig d (by simp [hcr])
      rintro (rfl | rfl) <;> exact absurd hd (by decide)
  have hall : (Nat.repr n).toList.all (fun c => decide (digitValue c < 10)) = true :=
    List.all_eq_true.2 fun x hx => decide_eq_true (digitValue_lt_ten (hdig x hx))
  have hword : wordLiteral (Nat.repr n).toList 10 (m.advance (Nat.repr n).toList) =
      .ok (.integer (Int32.ofNat n)) := by
    unfold wordLiteral
    rw [hval, if_pos]
    simp only [List.isEmpty_eq_false_iff.2 hne, hall, Bool.not_false, Bool.true_and]
    exact decide_eq_true hn
  refine ⟨m.advance (Nat.repr n).toList, ?_⟩
  rw [hcr, List.cons_append, scanToken_digit lim (hdig c (by simp [hcr])) hnext m, ← List.cons_append,
    ← hcr]
  simp only [scanNumber, takeWhile_append_stop hdig hr, dropWhile_append_stop hdig hr]
  split
  · rcases hs '.' rfl with h | h | h | h | h | h <;> exact absurd h (by decide)
  · split
    · next _ _ _ heq =>
      rw [Nat.repr, String.toList_ofList] at heq
      exact absurd (toDigits_ten_head heq) (by simp)
    · rw [hword]
      rfl

theorem escapeChar_cases (c : Char) :
    (∃ e, escapeChar c = ['\\', e] ∧ unescape e = [c]) ∨ (escapeChar c = [c] ∧ c ≠ '"' ∧ c ≠ '\\') := by
  unfold escapeChar
  split
  all_goals first
    | exact .inl ⟨_, rfl, rfl⟩
    | next hq hb _ _ _ _ _ => exact .inr ⟨rfl, hq, hb⟩

theorem scanString_escaped (lim : Limits) (start : Nat) (rest : List Char) :
    ∀ (s acc : List Char) (m : Mark), start ≤ m.offset →
      m.offset - start + ((s.flatMap escapeChar).map Char.utf8Size).sum ≤ lim.maxStringLength →
      ∃ m', scanString lim start acc (s.flatMap escapeChar ++ '"' :: rest) m =
        .ok (.string (String.ofList (acc.reverse ++ s)), rest, m')
  | [], acc, m, _, _ => ⟨m.next '"', by simp [scanString]⟩
  | c :: s, acc, m, h0, hb => by
    rw [List.flatMap_cons, List.map_append, List.sum_append] at hb
    rw [List.flatMap_cons]
    rcases escapeChar_cases c with ⟨e, he, hu⟩ | ⟨he, hq, hbs⟩
    · rw [he] at hb ⊢
      simp only [List.map_cons, List.map_nil, List.sum_cons, List.sum_nil] at hb
      have hoff := (Mark.offset_next m '\\') ▸ Mark.offset_next (m.next '\\') e
      simp only [List.cons_append, List.nil_append]
      rw [scanString.eq_4, if_neg (by omega)]
      obtain ⟨m', h⟩ := scanString_escaped lim start rest s ((unescape e).reverse ++ acc)
        ((m.next '\\').next e) (by omega) (by omega)
      refine ⟨m', h.trans ?_⟩
      simp [hu]
    · rw [he] at hb ⊢
      simp only [List.map_cons, List.map_nil, List.sum_cons, List.sum_nil] at hb
      have hoff := Mark.offset_next m c
      simp only [List.cons_append, List.nil_append]
      rw [scanString.eq_5 _ _ _ _ _ _ hq (fun h => absurd h hbs)
        (fun _ _ h => absurd h hbs), if_neg (by omega)]
      obtain ⟨m', h⟩ := scanString_escaped lim start rest s (c :: acc) (m.next c) (by omega) (by omega)
      refine ⟨m', h.trans ?_⟩
      simp

theorem scanToken_quote (lim : Limits) (s : String) (hlen : (quote s).utf8ByteSize ≤ lim.maxStringLength)
    (rest : List Char) (m : Mark) :
    ∃ m', scanToken lim ((quote s).toList ++ rest) m = .ok (.string s, rest, m') := by
  have htext : (quote s).toList = '"' :: (s.toList.flatMap escapeChar ++ ['"']) := by
    rw [quote, String.toList_ofList, List.cons_append]
  rw [utf8ByteSize_eq_sum, htext] at hlen
  simp only [List.map_cons, List.map_append, List.sum_cons, List.sum_append, List.map_nil,
    List.sum_nil] at hlen
  rw [htext, List.cons_append, List.append_assoc, List.singleton_append]
  change ∃ m', scanString lim m.offset [] _ (m.next '"') = _
  have hoff := Mark.offset_next m '"'
  obtain ⟨m', h⟩ := scanString_escaped lim m.offset rest s.toList [] (m.next '"') (by omega)
    (by simp only [Char.utf8Size] at hoff hlen ⊢; omega)
  exact ⟨m', by rw [h, List.reverse_nil, List.nil_append, String.ofList_toList]⟩

theorem scanQuoted_text (rest : List Char) :
    ∀ (body acc : List Char) (m : Mark), '\'' ∉ body → '\n' ∉ body →
      ∃ m', scanQuoted acc (body ++ '\'' :: rest) m = .ok (acc.reverse ++ body, rest, m')
  | [], acc, m, _, _ => ⟨m.next '\'', by simp [scanQuoted]⟩
  | c :: body, acc, m, hq, hn => by
    rw [List.cons_append, scanQuoted.eq_4 _ _ _ _ (fun h => hn (h ▸ List.mem_cons_self))
      (fun h => hq (h ▸ List.mem_cons_self))]
    obtain ⟨m', h⟩ := scanQuoted_text rest body (c :: acc) (m.next c)
      (fun h => hq (List.mem_cons_of_mem c h)) (fun h => hn (List.mem_cons_of_mem c h))
    exact ⟨m', by rw [h]; simp⟩

theorem toList_loop (bs : ByteArray) (i : Nat) (r : List UInt8) :
    ByteArray.toList.loop bs i r = r.reverse ++ bs.data.toList.drop i := by
  fun_induction ByteArray.toList.loop bs i r with
  | case1 i r hi ih =>
    have hi' : i < bs.data.toList.length := by simpa using hi
    rw [ih, List.reverse_cons, List.append_assoc, List.singleton_append, List.drop_eq_getElem_cons hi']
    simp [ByteArray.get!, hi]
  | case2 i r hi =>
    rw [List.drop_eq_nil_of_le (by simpa using Nat.le_of_not_lt hi), List.append_nil]

theorem byteArray_toList (l : List UInt8) : (ByteArray.mk l.toArray).toList = l := by
  rw [ByteArray.toList, toList_loop]
  simp

theorem fromUTF8?_some {b : ByteArray} {t : String} (h : String.fromUTF8? b = some t) :
    t.toByteArray = b := by
  unfold String.fromUTF8? at h
  split at h
  · cases h
    rfl
  · cases h

theorem scanToken_fourcc (lim : Limits) (c : FourCC) (hc : c.Quoted) (rest : List Char) (m : Mark) :
    ∃ m', scanToken lim ((Const.fourcc c).toSource.toList ++ rest) m = .ok (.fourcc c, rest, m') := by
  obtain ⟨t, ht, hq, hn⟩ := hc
  have htext : (Const.fourcc c).toSource = "'" ++ t ++ "'" := by
    change c.text = _
    rw [FourCC.text, ht]
    simp [String.contains_char_eq, hq, hn]
  have hbytes : (String.ofList ([].reverse ++ t.toList)).toUTF8.toList = c.bytes := by
    rw [List.reverse_nil, List.nil_append, String.ofList_toList, String.toUTF8_eq_toByteArray,
      fromUTF8?_some ht, byteArray_toList]
  have hof : FourCC.ofBytes? c.bytes = some c := by
    cases c
    rfl
  have hquote : "'".toList = ['\''] := by decide
  obtain ⟨m', hscan⟩ := scanQuoted_text rest t.toList [] (m.next '\'') hq hn
  refine ⟨m', ?_⟩
  rw [htext, String.toList_append, String.toList_append, hquote, List.append_assoc, List.append_assoc,
    List.singleton_append, List.singleton_append]
  change scanFourCC (t.toList ++ '\'' :: rest) (m.next '\'') = _
  simp only [scanFourCC, hscan, bind, Except.bind, hbytes, hof]
  rfl

theorem scanToken_real (lim : Limits) (x : Float32) (hx : RealReadsBack x) {rest : List Char}
    (hs : Stops rest) (m : Mark) :
    ∃ m', scanToken lim ((realText x).toList ++ rest) m = .ok (.real x, rest, m') := by
  obtain ⟨ints, fracs, hne, hi, hf, htext, hval⟩ := hx
  have hr := hs.head_false (p := Char.isDigit) (by decide)
  refine ⟨((m.advance ints).next '.').advance fracs, ?_⟩
  rw [htext, List.append_assoc, List.cons_append]
  obtain ⟨c, r, rfl⟩ := List.exists_cons_of_ne_nil hne
  rw [List.cons_append, scanToken_digit lim (hi c (by simp)) _ m, ← List.cons_append]
  · simp only [scanNumber, takeWhile_isDigit_point _ _ hi, dropWhile_isDigit_point _ _ hi,
      takeWhile_append_stop hf hr, dropWhile_append_stop hf hr, hval]
  -- after the first digit comes a digit or the point
  intro y r' hyr
  cases r with
  | nil =>
    obtain ⟨rfl, -⟩ := List.cons.inj hyr
    decide
  | cons d r =>
    obtain ⟨rfl, -⟩ := List.cons.inj hyr
    have hd : d.isDigit := hi d (by simp)
    rintro (rfl | rfl) <;> exact absurd hd (by decide)

theorem scanToken_const (lim : Limits) (c : Const) (hc : c.Reads)
    (hlen : c.toSource.utf8ByteSize ≤ lim.maxIdentifierLength)
    (hstr : c.toSource.utf8ByteSize ≤ lim.maxStringLength) {rest : List Char} (hs : Stops rest)
    (m : Mark) : ∃ m', scanToken lim (c.toSource.toList ++ rest) m = .ok (c.token, rest, m') := by
  have hr := hs.head_false (p := isIdentContinue) (by decide)
  have hkw : ∀ k : Keyword, c.toSource = k.text → c.token = .keyword k →
      ∃ m', scanToken lim (c.toSource.toList ++ rest) m = .ok (c.token, rest, m') := by
    intro k htext htok
    rw [htext, htok]
    exact scanToken_keyword lim k hr ((length_le_utf8ByteSize _).trans (htext ▸ hlen)) m
  cases c with
  | integer v =>
    by_cases hv : v.toInt < 0
    · have htext : (Const.integer v).toSource = hexWord v.toBitVec.toNat := if_pos hv
      rw [htext]
      obtain ⟨m', h⟩ := scanToken_hexWord lim v.toBitVec.toNat hs m
      refine ⟨m', h.trans ?_⟩
      rw [Nat.mod_eq_of_lt v.toBitVec.isLt, Int32.ofNat_bitVecToNat, Int32.ofBitVec_toBitVec]
      rfl
    · have hnn : 0 ≤ v.toInt := by omega
      have htext : (Const.integer v).toSource = Nat.repr v.toInt.toNat := by
        change (if v.toInt < 0 then _ else toString v.toInt) = _
        rw [if_neg hv, ← Int.toNat_of_nonneg hnn]
        rfl
      rw [htext]
      have hlt : v.toInt.toNat < 2 ^ 32 := by
        have := Int32.toInt_lt v
        omega
      obtain ⟨m', h⟩ := scanToken_repr lim _ hlt hs m
      refine ⟨m', h.trans ?_⟩
      have h0 : (0 : Int32) ≤ v := Int32.le_iff_toInt_le.2 (by rw [Int32.toInt_zero]; exact hnn)
      rw [show Int32.ofNat v.toInt.toNat = v from Int32.ofNat_toNatClampNeg v h0]
      rfl
  | real x => exact scanToken_real lim x hc hs m
  | fourcc c => exact scanToken_fourcc lim c hc rest m
  | boolean b =>
    cases b
    · exact hkw .kwFalse rfl rfl
    · exact hkw .kwTrue rfl rfl
  | string s => exact scanToken_quote lim s hstr rest m
  | null => exact hkw .kwNull rfl rfl

/-! ## Runs of tokens -/

/-- The lexer reads the tokens `toks` from `cs` and stops before `rest`, wherever `cs` starts and
however many tokens came before it, as long as they are fewer than the bound. -/
inductive Lexes (lim : Limits) : List Char → List Token → List Char → Prop
  | nil (cs : List Char) : Lexes lim cs [] cs
  | cons {cs mid rest : List Char} {tok : Token} {toks : List Token} (hne : tok ≠ .eof)
      (hstep : ∀ count m, count < lim.maxTokenCount →
        ∃ pos m', nextLexeme lim count cs m = .ok (⟨tok, pos⟩, mid, m'))
      (hrest : Lexes lim mid toks rest) : Lexes lim cs (tok :: toks) rest

variable {lim : Limits}

theorem Lexes.append {cs mid rest : List Char} {t₁ t₂ : List Token} (h₁ : Lexes lim cs t₁ mid)
    (h₂ : Lexes lim mid t₂ rest) : Lexes lim cs (t₁ ++ t₂) rest := by
  induction h₁ with
  | nil => exact h₂
  | cons hne hstep _ ih => exact .cons hne hstep (ih h₂)

theorem nextLexeme_blank {count : Nat} (hc : count < lim.maxTokenCount) (cs : List Char) (m : Mark) :
    nextLexeme lim count (' ' :: cs) m = nextLexeme lim count cs (m.next ' ') := by
  simp [nextLexeme, skipBlanks, Nat.not_le.2 hc]

theorem Lexes.blank {cs rest : List Char} {toks : List Token} (h : Lexes lim cs toks rest)
    (hne : toks ≠ []) : Lexes lim (' ' :: cs) toks rest := by
  cases h with
  | nil => exact absurd rfl hne
  | cons htok hstep hrest =>
    exact .cons htok (fun count m hc => by rw [nextLexeme_blank hc]; exact hstep count _ hc) hrest

theorem nextLexeme_token {count : Nat} {cs rest : List Char} {tok : Token} {m m' : Mark}
    (hc : count < lim.maxTokenCount) (hb : ∀ c ∈ cs.head?, c ≠ ' ' ∧ c ≠ '\t' ∧ c ≠ '\r')
    (hcom : ∀ r, cs ≠ '/' :: '/' :: r) (h : scanToken lim cs m = .ok (tok, rest, m')) :
    nextLexeme lim count cs m = .ok (⟨tok, m.pos⟩, rest, m') := by
  have hskip : skipBlanks cs m = (cs, m) := by
    cases cs with
    | nil => rfl
    | cons c r =>
      obtain ⟨h1, h2, h3⟩ := hb c rfl
      simp [skipBlanks, h1, h2, h3]
  unfold nextLexeme
  simp only [ge_iff_le, Nat.not_le.2 hc, if_false, hskip]
  simp [h]

theorem Lexes.of_scan {cs rest : List Char} {tok : Token} (hne : tok ≠ .eof)
    (hslash : tok ≠ .symbol .slash) (hscan : ∀ m, ∃ m', scanToken lim cs m = .ok (tok, rest, m')) :
    Lexes lim cs [tok] rest := by
  refine .cons hne (fun count m hc => ?_) (.nil rest)
  obtain ⟨m', h⟩ := hscan m
  refine ⟨m.pos, m', nextLexeme_token hc ?_ ?_ h⟩
  · intro c hc'
    cases cs with
    | nil => cases hc'
    | cons c' r =>
      obtain rfl := Option.some.inj hc'
      refine ⟨?_, ?_, ?_⟩ <;> rintro rfl <;>
        simp [scanToken, scanSymbol, isIdentStart, Char.isAlpha, Char.isUpper, Char.isLower] at h
  · rintro r rfl
    have hs : scanToken lim ('/' :: '/' :: r) m = .ok (.symbol .slash, '/' :: r, m.next '/') := rfl
    rw [hs] at h
    cases h
    exact hslash rfl

theorem Lexes.length_le {cs rest : List Char} {toks : List Token} (h : Lexes lim cs toks rest)
    (hpos : 0 < lim.maxTokenCount) : toks.length + rest.length ≤ cs.length := by
  induction h with
  | nil => simp
  | cons hne hstep _ ih =>
    obtain ⟨pos, m', hn⟩ := hstep 0 {} hpos
    rcases nextLexeme_rest hn with heof | hlt
    · exact absurd heof hne
    · simp only [List.length_cons]
      omega

theorem lexemes_lexes {cs rest : List Char} {toks : List Token} (h : Lexes lim cs toks rest)
    (hr : rest = []) : ∀ (fuel count : Nat) (m : Mark) (acc : Array Lexeme), toks.length < fuel →
      count + toks.length < lim.maxTokenCount → ∃ out, lexemes lim fuel count cs m acc = .ok out ∧
        out.toList.map Lexeme.token = acc.toList.map Lexeme.token ++ toks ++ [.eof] := by
  induction h with
  | nil cs =>
    subst hr
    intro fuel count m acc hf hc
    obtain ⟨f, rfl⟩ : ∃ f, fuel = f + 1 := ⟨fuel - 1, by simp at hf; omega⟩
    have hn : nextLexeme lim count [] m = .ok (⟨.eof, m.pos⟩, [], m) :=
      nextLexeme_token (by simpa using hc) (fun _ h => by cases h) (fun _ h => by cases h) rfl
    refine ⟨acc.push ⟨.eof, m.pos⟩, ?_, by simp⟩
    simp only [lexemes, hn]
    rfl
  | @cons cs mid rest tok toks hne hstep _ ih =>
    intro fuel count m acc hf hc
    obtain ⟨f, rfl⟩ : ∃ f, fuel = f + 1 := ⟨fuel - 1, by simp at hf; omega⟩
    obtain ⟨pos, m', hn⟩ := hstep count m (by simp at hc; omega)
    obtain ⟨out, hout, hmap⟩ := ih hr f (count + 1) m' (acc.push ⟨tok, pos⟩) (by simp at hf; omega)
      (by simp at hc; omega)
    refine ⟨out, ?_, by simp [hmap]⟩
    simp only [lexemes, hn, bind, Except.bind]
    exact hout

theorem lex_lexes {src : String} {toks : List Token} (h : Lexes lim src.toList toks [])
    (hsize : src.utf8ByteSize ≤ lim.maxInputSize) (hcount : toks.length < lim.maxTokenCount) :
    ∃ out, lex src lim = .ok out ∧ out.toList.map Lexeme.token = toks ++ [.eof] := by
  have hlen := h.length_le (by omega)
  obtain ⟨out, hout, hmap⟩ := lexemes_lexes h rfl (src.length + 1) 0 {} #[]
    (by simp [String.length_toList] at hlen; omega) (by omega)
  refine ⟨out, ?_, by simpa using hmap⟩
  rw [lex, if_neg (Nat.not_lt.2 hsize)]
  exact hout

/-! ## The tokens of printed text -/

theorem lexes_ident {n : String} {rest : List Char} (hn : IdentText n)
    (hlen : n.length ≤ lim.maxIdentifierLength) (hs : Stops rest) :
    Lexes lim (n.toList ++ rest) [.ident n] rest :=
  .of_scan (fun h => by cases h) (fun h => by cases h)
    (scanToken_ident lim hn (hs.head_false (by decide)) hlen)

theorem lexes_keyword {rest : List Char} (k : Keyword) (hlen : k.text.length ≤ lim.maxIdentifierLength)
    (hr : ∀ c ∈ rest.head?, isIdentContinue c = false) :
    Lexes lim (k.text.toList ++ rest) [.keyword k] rest :=
  .of_scan (fun h => by cases h) (fun h => by cases h) (scanToken_keyword lim k hr hlen)

theorem lexes_binOp (op : BinOp) (hlen : op.symbol.length ≤ lim.maxIdentifierLength) (r : List Char) :
    Lexes lim (op.symbol.toList ++ ' ' :: r) [op.token] (' ' :: r) := by
  cases op
  case div =>
    -- a `/` followed by a blank does not start a comment
    rw [show BinOp.div.symbol.toList = ['/'] by decide]
    refine .cons (fun h => by cases h) (fun count m hc => ⟨m.pos, m.next '/', ?_⟩) (.nil _)
    exact nextLexeme_token hc (fun c hc => by cases hc; decide) (fun r' h => by simp at h) rfl
  all_goals exact .of_scan (fun h => by cases h) (fun h => by cases h) (scanToken_binOp lim _ hlen r)

theorem lexes_unOp (op : UnOp) (hop : op ≠ .logicalNot) (r : List Char) :
    Lexes lim (op.symbol.toList ++ r) [op.token] r := by
  cases op
  case logicalNot => exact absurd rfl hop
  all_goals exact .of_scan (fun h => by cases h) (fun h => by cases h) (scanToken_unOp lim _ hop r)

theorem lexes_bracket (s : Symbol) (c : Char)
    (hsc : (s, c) = (.lParen, '(') ∨ (s, c) = (.rParen, ')') ∨ (s, c) = (.lBracket, '[') ∨
      (s, c) = (.rBracket, ']') ∨ (s, c) = (.comma, ',')) (r : List Char) :
    Lexes lim (c :: r) [.symbol s] r := by
  rcases hsc with h | h | h | h | h <;> obtain ⟨rfl, rfl⟩ := Prod.mk.inj h <;>
    exact .of_scan (fun h => by cases h) (fun h => by cases h) fun m => ⟨_, rfl⟩

theorem lexes_const {rest : List Char} (c : Const) (hc : c.Reads)
    (hlen : c.toSource.utf8ByteSize ≤ lim.maxIdentifierLength)
    (hstr : c.toSource.utf8ByteSize ≤ lim.maxStringLength) (hs : Stops rest) :
    Lexes lim (c.toSource.toList ++ rest) [c.token] rest := by
  have hne : c.token ≠ .eof ∧ c.token ≠ .symbol .slash := by
    cases c <;> simp [Const.token]
  exact .of_scan hne.1 hne.2 (scanToken_const lim c hc hlen hstr hs)

end Lexer

open Lexer

theorem Expr.tokens_ne_nil (ts : Tables) (e : Expr) : e.tokens ts ≠ [] := by
  cases e <;> simp [Expr.tokens]

theorem punctuation_toList : " ".toList = [' '] ∧ ", ".toList = [',', ' '] ∧ "(".toList = ['('] ∧
    ")".toList = [')'] ∧ "[".toList = ['['] ∧ "]".toList = [']'] ∧
    "not ".toList = Keyword.kwNot.text.toList ++ [' '] ∧
    "function ".toList = Keyword.kwFunction.text.toList ++ [' '] := by
  decide

section

variable (ts : Tables) {lim : Limits} {B : Nat}

theorem name_length (hB : B ≤ lim.maxIdentifierLength ∧ B ≤ lim.maxStringLength) {n : String}
    (h : n.utf8ByteSize ≤ B) : n.length ≤ lim.maxIdentifierLength :=
  (length_le_utf8ByteSize n).trans (h.trans hB.1)

mutual

theorem lexes_toSource (hB : B ≤ lim.maxIdentifierLength ∧ B ≤ lim.maxStringLength) :
    ∀ (e : Expr), (∀ r ∈ e.refs, IdentText (ts.anyRefName r)) → (∀ c ∈ e.consts, c.Reads) →
      (e.toSource ts).utf8ByteSize ≤ B → ∀ (rest : List Char), Stops rest →
      Lexes lim ((e.toSource ts).toList ++ rest) (e.tokens ts) rest
  | .const c, _, hc, hb, rest, hs =>
    lexes_const c (hc c (by simp [Expr.consts])) (hb.trans hB.1) (hb.trans hB.2) hs
  | .binary l op r, hn, hc, hb, rest, hs => by
    simp only [Expr.toSource, String.utf8ByteSize_append] at hb
    have htext : ((Expr.binary l op r).toSource ts).toList ++ rest =
        (l.toSource ts).toList ++ ' ' :: (op.symbol.toList ++ ' ' :: ((r.toSource ts).toList ++ rest)) := by
      simp [Expr.toSource, String.toList_append, punctuation_toList]
    have hl := lexes_toSource hB l (fun x hx => hn x (by simp [Expr.refs, hx]))
      (fun x hx => hc x (by simp [Expr.consts, hx])) (by omega)
      (' ' :: (op.symbol.toList ++ ' ' :: ((r.toSource ts).toList ++ rest))) (stops_cons _ (.inl rfl))
    have hr := lexes_toSource hB r (fun x hx => hn x (by simp [Expr.refs, hx]))
      (fun x hx => hc x (by simp [Expr.consts, hx])) (by omega) rest hs
    have hop := lexes_binOp op (name_length hB (by omega)) ((r.toSource ts).toList ++ rest)
    rw [htext, show Expr.tokens ts (.binary l op r) = l.tokens ts ++ ([op.token] ++ r.tokens ts) from rfl]
    exact hl.append ((hop.blank (by simp)).append (hr.blank (Expr.tokens_ne_nil ts r)))
  | .unary op e, hn, hc, hb, rest, hs => by
    have he := lexes_toSource hB e (fun x hx => hn x (by simp [Expr.refs, hx]))
      (fun x hx => hc x (by simp [Expr.consts, hx]))
    rw [show Expr.tokens ts (.unary op e) = [op.token] ++ e.tokens ts from rfl]
    by_cases hop : op = .logicalNot
    · subst hop
      simp only [Expr.toSource, String.utf8ByteSize_append] at hb
      have htext : ((Expr.unary .logicalNot e).toSource ts).toList ++ rest =
          Keyword.kwNot.text.toList ++ ' ' :: ((e.toSource ts).toList ++ rest) := by
        simp [Expr.toSource, String.toList_append, punctuation_toList]
      have hnot : Keyword.kwNot.text.length ≤ lim.maxIdentifierLength :=
        (Nat.le_trans (by decide) (Nat.le_add_right _ _)).trans (hb.trans hB.1)
      rw [htext]
      exact (lexes_keyword .kwNot hnot (fun c hc => by cases hc; decide)).append
        ((he (by omega) rest hs).blank (Expr.tokens_ne_nil ts e))
    · have htext : ((Expr.unary op e).toSource ts).toList ++ rest =
          op.symbol.toList ++ ((e.toSource ts).toList ++ rest) := by
        cases op <;> simp_all [Expr.toSource, String.toList_append]
      have hsize : (e.toSource ts).utf8ByteSize ≤ B := by
        cases op <;> simp_all [Expr.toSource, String.utf8ByteSize_append] <;> omega
      rw [htext]
      exact (lexes_unOp op hop _).append (he hsize rest hs)
  | .call fn args, hn, hc, hb, rest, hs => by
    have hname : IdentText (ts.funRefName fn) := hn (.fn fn) (by simp [Expr.refs])
    simp only [Expr.toSource, String.utf8ByteSize_append] at hb
    have htext : ((Expr.call fn args).toSource ts).toList ++ rest =
        (ts.funRefName fn).toList ++ '(' :: ((Expr.listToSource ts args).toList ++ ')' :: rest) := by
      simp [Expr.toSource, String.toList_append, punctuation_toList]
    have hargs := lexes_listToSource hB args (fun x hx => hn x (by simp [Expr.refs, hx]))
      (fun x hx => hc x (by simp [Expr.consts, hx])) (by omega) (')' :: rest) (stops_cons _ (by decide))
    rw [htext, show Expr.tokens ts (.call fn args) = [.ident (ts.funRefName fn)] ++
      ([.symbol .lParen] ++ (Expr.listTokens ts args ++ [.symbol .rParen])) from by simp [Expr.tokens]]
    exact (lexes_ident hname (name_length hB (by omega)) (stops_cons _ (by decide))).append
      ((lexes_bracket .lParen '(' (by simp) _).append
        (hargs.append (lexes_bracket .rParen ')' (by simp) rest)))
  | .element v i, hn, hc, hb, rest, hs => by
    have hname : IdentText (ts.varRefName v) := hn (.var v) (by simp [Expr.refs])
    simp only [Expr.toSource, String.utf8ByteSize_append] at hb
    have htext : ((Expr.element v i).toSource ts).toList ++ rest =
        (ts.varRefName v).toList ++ '[' :: ((i.toSource ts).toList ++ ']' :: rest) := by
      simp [Expr.toSource, String.toList_append, punctuation_toList]
    have hi := lexes_toSource hB i (fun x hx => hn x (by simp [Expr.refs, hx]))
      (fun x hx => hc x (by simp [Expr.consts, hx])) (by omega) (']' :: rest) (stops_cons _ (by decide))
    rw [htext, show Expr.tokens ts (.element v i) = [.ident (ts.varRefName v)] ++
      ([.symbol .lBracket] ++ (i.tokens ts ++ [.symbol .rBracket])) from by simp [Expr.tokens]]
    exact (lexes_ident hname (name_length hB (by omega)) (stops_cons _ (by decide))).append
      ((lexes_bracket .lBracket '[' (by simp) _).append
        (hi.append (lexes_bracket .rBracket ']' (by simp) rest)))
  | .funRef fn, hn, _, hb, rest, hs => by
    have hname : IdentText (ts.funRefName fn) := hn (.fn fn) (by simp [Expr.refs])
    simp only [Expr.toSource, String.utf8ByteSize_append] at hb
    have htext : ((Expr.funRef fn).toSource ts).toList ++ rest =
        Keyword.kwFunction.text.toList ++ ' ' :: ((ts.funRefName fn).toList ++ rest) := by
      simp [Expr.toSource, String.toList_append, punctuation_toList]
    have hkw : Keyword.kwFunction.text.length ≤ lim.maxIdentifierLength :=
      (Nat.le_trans (by decide) (Nat.le_add_right _ _)).trans (hb.trans hB.1)
    rw [htext, show Expr.tokens ts (.funRef fn) = [.keyword .kwFunction] ++ [.ident (ts.funRefName fn)]
      from rfl]
    exact (lexes_keyword .kwFunction hkw (fun c hc => by cases hc; decide)).append
      ((lexes_ident hname (name_length hB (by omega)) hs).blank (by simp))
  | .var v, hn, _, hb, rest, hs =>
    lexes_ident (hn (.var v) (by simp [Expr.refs])) (name_length hB hb) hs
  | .paren e, hn, hc, hb, rest, hs => by
    simp only [Expr.toSource, String.utf8ByteSize_append] at hb
    have htext : ((Expr.paren e).toSource ts).toList ++ rest =
        '(' :: ((e.toSource ts).toList ++ ')' :: rest) := by
      simp [Expr.toSource, String.toList_append, punctuation_toList]
    have he := lexes_toSource hB e (fun x hx => hn x (by simp [Expr.refs, hx]))
      (fun x hx => hc x (by simp [Expr.consts, hx])) (by omega) (')' :: rest) (stops_cons _ (by decide))
    rw [htext, show Expr.tokens ts (.paren e) =
      [.symbol .lParen] ++ (e.tokens ts ++ [.symbol .rParen]) from by simp [Expr.tokens]]
    exact (lexes_bracket .lParen '(' (by simp) _).append
      (he.append (lexes_bracket .rParen ')' (by simp) rest))

theorem lexes_listToSource (hB : B ≤ lim.maxIdentifierLength ∧ B ≤ lim.maxStringLength) :
    ∀ (es : List Expr),
    (∀ r ∈ Expr.listRefs es, IdentText (ts.anyRefName r)) → (∀ c ∈ Expr.listConsts es, c.Reads) →
    (Expr.listToSource ts es).utf8ByteSize ≤ B → ∀ (rest : List Char), Stops rest →
    Lexes lim ((Expr.listToSource ts es).toList ++ rest) (Expr.listTokens ts es) rest
  | [], _, _, _, rest, _ => by
    simpa [Expr.listToSource, Expr.listTokens] using Lexes.nil rest
  | [e], hn, hc, hb, rest, hs => by
    have he := lexes_toSource hB e (fun x hx => hn x (by simp [Expr.listRefs, hx]))
      (fun x hx => hc x (by simp [Expr.listConsts, hx])) hb rest hs
    simpa only [Expr.listToSource, Expr.listTokens] using he
  | e :: f :: es, hn, hc, hb, rest, hs => by
    simp only [Expr.listToSource, String.utf8ByteSize_append] at hb
    have htext : (Expr.listToSource ts (e :: f :: es)).toList ++ rest =
        (e.toSource ts).toList ++ ',' :: ' ' :: ((Expr.listToSource ts (f :: es)).toList ++ rest) := by
      simp [Expr.listToSource, String.toList_append, punctuation_toList]
    have he := lexes_toSource hB e (fun x hx => hn x (by simp [Expr.listRefs, hx]))
      (fun x hx => hc x (by simp [Expr.listConsts, hx])) (by omega)
      (',' :: ' ' :: ((Expr.listToSource ts (f :: es)).toList ++ rest)) (stops_cons _ (by decide))
    have hrest := lexes_listToSource hB (f :: es) (fun x hx => hn x (List.mem_append_right _ hx))
      (fun x hx => hc x (List.mem_append_right _ hx)) (by omega) rest hs
    have hne : Expr.listTokens ts (f :: es) ≠ [] := by
      cases es <;> simp [Expr.listTokens, Expr.tokens_ne_nil]
    rw [htext, show Expr.listTokens ts (e :: f :: es) = e.tokens ts ++ ([.symbol .comma] ++
      Expr.listTokens ts (f :: es)) from rfl]
    exact he.append ((lexes_bracket .comma ',' (by simp) _).append (hrest.blank hne))

end

end

/-- The printed text of an expression whose names are identifiers and whose literals read back
lexes to the expression's tokens and `eof`, under limits above the text's size. -/
theorem lex_toSource (ts : Tables) {lim : Limits} (e : Expr)
    (hn : ∀ r ∈ e.refs, IdentText (ts.anyRefName r)) (hc : ∀ c ∈ e.consts, c.Reads)
    (hb : ∀ f, f ≠ .exprDepth → (e.toSource ts).utf8ByteSize < lim.get f) :
    ∃ out, lex (e.toSource ts) lim = .ok out ∧ out.toList.map Lexeme.token = e.tokens ts ++ [.eof] := by
  have h := lexes_toSource ts
    ⟨(hb .identifierLength (by decide)).le, (hb .stringLength (by decide)).le⟩ e hn hc le_rfl [] stops_nil
  rw [List.append_nil] at h
  have hcount := hb .tokenCount (by decide)
  have hlen := h.length_le (by simp only [Limits.get] at hcount; omega)
  have hchars := length_le_utf8ByteSize (e.toSource ts)
  simp only [List.length_nil, Nat.add_zero, String.length_toList] at hlen
  exact lex_lexes h (hb .inputSize (by decide)).le (by simp only [Limits.get] at hcount; omega)

end Jass
