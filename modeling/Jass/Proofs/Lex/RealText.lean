import Mathlib
import Jass.Syntax.Print
import Jass.Lex.Lexer
/-!
# Printed reals that read back as real literals

A real constant is printed as its shortest decimal text with `.0` appended when that text has no
decimal point. For a finite value that is not negative the result is a run of digits, a point and
more digits, which the lexer reads back as one real literal and nothing after it, writing the
same decimal. Every other value prints as a word or behind a minus sign: the infinities as `inf.0`
and `-inf.0`, a NaN as `NaN.0`, a negative number with a leading `-`. Those texts start with a
name or an operator, so no real literal is read back (`printed_real_lexes_back`).

Reading a literal can give an infinity, since a literal beyond the largest finite single-precision
number rounds to it, so a printed file holding one does not read back as the file that was
printed (`overflowing_literal_prints_as_name`).
-/

namespace Jass

namespace Lexer

/-! ## The value of a run of digits -/

theorem digitsValue_foldl (base a : Nat) (ds : List Char) :
    ds.foldl (fun acc c => acc * base + digitValue c) a = a * base ^ ds.length + digitsValue base ds := by
  induction ds generalizing a with
  | nil => simp [digitsValue]
  | cons c ds ih =>
    simp only [digitsValue, List.foldl_cons, List.length_cons] at ih ⊢
    rw [ih, ih (0 * base + digitValue c), Nat.pow_succ]
    ring

theorem digitsValue_append (base : Nat) (l₁ l₂ : List Char) :
    digitsValue base (l₁ ++ l₂) = digitsValue base l₁ * base ^ l₂.length + digitsValue base l₂ := by
  rw [digitsValue, List.foldl_append, digitsValue_foldl]
  rfl

theorem digitsValue_singleton (base : Nat) (c : Char) : digitsValue base [c] = digitValue c := by
  simp [digitsValue]

theorem digitsValue_zeros (k : Nat) : digitsValue 10 (List.replicate k '0') = 0 := by
  induction k with
  | zero => rfl
  | succ k ih =>
    rw [List.replicate_succ', digitsValue_append, ih, digitsValue_singleton]
    rfl

theorem digitsValue_zeros_append (k : Nat) (l : List Char) :
    digitsValue 10 (List.replicate k '0' ++ l) = digitsValue 10 l := by
  rw [digitsValue_append, digitsValue_zeros, Nat.zero_mul, Nat.zero_add]

theorem digitValue_digitChar : ∀ d : Fin 10, digitValue (Nat.digitChar d) = d := by
  decide

theorem digitsValue_toDigits (n : Nat) : digitsValue 10 (Nat.toDigits 10 n) = n := by
  induction n using Nat.strong_induction_on with
  | _ n ih =>
    rw [Nat.toDigits_eq_if (by decide)]
    split
    · next hn =>
      rw [digitsValue_singleton]
      exact digitValue_digitChar ⟨n, hn⟩
    · next hn =>
      rw [digitsValue_append, ih (n / 10) (by omega), List.length_singleton, pow_one,
        digitsValue_singleton, digitValue_digitChar ⟨n % 10, Nat.mod_lt n (by decide)⟩, Fin.val_mk]
      omega

/-! ## Real literals -/

def Numeral (cs : List Char) (n : Nat) : Prop :=
  cs ≠ [] ∧ (∀ c ∈ cs, c.isDigit) ∧ digitsValue 10 cs = n

/-- The text of a real literal as the printer writes it: digits, a point and digits that together
write `v`. -/
def RealLiteral (cs : List Char) (v : ℚ) : Prop :=
  ∃ ints fracs, ints ≠ [] ∧ (∀ c ∈ ints, c.isDigit) ∧ (∀ c ∈ fracs, c.isDigit) ∧
    cs = ints ++ '.' :: fracs ∧ (digitsValue 10 (ints ++ fracs) : ℚ) / 10 ^ fracs.length = v

theorem Numeral.realLiteral {cs : List Char} {n : Nat} (h : Numeral cs n) :
    RealLiteral (cs ++ ['.', '0']) n := by
  obtain ⟨hne, hdig, hval⟩ := h
  refine ⟨cs, ['0'], hne, hdig, by simp, rfl, ?_⟩
  rw [digitsValue_append, hval]
  simp [digitsValue, digitValue]

theorem takeWhile_isDigit_point (ints fracs : List Char) (h : ∀ c ∈ ints, c.isDigit) :
    (ints ++ '.' :: fracs).takeWhile Char.isDigit = ints := by
  rw [List.takeWhile_append_of_pos h, List.takeWhile_cons_of_neg (by decide), List.append_nil]

theorem dropWhile_isDigit_point (ints fracs : List Char) (h : ∀ c ∈ ints, c.isDigit) :
    (ints ++ '.' :: fracs).dropWhile Char.isDigit = '.' :: fracs := by
  rw [List.dropWhile_append_of_pos h, List.dropWhile_cons_of_neg (by decide)]

theorem scanNumber_realLiteral {ints fracs : List Char} (hi : ∀ c ∈ ints, c.isDigit)
    (hf : ∀ c ∈ fracs, c.isDigit) (m : Mark) :
    scanNumber (ints ++ '.' :: fracs) m =
      .ok (.real (Float32.ofScientific (digitsValue 10 (ints ++ fracs)) true fracs.length), [],
        ((m.advance ints).next '.').advance fracs) := by
  have htake : fracs.takeWhile Char.isDigit = fracs := List.takeWhile_eq_self_iff.2 hf
  have hdrop : fracs.dropWhile Char.isDigit = [] := List.dropWhile_eq_nil_iff.2 hf
  simp only [scanNumber, takeWhile_isDigit_point ints fracs hi, dropWhile_isDigit_point ints fracs hi,
    htake, hdrop]

theorem scanToken_digit (lim : Limits) {c : Char} {r : List Char} (hc : c.isDigit)
    (hr : ∀ x r', r = x :: r' → ¬(x = 'x' ∨ x = 'X')) (m : Mark) :
    scanToken lim (c :: r) m = scanNumber (c :: r) m := by
  unfold scanToken
  split
  · next heq => cases heq
  · next heq =>
    cases heq
    exact absurd hc (by decide)
  · next x r' heq =>
    cases heq
    rw [if_neg (hr x r' rfl)]
  · next _ _ _ _ _ heq =>
    cases heq
    rw [if_pos hc]

theorem scanToken_realLiteral (lim : Limits) {cs : List Char} {v : ℚ} (h : RealLiteral cs v)
    (m : Mark) : scanToken lim cs m = scanNumber cs m := by
  obtain ⟨ints, fracs, hne, hi, -, rfl, -⟩ := h
  obtain ⟨c, r, rfl⟩ := List.exists_cons_of_ne_nil hne
  rw [List.cons_append]
  refine scanToken_digit lim (hi c (by simp)) ?_ m
  -- after the first digit comes a digit or the point, never the `x` of a hexadecimal prefix
  intro x r' hxr
  cases r with
  | nil =>
    obtain ⟨rfl, -⟩ := List.cons.inj hxr
    decide
  | cons d r =>
    obtain ⟨rfl, -⟩ := List.cons.inj hxr
    have hd : d.isDigit := hi d (by simp)
    rintro (rfl | rfl) <;> exact absurd hd (by decide)

theorem scanWord_ne_real (lim : Limits) (cs : List Char) (m : Mark) (y : Float32) (rest : List Char)
    (m' : Mark) : scanWord lim cs m ≠ .ok (.real y, rest, m') := by
  unfold scanWord
  dsimp only
  split
  · exact fun h => by cases h
  · split <;> exact fun h => by cases h

theorem scanToken_ne_real (lim : Limits) {c : Char} (r : List Char) (hc : c = 'i' ∨ c = 'N' ∨ c = '-')
    (m : Mark) (y : Float32) (rest : List Char) (m' : Mark) :
    scanToken lim (c :: r) m ≠ .ok (.real y, rest, m') := by
  rcases hc with rfl | rfl | rfl
  · simp only [scanToken]
    exact scanWord_ne_real lim _ m y rest m'
  · simp only [scanToken]
    exact scanWord_ne_real lim _ m y rest m'
  · have hminus : isIdentStart '-' = false := by decide
    simp [scanToken, scanSymbol, hminus]

end Lexer

open Lexer

/-! ## The shape of the printed text -/

namespace Decimal

def Decimal.value (d : Decimal) : ℚ := d.digits * 10 ^ d.exp

/-- The number the text of a finite magnitude writes: zero, or its shortest decimal. -/
def Binary.written (b : Binary) : ℚ := if b.mant = 0 then 0 else b.shortest.value

end Decimal

theorem numeral_repr (n : Nat) : Numeral (Nat.repr n).toList n := by
  rw [Nat.repr, String.toList_ofList]
  exact ⟨Nat.toDigits_ne_nil, fun _ hc => Nat.isDigit_of_mem_toDigits (by decide) (by decide) hc,
    digitsValue_toDigits n⟩

theorem positional_shape (d : Decimal.Decimal) :
    (∃ n : Nat, Numeral d.positional.toList n ∧ (n : ℚ) = d.value) ∨
      RealLiteral d.positional.toList d.value := by
  obtain ⟨hne, hdig, hval⟩ := numeral_repr d.digits
  unfold Decimal.Decimal.positional Decimal.Decimal.value
  generalize (Nat.repr d.digits).toList = ds at hne hdig hval ⊢
  dsimp only
  split
  · next he =>
    refine .inl ⟨d.digits * 10 ^ d.exp.toNat, ⟨by simp [hne], ?_, ?_⟩, ?_⟩
    · simp only [String.toList_ofList, List.mem_append, List.mem_replicate]
      rintro c (hc | ⟨-, rfl⟩)
      · exact hdig c hc
      · decide
    · rw [String.toList_ofList, digitsValue_append, hval, List.length_replicate, digitsValue_zeros,
        Nat.add_zero]
    · rw [← Int.toNat_of_nonneg he, zpow_natCast]
      push_cast
      rfl
  · next he =>
    have hpow : (10 : ℚ) ^ d.exp = ((10 : ℚ) ^ (-d.exp).toNat)⁻¹ := by
      rw [← zpow_natCast, ← zpow_neg, Int.toNat_of_nonneg (by omega), neg_neg]
    rw [hpow, ← div_eq_mul_inv]
    split
    · next hlt =>
      refine .inr ⟨_, _, List.ne_nil_of_length_pos (by simp; omega),
        fun c hc => hdig c (List.mem_of_mem_take hc), fun c hc => hdig c (List.mem_of_mem_drop hc),
        String.toList_ofList, ?_⟩
      rw [List.take_append_drop, hval, List.length_drop]
      congr 2
      omega
    · next hge =>
      refine .inr ⟨['0'], List.replicate ((-d.exp).toNat - ds.length) '0' ++ ds, by simp, by simp,
        ?_, by simp, ?_⟩
      · simp only [List.mem_append, List.mem_replicate]
        rintro c (⟨-, rfl⟩ | hc)
        · decide
        · exact hdig c hc
      · rw [List.singleton_append, ← List.cons_append, ← List.replicate_succ,
          digitsValue_zeros_append, hval, List.length_append,
          List.length_replicate]
        congr 2
        omega

theorem text_shape {x : Float32} {b : Decimal.Binary} (hk : Decimal.Kind.of x = .finite b)
    (hb : b.negative = false) :
    (∃ n : Nat, Numeral (Decimal.text x).toList n ∧ (n : ℚ) = b.written) ∨
      RealLiteral (Decimal.text x).toList b.written := by
  simp only [Decimal.text, hk, hb, Bool.false_eq_true, ↓reduceIte, String.empty_append,
    Decimal.Binary.written, beq_iff_eq]
  split
  · exact .inl ⟨0, ⟨by simp, by simp, by simp [digitsValue, digitValue]⟩, by simp⟩
  · exact positional_shape _

theorem text_head {x : Float32} (hx : ∀ b, Decimal.Kind.of x = .finite b → b.negative = true) :
    ∃ c r, (Decimal.text x).toList = c :: r ∧ (c = 'i' ∨ c = 'N' ∨ c = '-') := by
  rcases hk : Decimal.Kind.of x with _ | negative | b
  · exact ⟨'N', ['a', 'N'], by simp [Decimal.text, hk], by simp⟩
  · cases negative
    · exact ⟨'i', ['n', 'f'], by simp [Decimal.text, hk], by simp⟩
    · exact ⟨'-', ['i', 'n', 'f'], by simp [Decimal.text, hk], by simp⟩
  · have hb := hx b hk
    simp only [Decimal.text, hk, hb, ↓reduceIte]
    split
    · exact ⟨'-', ['0'], by simp, by simp⟩
    · exact ⟨'-', b.shortest.positional.toList, by simp, by simp⟩

theorem realText_append (x : Float32) : ∃ s, (realText x).toList = (Decimal.text x).toList ++ s := by
  unfold realText
  dsimp only
  split
  · exact ⟨[], (List.append_nil _).symm⟩
  · exact ⟨_, String.toList_append⟩

theorem realText_realLiteral {x : Float32} {v : ℚ}
    (h : (∃ n : Nat, Numeral (Decimal.text x).toList n ∧ (n : ℚ) = v) ∨
      RealLiteral (Decimal.text x).toList v) :
    RealLiteral (realText x).toList v := by
  unfold realText
  dsimp only
  rcases h with ⟨n, hn, rfl⟩ | hr
  · have hpt : (Decimal.text x).contains '.' = false := by
      rw [String.contains_char_eq, decide_eq_false_iff_not]
      exact fun hm => absurd (hn.2.1 _ hm) (by decide)
    rw [hpt, if_neg Bool.false_ne_true, String.toList_append]
    exact hn.realLiteral
  · have hpt : (Decimal.text x).contains '.' = true := by
      obtain ⟨ints, fracs, -, -, -, heq, -⟩ := hr
      rw [String.contains_char_eq, decide_eq_true_iff, heq]
      simp
    rw [hpt, if_pos rfl]
    exact hr

/-! ## Reading the printed text back -/

theorem scanToken_realText (lim : Limits) {x : Float32} {b : Decimal.Binary}
    (hk : Decimal.Kind.of x = .finite b) (hb : b.negative = false) (m : Mark) :
    ∃ n k m', scanToken lim (realText x).toList m = .ok (.real (Float32.ofScientific n true k), [], m') ∧
      (n : ℚ) / 10 ^ k = b.written := by
  have hlit := realText_realLiteral (text_shape hk hb)
  rw [scanToken_realLiteral lim hlit m]
  obtain ⟨ints, fracs, -, hi, hf, heq, hval⟩ := hlit
  rw [heq, scanNumber_realLiteral hi hf m]
  exact ⟨_, _, _, rfl, hval⟩

/-- The printed text of a real constant reads back as one real literal, with nothing left, exactly
when the constant is finite and not negative; the literal then writes the constant's shortest
decimal. -/
theorem printed_real_lexes_back (lim : Limits) (x : Float32) (m : Mark) :
    ((∃ y m', scanToken lim (Const.real x).toSource.toList m = .ok (.real y, [], m')) ↔
      ∃ b, Decimal.Kind.of x = .finite b ∧ b.negative = false) ∧
    ∀ b, Decimal.Kind.of x = .finite b → b.negative = false →
      ∃ n k m', scanToken lim (Const.real x).toSource.toList m =
          .ok (.real (Float32.ofScientific n true k), [], m') ∧ (n : ℚ) / 10 ^ k = b.written := by
  change ((∃ y m', scanToken lim (realText x).toList m = .ok (.real y, [], m')) ↔ _) ∧
    ∀ b, _ → _ → ∃ n k m', scanToken lim (realText x).toList m = _ ∧ _
  refine ⟨⟨?_, ?_⟩, fun b hk hb => scanToken_realText lim hk hb m⟩
  · rintro ⟨y, m', h⟩
    by_contra hne
    have hneg : ∀ b, Decimal.Kind.of x = .finite b → b.negative = true := fun b hb => by
      cases hbn : b.negative
      · exact absurd ⟨b, hb, hbn⟩ hne
      · rfl
    obtain ⟨c, r, htext, hc⟩ := text_head hneg
    obtain ⟨s, hs⟩ := realText_append x
    rw [hs, htext, List.cons_append] at h
    exact scanToken_ne_real lim _ hc m y [] m' h
  · rintro ⟨b, hk, hb⟩
    obtain ⟨n, k, m', h, -⟩ := scanToken_realText lim hk hb m
    exact ⟨_, m', h⟩

set_option maxRecDepth 20000 in
/-- A literal beyond the largest finite single-precision number reads as infinity, which prints as
`inf.0`: a text that starts with a name, not with a real literal. -/
theorem overflowing_literal_prints_as_name :
    ∃ x m', scanToken {} "1000000000000000000000000000000000000000.0".toList {} =
        .ok (.real x, [], m') ∧
      Decimal.Kind.of x = .infinite false ∧ (Const.real x).toSource = "inf.0" ∧
      ∀ y m'', scanToken {} (Const.real x).toSource.toList {} ≠ .ok (.real y, [], m'') := by
  -- the literal writes `10 ^ 39`, above the largest finite value `3.4 · 10 ^ 38`
  have hlit : "1000000000000000000000000000000000000000.0".toList =
      ('1' :: List.replicate 39 '0') ++ '.' :: ['0'] := by decide
  have hi : ∀ c ∈ '1' :: List.replicate 39 '0', c.isDigit := List.all_eq_true.1 (by decide)
  have hf : ∀ c ∈ ['0'], c.isDigit := List.all_eq_true.1 (by decide)
  have hval : digitsValue 10 (('1' :: List.replicate 39 '0') ++ ['0']) = 10 ^ 40 := by decide
  have hbits : (Float32.ofScientific (10 ^ 40) true 1).toBits = 0x7f800000 := by decide
  have hk : Decimal.Kind.of (Float32.ofScientific (10 ^ 40) true 1) = .infinite false := by
    rw [Decimal.Kind.of, hbits]
    rfl
  have htext : (Const.real (Float32.ofScientific (10 ^ 40) true 1)).toSource = "inf.0" := by
    change realText _ = _
    simp only [realText, Decimal.text, hk, Bool.false_eq_true, ↓reduceIte, String.contains_char_eq]
    decide
  have hscan : scanToken {} "1000000000000000000000000000000000000000.0".toList {} =
      scanNumber (('1' :: List.replicate 39 '0') ++ '.' :: ['0']) {} := by
    rw [hlit, scanToken_realLiteral {} ⟨_, ['0'], by simp, hi, hf, rfl, rfl⟩]
  rw [scanNumber_realLiteral hi hf, hval, List.length_singleton] at hscan
  refine ⟨_, _, hscan, hk, htext, fun y m'' => ?_⟩
  rw [htext]
  exact scanToken_ne_real {} _ (.inl rfl) {} y [] m''

end Jass
