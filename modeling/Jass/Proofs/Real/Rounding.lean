import Jass.Proofs.Real.Grid
/-!
# Rounding in the single-precision model

Lean's `Float32` is modelled by `Float.Model.UnpackedFloat`: an operation computes a mantissa at
some exponent with an accuracy datum (where the exact result lies past the mantissa), and
`roundWithAccuracy` shifts it to the exponent of the result's binade, rounds to the nearest
mantissa with ties to even, and shifts once more when the rounding carried into the next binade.

`Locates acc m y` says what an accuracy datum says about the exact value `y` in units of the last
place; each shift keeps it (`places_shiftRight`), and the rounded mantissa is then the integer
nearest to the value (`RoundsTo`, unique by `RoundsTo.unique`). The main result,
`roundWithAccuracy_of_contains`, is that a real in the rounding interval of a finite magnitude
`b` (the interval the printer searches, `Decimal.Interval.Contains`) rounds to `b`; the division
and the multiplication of positive finite values therefore round their exact results
(`div_of_contains`, `mul_of_contains`).
-/

open Float.Model Float.Model.UnpackedFloat

namespace Jass.Binary32

/-- Where an accuracy datum places the exact value `y`, measured in units of the last place of
the mantissa `m`. -/
def Locates : Accuracy → Nat → ℚ → Prop
  | .exact, m, y => y = m
  | .inexact .lt, m, y => m < y ∧ 2 * y < 2 * m + 1
  | .inexact .eq, m, y => 2 * y = 2 * m + 1
  | .inexact .gt, m, y => 2 * m + 1 < 2 * y ∧ y < m + 1

def Places (em : ExtendedMantissa) (y : ℚ) : Prop := Locates em.accuracy em.mantissa y

theorem Locates.bounds {acc : Accuracy} {m : Nat} {y : ℚ} (h : Locates acc m y) :
    (m : ℚ) ≤ y ∧ y < m + 1 := by
  rcases acc with _ | (_ | _ | _) <;> simp only [Locates] at h <;> (try obtain ⟨h, h'⟩ := h) <;>
    constructor <;> linarith

theorem places_ofMantissaAndAccuracy {acc : Accuracy} {m : Nat} {y : ℚ} (h : Locates acc m y) :
    Places (ExtendedMantissa.ofMantissaAndAccuracy m acc) y := by
  rcases acc with _ | (_ | _ | _) <;> exact h

theorem places_shiftRightOne {em : ExtendedMantissa} {y : ℚ} (h : Places em y) :
    Places em.shiftRightOne (y / 2) := by
  obtain ⟨m, rb, sb⟩ := em
  -- the bit shifted out becomes the round bit, the old round and sticky bits the sticky bit
  have hm : (m : ℚ) = 2 * (m / 2 : ℕ) + (m % 2 : ℕ) := by exact_mod_cast (Nat.div_add_mod m 2).symm
  have hone : ((1 : ℕ) != 0) = true := rfl
  rcases Nat.mod_two_eq_zero_or_one m with hr | hr <;> rw [hr] at hm <;> push_cast at hm <;>
    cases rb <;> cases sb <;>
    simp only [Places, ExtendedMantissa.shiftRightOne, ExtendedMantissa.accuracy, Locates, hr, hone,
      bne_self_eq_false, Bool.or_false, Bool.or_true] at h ⊢ <;>
    (try constructor) <;> linarith

theorem places_shiftRight {em : ExtendedMantissa} {y : ℚ} (h : Places em y) (n : Nat) :
    Places (em >>> n) (y / 2 ^ n) := by
  induction n with
  | zero => rw [pow_zero, div_one]; exact h
  | succ n ih =>
    rw [pow_succ, ← div_div]
    exact places_shiftRightOne ih

/-- `r` is the integer nearest to `y`, an exact tie going to the even one. -/
def RoundsTo (y : ℚ) (r : Nat) : Prop :=
  if r % 2 = 0 then |y - r| ≤ 1 / 2 else |y - r| < 1 / 2

theorem RoundsTo.abs_sub_le {y : ℚ} {r : Nat} (h : RoundsTo y r) : |y - r| ≤ 1 / 2 := by
  unfold RoundsTo at h
  split at h <;> linarith

theorem RoundsTo.even {y : ℚ} {r : Nat} (h : RoundsTo y r) (ht : |y - r| = 1 / 2) : r % 2 = 0 := by
  unfold RoundsTo at h
  split at h
  · assumption
  · linarith

theorem RoundsTo.unique {y : ℚ} {r r' : Nat} (h : RoundsTo y r) (h' : RoundsTo y r') : r = r' := by
  obtain ⟨h₁, h₂⟩ := abs_le.1 h.abs_sub_le
  obtain ⟨h₃, h₄⟩ := abs_le.1 h'.abs_sub_le
  have hclose : (r : ℚ) ≤ r' + 1 ∧ (r' : ℚ) ≤ r + 1 := ⟨by linarith, by linarith⟩
  have hnear : r ≤ r' + 1 ∧ r' ≤ r + 1 := by exact_mod_cast hclose
  by_contra hne
  rcases (show r' = r + 1 ∨ r = r' + 1 by omega) with rfl | rfl <;> push_cast at h₁ h₂ h₃ h₄
  · have hy : y = r + 1 / 2 := by linarith
    have he := h.even (by rw [hy]; norm_num [abs_of_pos])
    have he' := h'.even (by push_cast; rw [hy]; norm_num [abs_of_neg])
    omega
  · have hy : y = r' + 1 / 2 := by linarith
    have he := h.even (by push_cast; rw [hy]; norm_num [abs_of_neg])
    have he' := h'.even (by rw [hy]; norm_num [abs_of_pos])
    omega

theorem roundsTo_roundedMantissa {em : ExtendedMantissa} {y : ℚ} (h : Places em y) :
    RoundsTo y em.roundedMantissa := by
  obtain ⟨m, rb, sb⟩ := em
  cases rb <;> cases sb <;>
    simp only [Places, ExtendedMantissa.accuracy, Locates, ExtendedMantissa.roundedMantissa,
      Accuracy.roundToNearestEven] at h ⊢
  · -- exact
    subst h
    unfold RoundsTo
    split <;> norm_num
  · -- below the midpoint
    obtain ⟨h₁, h₂⟩ := h
    have hlt : |y - m| < 1 / 2 := abs_lt.2 ⟨by linarith, by linarith⟩
    unfold RoundsTo
    split
    · exact hlt.le
    · exact hlt
  · -- at the midpoint: the even neighbour
    rw [RoundsTo, if_pos (by omega)]
    rcases Nat.mod_two_eq_zero_or_one m with hr | hr <;> rw [hr] <;> push_cast <;>
      rw [abs_le] <;> constructor <;> linarith
  · -- above the midpoint
    obtain ⟨h₁, h₂⟩ := h
    have hlt : |y - (m + 1 : ℕ)| < 1 / 2 := by push_cast; exact abs_lt.2 ⟨by linarith, by linarith⟩
    unfold RoundsTo
    split
    · exact hlt.le
    · exact hlt

/-! ## The interval in units of the last place -/

theorem contains_scaled {b : Decimal.Binary} (hm : 0 < b.mant) {q : ℚ}
    (h : b.interval.Contains q) :
    RoundsTo (q / 2 ^ b.exp) b.mant ∧
      (b.narrowBelow = true → (b.mant : ℚ) - 1 / 4 ≤ q / 2 ^ b.exp) := by
  have hp : (0 : ℚ) < 2 ^ b.exp := zpow_pos two_pos _
  have hq : q = q / 2 ^ b.exp * 2 ^ b.exp := by field_simp
  generalize q / 2 ^ b.exp = y at hq ⊢
  subst hq
  have hscale : (2 : ℚ) ^ (b.exp - 2) = 2 ^ b.exp / 4 := by
    rw [zpow_sub₀ two_ne_zero]
    norm_num
  have hhi : ((b.interval.hi : ℕ) : ℚ) * 2 ^ b.interval.scale = (b.mant + 1 / 2) * 2 ^ b.exp := by
    simp only [Decimal.Binary.interval, hscale]
    push_cast
    ring
  have hlo : ((b.interval.lo : ℕ) : ℚ) * 2 ^ b.interval.scale =
      (b.mant - (if b.narrowBelow then 1 / 4 else 1 / 2)) * 2 ^ b.exp := by
    simp only [Decimal.Binary.interval, hscale]
    split <;> rw [Nat.cast_sub (by omega)] <;> push_cast <;> ring
  unfold Decimal.Interval.Contains at h
  rw [hlo, hhi] at h
  simp only [mul_le_mul_iff_of_pos_right hp, mul_lt_mul_iff_of_pos_right hp] at h
  unfold RoundsTo
  simp only [Decimal.Binary.interval, beq_iff_eq] at h
  constructor
  · split <;> simp only [*, if_true, if_false] at h <;> split at h <;> obtain ⟨h₁, h₂⟩ := h <;>
      first | exact abs_le.2 ⟨by linarith, by linarith⟩ | exact abs_lt.2 ⟨by linarith, by linarith⟩
  · intro hn
    rw [if_pos hn] at h
    split at h <;> linarith [h.1]

theorem zpow_add_le_iff {e k : ℤ} {q : ℚ} : (2 : ℚ) ^ (e + k) ≤ q ↔ 2 ^ k ≤ q / 2 ^ e := by
  rw [le_div_iff₀ (zpow_pos two_pos _), zpow_add₀ two_ne_zero, mul_comm]

theorem lt_zpow_add_iff {e k : ℤ} {q : ℚ} : q < 2 ^ (e + k) ↔ q / 2 ^ e < 2 ^ k := by
  rw [div_lt_iff₀ (zpow_pos two_pos _), zpow_add₀ two_ne_zero, mul_comm]

section Binade

variable {b : Decimal.Binary} {q : ℚ}

theorem contains_lt_binade (hb : b.Canonical) (hm : 0 < b.mant) (hq : b.interval.Contains q) :
    q < 2 ^ (b.exp + 24) := by
  have hy := abs_le.1 (contains_scaled hm hq).1.abs_sub_le
  have hmant : (b.mant : ℚ) + 1 ≤ 2 ^ 24 := by exact_mod_cast hb.mant_lt
  rw [lt_zpow_add_iff]
  norm_num at hmant ⊢
  linarith [hy.2]

/-- Unless it lies just below a power of two, a value of the interval lies in the binade of `b`,
or below the normal range with it. -/
theorem contains_binade (hb : b.Canonical) (hm : 0 < b.mant) (hq : b.interval.Contains q)
    (hedge : ¬(b.narrowBelow = true ∧ q < 2 ^ (b.exp + 23))) :
    b.exp = -149 ∨ 2 ^ (b.exp + 23) ≤ q := by
  have hy := abs_le.1 (contains_scaled hm hq).1.abs_sub_le
  rcases hb.full with hfull | hfull
  · rcases eq_or_lt_of_le hfull with heq | hgt
    · by_cases hexp : b.exp = -149
      · exact .inl hexp
      · have hn : b.narrowBelow = true := hb.narrow.2 ⟨heq.symm, by have := hb.exp_ge; omega⟩
        exact .inr (not_lt.1 fun hlt => hedge ⟨hn, hlt⟩)
    · right
      rw [zpow_add_le_iff]
      have hgt' : (8388609 : ℚ) ≤ b.mant := by exact_mod_cast hgt
      norm_num
      linarith [hy.1]
  · exact .inl hfull

/-- Just below a power of two above the least normal one, a value of the interval lies in the
binade below, where it rounds to `2 ^ 24`: the carry back into the binade of `b`. -/
theorem contains_carry (hb : b.Canonical) (hm : 0 < b.mant) (hq : b.interval.Contains q)
    (hn : b.narrowBelow = true) (hbelow : q < 2 ^ (b.exp + 23)) :
    2 ^ (b.exp - 1 + 23) ≤ q ∧ RoundsTo (q / 2 ^ (b.exp - 1)) (2 ^ 24) := by
  have hy' := (contains_scaled hm hq).2 hn
  rw [(hb.narrow.1 hn).1] at hy'
  push_cast at hy'
  rw [lt_zpow_add_iff] at hbelow
  constructor
  · rw [show b.exp - 1 + 23 = b.exp + 22 by ring, zpow_add_le_iff]
    norm_num at hy' ⊢
    linarith
  · have hy2 : q / 2 ^ (b.exp - 1) = 2 * (q / 2 ^ b.exp) := by
      rw [zpow_sub₀ two_ne_zero]
      field_simp
    rw [RoundsTo, if_pos (by decide), hy2]
    push_cast
    exact abs_le.2 ⟨by linarith, by linarith⟩

end Binade

/-! ## The exponent the rounding aims at -/

theorem target_binary32 (m : Nat) (e : ℤ) :
    Format.binary32.targetExponent (totalExponent m e) = max ((m.log2 : ℤ) + e - 23) (-149) := by
  simp only [Format.targetExponent, totalExponent, Format.mantissaBits, Format.minExponent]
  norm_num
  omega

theorem lt_of_zpow_le_of_lt {a c : ℤ} {x : ℚ} (h₁ : 2 ^ a ≤ x) (h₂ : x < 2 ^ c) : a < c :=
  (zpow_lt_zpow_iff_right₀ one_lt_two).1 (h₁.trans_lt h₂)

theorem target_of_binade {acc : Accuracy} {M : Nat} {E t : ℤ} {q : ℚ}
    (hloc : Locates acc M (q / 2 ^ E)) (hfine : 23 ≤ M.log2 ∨ E ≤ -149) (ht : -149 ≤ t)
    (hlo : t = -149 ∨ 2 ^ (t + 23) ≤ q) (hhi : q < 2 ^ (t + 24)) :
    max ((M.log2 : ℤ) + E - 23) (-149) = t := by
  have hE : (0 : ℚ) < 2 ^ E := zpow_pos two_pos E
  obtain ⟨h₁, h₂⟩ := hloc.bounds
  rw [le_div_iff₀ hE] at h₁
  rw [div_lt_iff₀ hE] at h₂
  rcases Nat.eq_zero_or_pos M with rfl | hM
  · -- not a whole unit below `q`: the exponent is already the least one
    have hE' : E ≤ -149 := by simpa using hfine
    rcases hlo with rfl | h
    · simp only [Nat.log2_zero, Nat.cast_zero]
      omega
    · have := lt_of_zpow_le_of_lt h (by simpa using h₂)
      omega
  · -- `q` lies in the binade of `M · 2 ^ E`
    have hL : (2 : ℚ) ^ ((M.log2 : ℤ) + E) ≤ q := by
      rw [zpow_add₀ two_ne_zero, zpow_natCast]
      refine le_trans (mul_le_mul_of_nonneg_right ?_ hE.le) h₁
      exact_mod_cast Nat.log2_self_le hM.ne'
    have hU : q < 2 ^ ((M.log2 : ℤ) + 1 + E) := by
      rw [zpow_add₀ two_ne_zero, ← Nat.cast_succ, zpow_natCast]
      refine lt_of_lt_of_le h₂ (mul_le_mul_of_nonneg_right ?_ hE.le)
      exact_mod_cast Nat.lt_log2_self
    have hbelow := lt_of_zpow_le_of_lt hL hhi
    rcases hlo with rfl | h
    · omega
    · have := lt_of_zpow_le_of_lt h hU
      omega

theorem first_shift {acc : Accuracy} {M : Nat} {E t : ℤ} {q : ℚ}
    (hloc : Locates acc M (q / 2 ^ E)) (hfine : 23 ≤ M.log2 ∨ E ≤ -149) (ht : -149 ≤ t)
    (hlo : t = -149 ∨ 2 ^ (t + 23) ≤ q) (hhi : q < 2 ^ (t + 24)) :
    (shiftToTargetExponent Format.binary32 M E acc).2 = t ∧
      RoundsTo (q / 2 ^ t) (shiftToTargetExponent Format.binary32 M E acc).1.roundedMantissa := by
  have hT := target_of_binade hloc hfine ht hlo hhi
  have hEt : E ≤ t := by omega
  have hshift : shiftToTargetExponent Format.binary32 M E acc =
      (ExtendedMantissa.ofMantissaAndAccuracy M acc >>> (t - E).toNat, E + (t - E).toNat) := by
    simp only [shiftToTargetExponent, shiftToExponent, target_binary32, hT]
  rw [hshift]
  refine ⟨by omega, roundsTo_roundedMantissa ?_⟩
  have hunits : q / 2 ^ E / 2 ^ (t - E).toNat = q / 2 ^ t := by
    rw [div_div, ← zpow_natCast, ← zpow_add₀ two_ne_zero, Int.toNat_of_nonneg (by omega)]
    congr 2
    ring
  rw [← hunits]
  exact places_shiftRight (places_ofMantissaAndAccuracy hloc) _

/-! ## The second shift and the rounded value -/

theorem second_shift_canonical {m : Nat} {e : ℤ} (hm : 0 < m) (hlt : m < 2 ^ 24) (he : -149 ≤ e)
    (hfull : 2 ^ 23 ≤ m ∨ e = -149) :
    shiftToTargetExponent Format.binary32 m e .exact = (⟨m, false, false⟩, e) := by
  have hlog : m.log2 < 24 := (Nat.log2_lt hm.ne').2 hlt
  have hT : max ((m.log2 : ℤ) + e - 23) (-149) = e := by
    rcases hfull with h | rfl
    · have : 23 ≤ m.log2 := (Nat.le_log2 hm.ne').2 h
      omega
    · have : m.log2 < 23 ∨ 23 ≤ m.log2 := Nat.lt_or_ge _ _
      omega
  simp only [shiftToTargetExponent, shiftToExponent, target_binary32, hT, sub_self,
    Int.toNat_zero, Nat.cast_zero, add_zero]
  rfl

theorem second_shift_carry {e : ℤ} (he : -148 ≤ e) :
    shiftToTargetExponent Format.binary32 (2 ^ 24) (e - 1) .exact = (⟨2 ^ 23, false, false⟩, e) := by
  have hT : max (((2 ^ 24 : Nat).log2 : ℤ) + (e - 1) - 23) (-149) = e := by
    rw [Nat.log2_two_pow]
    omega
  simp only [shiftToTargetExponent, shiftToExponent, target_binary32, hT,
    show (e - (e - 1)).toNat = 1 by omega]
  refine Prod.ext rfl ?_
  dsimp only
  omega

theorem roundWithAccuracy_of_shifts {s : Sign} {M m : Nat} {E t e : ℤ} {acc : Accuracy}
    {em : ExtendedMantissa} (h₁ : shiftToTargetExponent Format.binary32 M E acc = (em, t))
    (h₂ : shiftToTargetExponent Format.binary32 em.roundedMantissa t .exact = (⟨m, false, false⟩, e))
    (hm : 0 < m) : roundWithAccuracy Format.binary32 s M E acc = .finite s m e hm := by
  simp only [roundWithAccuracy, h₁, h₂]
  rw [dif_neg hm.ne']

/-- A real in the rounding interval of a finite magnitude `b`, handed to the rounding step as a
mantissa with 24 bits (or at the least exponent) and an accuracy datum that locates the real,
rounds to `b`. -/
theorem roundWithAccuracy_of_contains {b : Decimal.Binary} (hb : b.Canonical) (hm : 0 < b.mant)
    {q : ℚ} (hq : b.interval.Contains q) {acc : Accuracy} {M : Nat} {E : ℤ}
    (hloc : Locates acc M (q / 2 ^ E)) (hfine : 23 ≤ M.log2 ∨ E ≤ -149) (s : Sign) :
    roundWithAccuracy Format.binary32 s M E acc = .finite s b.mant b.exp hm := by
  by_cases hedge : b.narrowBelow = true ∧ q < 2 ^ (b.exp + 23)
  · -- just below a power of two the first rounding lands on `2 ^ 24`, which the second halves
    obtain ⟨hn, hbelow⟩ := hedge
    obtain ⟨hm23, hexp⟩ := hb.narrow.1 hn
    obtain ⟨hlo, hcarry⟩ := contains_carry hb hm hq hn hbelow
    obtain ⟨ht, hr⟩ := first_shift hloc hfine (by omega) (.inr hlo)
      (by rwa [show b.exp - 1 + 24 = b.exp + 23 by ring])
    have h₁ : shiftToTargetExponent Format.binary32 M E acc =
        ((shiftToTargetExponent Format.binary32 M E acc).1, b.exp - 1) := Prod.ext rfl ht
    refine roundWithAccuracy_of_shifts h₁ ?_ hm
    rw [hr.unique hcarry, hm23]
    exact second_shift_carry (by omega)
  · obtain ⟨ht, hr⟩ := first_shift hloc hfine hb.exp_ge (contains_binade hb hm hq hedge)
      (contains_lt_binade hb hm hq)
    have h₁ : shiftToTargetExponent Format.binary32 M E acc =
        ((shiftToTargetExponent Format.binary32 M E acc).1, b.exp) := Prod.ext rfl ht
    refine roundWithAccuracy_of_shifts h₁ ?_ hm
    rw [hr.unique (contains_scaled hm hq).1]
    exact second_shift_canonical hm hb.mant_lt hb.exp_ge hb.full

/-! ## Division -/

theorem locates_accuracyOfFraction (a d : Nat) (hd : 0 < d) :
    Locates (accuracyOfFraction (a % d) d) (a / d) ((a : ℚ) / d) := by
  have hd' : (0 : ℚ) < d := by exact_mod_cast hd
  -- the exact quotient is the floor plus the remainder's fraction of the divisor
  have hsplit : (a : ℚ) / d = (a / d : ℕ) + ((a % d : ℕ) : ℚ) / d := by
    field_simp
    exact_mod_cast (Nat.div_add_mod a d).symm
  have hlt : ((a % d : ℕ) : ℚ) / d < 1 := (div_lt_one hd').2 (by exact_mod_cast Nat.mod_lt a hd)
  have h2 : 2 * (((a % d : ℕ) : ℚ) / d) = ((2 * (a % d) : ℕ) : ℚ) / d := by push_cast; ring
  unfold accuracyOfFraction
  split
  · next h0 =>
    simp only [Locates, hsplit, h0, Nat.cast_zero, zero_div, add_zero]
  · next h0 =>
    have hpos : 0 < ((a % d : ℕ) : ℚ) / d := div_pos (by exact_mod_cast Nat.pos_of_ne_zero h0) hd'
    rw [hsplit]
    cases hc : compare (2 * (a % d)) d
    · have : 2 * (((a % d : ℕ) : ℚ) / d) < 1 := by
        rw [h2]; exact (div_lt_one hd').2 (by exact_mod_cast Nat.compare_eq_lt.1 hc)
      exact ⟨by linarith, by linarith⟩
    · have : 2 * (((a % d : ℕ) : ℚ) / d) = 1 := by
        rw [h2]; exact (div_eq_one_iff_eq hd'.ne').2 (by exact_mod_cast Nat.compare_eq_eq.1 hc)
      show _ = _
      linarith
    · have : 1 < 2 * (((a % d : ℕ) : ℚ) / d) := by
        rw [h2]; exact (one_lt_div hd').2 (by exact_mod_cast Nat.compare_eq_gt.1 hc)
      exact ⟨by linarith, by linarith⟩

/-- A dividend shifted by `s` bits more than the divisor's 24 leaves a quotient of 24 bits at least. -/
theorem quotient_log2_ge {m₁ m₂ s : Nat} (h₁ : 0 < m₁) (h₂ : 0 < m₂)
    (hs : m₂.log2 + 24 ≤ m₁.log2 + s) : 23 ≤ (m₁ * 2 ^ s / m₂).log2 := by
  have hbits : 2 ^ 23 * m₂ ≤ m₁ * 2 ^ s :=
    calc 2 ^ 23 * m₂ ≤ 2 ^ 23 * 2 ^ (m₂.log2 + 1) :=
          Nat.mul_le_mul_left _ Nat.lt_log2_self.le
      _ = 2 ^ (m₂.log2 + 24) := by rw [← Nat.pow_add]; ring_nf
      _ ≤ 2 ^ (m₁.log2 + s) := Nat.pow_le_pow_right (by decide) hs
      _ = 2 ^ m₁.log2 * 2 ^ s := Nat.pow_add _ _ _
      _ ≤ m₁ * 2 ^ s := Nat.mul_le_mul_right _ (Nat.log2_self_le h₁.ne')
  have hq : 2 ^ 23 ≤ m₁ * 2 ^ s / m₂ := (Nat.le_div_iff_mul_le h₂).2 (by linarith)
  exact (Nat.le_log2 (by omega)).2 hq

theorem divCore_locates {m₁ m₂ : Nat} (h₁ : 0 < m₁) (h₂ : 0 < m₂) (e₁ e₂ : ℤ) :
    Locates (divCore Format.binary32 m₁ e₁ m₂ e₂).2.2 (divCore Format.binary32 m₁ e₁ m₂ e₂).1
        (m₁ * 2 ^ e₁ / (m₂ * 2 ^ e₂) / 2 ^ (divCore Format.binary32 m₁ e₁ m₂ e₂).2.1) ∧
      (23 ≤ (divCore Format.binary32 m₁ e₁ m₂ e₂).1.log2 ∨
        (divCore Format.binary32 m₁ e₁ m₂ e₂).2.1 ≤ -149) := by
  set E := min (e₁ - e₂) (Format.binary32.targetExponent (totalExponent m₁ e₁ - totalExponent m₂ e₂))
    with hE
  have hEe : E ≤ e₁ - e₂ := min_le_left _ _
  have hcore : divCore Format.binary32 m₁ e₁ m₂ e₂ =
      (m₁ * 2 ^ (e₁ - e₂ - E).toNat / m₂, E,
        accuracyOfFraction (m₁ * 2 ^ (e₁ - e₂ - E).toNat % m₂) m₂) := by
    simp only [divCore, Nat.shiftLeft_eq, hE]
  rw [hcore]
  dsimp only
  refine ⟨?_, ?_⟩
  · -- the exact quotient in units of `2 ^ E` is the shifted dividend over the divisor
    have hval : (m₁ : ℚ) * 2 ^ e₁ / (m₂ * 2 ^ e₂) / 2 ^ E =
        ((m₁ * 2 ^ (e₁ - e₂ - E).toNat : ℕ) : ℚ) / m₂ := by
      push_cast
      rw [← zpow_natCast, Int.toNat_of_nonneg (by omega), zpow_sub₀ two_ne_zero,
        zpow_sub₀ two_ne_zero]
      field_simp
    rw [hval]
    exact locates_accuracyOfFraction _ _ h₂
  · by_cases hlow : E ≤ -149
    · exact .inr hlow
    · -- above the least exponent the shift covers the dividend's bits and 24 more
      left
      have hT : E ≤ (m₁.log2 : ℤ) - m₂.log2 + e₁ - e₂ - 24 := by
        simp only [hE, Format.targetExponent, totalExponent, Format.mantissaBits,
          Format.minExponent] at hlow ⊢
        norm_num at hlow ⊢
        omega
      exact quotient_log2_ge h₁ h₂ (by omega)

theorem div_of_contains {b : Decimal.Binary} (hb : b.Canonical) (hm : 0 < b.mant) {m₁ m₂ : Nat}
    {e₁ e₂ : ℤ} (h₁ : 0 < m₁) (h₂ : 0 < m₂)
    (hq : b.interval.Contains (m₁ * 2 ^ e₁ / (m₂ * 2 ^ e₂))) :
    div Format.binary32 (.finite .positive m₁ e₁ h₁) (.finite .positive m₂ e₂ h₂) =
      .finite .positive b.mant b.exp hm := by
  obtain ⟨hloc, hfine⟩ := divCore_locates h₁ h₂ e₁ e₂
  exact roundWithAccuracy_of_contains hb hm hq hloc hfine _

theorem mul_of_contains {b : Decimal.Binary} (hb : b.Canonical) (hm : 0 < b.mant) {m₁ m₂ : Nat}
    {e₁ e₂ : ℤ} (h₁ : 0 < m₁) (h₂ : 0 < m₂) (hfine : 23 ≤ (m₁ * m₂).log2)
    (hq : b.interval.Contains (m₁ * 2 ^ e₁ * (m₂ * 2 ^ e₂))) :
    mul Format.binary32 (.finite .positive m₁ e₁ h₁) (.finite .positive m₂ e₂ h₂) =
      .finite .positive b.mant b.exp hm := by
  have hloc : Locates .exact (m₁ * m₂) (m₁ * 2 ^ e₁ * (m₂ * 2 ^ e₂) / 2 ^ (e₁ + e₂)) := by
    simp only [Locates, zpow_add₀ (two_ne_zero : (2 : ℚ) ≠ 0)]
    push_cast
    field_simp
  exact roundWithAccuracy_of_contains hb hm hq hloc (.inl hfine) _

end Jass.Binary32
