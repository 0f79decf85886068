import Jass.Proofs.Real.Rounding
import Jass.Proofs.Lex.Printed
/-!
# Printed reals read back

A real literal `n / 10 ^ k` is read by `Float32.ofScientific n true k`: by one division of exact
single-precision values when `n < 2 ^ 23` and `k ≤ 10`, and otherwise by the model's own division
of `n` by `10 ^ k`. Both round the exact quotient, so a literal whose value lies in the rounding
interval of a finite non-negative `x` reads as `x` (`ofScientific_of_contains`). The printer
writes such an `x` as its shortest decimal, which lies in that interval, or as `0.0`; hence every
finite real with its sign bit clear prints as a literal that reads back as itself
(`realReadsBack_of_finite`). Every value the lexer reads has its sign bit clear
(`ofScientific_toBits_lt`), since the model keeps the sign of its positive operands.

The bits of a value and the fields `Decimal.Kind.of` decodes from them are related by
`pack_of_kind` and `kind_of_isFinite`.
-/

open Float.Model Float.Model.UnpackedFloat

namespace Jass.Binary32

theorem eq_of_toBits_eq {x y : Float32} (h : x.toBits = y.toBits) : x = y := by
  obtain ⟨⟨bx, _⟩⟩ := x
  obtain ⟨⟨bx', _⟩⟩ := y
  change bx = bx' at h
  subst h
  rfl

theorem packComponents_toNat (e : BitVec 8) (f : BitVec 23) :
    (packComponents Format.binary32 .positive e f).toNat = e.toNat * 2 ^ 23 + f.toNat := by
  change (0#1 ++ e ++ f).toNat = _
  simp only [BitVec.toNat_append, Nat.shiftLeft_eq, BitVec.toNat_ofNat, Nat.zero_mod, Nat.zero_mul,
    Nat.zero_or]
  rw [Nat.mul_comm]
  exact (Nat.two_pow_add_eq_or_of_lt f.isLt _).symm

theorem pack_toNat {m : Nat} {e : ℤ} (hm : 0 < m) (hlt : m < 2 ^ 24) (he : e ≤ 104) :
    (pack Format.binary32 (.finite .positive m e hm)).toNat =
      (if 2 ^ 23 ≤ m then (e + 150).toNat else 0) * 2 ^ 23 + m % 2 ^ 23 := by
  have hbias : Format.binary32.exponentBias = 127 := rfl
  have hbits : Format.binary32.mantissaBits = 24 := rfl
  unfold UnpackedFloat.pack
  simp only [hbias, hbits]
  rw [if_neg (show ¬(2 ^ 8 ≤ (e + (127 : Nat) + (23 : Nat)).toNat + 1) by omega)]
  split
  · next hlog =>
    have h23 : 2 ^ 23 ≤ m := (Nat.le_log2 hm.ne').1 (by omega)
    rw [packComponents_toNat, if_pos h23, BitVec.toNat_ofNat, BitVec.toNat_ofNat,
      Nat.mod_eq_of_lt (show (e + (127 : Nat) + (23 : Nat)).toNat < 2 ^ 8 by omega)]
    congr 2
    omega
  · next hlog =>
    have h23 : ¬2 ^ 23 ≤ m := fun h => hlog (by
      have := (Nat.le_log2 hm.ne').2 h
      have := (Nat.log2_lt hm.ne').2 hlt
      omega)
    rw [packComponents_toNat, if_neg h23, BitVec.toNat_ofNat]
    rfl

theorem pack_of_kind {x : Float32} {b : Decimal.Binary} (hk : Decimal.Kind.of x = .finite b)
    (hneg : b.negative = false) (hm : 0 < b.mant) :
    pack Format.binary32 (.finite .positive b.mant b.exp hm) = x.toBits.toBitVec := by
  apply BitVec.eq_of_toNat_eq
  have hlt : x.toBits.toNat < 2 ^ 32 := x.toBits.toNat_lt
  change _ = x.toBits.toNat
  unfold Decimal.Kind.of at hk
  generalize x.toBits.toNat = N at hk hlt ⊢
  unfold Decimal.Kind.ofBits at hk
  simp only [Nat.pow_eq, beq_iff_eq] at hk
  split at hk
  · split at hk <;> cases hk
  · split at hk
    · next he =>
      cases hk
      dsimp only at hneg hm ⊢
      have hN : N < 2 ^ 23 := by simp only [beq_eq_false_iff_ne] at hneg; omega
      rw [pack_toNat hm (by omega) (by norm_num), if_neg (by omega)]
      omega
    · next he =>
      cases hk
      dsimp only at hneg hm ⊢
      have hN : N < 2 ^ 31 := by simp only [beq_eq_false_iff_ne] at hneg; omega
      rw [pack_toNat hm (by omega) (by omega), if_pos (by omega)]
      omega

theorem unpackSign_packComponents (s : Sign) (e : BitVec 8) (f : BitVec 23) :
    unpackSign (packComponents Format.binary32 s e f) = s.toBitVec := by
  change (s.toBitVec ++ e ++ f).extractLsb' 31 1 = s.toBitVec
  rw [BitVec.extractLsb'_append_eq_of_le (by decide), BitVec.extractLsb'_append_eq_of_le (by decide)]
  cases s <;> rfl

theorem unpack_pack_normal {m : Nat} {e : ℤ} (hm : 0 < m) (hlo : 2 ^ 23 ≤ m) (hhi : m < 2 ^ 24)
    (he : -149 ≤ e) (he' : e ≤ 104) :
    unpack Format.binary32 (pack Format.binary32 (.finite .positive m e hm)) =
      .finite .positive m e hm := by
  have hbias : Format.binary32.exponentBias = 127 := rfl
  have hbits : Format.binary32.mantissaBits = 24 := rfl
  have hlog : m.log2 = 23 := (Nat.log2_eq_iff hm.ne').2 ⟨hlo, hhi⟩
  unfold UnpackedFloat.pack
  simp only [hbias, hbits, hlog]
  rw [if_neg (show ¬(2 ^ 8 ≤ (e + (127 : Nat) + (23 : Nat)).toNat + 1) by omega), if_pos trivial]
  simp only [UnpackedFloat.unpack, unpackMantissa_packComponents, unpackExponent_packComponents,
    unpackSign_packComponents]
  have hexp : (BitVec.ofNat 8 (e + (127 : Nat) + (23 : Nat)).toNat).toNat = (e + 150).toNat := by
    rw [BitVec.toNat_ofNat]
    omega
  have hne : BitVec.ofNat 8 (e + (127 : Nat) + (23 : Nat)).toNat ≠ -1#8 := fun h => by
    have := congrArg BitVec.toNat h
    rw [hexp] at this
    change (e + 150).toNat = 255 at this
    omega
  have hnz : BitVec.ofNat 8 (e + (127 : Nat) + (23 : Nat)).toNat ≠ 0#8 := fun h => by
    have := congrArg BitVec.toNat h
    rw [hexp] at this
    change (e + 150).toNat = 0 at this
    omega
  have hmant : (1#1 ++ BitVec.ofNat 23 m).toNat = m := by
    simp only [BitVec.toNat_append, BitVec.toNat_ofNat, Nat.shiftLeft_eq]
    change 2 ^ 23 ||| m % 2 ^ 23 = m
    rw [Nat.or_comm, Nat.or_two_pow_eq_add_of_lt (Nat.mod_lt m (Nat.two_pow_pos 23))]
    omega
  simp only [hne, hnz, if_false, hmant, hexp]
  congr 1
  omega

theorem shift_fills {n : Nat} (hn : 0 < n) (hlt : n < 2 ^ 24) :
    2 ^ 23 ≤ n <<< (23 - n.log2) ∧ n <<< (23 - n.log2) < 2 ^ 24 := by
  have hL : n.log2 < 24 := (Nat.log2_lt hn.ne').2 hlt
  have h₁ : 2 ^ n.log2 ≤ n := Nat.log2_self_le hn.ne'
  have h₂ : n < 2 ^ (n.log2 + 1) := Nat.lt_log2_self
  rw [Nat.shiftLeft_eq]
  constructor
  · calc 2 ^ 23 = 2 ^ n.log2 * 2 ^ (23 - n.log2) := by rw [← Nat.pow_add]; congr 1; omega
      _ ≤ n * 2 ^ (23 - n.log2) := Nat.mul_le_mul_right _ h₁
  · calc n * 2 ^ (23 - n.log2) < 2 ^ (n.log2 + 1) * 2 ^ (23 - n.log2) :=
          Nat.mul_lt_mul_of_pos_right h₂ (Nat.two_pow_pos _)
      _ = 2 ^ 24 := by rw [← Nat.pow_add]; congr 1; omega

theorem ofNat_eq {n : Nat} (hn : 0 < n) (hlt : n < 2 ^ 24) :
    UnpackedFloat.ofNat Format.binary32 n =
      .finite .positive (n <<< (23 - n.log2)) ((n.log2 : ℤ) - 23) (by have := shift_fills hn hlt; omega) := by
  obtain ⟨hlo, hhi⟩ := shift_fills hn hlt
  have hL : n.log2 < 24 := (Nat.log2_lt hn.ne').2 hlt
  have hcanon := @second_shift_canonical _ ((n.log2 : ℤ) - 23) (by omega) hhi (by omega) (.inl hlo)
  have hT : max ((n.log2 : ℤ) + 0 - 23) (-149) = (n.log2 : ℤ) - 23 := by omega
  have hs : (0 - ((n.log2 : ℤ) - 23)).toNat = 23 - n.log2 := by omega
  have he : (0 : ℤ) - ((23 - n.log2 : Nat) : ℤ) = (n.log2 : ℤ) - 23 := by omega
  unfold UnpackedFloat.ofNat UnpackedFloat.ofInt UnpackedFloat.normalize UnpackedFloat.round decreaseExponent
  rw [Int.compare_eq_gt.2 (by omega)]
  simp only [Int.toNat_natCast, target_binary32, hT, hs, he]
  exact roundWithAccuracy_of_shifts hcanon hcanon _

theorem powerOfTen_unpack {k : Nat} (hk : k < Float32.exactlyRepresentablePowersOfTen.size) :
    ∃ M E h, (Float32.exactlyRepresentablePowersOfTen[k]).toModel.unpack = .finite .positive M E h ∧
      M * 2 ^ E.toNat = 10 ^ k * 2 ^ (-E).toNat := by
  have hk' : k < 11 := hk
  interval_cases k <;>
    simp only [Float32.exactlyRepresentablePowersOfTen, List.getElem_toArray, List.getElem_cons_succ,
      List.getElem_cons_zero]
  · exact ⟨8388608, -23, by decide, rfl, by decide⟩
  · exact ⟨10485760, -20, by decide, rfl, by decide⟩
  · exact ⟨13107200, -17, by decide, rfl, by decide⟩
  · exact ⟨16384000, -14, by decide, rfl, by decide⟩
  · exact ⟨10240000, -10, by decide, rfl, by decide⟩
  · exact ⟨12800000, -7, by decide, rfl, by decide⟩
  · exact ⟨16000000, -4, by decide, rfl, by decide⟩
  · exact ⟨10000000, 0, by decide, rfl, by decide⟩
  · exact ⟨12500000, 3, by decide, rfl, by decide⟩
  · exact ⟨15625000, 6, by decide, rfl, by decide⟩
  · exact ⟨9765625, 10, by decide, rfl, by decide⟩

theorem toFloat32_unpack {n : Nat} (hn : 0 < n) (hlt : n < 2 ^ 23) :
    n.toUInt64.toFloat32.toModel.unpack =
      .finite .positive (n <<< (23 - n.log2)) ((n.log2 : ℤ) - 23)
        (by have := shift_fills hn (by omega); omega) := by
  have htoNat : n.toUInt64.toNat = n := by
    rw [Nat.toUInt64, UInt64.toNat_ofNat']
    omega
  change UnpackedFloat.unpack Format.binary32
    (pack Format.binary32 (UnpackedFloat.ofNat Format.binary32 n.toUInt64.toNat)) = _
  obtain ⟨hlo, hhi⟩ := shift_fills hn (by omega)
  have hL : n.log2 < 23 := (Nat.log2_lt hn.ne').2 hlt
  rw [htoNat, ofNat_eq hn (by omega), unpack_pack_normal _ hlo hhi (by omega) (by omega)]

theorem value_shift {n : Nat} (hn : 0 < n) (hlt : n < 2 ^ 24) :
    ((n <<< (23 - n.log2) : ℕ) : ℚ) * 2 ^ ((n.log2 : ℤ) - 23) = n := by
  have hL : n.log2 < 24 := (Nat.log2_lt hn.ne').2 hlt
  rw [Nat.shiftLeft_eq]
  push_cast
  rw [mul_assoc, ← zpow_natCast, ← zpow_add₀ two_ne_zero, show ((23 - n.log2 : ℕ) : ℤ) + ((n.log2 : ℤ) - 23) = 0 by omega,
    zpow_zero, mul_one]

theorem value_powerOfTen {M : Nat} {E : ℤ} {k : Nat} (h : M * 2 ^ E.toNat = 10 ^ k * 2 ^ (-E).toNat) :
    (M : ℚ) * 2 ^ E = 10 ^ k := by
  have hq : (M : ℚ) * 2 ^ E.toNat = 10 ^ k * 2 ^ (-E).toNat := by exact_mod_cast h
  rw [Decimal.zpow_eq_div_pow two_ne_zero, ← mul_div_assoc, hq]
  field_simp

theorem literal_bounds {n k : Nat} (hlow : (2 : ℚ) ^ (-150 : ℤ) ≤ n / 10 ^ k) :
    0 < n ∧ k ≤ 256 + n.log2 := by
  have h10 : (0 : ℚ) < 10 ^ k := by positivity
  have h₁ : (10 : ℚ) ^ k ≤ n * 2 ^ 150 := by
    have := (le_div_iff₀ h10).1 hlow
    have hinv : (2 : ℚ) ^ (-150 : ℤ) * 2 ^ 150 = 1 := by norm_num
    nlinarith
  have h₂ : 10 ^ k ≤ n * 2 ^ 150 := by exact_mod_cast h₁
  have hn : 0 < n := by
    rcases Nat.eq_zero_or_pos n with rfl | h
    · simp at h₂
    · exact h
  refine ⟨hn, ?_⟩
  by_contra hgt
  have h₃ : 2 ^ k ≤ 10 ^ k := Nat.pow_le_pow_left (by decide) k
  have h₄ : n * 2 ^ 150 < 2 ^ k :=
    calc n * 2 ^ 150 < 2 ^ (n.log2 + 1) * 2 ^ 150 :=
          Nat.mul_lt_mul_of_pos_right Nat.lt_log2_self (by positivity)
      _ = 2 ^ (n.log2 + 151) := by rw [← Nat.pow_add]
      _ ≤ 2 ^ k := Nat.pow_le_pow_right (by decide) (by omega)
  omega

section Reading

variable {b : Decimal.Binary} {n k : Nat}

/-- The short path: `n` and `10 ^ k` are exact single-precision values, and one division rounds
their quotient. -/
theorem div_powerOfTen_of_contains (hb : b.Canonical) (hm : 0 < b.mant) (hn : 0 < n)
    (hsmall : n < 2 ^ 23) (hsize : k < Float32.exactlyRepresentablePowersOfTen.size)
    (hq : b.interval.Contains ((n : ℚ) / 10 ^ k)) :
    div Format.binary32 n.toUInt64.toFloat32.toModel.unpack
      (Float32.exactlyRepresentablePowersOfTen[k]).toModel.unpack =
        .finite .positive b.mant b.exp hm := by
  obtain ⟨M, E, hM, htab, hval⟩ := powerOfTen_unpack hsize
  rw [toFloat32_unpack hn hsmall, htab, div_of_contains hb hm]
  rwa [value_shift hn (by omega), value_powerOfTen hval]

/-- The long path: the model's own reading, which scales `n` when `k = 0` and otherwise divides it
by `10 ^ k`. -/
theorem ofScientific_model_of_contains (hb : b.Canonical) (hm : 0 < b.mant)
    (hq : b.interval.Contains ((n : ℚ) / 10 ^ k)) :
    UnpackedFloat.ofScientific Format.binary32 n (Int.negOfNat k) =
      .finite .positive b.mant b.exp hm := by
  obtain ⟨hn, hkb⟩ := literal_bounds (Decimal.Binary.contains_lower hb hm hq)
  have hbits : Format.binary32.mantissaBits = 24 := rfl
  -- the model's cut-offs for huge and tiny values lie outside the interval's reach
  unfold UnpackedFloat.ofScientific
  rw [dif_neg hn.ne', if_neg (by simp only [Int.negOfNat_eq, Int.ofNat_eq_natCast]; omega),
    if_neg (by simp only [Int.negOfNat_eq, Int.ofNat_eq_natCast]; omega)]
  split
  · next h0 =>
    obtain rfl : k = 0 := by simp only [Int.negOfNat_eq, Int.ofNat_eq_natCast] at h0; omega
    have hten : 10 ^ (Int.negOfNat 0).toNat = 1 := rfl
    have hfine : 23 ≤ (n <<< Format.binary32.mantissaBits * 10 ^ (Int.negOfNat 0).toNat).log2 := by
      rw [hten, Nat.mul_one, hbits, Nat.shiftLeft_eq]
      exact (Nat.le_log2 (by positivity)).2 (le_trans (by norm_num) (Nat.le_mul_of_pos_left _ hn))
    rw [mul_of_contains hb hm _ _ hfine]
    have hval : ((n <<< 24 : ℕ) : ℚ) * 2 ^ (-((24 : ℕ) : ℤ)) * ((1 : ℕ) * 2 ^ (0 : ℤ)) =
        n / 10 ^ 0 := by
      rw [Nat.shiftLeft_eq]
      push_cast
      field_simp
      norm_num
    rw [hten, hbits, hval]
    exact hq
  · rw [div_of_contains hb hm]
    simp only [Int.negOfNat_eq, neg_neg]
    push_cast
    simpa using hq

end Reading

/-- A decimal `n / 10 ^ k` in the rounding interval of a finite non-negative `x` reads as `x`. -/
theorem ofScientific_of_contains {x : Float32} {b : Decimal.Binary}
    (hk : Decimal.Kind.of x = .finite b) (hneg : b.negative = false) (hm : 0 < b.mant) {n k : Nat}
    (hq : b.interval.Contains ((n : ℚ) / 10 ^ k)) : Float32.ofScientific n true k = x := by
  have hb : b.Canonical := Decimal.Kind.ofBits_canonical hk
  apply eq_of_toBits_eq
  apply UInt32.toBitVec_inj.1
  rw [← pack_of_kind hk hneg hm]
  unfold Float32.ofScientific
  split
  · next h =>
    have hn := (literal_bounds (Decimal.Binary.contains_lower hb hm hq)).1
    have hsize : k < Float32.exactlyRepresentablePowersOfTen.size := by change k < 11; omega
    change pack Format.binary32 (div Format.binary32 n.toUInt64.toFloat32.toModel.unpack
      (Float32.exactlyRepresentablePowersOfTen[k]).toModel.unpack) = _
    rw [div_powerOfTen_of_contains hb hm hn h.1 hsize hq]
  · change pack Format.binary32 (UnpackedFloat.ofScientific Format.binary32 n (Int.negOfNat k)) = _
    rw [ofScientific_model_of_contains hb hm hq]

/-! ## Signs -/

def Positive : UnpackedFloat → Prop
  | .infinity s => s = .positive
  | .notANumber => True
  | .zero s => s = .positive
  | .finite s _ _ _ => s = .positive

theorem positive_roundWithAccuracy (spec : Format) (m : Nat) (e : ℤ) (acc : Accuracy) :
    Positive (roundWithAccuracy spec .positive m e acc) := by
  unfold roundWithAccuracy
  dsimp only
  split <;> rfl

theorem positive_div (spec : Format) {a b : UnpackedFloat} (ha : Positive a) (hb : Positive b) :
    Positive (div spec a b) := by
  cases a <;> cases b <;> simp only [Positive] at ha hb <;> subst_vars <;>
    first | trivial | rfl | exact positive_roundWithAccuracy _ _ _ _

theorem positive_mul (spec : Format) {a b : UnpackedFloat} (ha : Positive a) (hb : Positive b) :
    Positive (mul spec a b) := by
  cases a <;> cases b <;> simp only [Positive] at ha hb <;> subst_vars <;>
    first | trivial | rfl | exact positive_roundWithAccuracy _ _ _ _

theorem positive_ofNat (spec : Format) (n : Nat) : Positive (UnpackedFloat.ofNat spec n) := by
  unfold UnpackedFloat.ofNat UnpackedFloat.ofInt UnpackedFloat.normalize UnpackedFloat.round
  split
  · next h => rw [Int.compare_eq_lt] at h; omega
  · rfl
  · exact positive_roundWithAccuracy _ _ _ _

theorem positive_ofScientific (spec : Format) (m : Nat) (e : ℤ) :
    Positive (UnpackedFloat.ofScientific spec m e) := by
  unfold UnpackedFloat.ofScientific
  split
  · rfl
  split
  · rfl
  split
  · rfl
  split
  · exact positive_mul spec rfl rfl
  · exact positive_div spec rfl rfl

theorem pack_lt_of_positive {f : UnpackedFloat} (hf : Positive f) :
    (pack Format.binary32 f).toNat < 2 ^ 31 := by
  cases f with
  | infinity s => subst hf; decide
  | notANumber => decide
  | zero s => subst hf; decide
  | finite s m e hm =>
    subst hf
    unfold UnpackedFloat.pack
    dsimp only
    split
    · decide
    split <;> rw [packComponents_toNat] <;> omega

theorem positive_unpack {v : BitVec 32} (hv : v.toNat < 2 ^ 31) :
    Positive (UnpackedFloat.unpack Format.binary32 v) := by
  have hsign : Sign.ofBitVec (@unpackSign Format.binary32 v) = .positive := by
    have h0 : @unpackSign Format.binary32 v = 0#1 := by
      apply BitVec.eq_of_toNat_eq
      simp only [unpackSign, BitVec.toNat_cast, BitVec.extractLsb_toNat, Nat.shiftRight_eq_div_pow,
        BitVec.toNat_ofNat]
      rw [Nat.div_eq_of_lt hv]
    rw [Sign.ofBitVec, if_pos h0]
  unfold UnpackedFloat.unpack
  dsimp only
  rw [hsign]
  split
  · split <;> trivial
  · split
    · split <;> trivial
    · trivial

theorem powerOfTen_toBits_lt {k : Nat} (hk : k < Float32.exactlyRepresentablePowersOfTen.size) :
    (Float32.exactlyRepresentablePowersOfTen[k]).toBits.toNat < 2 ^ 31 := by
  have hk' : k < 11 := hk
  interval_cases k <;>
    simp only [Float32.exactlyRepresentablePowersOfTen, List.getElem_toArray, List.getElem_cons_succ,
      List.getElem_cons_zero] <;>
    decide

theorem ofScientific_toBits_lt (m k : Nat) : (Float32.ofScientific m true k).toBits.toNat < 2 ^ 31 := by
  unfold Float32.ofScientific
  split
  · next h =>
    have hsize : k < Float32.exactlyRepresentablePowersOfTen.size := by change k < 11; omega
    change (pack Format.binary32 (div Format.binary32 m.toUInt64.toFloat32.toModel.unpack
      (Float32.exactlyRepresentablePowersOfTen[k]).toModel.unpack)).toNat < 2 ^ 31
    exact pack_lt_of_positive (positive_div _ (positive_unpack (pack_lt_of_positive (positive_ofNat _ _)))
      (positive_unpack (powerOfTen_toBits_lt hsize)))
  · change (pack Format.binary32 (UnpackedFloat.ofScientific Format.binary32 m (Int.negOfNat k))).toNat <
      2 ^ 31
    exact pack_lt_of_positive (positive_ofScientific _ _ _)

/-! ## The fields decoded from a finite value's bits -/

theorem kind_of_isFinite {x : Float32} (h : x.isFinite = true) :
    ∃ b, Decimal.Kind.of x = .finite b := by
  have hexp : (@unpackExponent Format.binary32 x.toBits.toBitVec).toNat =
      x.toBits.toNat / 2 ^ 23 % 256 := by
    simp only [unpackExponent, BitVec.toNat_cast, BitVec.extractLsb_toNat, Nat.shiftRight_eq_div_pow]
    rfl
  -- a finite value's exponent field is not all ones
  have hne : x.toBits.toNat / 2 ^ 23 % 256 ≠ 255 := by
    intro h255
    change (UnpackedFloat.unpack Format.binary32 x.toBits.toBitVec).isFinite = true at h
    unfold UnpackedFloat.unpack at h
    dsimp only at h
    rw [if_pos (BitVec.eq_of_toNat_eq (by rw [hexp, h255]; rfl))] at h
    split at h <;> cases h
  unfold Decimal.Kind.of Decimal.Kind.ofBits
  simp only [Nat.pow_eq, beq_iff_eq, if_neg hne]
  split <;> exact ⟨_, rfl⟩

theorem negative_of_toBits_lt {x : Float32} {b : Decimal.Binary} (hk : Decimal.Kind.of x = .finite b)
    (hpos : x.toBits.toNat < 2 ^ 31) : b.negative = false := by
  unfold Decimal.Kind.of Decimal.Kind.ofBits at hk
  simp only [Nat.pow_eq, Nat.div_eq_of_lt hpos] at hk
  split at hk
  · split at hk <;> cases hk
  · split at hk <;> cases hk <;> rfl

theorem toBits_of_mant_zero {x : Float32} {b : Decimal.Binary} (hk : Decimal.Kind.of x = .finite b)
    (hneg : b.negative = false) (h0 : b.mant = 0) : x.toBits.toNat = 0 := by
  have hlt : x.toBits.toNat < 2 ^ 32 := x.toBits.toNat_lt
  unfold Decimal.Kind.of Decimal.Kind.ofBits at hk
  simp only [Nat.pow_eq, beq_iff_eq] at hk
  split at hk
  · split at hk <;> cases hk
  · split at hk <;> cases hk
    · simp only [beq_eq_false_iff_ne] at hneg
      dsimp only at h0
      omega
    · dsimp only at h0
      omega

/-! ## Printed reals read back -/

theorem ofScientific_zero_toBits (k : Nat) : (Float32.ofScientific 0 true k).toBits.toNat = 0 := by
  unfold Float32.ofScientific
  split
  · next h =>
    have hsize : k < Float32.exactlyRepresentablePowersOfTen.size := by change k < 11; omega
    obtain ⟨M, E, hM, htab, -⟩ := powerOfTen_unpack hsize
    have hzero : (Nat.toUInt64 0).toFloat32.toModel.unpack = .zero .positive := by rfl
    change (pack Format.binary32 (div Format.binary32 (Nat.toUInt64 0).toFloat32.toModel.unpack
      (Float32.exactlyRepresentablePowersOfTen[k]).toModel.unpack)).toNat = 0
    rw [hzero, htab]
    rfl
  · change (pack Format.binary32 (UnpackedFloat.ofScientific Format.binary32 0 (Int.negOfNat k))).toNat = 0
    unfold UnpackedFloat.ofScientific
    rw [dif_pos rfl]
    rfl

/-- A finite real whose sign bit is clear prints as a real literal that reads back as the same
value: zero as `0.0`, any other as its shortest decimal, which lies in its rounding interval. -/
theorem realReadsBack_of_finite {x : Float32} (hfin : x.isFinite = true)
    (hpos : x.toBits.toNat < 2 ^ 31) : RealReadsBack x := by
  obtain ⟨b, hk⟩ := kind_of_isFinite hfin
  have hneg := negative_of_toBits_lt hk hpos
  obtain ⟨ints, fracs, hne, hi, hf, heq, hval⟩ := realText_realLiteral (text_shape hk hneg)
  refine ⟨ints, fracs, hne, hi, hf, heq, ?_⟩
  rcases Nat.eq_zero_or_pos b.mant with h0 | hm
  · -- zero prints as `0.0`, which reads as positive zero
    have hzero : Lexer.digitsValue 10 (ints ++ fracs) = 0 := by
      simp only [Decimal.Binary.written, h0, if_true] at hval
      have := (div_eq_zero_iff.1 hval).resolve_right (by positivity)
      exact_mod_cast this
    rw [hzero]
    apply eq_of_toBits_eq
    apply UInt32.toNat_inj.1
    rw [ofScientific_zero_toBits, toBits_of_mant_zero hk hneg h0]
  · have hw : b.written = b.shortest.value := by simp [Decimal.Binary.written, hm.ne']
    refine ofScientific_of_contains hk hneg hm ?_
    rw [hval, hw]
    exact Decimal.Binary.shortest_contains (Decimal.Kind.ofBits_canonical hk) hm

end Jass.Binary32
