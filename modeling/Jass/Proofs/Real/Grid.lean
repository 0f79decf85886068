import Jass.Proofs.Lex.RealText
/-!
# The decimal grid meets the rounding interval

The printer writes a finite magnitude `b` as `Binary.shortest b`: from the grid `10 ^ 39` down,
the first grid `10 ^ t` with a point in the rounding interval of `b` gives the point of that grid
written. The interval is the set of reals that round to `b` (`Interval.Contains`); `holds` tests
membership on naturals, cross-multiplied by the factors of `crossScale` (`holds_iff`).

A grid no coarser than the unit `2 ^ scale` always meets the interval, and the search reaches the
grid `10 ^ -46`, finer than every unit of single precision, so the decimal the printer writes lies
in the interval (`Binary.shortest_contains`). `Kind.ofBits_canonical` records the shape of the
fields decoded from a number's bits that these arguments use.
-/

namespace Jass.Decimal

/-- What the fields of a finite number decoded from its bits satisfy: a significand of at most 24
bits, the exponent range of single precision, a full 24-bit significand unless the exponent is the
least one, and a narrower gap below exactly at a power of two above the least normal binade. -/
structure Binary.Canonical (b : Binary) : Prop where
  mant_lt : b.mant < 2 ^ 24
  exp_ge : -149 ≤ b.exp
  exp_le : b.exp ≤ 104
  full : 2 ^ 23 ≤ b.mant ∨ b.exp = -149
  narrow : b.narrowBelow = true ↔ b.mant = 2 ^ 23 ∧ -149 < b.exp

theorem Kind.ofBits_canonical {bits : Nat} {b : Binary} (h : Kind.ofBits bits = .finite b) :
    b.Canonical := by
  have he : bits / 2 ^ 23 % 256 < 256 := Nat.mod_lt _ (by decide)
  have hf : bits % 2 ^ 23 < 2 ^ 23 := Nat.mod_lt _ (by decide)
  unfold Kind.ofBits at h
  simp only [Nat.pow_eq, beq_iff_eq] at h
  split at h
  · split at h <;> cases h
  · split at h
    · -- subnormal: the exponent field is zero
      cases h
      exact ⟨by dsimp only; omega, le_rfl, by dsimp only; norm_num, .inr rfl, by simp⟩
    · -- normal
      cases h
      constructor <;> dsimp only <;> (try simp only [Bool.and_eq_true, beq_iff_eq, decide_eq_true_eq]) <;>
        omega

/-! ## The interval of reals that round to a number -/

/-- The reals `v` that the interval holds: between `lo · 2 ^ scale` and `hi · 2 ^ scale`, the ends
included when the interval is inclusive. -/
def Interval.Contains (iv : Interval) (v : ℚ) : Prop :=
  if iv.inclusive then iv.lo * 2 ^ iv.scale ≤ v ∧ v ≤ iv.hi * 2 ^ iv.scale
  else iv.lo * 2 ^ iv.scale < v ∧ v < iv.hi * 2 ^ iv.scale

theorem Binary.contains_lower {b : Binary} (hb : b.Canonical) (hm : 0 < b.mant) {q : ℚ}
    (h : b.interval.Contains q) : 2 ^ (-150 : ℤ) ≤ q := by
  have hlo : 2 ≤ b.interval.lo := by simp only [Binary.interval]; split <;> omega
  have hend : (2 : ℚ) ^ (-150 : ℤ) ≤ b.interval.lo * 2 ^ b.interval.scale :=
    calc (2 : ℚ) ^ (-150 : ℤ) = 2 * 2 ^ (-151 : ℤ) := by norm_num
      _ ≤ b.interval.lo * 2 ^ b.interval.scale := by
        gcongr
        · exact_mod_cast hlo
        · norm_num
        · simp only [Binary.interval]
          have := hb.exp_ge
          omega
  unfold Interval.Contains at h
  split at h
  · exact hend.trans h.1
  · exact hend.trans h.1.le

theorem zpow_eq_div_pow {x : ℚ} (hx : x ≠ 0) (n : ℤ) : x ^ n = x ^ n.toNat / x ^ (-n).toNat := by
  conv_lhs => rw [← Int.toNat_sub_toNat_neg n]
  rw [zpow_sub₀ hx, zpow_natCast, zpow_natCast]

theorem crossScale_spec (s t : ℤ) :
    0 < (crossScale s t).1 ∧ 0 < (crossScale s t).2 ∧
      ((crossScale s t).1 : ℚ) * 2 ^ s = (crossScale s t).2 * 10 ^ t := by
  simp only [crossScale, Nat.pow_eq]
  refine ⟨by positivity, by positivity, ?_⟩
  rw [zpow_eq_div_pow two_ne_zero, zpow_eq_div_pow (by norm_num : (10 : ℚ) ≠ 0)]
  push_cast
  field_simp

theorem holds_iff (iv : Interval) (t : ℤ) (c : Nat) :
    iv.holds (crossScale iv.scale t).1 (crossScale iv.scale t).2 c = true ↔
      iv.Contains (c * 10 ^ t) := by
  obtain ⟨-, hb, hid⟩ := crossScale_spec iv.scale t
  -- both sides of each comparison are the rational ones times one positive factor
  have hk : (0 : ℚ) < (crossScale iv.scale t).2 / 2 ^ iv.scale :=
    div_pos (by exact_mod_cast hb) (zpow_pos two_pos _)
  have hc : (c : ℚ) * (crossScale iv.scale t).1 =
      (crossScale iv.scale t).2 / 2 ^ iv.scale * (c * 10 ^ t) := by
    field_simp
    rw [mul_assoc, hid]
    ring
  have hn : ∀ n : Nat, (n : ℚ) * (crossScale iv.scale t).2 =
      (crossScale iv.scale t).2 / 2 ^ iv.scale * (n * 2 ^ iv.scale) := fun n => by
    field_simp
  unfold Interval.holds Interval.Contains
  split <;> simp only [Bool.and_eq_true, decide_eq_true_eq] <;> qify <;>
    rw [hc, hn, hn] <;> simp only [mul_le_mul_iff_of_pos_left hk, mul_lt_mul_iff_of_pos_left hk]

theorem onGrid_contains {iv : Interval} {t : ℤ} {d : Decimal} (h : iv.onGrid t = some d) :
    d.exp = t ∧ iv.Contains d.value := by
  have hhold := holds_iff iv t
  unfold Interval.onGrid at h
  generalize crossScale iv.scale t = p at h hhold
  obtain ⟨a, b⟩ := p
  dsimp only at h hhold
  split at h <;> cases h
  · next hdown hup =>
    refine ⟨rfl, ?_⟩
    split
    · exact (hhold _).1 hdown
    · exact (hhold _).1 hup
  · next hdown _ => exact ⟨rfl, (hhold _).1 hdown⟩
  · next _ hup => exact ⟨rfl, (hhold _).1 hup⟩

/-- A grid no coarser than the unit `2 ^ scale` meets an interval that reaches a unit below its
middle: the grid point just below the middle lies strictly inside. -/
theorem onGrid_isSome {iv : Interval} {t : ℤ}
    (hstep : (crossScale iv.scale t).1 ≤ (crossScale iv.scale t).2) (hlo : iv.lo + 1 ≤ iv.mid)
    (hhi : iv.mid < iv.hi) : (iv.onGrid t).isSome := by
  obtain ⟨ha, hb, -⟩ := crossScale_spec iv.scale t
  unfold Interval.onGrid
  generalize crossScale iv.scale t = p at hstep ha hb
  obtain ⟨a, b⟩ := p
  dsimp only at hstep ha hb ⊢
  have hdown : iv.holds a b (iv.mid * b / a) = true := by
    have h₁ : iv.mid * b < a * (iv.mid * b / a + 1) := Nat.lt_mul_div_succ _ ha
    have h₂ : iv.mid * b / a * a ≤ iv.mid * b := Nat.div_mul_le_self _ _
    have h₃ : (iv.lo + 1) * b ≤ iv.mid * b := Nat.mul_le_mul_right b hlo
    have h₄ : iv.mid * b < iv.hi * b := Nat.mul_lt_mul_of_pos_right hhi hb
    have h₅ : a * (iv.mid * b / a + 1) ≤ iv.mid * b / a * a + b := by
      rw [Nat.mul_add, Nat.mul_one, Nat.mul_comm]
      omega
    unfold Interval.holds
    split <;> simp only [Bool.and_eq_true, decide_eq_true_eq] <;> constructor <;>
      (try rw [Nat.add_mul, Nat.one_mul] at h₃) <;> omega
  rw [hdown]
  cases iv.holds a b ((iv.mid * b + a - 1) / a) <;> rfl

theorem search_onGrid {iv : Interval} {d : Decimal} :
    ∀ {fuel t}, iv.search fuel t = some d → ∃ t', iv.onGrid t' = some d := by
  intro fuel
  induction fuel with
  | zero => intro t h; cases h
  | succ fuel ih =>
    intro t h
    unfold Interval.search at h
    split at h
    · next d' hd => cases h; exact ⟨t, hd⟩
    · exact ih h

theorem search_isSome {iv : Interval} :
    ∀ {fuel t} (j : Nat), j < fuel → (iv.onGrid (t - j)).isSome → (iv.search fuel t).isSome := by
  intro fuel
  induction fuel with
  | zero => intro t j hj; omega
  | succ fuel ih =>
    intro t j hj hg
    unfold Interval.search
    split
    · rfl
    · next hnone =>
      cases j with
      | zero => simp [hnone] at hg
      | succ j =>
        refine ih j (by omega) ?_
        rwa [show t - 1 - (j : ℤ) = t - ((j + 1 : Nat) : ℤ) by push_cast; ring]

/-- The shortest decimal of a nonzero magnitude lies in its rounding interval: the search reaches
the grid `10 ^ -46`, finer than the least unit `2 ^ -151` an interval is measured in. -/
theorem Binary.shortest_contains {b : Binary} (hb : b.Canonical) (hm : 0 < b.mant) :
    b.interval.Contains b.shortest.value := by
  have hstep : (crossScale b.interval.scale (39 - (85 : Nat))).1 ≤
      (crossScale b.interval.scale (39 - (85 : Nat))).2 := by
    have h151 : (-(b.exp - 2)).toNat ≤ 151 := by have := hb.exp_ge; omega
    simp only [Binary.interval, crossScale, Nat.pow_eq, show (39 : ℤ) - (85 : Nat) = -46 by norm_num]
    calc 10 ^ (-46 : ℤ).toNat * 2 ^ (-(b.exp - 2)).toNat
        = 2 ^ (-(b.exp - 2)).toNat := by norm_num
      _ ≤ 2 ^ 151 := Nat.pow_le_pow_right (by decide) h151
      _ ≤ 10 ^ 46 := by norm_num
      _ ≤ 2 ^ (b.exp - 2).toNat * 10 ^ 46 := Nat.le_mul_of_pos_left _ (by positivity)
  have hlo : b.interval.lo + 1 ≤ b.interval.mid := by
    simp only [Binary.interval]
    split <;> omega
  have hhi : b.interval.mid < b.interval.hi := by simp only [Binary.interval]; omega
  obtain ⟨d, hd⟩ := Option.isSome_iff_exists.1
    (@search_isSome _ 100 39 85 (by decide) (onGrid_isSome hstep hlo hhi))
  obtain ⟨t, ht⟩ := search_onGrid hd
  rw [Binary.shortest, hd, Option.getD_some]
  exact (onGrid_contains ht).2

end Jass.Decimal