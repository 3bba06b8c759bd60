import Mathlib.Algebra.Order.Field.Rat
import Mathlib.Algebra.Order.Field.Power
import Mathlib.Tactic.FieldSimp
import Mathlib.Tactic.Ring
import PlZero.Number.Format

set_option autoImplicit false

namespace PlZero.Number

section Scales

variable {base num den a b : Nat} {e : Int}

theorem raise_lt_raise_iff (pos : 0 < base) :
    raise base a (-e) < raise base b e ↔ (a : ℚ) < b * (base : ℚ) ^ e := by
  have positive : (0 : ℚ) < (base : ℚ) := by exact_mod_cast pos
  obtain ⟨n, rfl | rfl⟩ := e.eq_nat_or_neg
  · simp only [raise, Int.toNat_neg_natCast, Int.toNat_natCast, Nat.pow_eq, pow_zero, mul_one,
      zpow_natCast]
    exact_mod_cast Iff.rfl
  · simp only [raise, neg_neg, Int.toNat_neg_natCast, Int.toNat_natCast, Nat.pow_eq, pow_zero,
      mul_one, zpow_neg, zpow_natCast]
    rw [← div_eq_mul_inv, lt_div_iff₀ (pow_pos positive n)]
    exact_mod_cast Iff.rfl

theorem raise_le_raise_iff (pos : 0 < base) :
    raise base b e ≤ raise base a (-e) ↔ (b : ℚ) * (base : ℚ) ^ e ≤ a := by
  rw [← not_lt, raise_lt_raise_iff pos, not_lt]

theorem le_floorLog (more : 1 < base) (positive : 0 < den)
    (low : (den : ℚ) * (base : ℚ) ^ e ≤ num) : e ≤ floorLog base num den := by
  have above := (raise_lt_raise_iff (by omega)).1 (raise_lt_floorLog more num positive)
  have greater : (1 : ℚ) < (base : ℚ) := by exact_mod_cast more
  have less := lt_of_mul_lt_mul_left (low.trans_lt above) (Nat.cast_nonneg den)
  have exponents := (zpow_lt_zpow_iff_right₀ greater).1 less
  omega

theorem floorLog_lt (more : 1 < base) (some : 0 < num)
    (high : (num : ℚ) < den * (base : ℚ) ^ e) : floorLog base num den < e := by
  have below := (raise_le_raise_iff (by omega)).1 (raise_floorLog_le more some den)
  have greater : (1 : ℚ) < (base : ℚ) := by exact_mod_cast more
  have less := lt_of_mul_lt_mul_left (below.trans_lt high) (Nat.cast_nonneg den)
  exact (zpow_lt_zpow_iff_right₀ greater).1 less

theorem cast_raise (m : Nat) (e : Int) :
    (raise 2 m e : ℚ) = raise 2 1 (-e) * (m * (2 : ℚ) ^ e) := by
  obtain ⟨n, rfl | rfl⟩ := e.eq_nat_or_neg
  · simp [raise]
  · simp only [raise, neg_neg, Int.toNat_neg_natCast, Int.toNat_natCast, Nat.pow_eq, pow_zero,
      mul_one, one_mul, zpow_neg, zpow_natCast, Nat.cast_pow, Nat.cast_ofNat]
    field_simp

theorem div_le_roundQuotient (num den : Nat) : num / den ≤ roundQuotient num den := by
  unfold roundQuotient
  dsimp only
  split
  · exact le_rfl
  · split
    · omega
    · split <;> omega

theorem roundQuotient_mul (m : Nat) (positive : 0 < den) : roundQuotient (m * den) den = m := by
  simp [roundQuotient, positive]

end Scales

namespace Format

variable {f : Format}

/-- A format with at least one binary place and one exponent. -/
structure Sound (f : Format) : Prop where
  precision_pos : 0 < f.precision
  minExponent_le : f.minExponent ≤ f.maxExponent

theorem sound_single : single.Sound := ⟨by decide, by decide⟩

/-- The numbers that a format holds, each in one form: the mantissa is as great as it can be, unless
the exponent is the least. -/
inductive Holds (f : Format) : Floating → Prop
  | nan : Holds f .nan
  | infinite {negative : Bool} : Holds f (.infinite negative)
  | finite {negative : Bool} {mantissa : Nat} {exponent : Int} : mantissa < f.mantissaBound →
      f.minExponent ≤ exponent → exponent ≤ f.maxExponent →
      f.normalMantissa ≤ mantissa ∨ exponent = f.minExponent →
      Holds f (.finite negative mantissa exponent)

theorem normalMantissa_lt (sound : f.Sound) : f.normalMantissa < f.mantissaBound :=
  Nat.pow_lt_pow_right (by decide) (Nat.sub_lt sound.precision_pos (by decide))

theorem holds_zero (sound : f.Sound) (negative : Bool) : f.Holds (f.zero negative) :=
  .finite (Nat.pow_pos (by decide)) le_rfl sound.minExponent_le (.inr rfl)

theorem holds_pack {negative : Bool} {mantissa : Nat} {exponent : Int} (sound : f.Sound)
    (least : f.minExponent ≤ exponent)
    (full : f.normalMantissa ≤ mantissa ∨ exponent = f.minExponent) :
    f.Holds (f.pack negative mantissa exponent) := by
  unfold pack
  split
  · split
    · exact .infinite
    · exact .finite (normalMantissa_lt sound) (by omega) (by omega) (.inl le_rfl)
  · split
    · exact .infinite
    · exact .finite (by omega) least (by omega) full

theorem minExponent_le_lastPlace (num den : Nat) : f.minExponent ≤ f.lastPlace num den := by
  unfold lastPlace
  dsimp only
  split <;> omega

theorem normalMantissa_le_scaled {num den : Nat} (sound : f.Sound) (some : 0 < num)
    (positive : 0 < den) (above : f.lastPlace num den ≠ f.minExponent) :
    f.normalMantissa ≤
      raise 2 num (-f.lastPlace num den) / raise 2 den (f.lastPlace num den) := by
  have place : f.lastPlace num den = floorLog 2 num den + 1 - f.precision := by
    unfold lastPlace at above ⊢
    dsimp only at above ⊢
    split at above
    · exact absurd rfl above
    · next less => rw [if_neg less]
  have power : ((2 ^ (f.precision - 1) * den : Nat) : ℚ) * (2 : ℚ) ^ f.lastPlace num den =
      den * (2 : ℚ) ^ floorLog 2 num den := by
    have exponents : floorLog 2 num den = (f.precision - 1 : Nat) + f.lastPlace num den := by
      have some := sound.precision_pos
      omega
    rw [exponents, zpow_add₀ two_ne_zero, zpow_natCast]
    push_cast
    ring
  have below := (raise_le_raise_iff two_pos).1 (raise_floorLog_le one_lt_two some den)
  rw [Nat.le_div_iff_mul_le (raise_pos (by decide) positive _)]
  have scaled : f.normalMantissa * raise 2 den (f.lastPlace num den) =
      raise 2 (2 ^ (f.precision - 1) * den) (f.lastPlace num den) := (Nat.mul_assoc _ _ _).symm
  rw [scaled, raise_le_raise_iff two_pos]
  exact power.trans_le below

theorem holds_round (sound : f.Sound) (negative : Bool) (num : Nat) {den : Nat}
    (positive : 0 < den) : f.Holds (f.round negative num den) := by
  unfold round
  split
  · exact holds_zero sound negative
  · next some =>
    refine holds_pack sound (minExponent_le_lastPlace num den) ?_
    by_cases least : f.lastPlace num den = f.minExponent
    · exact .inr least
    · have scaled := normalMantissa_le_scaled sound (by omega) positive least
      exact .inl (scaled.trans (div_le_roundQuotient _ _))

theorem holds_fit (sound : f.Sound) (x : Floating) : f.Holds (f.fit x) := by
  cases x with
  | nan => exact .nan
  | infinite => exact .infinite
  | finite => exact holds_round sound _ _ (raise_pos (by decide) (by decide) _)

theorem lastPlace_eq {mantissa : Nat} {exponent : Int} (sound : f.Sound) (some : 0 < mantissa)
    (bound : mantissa < f.mantissaBound) (least : f.minExponent ≤ exponent)
    (full : f.normalMantissa ≤ mantissa ∨ exponent = f.minExponent) :
    f.lastPlace (raise 2 mantissa exponent) (raise 2 1 (-exponent)) = exponent := by
  have places := sound.precision_pos
  have numerator : 0 < raise 2 mantissa exponent := raise_pos (by decide) some exponent
  have denominator : 0 < raise 2 1 (-exponent) := raise_pos (by decide) (by decide) _
  have value := cast_raise mantissa exponent
  generalize raise 2 mantissa exponent = num at numerator value ⊢
  generalize raise 2 1 (-exponent) = den at denominator value ⊢
  have scale : (0 : ℚ) < (den : ℚ) := by exact_mod_cast denominator
  have step : (0 : ℚ) < (2 : ℚ) ^ exponent := zpow_pos two_pos exponent
  have below {k : Nat} (less : mantissa < 2 ^ k) : floorLog 2 num den < k + exponent := by
    apply floorLog_lt (by decide) numerator
    have less : (mantissa : ℚ) < (2 : ℚ) ^ k := by exact_mod_cast less
    rw [value, Nat.cast_ofNat, zpow_add₀ two_ne_zero, zpow_natCast]
    exact mul_lt_mul_of_pos_left (mul_lt_mul_of_pos_right less step) scale
  unfold lastPlace
  dsimp only
  by_cases normal : f.normalMantissa ≤ mantissa
  · have above : ((f.precision - 1 : Nat) : Int) + exponent ≤ floorLog 2 num den := by
      apply le_floorLog (by decide) denominator
      have more : (2 : ℚ) ^ (f.precision - 1) ≤ mantissa := by exact_mod_cast normal
      rw [value, Nat.cast_ofNat, zpow_add₀ two_ne_zero, zpow_natCast]
      exact mul_le_mul_of_nonneg_left (mul_le_mul_of_nonneg_right more step.le) scale.le
    have below := below bound
    split <;> omega
  · have below := below (Nat.lt_of_not_le normal)
    split <;> omega

theorem Holds.fit_eq {x : Floating} (sound : f.Sound) (holds : f.Holds x) : f.fit x = x := by
  cases holds with
  | nan | infinite => rfl
  | @finite negative mantissa exponent bound least most full =>
    by_cases zero : mantissa = 0
    · have exponents : exponent = f.minExponent := by
        have positive : 0 < f.normalMantissa := Nat.pow_pos (by decide)
        omega
      simp [fit, round, raise, zero, exponents, Format.zero]
    · have some : 0 < mantissa := by omega
      have quotient : roundQuotient (raise 2 (raise 2 mantissa exponent) (-exponent))
          (raise 2 (raise 2 1 (-exponent)) exponent) = mantissa := by
        have scaled : raise 2 (raise 2 mantissa exponent) (-exponent) =
            mantissa * raise 2 (raise 2 1 (-exponent)) exponent := by
          simp only [raise]
          ring
        rw [scaled]
        exact roundQuotient_mul mantissa
          (raise_pos (by decide) (raise_pos (by decide) (by decide) _) _)
      have numerator : 0 < raise 2 mantissa exponent := raise_pos (by decide) some exponent
      simp only [fit, round, lastPlace_eq sound some bound least full, quotient]
      rw [if_neg (by omega), pack, if_neg (by omega), if_neg (by omega)]

theorem fit_fit (sound : f.Sound) (x : Floating) : f.fit (f.fit x) = f.fit x :=
  (holds_fit sound x).fit_eq sound

end Format

end PlZero.Number
