import Mathlib.Data.Int.Log
import Mathlib.Data.Rat.Floor
import Mathlib.Tactic.Linarith
import PlZero.Proofs.HeldNumbers

set_option autoImplicit false

namespace PlZero.Number

theorem one_le_abs_sub_add_abs_sub (q : ℚ) {k n : ℤ} (differ : k ≠ n) : 1 ≤ |q - k| + |q - n| := by
  have apart : (1 : ℚ) ≤ |(k : ℚ) - n| := by
    have : 1 ≤ |k - n| := Int.one_le_abs (sub_ne_zero.2 differ)
    exact_mod_cast this
  have path := abs_sub_le (k : ℚ) q n
  rw [abs_sub_comm (k : ℚ) q] at path
  exact apart.trans path

structure Nearest (q : ℚ) (n : ℤ) : Prop where
  within : |q - n| ≤ 1 / 2
  even : |q - n| = 1 / 2 → Even n

namespace Nearest

variable {q r : ℚ} {m n : ℤ}

theorem le (less : q ≤ r) (first : Nearest q m) (second : Nearest r n) : m ≤ n := by
  by_contra above
  have next : n + 1 ≤ m := by omega
  have next' : (n : ℚ) + 1 ≤ m := by exact_mod_cast next
  have low := (abs_le.1 first.within).1
  have high := (abs_le.1 second.within).2
  -- Both are halves, so that two neighbours would be even.
  have half : |q - m| = 1 / 2 := by rw [abs_of_nonpos (by linarith)]; linarith
  have half' : |r - n| = 1 / 2 := by rw [abs_of_nonneg (by linarith)]; linarith
  have successor : m = n + 1 := by
    have : (m : ℚ) ≤ n + 1 := by linarith
    have : m ≤ n + 1 := by exact_mod_cast this
    omega
  obtain ⟨i, even⟩ := first.even half
  obtain ⟨j, even'⟩ := second.even half'
  omega

theorem unique (first : Nearest q m) (second : Nearest q n) : m = n :=
  le_antisymm (first.le le_rfl second) (second.le le_rfl first)

theorem whole (n : ℤ) : Nearest n n := by
  constructor <;> simp

theorem mirror {k : ℤ} (sum : q + r = 2 * k) (nearest : Nearest q n) : Nearest r (2 * k - n) := by
  have distance : |r - (2 * k - n : ℤ)| = |q - n| := by
    have : r - (2 * k - n : ℤ) = -(q - n) := by push_cast; linarith
    rw [this, abs_neg]
  constructor
  · rw [distance]
    exact nearest.within
  · intro half
    exact (even_two_mul k).sub (nearest.even (distance ▸ half))

theorem closest (nearest : Nearest q n) (k : ℤ) : |q - n| ≤ |q - k| := by
  by_cases same : k = n
  · rw [same]
  · have apart := one_le_abs_sub_add_abs_sub q same
    have within := nearest.within
    linarith

end Nearest

section Scales

variable {base num den : Nat}

-- A quotient is halfway between two whole numbers only where the even one is chosen.
theorem even_roundQuotient (positive : 0 < den)
    (half : 2 * num = 2 * (roundQuotient num den * den) + den ∨
      2 * num + den = 2 * (roundQuotient num den * den)) : Even (roundQuotient num den) := by
  have whole := Nat.div_add_mod' num den
  have small := Nat.mod_lt num positive
  unfold roundQuotient at half ⊢
  dsimp only at half ⊢
  split at half
  · omega
  split at half
  · rw [Nat.add_mul] at half
    omega
  next below above =>
  rw [if_neg below, if_neg above]
  split
  · next even => exact Nat.even_iff.2 even
  · next odd => exact Nat.even_iff.2 (by omega)

theorem nearest_roundQuotient (num : Nat) (positive : 0 < den) :
    Nearest ((num : ℚ) / den) (roundQuotient num den : Nat) := by
  have scale : (0 : ℚ) < den := by exact_mod_cast positive
  have value : (num : ℚ) / den * den = num := div_mul_cancel₀ _ scale.ne'
  generalize (num : ℚ) / den = q at value
  have high : (2 : ℚ) * (roundQuotient num den * den) ≤ 2 * num + den := by
    exact_mod_cast roundQuotient_le num positive
  have low : (2 : ℚ) * num ≤ 2 * (roundQuotient num den * den) + den := by
    exact_mod_cast le_roundQuotient num positive
  constructor
  · have below : q - roundQuotient num den ≤ 1 / 2 := by
      apply le_of_mul_le_mul_right _ scale
      linarith
    have above : -(1 / 2) ≤ q - roundQuotient num den := by
      apply le_of_mul_le_mul_right _ scale
      linarith
    exact abs_le.2 ⟨by exact_mod_cast above, by exact_mod_cast below⟩
  · intro half
    apply (Int.even_coe_nat _).2
    apply even_roundQuotient positive
    rw [Int.cast_natCast] at half
    rcases (abs_eq (by norm_num)).1 half with above | below
    · left
      have : (2 : ℚ) * num = 2 * (roundQuotient num den * den) + den := by
        rw [← value, sub_eq_iff_eq_add.1 above]
        ring
      exact_mod_cast this
    · right
      have : (2 : ℚ) * num + den = 2 * (roundQuotient num den * den) := by
        rw [← value, sub_eq_iff_eq_add.1 below]
        ring
      exact_mod_cast this

theorem floorLog_eq_log (more : 1 < base) (some : 0 < num) (positive : 0 < den) :
    floorLog base num den = Int.log base ((num : ℚ) / den) := by
  have scale : (0 : ℚ) < den := by exact_mod_cast positive
  have value : (0 : ℚ) < (num : ℚ) / den := div_pos (by exact_mod_cast some) scale
  apply le_antisymm
  · rw [← Int.zpow_le_iff_le_log more value, le_div_iff₀' scale]
    exact (raise_le_raise_iff (by omega)).1 (raise_floorLog_le more some den)
  · apply le_floorLog more positive
    rw [← le_div_iff₀' scale]
    exact Int.zpow_log_le_self more value

theorem raise_div_raise (pos : 0 < base) (num den : Nat) (e : Int) :
    (raise base num (-e) : ℚ) / raise base den e = (num : ℚ) / den / (base : ℚ) ^ e := by
  have positive : (base : ℚ) ≠ 0 := by exact_mod_cast pos.ne'
  obtain ⟨n, rfl | rfl⟩ := e.eq_nat_or_neg
  · simp only [raise, Int.toNat_neg_natCast, Int.toNat_natCast, Nat.pow_eq, pow_zero, mul_one,
      zpow_natCast, Nat.cast_mul, Nat.cast_pow]
    rw [div_div]
  · simp only [raise, neg_neg, Int.toNat_neg_natCast, Int.toNat_natCast, Nat.pow_eq, pow_zero,
      mul_one, zpow_neg, zpow_natCast, Nat.cast_mul, Nat.cast_pow, div_inv_eq_mul]
    rw [mul_div_right_comm]

end Scales

def nearestWhole (q : ℚ) : Nat := roundQuotient q.num.natAbs q.den

theorem nearest_nearestWhole {q : ℚ} (low : 0 ≤ q) : Nearest q (nearestWhole q : Nat) := by
  have nearest := nearest_roundQuotient q.num.natAbs q.den_pos
  have value : ((q.num.natAbs : Nat) : ℚ) / q.den = q := by
    rw [Nat.cast_natAbs, abs_of_nonneg (Rat.num_nonneg.2 low), Rat.num_div_den]
  rwa [value] at nearest

theorem roundQuotient_eq_nearestWhole (num : Nat) {den : Nat} (positive : 0 < den) :
    roundQuotient num den = nearestWhole ((num : ℚ) / den) := by
  have low : 0 ≤ (num : ℚ) / den := by positivity
  exact_mod_cast (nearest_roundQuotient num positive).unique (nearest_nearestWhole low)

namespace Format

variable {f : Format}

def place (f : Format) (q : ℚ) : Int := max f.minExponent (Int.log 2 q + 1 - f.precision)

/-- The rational rounded to the places of the format, with no greatest exponent. -/
def rounded (f : Format) (q : ℚ) : ℚ :=
  nearestWhole (q / 2 ^ f.place q) * 2 ^ f.place q

theorem lastPlace_eq_place {num den : Nat} (some : 0 < num) (positive : 0 < den) :
    f.lastPlace num den = f.place ((num : ℚ) / den) := by
  have log := floorLog_eq_log one_lt_two some positive
  simp only [lastPlace, place, log]
  split <;> omega

theorem round_eq_pack {num den : Nat} (negative : Bool) (some : 0 < num) (positive : 0 < den) :
    f.round negative num den = f.pack negative
      (nearestWhole ((num : ℚ) / den / 2 ^ f.place ((num : ℚ) / den)))
      (f.place ((num : ℚ) / den)) := by
  have scaled (e : Int) : roundQuotient (raise 2 num (-e)) (raise 2 den e) =
      nearestWhole ((num : ℚ) / den / 2 ^ e) := by
    rw [roundQuotient_eq_nearestWhole _ (raise_pos two_pos positive e), raise_div_raise two_pos]
    rfl
  simp only [round, if_neg some.ne', lastPlace_eq_place some positive, scaled]

section Rounded

variable {q r : ℚ}

theorem minExponent_le_place (q : ℚ) : f.minExponent ≤ f.place q := le_max_left _ _

theorem lt_pow_place (q : ℚ) : q < 2 ^ (f.precision + f.place q : Int) := by
  have above : q < 2 ^ (Int.log 2 q + 1) := Int.lt_zpow_succ_log_self one_lt_two q
  have exponents : Int.log 2 q + 1 ≤ f.precision + f.place q := by
    have := le_max_right f.minExponent (Int.log 2 q + 1 - f.precision)
    unfold place
    omega
  exact above.trans_le (zpow_le_zpow_right₀ one_le_two exponents)

theorem place_le {e : Int} (least : f.minExponent ≤ e) (less : q < 2 ^ (f.precision + e : Int))
    (positive : 0 < q) : f.place q ≤ e := by
  have log := (Int.lt_zpow_iff_log_lt one_lt_two positive).1 less
  apply max_le least
  omega

theorem le_place {e : Int} (more : 2 ^ (f.precision + e - 1 : Int) ≤ q) (positive : 0 < q) :
    e ≤ f.place q := by
  have log := (Int.zpow_le_iff_le_log one_lt_two positive).1 more
  apply le_max_of_le_right
  omega

theorem pow_place_le (positive : 0 < q) (above : f.minExponent < f.place q) :
    2 ^ (f.precision + f.place q - 1 : Int) ≤ q := by
  have exponent : (f.precision + f.place q - 1 : Int) = Int.log 2 q := by
    have := max_choice f.minExponent (Int.log 2 q + 1 - f.precision)
    unfold place at above ⊢
    omega
  rw [exponent]
  exact Int.zpow_log_le_self one_lt_two positive

theorem place_mono (positive : 0 < q) (less : q ≤ r) : f.place q ≤ f.place r := by
  have log : Int.log 2 q ≤ Int.log 2 r := Int.log_mono_right positive less
  exact max_le_max le_rfl (by omega)

theorem pow_place_pos (q : ℚ) : (0 : ℚ) < 2 ^ f.place q := zpow_pos two_pos _

theorem nearest_place (low : 0 ≤ q) :
    Nearest (q / 2 ^ f.place q) (nearestWhole (q / 2 ^ f.place q) : Nat) :=
  nearest_nearestWhole (div_nonneg low (pow_place_pos q).le)

theorem rounded_nonneg (f : Format) (q : ℚ) : 0 ≤ f.rounded q :=
  mul_nonneg (Nat.cast_nonneg _) (pow_place_pos q).le

theorem rounded_of_multiple {n : Nat} (value : q = n * 2 ^ f.place q) : f.rounded q = q := by
  have scale := pow_place_pos (f := f) q
  have quotient : q / 2 ^ f.place q = n := by rw [div_eq_iff scale.ne']; exact value
  have low : 0 ≤ q := value ▸ mul_nonneg (Nat.cast_nonneg _) scale.le
  have nearest := nearest_place (f := f) low
  have whole : nearestWhole (q / 2 ^ f.place q) = n := by
    rw [quotient] at nearest ⊢
    exact_mod_cast nearest.unique (Nearest.whole n)
  rw [rounded, whole]
  exact value.symm

@[simp] theorem rounded_zero (f : Format) : f.rounded 0 = 0 :=
  rounded_of_multiple (n := 0) (by simp)

theorem exists_multiple {d e : Int} (n : Nat) (less : d ≤ e) :
    ∃ k : Nat, (n : ℚ) * 2 ^ e = k * 2 ^ d := by
  have exponents : e = (e - d).toNat + d := by omega
  refine ⟨n * 2 ^ (e - d).toNat, ?_⟩
  push_cast
  rw [mul_assoc, ← zpow_natCast, ← zpow_add₀ two_ne_zero, ← exponents]

theorem rounded_of_grid {n : Nat} {e : Int} (sound : f.Sound) (bound : n ≤ 2 ^ f.precision)
    (least : f.minExponent ≤ e) : f.rounded (n * 2 ^ e) = n * 2 ^ e := by
  rcases Nat.eq_zero_or_pos n with rfl | some
  · simp
  have positive : (0 : ℚ) < n * 2 ^ e := mul_pos (by exact_mod_cast some) (zpow_pos two_pos e)
  rcases Nat.lt_or_eq_of_le bound with less | rfl
  · have below : f.place (n * 2 ^ e) ≤ e := by
      apply place_le least _ positive
      rw [zpow_add₀ two_ne_zero, zpow_natCast]
      exact mul_lt_mul_of_pos_right (by exact_mod_cast less) (zpow_pos two_pos e)
    obtain ⟨k, multiple⟩ := exists_multiple n below
    exact rounded_of_multiple multiple
  · have places := sound.precision_pos
    have power : ((2 ^ f.precision : Nat) : ℚ) * 2 ^ e = 2 ^ (f.precision + e : Int) := by
      rw [zpow_add₀ two_ne_zero, zpow_natCast]
      push_cast
      rfl
    have place : f.place ((2 ^ f.precision : Nat) * 2 ^ e) = e + 1 := by
      have log : Int.log 2 ((2 : ℚ) ^ (f.precision + e : Int)) = f.precision + e :=
        Int.log_zpow one_lt_two _
      rw [power, Format.place, log]
      omega
    apply rounded_of_multiple (n := 2 ^ (f.precision - 1))
    rw [place, power]
    push_cast
    rw [← zpow_natCast, ← zpow_add₀ two_ne_zero]
    congr 1
    omega

theorem rounded_le_pow (low : 0 ≤ q) : f.rounded q ≤ 2 ^ (f.precision + f.place q : Int) := by
  have scale := pow_place_pos (f := f) q
  have below : q / 2 ^ f.place q ≤ ((2 ^ f.precision : Nat) : ℤ) := by
    rw [div_le_iff₀ scale]
    push_cast
    rw [← zpow_natCast, ← zpow_add₀ two_ne_zero]
    exact (lt_pow_place q).le
  have whole := (nearest_place low).le below (Nearest.whole _)
  rw [rounded, zpow_add₀ two_ne_zero, zpow_natCast]
  apply mul_le_mul_of_nonneg_right _ scale.le
  exact_mod_cast whole

theorem pow_le_rounded (sound : f.Sound) (positive : 0 < q) (above : f.minExponent < f.place q) :
    2 ^ (f.precision + f.place q - 1 : Int) ≤ f.rounded q := by
  have places := sound.precision_pos
  have scale := pow_place_pos (f := f) q
  have power : (2 : ℚ) ^ (f.precision + f.place q - 1 : Int) =
      ((2 ^ (f.precision - 1) : Nat) : ℤ) * 2 ^ f.place q := by
    push_cast
    rw [← zpow_natCast, ← zpow_add₀ two_ne_zero]
    congr 1
    omega
  have below : ((2 ^ (f.precision - 1) : Nat) : ℤ) ≤ q / 2 ^ f.place q := by
    rw [le_div_iff₀ scale, ← power]
    exact pow_place_le positive above
  have whole := (Nearest.whole _).le below (nearest_place positive.le)
  rw [rounded, power]
  apply mul_le_mul_of_nonneg_right _ scale.le
  exact_mod_cast whole

theorem rounded_mono (sound : f.Sound) (low : 0 ≤ q) (less : q ≤ r) :
    f.rounded q ≤ f.rounded r := by
  rcases low.eq_or_lt with rfl | positive
  · rw [rounded_zero]
    exact rounded_nonneg f r
  have places := place_mono (f := f) positive less
  rcases places.eq_or_lt with same | before
  · have scale := pow_place_pos (f := f) r
    have scaled : q / 2 ^ f.place q ≤ r / 2 ^ f.place r := by
      rw [same]
      exact div_le_div_of_nonneg_right less scale.le
    have whole := (nearest_place low).le scaled (nearest_place (low.trans less))
    rw [rounded, rounded, same]
    rw [same] at whole
    apply mul_le_mul_of_nonneg_right _ scale.le
    exact_mod_cast whole
  · calc f.rounded q
        ≤ 2 ^ (f.precision + f.place q : Int) := rounded_le_pow low
      _ ≤ 2 ^ (f.precision + f.place r - 1 : Int) := zpow_le_zpow_right₀ one_le_two (by omega)
      _ ≤ f.rounded r := pow_le_rounded sound (positive.trans_le less)
          ((minExponent_le_place q).trans_lt before)

theorem abs_sub_rounded_le (low : 0 ≤ q) : |q - f.rounded q| ≤ 2 ^ f.place q / 2 := by
  have scale := pow_place_pos (f := f) q
  have within := (nearest_place (f := f) low).within
  have distance : q - f.rounded q =
      (q / 2 ^ f.place q - nearestWhole (q / 2 ^ f.place q)) * 2 ^ f.place q := by
    rw [rounded, sub_mul, div_mul_cancel₀ _ scale.ne']
  rw [distance, abs_mul, abs_of_pos scale]
  have := mul_le_mul_of_nonneg_right within scale.le
  push_cast at this
  linarith

theorem rounded_mirror {n : Int} (low : 0 ≤ q) (low' : 0 ≤ r) (same : f.place r = f.place q)
    (sum : q + r = 2 * (n * 2 ^ f.place q)) : f.rounded q + f.rounded r = q + r := by
  have scale := pow_place_pos (f := f) q
  have scaled : q / 2 ^ f.place q + r / 2 ^ f.place q = 2 * n := by
    rw [← add_div, sum, div_eq_iff scale.ne']
    ring
  have other := nearest_place (f := f) low'
  rw [same] at other
  have whole := ((nearest_place low).mirror scaled).unique other
  have whole : (2 * n - nearestWhole (q / 2 ^ f.place q) : ℚ) =
      nearestWhole (r / 2 ^ f.place q) := by exact_mod_cast whole
  rw [rounded, rounded, same, ← whole, sum]
  ring

theorem rounded_eq_of_near {n : Nat} (low : 0 ≤ q)
    (near : |q - n * 2 ^ f.place q| < 2 ^ f.place q / 2) :
    f.rounded q = n * 2 ^ f.place q := by
  have scale := pow_place_pos (f := f) q
  have scaled : |q / 2 ^ f.place q - n| < 1 / 2 := by
    have distance : q / 2 ^ f.place q - n = (q - n * 2 ^ f.place q) / 2 ^ f.place q := by
      rw [sub_div, mul_div_cancel_right₀ _ scale.ne']
    rw [distance, abs_div, abs_of_pos scale, div_lt_iff₀ scale]
    linarith
  have nearest : Nearest (q / 2 ^ f.place q) (n : ℤ) := by
    rw [← Int.cast_natCast (R := ℚ)] at scaled
    exact ⟨scaled.le, fun half => absurd half scaled.ne⟩
  have whole := (nearest_place low).unique nearest
  rw [rounded]
  congr 1
  exact_mod_cast whole

end Rounded

def limit (f : Format) : ℚ := 2 ^ (f.precision + f.maxExponent : Int)

inductive Packed (f : Format) (negative : Bool) (q : ℚ) : Floating → Prop
  | finite {mantissa : Nat} {exponent : Int} : q < f.limit → mantissa * 2 ^ exponent = q →
      Packed f negative q (.finite negative mantissa exponent)
  | infinite : f.limit ≤ q → Packed f negative q (.infinite negative)

theorem cast_mantissaBound (f : Format) : (f.mantissaBound : ℚ) = 2 ^ (f.precision : Int) := by
  rw [mantissaBound, zpow_natCast]
  exact_mod_cast rfl

theorem cast_normalMantissa (sound : f.Sound) :
    (f.normalMantissa : ℚ) = 2 ^ (f.precision - 1 : Int) := by
  have places := sound.precision_pos
  have exponent : (f.precision - 1 : Int) = (f.precision - 1 : Nat) := by omega
  rw [normalMantissa, exponent, zpow_natCast]
  exact_mod_cast rfl

theorem packed_pack {n : Nat} {e : Int} (negative : Bool) (sound : f.Sound)
    (bound : n ≤ f.mantissaBound) (full : f.normalMantissa ≤ n ∨ e = f.minExponent) :
    f.Packed negative (n * 2 ^ e) (f.pack negative n e) := by
  have scale : (0 : ℚ) < 2 ^ e := zpow_pos two_pos e
  unfold pack
  split
  · next carried =>
    have value : (n : ℚ) * 2 ^ e = 2 ^ (f.precision + e : Int) := by
      rw [le_antisymm bound carried, cast_mantissaBound, ← zpow_add₀ two_ne_zero]
    split
    · next above =>
      refine .infinite ?_
      rw [value, limit]
      exact zpow_le_zpow_right₀ one_le_two (by omega)
    · next below =>
      refine .finite ?_ ?_
      · rw [value, limit]
        exact zpow_lt_zpow_right₀ one_lt_two (by omega)
      · rw [value, cast_normalMantissa sound, ← zpow_add₀ two_ne_zero]
        congr 1
        omega
  · next less =>
    split
    · next above =>
      have normal : f.normalMantissa ≤ n := by
        have := sound.minExponent_le
        omega
      have normal : (f.normalMantissa : ℚ) ≤ n := by exact_mod_cast normal
      refine .infinite ?_
      calc f.limit
          ≤ 2 ^ (f.precision - 1 + e : Int) := zpow_le_zpow_right₀ one_le_two (by omega)
        _ = f.normalMantissa * 2 ^ e := by
          rw [cast_normalMantissa sound, ← zpow_add₀ two_ne_zero]
        _ ≤ n * 2 ^ e := mul_le_mul_of_nonneg_right normal scale.le
    · next below =>
      have less : (n : ℚ) < f.mantissaBound := by exact_mod_cast Nat.lt_of_not_le less
      refine .finite ?_ rfl
      calc (n : ℚ) * 2 ^ e
          < f.mantissaBound * 2 ^ e := mul_lt_mul_of_pos_right less scale
        _ = 2 ^ (f.precision + e : Int) := by rw [cast_mantissaBound, ← zpow_add₀ two_ne_zero]
        _ ≤ f.limit := zpow_le_zpow_right₀ one_le_two (by omega)

theorem packed_round {den : Nat} (sound : f.Sound) (negative : Bool) (num : Nat)
    (positive : 0 < den) :
    f.Packed negative (f.rounded ((num : ℚ) / den)) (f.round negative num den) := by
  rcases Nat.eq_zero_or_pos num with rfl | some
  · have zero : f.round negative 0 den = f.zero negative := if_pos rfl
    rw [zero, Nat.cast_zero, zero_div, rounded_zero]
    exact .finite (zpow_pos two_pos _) (by simp)
  have value : 0 < (num : ℚ) / den := by positivity
  have scale := pow_place_pos (f := f) ((num : ℚ) / den)
  rw [round_eq_pack negative some positive]
  refine packed_pack negative sound ?_ ?_
  · have below := rounded_le_pow (f := f) value.le
    rw [rounded, zpow_add₀ two_ne_zero, ← cast_mantissaBound] at below
    exact_mod_cast le_of_mul_le_mul_right below scale
  · rcases (minExponent_le_place (f := f) ((num : ℚ) / den)).eq_or_lt with least | above
    · exact .inr least.symm
    · have full := pow_le_rounded sound value above
      have exponent : (f.precision + f.place ((num : ℚ) / den) - 1 : Int) =
          (f.precision - 1 : Int) + f.place ((num : ℚ) / den) := by omega
      rw [rounded, exponent, zpow_add₀ two_ne_zero, ← cast_normalMantissa sound] at full
      exact .inl (by exact_mod_cast le_of_mul_le_mul_right full scale)

theorem packed_fit (sound : f.Sound) (negative : Bool) (mantissa : Nat) (exponent : Int) :
    f.Packed negative (f.rounded (mantissa * 2 ^ exponent))
      (f.fit (.finite negative mantissa exponent)) := by
  have positive : 0 < raise 2 1 (-exponent) := raise_pos two_pos one_pos _
  have packed := packed_round sound negative (raise 2 mantissa exponent) positive
  have scale : (raise 2 1 (-exponent) : ℚ) ≠ 0 := by exact_mod_cast positive.ne'
  rwa [cast_raise, mul_div_cancel_left₀ _ scale] at packed

section Unique

variable {negative : Bool} {m n : Nat} {d e : Int} {q : ℚ} {x y : Floating}

theorem Holds.exponent_le (sound : f.Sound) (first : f.Holds (.finite negative m d))
    (second : f.Holds (.finite negative n e)) (same : (m : ℚ) * 2 ^ d = n * 2 ^ e) : e ≤ d := by
  by_contra greater
  cases first with
  | finite bound least _ _ =>
    cases second with
    | finite _ _ _ full =>
      have normal : f.normalMantissa ≤ n := by omega
      have normal : (f.normalMantissa : ℚ) ≤ n := by exact_mod_cast normal
      have bound : (m : ℚ) < f.mantissaBound := by exact_mod_cast bound
      have : (m : ℚ) * 2 ^ d < n * 2 ^ e := by
        calc (m : ℚ) * 2 ^ d
            < f.mantissaBound * 2 ^ d := mul_lt_mul_of_pos_right bound (zpow_pos two_pos d)
          _ = 2 ^ (f.precision + d : Int) := by rw [cast_mantissaBound, ← zpow_add₀ two_ne_zero]
          _ ≤ 2 ^ (f.precision - 1 + e : Int) := zpow_le_zpow_right₀ one_le_two (by omega)
          _ = f.normalMantissa * 2 ^ e := by
            rw [cast_normalMantissa sound, ← zpow_add₀ two_ne_zero]
          _ ≤ n * 2 ^ e := mul_le_mul_of_nonneg_right normal (zpow_pos two_pos e).le
      exact this.ne same

theorem Holds.eq_of_value (sound : f.Sound) (first : f.Holds (.finite negative m d))
    (second : f.Holds (.finite negative n e)) (same : (m : ℚ) * 2 ^ d = n * 2 ^ e) :
    m = n ∧ d = e := by
  have exponents := le_antisymm (second.exponent_le sound first same.symm)
    (first.exponent_le sound second same)
  subst exponents
  have mantissas := mul_right_cancel₀ (zpow_pos two_pos d).ne' same
  exact ⟨by exact_mod_cast mantissas, rfl⟩

theorem Packed.unique (sound : f.Sound) (first : f.Packed negative q x)
    (second : f.Packed negative q y) (holds : f.Holds x) (holds' : f.Holds y) : x = y := by
  cases first with
  | infinite above =>
    cases second with
    | infinite => rfl
    | finite below => exact absurd above (not_le.2 below)
  | finite below value =>
    cases second with
    | infinite above => exact absurd above (not_le.2 below)
    | finite _ value' =>
      obtain ⟨rfl, rfl⟩ := holds.eq_of_value sound holds' (value.trans value'.symm)
      rfl

theorem Holds.lt_limit (holds : f.Holds (.finite negative m d)) : (m : ℚ) * 2 ^ d < f.limit := by
  cases holds with
  | finite bound _ most _ =>
    have bound : (m : ℚ) < f.mantissaBound := by exact_mod_cast bound
    calc (m : ℚ) * 2 ^ d
        < f.mantissaBound * 2 ^ d := mul_lt_mul_of_pos_right bound (zpow_pos two_pos d)
      _ = 2 ^ (f.precision + d : Int) := by rw [cast_mantissaBound, ← zpow_add₀ two_ne_zero]
      _ ≤ f.limit := zpow_le_zpow_right₀ one_le_two (by omega)

theorem Holds.rounded_eq (sound : f.Sound) (holds : f.Holds (.finite negative m d)) :
    f.rounded (m * 2 ^ d) = m * 2 ^ d := by
  cases holds with
  | finite bound least _ _ => exact rounded_of_grid sound bound.le least

end Unique

end Format

end PlZero.Number
