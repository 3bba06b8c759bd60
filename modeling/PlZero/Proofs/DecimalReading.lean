import Mathlib.Tactic.NormNum
import PlZero.Number.Shown
import PlZero.Proofs.RationalRounding

set_option autoImplicit false

namespace PlZero.Number

namespace Format

theorem sound_double : double.Sound := ⟨by decide, by decide⟩

/-- What a rational is read as: the double nearest to it, rounded to a single. -/
def reading (q : ℚ) : ℚ := single.rounded (double.rounded q)

theorem reading_mono {q r : ℚ} (low : 0 ≤ q) (less : q ≤ r) : reading q ≤ reading r :=
  rounded_mono sound_single (rounded_nonneg _ _) (rounded_mono sound_double low less)

theorem reading_of_grid {n : Nat} {e : Int} (bound : n ≤ 2 ^ 24) (least : -149 ≤ e) :
    reading (n * 2 ^ e) = n * 2 ^ e := by
  have wide : n ≤ 2 ^ double.precision := bound.trans (by decide)
  have least' : double.minExponent ≤ e := le_trans (by decide) least
  rw [reading, rounded_of_grid sound_double wide least', rounded_of_grid sound_single bound least]

section Near

variable {m : Nat} {e : Int} {q : ℚ}

theorem pow_precision_add (f : Format) (e : Int) :
    (2 : ℚ) ^ (f.precision + e : Int) = 2 ^ f.precision * 2 ^ e := by
  rw [zpow_add₀ two_ne_zero, zpow_natCast]

theorem unit_le_value (some : 0 < m) : (2 : ℚ) ^ e ≤ m * 2 ^ e :=
  le_mul_of_one_le_left (zpow_pos two_pos e).le (by exact_mod_cast some)

theorem value_add_unit_le (bound : m < 2 ^ 24) : (m : ℚ) * 2 ^ e + 2 ^ e ≤ 2 ^ 24 * 2 ^ e := by
  have most : (m : ℚ) + 1 ≤ 2 ^ 24 := by exact_mod_cast bound
  rw [← add_one_mul]
  exact mul_le_mul_of_nonneg_right most (zpow_pos two_pos e).le

theorem abs_sub_double_le (positive : 0 < q) (bound : q < 2 ^ 25 * 2 ^ e) (least : -149 ≤ e) :
    |q - double.rounded q| ≤ 2 ^ e / 1000 := by
  have power : (2 : ℚ) ^ (e - 28) = 2 ^ e / 2 ^ 28 := zpow_sub₀ two_ne_zero e 28
  have place : double.place q ≤ e - 28 := by
    apply place_le (le_trans (by decide) (sub_le_sub_right least 28)) _ positive
    rw [pow_precision_add, power]
    change q < 2 ^ 53 * _
    linarith
  have small := zpow_le_zpow_right₀ (one_le_two (α := ℚ)) place
  have half := abs_sub_rounded_le (f := double) positive.le
  have unit : (0 : ℚ) < 2 ^ e := zpow_pos two_pos e
  linarith

theorem rounded_single_of_near (some : 0 < m) (bound : m < 2 ^ 24) (least : -149 ≤ e)
    (full : 2 ^ 23 ≤ m ∨ e = -149) (near : |q - m * 2 ^ e| < 2 ^ e / 4) :
    single.rounded q = m * 2 ^ e := by
  have unit : (0 : ℚ) < 2 ^ e := zpow_pos two_pos e
  obtain ⟨low, high⟩ := abs_lt.1 near
  have first := unit_le_value (e := e) some
  have last := value_add_unit_le (e := e) bound
  have positive : 0 < q := by linarith
  have above : single.place q ≤ e := by
    apply place_le least _ positive
    rw [pow_precision_add]
    change q < 2 ^ 24 * _
    linarith
  have below : e - 1 ≤ single.place q := by
    rcases full with normal | rfl
    · have normal : (2 : ℚ) ^ 23 ≤ m := by exact_mod_cast normal
      have normal := mul_le_mul_of_nonneg_right normal unit.le
      have power : (2 : ℚ) ^ (e - 2) = 2 ^ e / 2 ^ 2 := zpow_sub₀ two_ne_zero e 2
      apply le_place _ positive
      rw [show (single.precision + (e - 1) - 1 : Int) = single.precision + (e - 2) by omega,
        pow_precision_add, power]
      change 2 ^ 24 * _ ≤ q
      linarith
    · exact le_trans (by decide) (minExponent_le_place q)
  obtain ⟨k, multiple⟩ := exists_multiple m above
  have halves : (2 : ℚ) ^ e ≤ 2 * 2 ^ single.place q := by
    have power := zpow_le_zpow_right₀ (one_le_two (α := ℚ)) (sub_le_iff_le_add.1 below)
    rwa [zpow_add_one₀ two_ne_zero, mul_comm] at power
  rw [multiple]
  apply rounded_eq_of_near positive.le
  rw [← multiple]
  linarith

theorem reading_eq_of_near (some : 0 < m) (bound : m < 2 ^ 24) (least : -149 ≤ e)
    (full : 2 ^ 23 ≤ m ∨ e = -149) (near : |q - m * 2 ^ e| ≤ 6 / 25 * 2 ^ e) :
    reading q = m * 2 ^ e := by
  have unit : (0 : ℚ) < 2 ^ e := zpow_pos two_pos e
  obtain ⟨low, high⟩ := abs_le.1 near
  have first := unit_le_value (e := e) some
  have last := value_add_unit_le (e := e) bound
  obtain ⟨low', high'⟩ := abs_le.1 (abs_sub_double_le (q := q) (by linarith) (by linarith) least)
  apply rounded_single_of_near some bound least full
  apply abs_lt.2
  constructor <;> linarith

-- Both steps of reading keep the order and the grid.
theorem between_of_eq {g : ℚ → ℚ} (mono : ∀ {q r}, 0 ≤ q → q ≤ r → g q ≤ g r)
    (grid : ∀ n ≤ 2 ^ 24, g ((n : Nat) * 2 ^ e) = n * 2 ^ e) (bound : m < 2 ^ 24) (low : 0 ≤ q)
    (same : g q = m * 2 ^ e) : (m - 1) * 2 ^ e < q ∧ q < (m + 1) * 2 ^ e := by
  have unit : (0 : ℚ) < 2 ^ e := zpow_pos two_pos e
  constructor
  · rcases Nat.eq_zero_or_pos m with rfl | some
    · rw [Nat.cast_zero, zero_sub, neg_one_mul]
      linarith
    · by_contra! below
      have before := grid (m - 1) (by omega)
      rw [Nat.cast_sub some, Nat.cast_one] at before
      have order := mono low below
      rw [before, same] at order
      linarith
  · by_contra! above
    have next := grid (m + 1) bound
    rw [Nat.cast_add_one] at next
    have order := mono (by positivity) above
    rw [next, same] at order
    linarith

theorem between_of_reading (bound : m < 2 ^ 24) (least : -149 ≤ e) (low : 0 ≤ q)
    (same : reading q = m * 2 ^ e) : (m - 1) * 2 ^ e < q ∧ q < (m + 1) * 2 ^ e :=
  between_of_eq reading_mono (fun _ le => reading_of_grid le least) bound low same

theorem double_between_of_reading (bound : m < 2 ^ 24) (least : -149 ≤ e)
    (same : reading q = m * 2 ^ e) :
    (m - 1) * 2 ^ e < double.rounded q ∧ double.rounded q < (m + 1) * 2 ^ e :=
  between_of_eq (rounded_mono sound_single) (fun _ le => rounded_of_grid sound_single le least)
    bound (rounded_nonneg double q) same

theorem abs_sub_lt_of_reading (some : 0 < m) (bound : m < 2 ^ 24) (least : -149 ≤ e)
    (low : 0 ≤ q) (same : reading q = m * 2 ^ e) : |q - m * 2 ^ e| < 51 / 100 * 2 ^ e := by
  have unit : (0 : ℚ) < 2 ^ e := zpow_pos two_pos e
  have first := unit_le_value (e := e) some
  have last := value_add_unit_le (e := e) bound
  have between := between_of_reading bound least low same
  have between' := double_between_of_reading bound least same
  have positive : 0 < q := by linarith
  have positive' : 0 < double.rounded q := by linarith
  have place : single.place (double.rounded q) ≤ e := by
    apply place_le least _ positive'
    rw [pow_precision_add]
    change _ < 2 ^ 24 * _
    linarith
  have small := zpow_le_zpow_right₀ (one_le_two (α := ℚ)) place
  have first := abs_sub_double_le positive (by linarith) least
  have second := abs_sub_rounded_le (f := single) positive'.le
  rw [← reading, same] at second
  calc |q - m * 2 ^ e|
      ≤ |q - double.rounded q| + |double.rounded q - m * 2 ^ e| := abs_sub_le _ _ _
    _ < 51 / 100 * 2 ^ e := by linarith

section Mirror

variable {j : Nat} {r : ℚ}

theorem log_of_between (low : 2 ^ j < m) (high : m < 2 ^ (j + 1))
    (between : (m - 1) * 2 ^ e < q ∧ q < (m + 1) * 2 ^ e) : Int.log 2 q = j + e := by
  have unit : (0 : ℚ) < 2 ^ e := zpow_pos two_pos e
  have below : (2 : ℚ) ^ (j + e : Int) ≤ q := by
    have low : (2 : ℚ) ^ j + 1 ≤ m := by exact_mod_cast low
    have := mul_le_mul_of_nonneg_right low unit.le
    rw [zpow_add₀ two_ne_zero, zpow_natCast]
    linarith
  have above : q < (2 : ℚ) ^ (j + e + 1 : Int) := by
    have high : (m : ℚ) + 1 ≤ 2 ^ (j + 1) := by exact_mod_cast high
    have := mul_le_mul_of_nonneg_right high unit.le
    rw [show (j + e + 1 : Int) = (j + 1 : Nat) + e by omega, zpow_add₀ two_ne_zero, zpow_natCast]
    linarith
  have positive : 0 < q := (zpow_pos two_pos _).trans_le below
  have first := (Int.zpow_le_iff_le_log one_lt_two positive).1 below
  have last := (Int.lt_zpow_iff_log_lt one_lt_two positive).1 above
  omega

theorem rounded_add_rounded {f : Format} (least : f.minExponent ≤ e) (places : j < f.precision)
    (low : 2 ^ j < m) (high : m < 2 ^ (j + 1)) (sum : q + r = 2 * (m * 2 ^ e))
    (between : (m - 1) * 2 ^ e < q ∧ q < (m + 1) * 2 ^ e) :
    f.rounded q + f.rounded r = 2 * (m * 2 ^ e) := by
  have between' : (m - 1) * 2 ^ e < r ∧ r < (m + 1) * 2 ^ e := by
    constructor <;> linarith [between.1, between.2]
  have positive : (0 : ℚ) ≤ (m - 1) * 2 ^ e := by
    have some : (1 : ℚ) ≤ m := by exact_mod_cast (Nat.zero_lt_of_lt low)
    exact mul_nonneg (sub_nonneg.2 some) (zpow_pos two_pos e).le
  have place : f.place q = max f.minExponent (j + e + 1 - f.precision) := by
    rw [Format.place, log_of_between low high between]
  have place' : f.place r = max f.minExponent (j + e + 1 - f.precision) := by
    rw [Format.place, log_of_between low high between']
  obtain ⟨k, multiple⟩ := exists_multiple (d := f.place q) (e := e) m (by omega)
  rw [← sum]
  apply rounded_mirror (n := k) (positive.trans between.1.le) (positive.trans between'.1.le)
    (place'.trans place.symm)
  rw [sum, multiple, Int.cast_natCast]

theorem reading_mirror (least : -149 ≤ e) (places : j < 24) (low : 2 ^ j < m)
    (high : m < 2 ^ (j + 1)) (nonneg : 0 ≤ q) (sum : q + r = 2 * (m * 2 ^ e))
    (same : reading q = m * 2 ^ e) : reading r = m * 2 ^ e := by
  have bound : m < 2 ^ 24 := high.trans_le (Nat.pow_le_pow_right two_pos places)
  have between := between_of_reading bound least nonneg same
  have between' := double_between_of_reading bound least same
  have first := rounded_add_rounded (f := double) (le_trans (by decide) least)
    (places.trans (by decide)) low high sum between
  have second := rounded_add_rounded (f := single) least places low high first between'
  rw [← reading, ← reading, same] at second
  linarith

end Mirror

end Near

end Format

namespace Decimal

open Format

variable {d d' : Decimal} {negative : Bool}

def value (d : Decimal) : ℚ := d.digits * 10 ^ d.exponent

theorem value_mk (n : Nat) (e : Int) : value ⟨n, e⟩ = n * 10 ^ e := rfl

theorem value_nonneg (d : Decimal) : 0 ≤ d.value := by
  unfold value
  positivity

theorem pow_magnitude_le (some : 0 < d.digits) : 10 ^ d.magnitude ≤ d.value := by
  have digits : ((10 ^ ((Nat.toDigits 10 d.digits).length - 1) : Nat) : ℚ) ≤ d.digits := by
    exact_mod_cast pow_digits_le (by decide) some
  have pos : 0 < (Nat.toDigits 10 d.digits).length := Nat.length_toDigits_pos
  have exponent : d.magnitude = ((Nat.toDigits 10 d.digits).length - 1 : Nat) + d.exponent := by
    unfold magnitude
    omega
  rw [exponent, zpow_add₀ (by norm_num), zpow_natCast]
  push_cast at digits
  exact mul_le_mul_of_nonneg_right digits (by positivity)

theorem lt_pow_magnitude (d : Decimal) : d.value < 10 ^ (d.magnitude + 1) := by
  have digits : (d.digits : ℚ) < ((10 ^ (Nat.toDigits 10 d.digits).length : Nat) : ℚ) := by
    exact_mod_cast lt_pow_digits (by decide) d.digits
  have exponent : d.magnitude + 1 = (Nat.toDigits 10 d.digits).length + d.exponent := by
    unfold magnitude
    omega
  rw [exponent, zpow_add₀ (by norm_num), zpow_natCast]
  push_cast at digits
  exact mul_lt_mul_of_pos_right digits (by positivity)

theorem two_pow_le_ten_pow (n : Nat) : (2 : ℚ) ^ (3 * n) ≤ 10 ^ n := by
  rw [pow_mul]
  exact pow_le_pow_left₀ (by norm_num) (by norm_num) n

-- Far from one, decimals are beyond the doubles, or nearer to zero than half of the least one.
theorem limit_le_rounded (some : 0 < d.digits) (great : 400 < d.magnitude) :
    double.limit ≤ double.rounded d.value := by
  have power : double.rounded (2 ^ (1024 : Int)) = 2 ^ (1024 : Int) := by
    simpa using rounded_of_grid (n := 1) (e := 1024) sound_double (by decide) (by decide)
  have above : (2 : ℚ) ^ (1024 : Int) ≤ d.value := by
    calc (2 : ℚ) ^ (1024 : Int)
        ≤ 2 ^ (3 * 400 : Nat) := by
          rw [← zpow_natCast]
          exact zpow_le_zpow_right₀ one_le_two (by decide)
      _ ≤ 10 ^ (400 : Nat) := two_pow_le_ten_pow 400
      _ ≤ 10 ^ d.magnitude := by
          rw [← zpow_natCast]
          exact zpow_le_zpow_right₀ (by norm_num) (by omega)
      _ ≤ d.value := pow_magnitude_le some
  calc double.limit
      = 2 ^ (1024 : Int) := rfl
    _ ≤ double.rounded d.value := by
      rw [← power]
      exact rounded_mono sound_double (by positivity) above

theorem rounded_eq_zero (small : d.magnitude < -400) : double.rounded d.value = 0 := by
  have below : d.value < 2 ^ (-1075 : Int) := by
    calc d.value
        < 10 ^ (d.magnitude + 1) := lt_pow_magnitude d
      _ ≤ 10 ^ (-(400 : Nat) : Int) := zpow_le_zpow_right₀ (by norm_num) (by omega)
      _ ≤ 2 ^ (-(3 * 400 : Nat) : Int) := by
          rw [zpow_neg, zpow_neg, zpow_natCast, zpow_natCast]
          exact inv_anti₀ (by positivity) (two_pow_le_ten_pow 400)
      _ ≤ 2 ^ (-1075 : Int) := zpow_le_zpow_right₀ one_le_two (by decide)
  have least : (2 : ℚ) ^ (-1075 : Int) ≤ 2 ^ double.place d.value / 2 := by
    rw [le_div_iff₀ two_pos, ← zpow_add_one₀ two_ne_zero]
    exact zpow_le_zpow_right₀ one_le_two (minExponent_le_place d.value)
  have near := rounded_eq_of_near (f := double) (n := 0) (value_nonneg d)
    (by simpa [abs_of_nonneg (value_nonneg d)] using below.trans_le least)
  simpa using near

theorem packed_toFloating (d : Decimal) (negative : Bool) :
    double.Packed negative (double.rounded d.value) (d.toFloating .double negative) := by
  have zero : double.Packed negative 0 (double.zero negative) :=
    .finite (zpow_pos two_pos _) (by simp)
  unfold toFloating
  split
  · next none =>
    have value : d.value = 0 := by simp [Decimal.value, none]
    rwa [value, rounded_zero]
  next some =>
  split
  · next great => exact .infinite (limit_le_rounded (Nat.pos_of_ne_zero some) great)
  split
  · next small => rwa [rounded_eq_zero small]
  · have packed := packed_round sound_double negative (raise 10 d.digits d.exponent)
      (raise_pos (by decide : 0 < 10) one_pos (-d.exponent))
    have quotient := raise_div_raise (by decide : 0 < 10) d.digits 1 (-d.exponent)
    rw [neg_neg] at quotient
    rw [quotient] at packed
    simpa [Decimal.value] using packed

theorem packed_toSingle (d : Decimal) (negative : Bool) :
    single.Packed negative (reading d.value) (d.toSingle negative) := by
  have packed := packed_toFloating d negative
  unfold toSingle reading
  generalize d.toFloating .double negative = x at packed ⊢
  cases packed with
  | finite _ value =>
    rw [← value]
    exact packed_fit sound_single negative _ _
  | infinite above =>
    refine .infinite ?_
    have power : single.rounded double.limit = double.limit := by
      have grid := rounded_of_grid (n := 1) (e := 1024) sound_single (by decide) (by decide)
      rwa [Nat.cast_one, one_mul] at grid
    calc single.limit
        ≤ double.limit := zpow_le_zpow_right₀ one_le_two (by decide)
      _ = single.rounded double.limit := power.symm
      _ ≤ single.rounded (double.rounded d.value) :=
        rounded_mono sound_single (zpow_pos two_pos _).le above

theorem holds_toSingle (d : Decimal) (negative : Bool) : single.Holds (d.toSingle negative) :=
  holds_fit sound_single _

theorem toSingle_congr (same : d.value = d'.value) (negative : Bool) :
    d.toSingle negative = d'.toSingle negative := by
  have packed := packed_toSingle d negative
  rw [same] at packed
  exact packed.unique sound_single (packed_toSingle d' negative) (holds_toSingle d negative)
    (holds_toSingle d' negative)

theorem toSingle_eq_iff {mantissa : Nat} {exponent : Int}
    (holds : single.Holds (.finite negative mantissa exponent)) :
    d.toSingle negative = .finite negative mantissa exponent ↔
      reading d.value = mantissa * 2 ^ exponent := by
  have packed := packed_toSingle d negative
  constructor
  · intro same
    rw [same] at packed
    cases packed with
    | finite _ value => exact value.symm
  · intro same
    rw [same] at packed
    exact packed.unique sound_single (.finite holds.lt_limit rfl) (holds_toSingle d negative) holds

end Decimal

namespace Floating

open Format

def decimalPlace (count : Nat) (q : ℚ) : Int := Int.log 10 q + 1 - count

theorem abs_grid_sub (q : ℚ) (place : Int) (n : Nat) :
    |n * 10 ^ place - q| = |q / 10 ^ place - n| * 10 ^ place := by
  have scale : (0 : ℚ) < 10 ^ place := zpow_pos (by norm_num) place
  rw [abs_sub_comm, ← abs_of_pos scale, ← abs_mul, abs_of_pos scale, sub_mul,
    div_mul_cancel₀ _ scale.ne']

section Nearest

variable {mantissa : Nat} {exponent : Int}

theorem numerator_div_denominator (mantissa : Nat) (exponent : Int) :
    (numerator mantissa exponent : ℚ) / denominator exponent = mantissa * 2 ^ exponent := by
  have quotient := raise_div_raise (two_pos : 0 < 2) mantissa 1 (-exponent)
  rw [Int.neg_neg] at quotient
  rw [numerator, denominator, quotient]
  simp

theorem lastPlace_eq_decimalPlace (some : 0 < mantissa) (count : Nat) :
    Decimal.lastPlace count (numerator mantissa exponent) (denominator exponent) =
      decimalPlace count (mantissa * 2 ^ exponent) := by
  have num : 0 < numerator mantissa exponent := raise_pos two_pos some exponent
  have den : 0 < denominator exponent := raise_pos two_pos one_pos (-exponent)
  rw [Decimal.lastPlace, floorLog_eq_log (by decide) num den, numerator_div_denominator,
    decimalPlace]

theorem exists_nearestDecimal_eq (some : 0 < mantissa) (exponent : Int) (count : Nat) :
    ∃ n : Nat, nearestDecimal count mantissa exponent =
        ⟨n, decimalPlace count (mantissa * 2 ^ exponent)⟩ ∧
      Nearest (mantissa * 2 ^ exponent / 10 ^ decimalPlace count (mantissa * 2 ^ exponent)) n := by
  have den : 0 < denominator exponent := raise_pos two_pos one_pos (-exponent)
  have nearest := nearest_roundQuotient (raise 10 (numerator mantissa exponent)
    (-decimalPlace count (mantissa * 2 ^ exponent))) (raise_pos (by decide : 0 < 10) den
    (decimalPlace count (mantissa * 2 ^ exponent)))
  rw [raise_div_raise (by decide), numerator_div_denominator] at nearest
  refine ⟨_, ?_, nearest⟩
  rw [nearestDecimal, if_neg some.ne', Decimal.nearest, lastPlace_eq_decimalPlace some]

end Nearest

end Floating

end PlZero.Number
