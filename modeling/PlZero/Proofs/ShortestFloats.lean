import PlZero.Proofs.FloatRoundTrip
import PlZero.Proofs.SignificantDigits

set_option autoImplicit false

namespace PlZero

open Number

namespace Number

namespace Format

variable {m : Nat} {e : Int} {q r : ℚ}

theorem reading_of_between (bound : m < 2 ^ 24) (least : -149 ≤ e) (low : 0 ≤ q) (low' : 0 ≤ r)
    (same : reading r = m * 2 ^ e)
    (between : m * 2 ^ e ≤ q ∧ q ≤ r ∨ r ≤ q ∧ q ≤ m * 2 ^ e) : reading q = m * 2 ^ e := by
  have kept := reading_of_grid bound.le least
  have positive : (0 : ℚ) ≤ m * 2 ^ e := by positivity
  rcases between with ⟨first, last⟩ | ⟨first, last⟩
  · exact le_antisymm ((reading_mono low last).trans_eq same)
      (kept.symm.trans_le (reading_mono positive first))
  · exact le_antisymm ((reading_mono low last).trans_eq kept)
      (same.symm.trans_le (reading_mono low' first))

theorem reading_of_nearer {j : Nat} (least : -149 ≤ e) (places : j < 24) (first : 2 ^ j < m)
    (last : m < 2 ^ (j + 1)) (low : 0 ≤ q) (low' : 0 ≤ r)
    (nearer : |q - m * 2 ^ e| ≤ |r - m * 2 ^ e|) (same : reading r = m * 2 ^ e) :
    reading q = m * 2 ^ e := by
  have bound : m < 2 ^ 24 := last.trans_le (Nat.pow_le_pow_right two_pos places)
  have mirrored : reading (2 * (m * 2 ^ e) - r) = m * 2 ^ e :=
    reading_mirror least places first last low' (add_sub_cancel _ _) same
  have mirror : 0 ≤ 2 * (m * 2 ^ e) - r := by
    have unit := unit_le_value (e := e) (Nat.zero_lt_of_lt first)
    have between := between_of_reading bound least low' same
    linarith
  rcases le_total (m * 2 ^ e : ℚ) q with above | below
  · rcases le_total (m * 2 ^ e : ℚ) r with above' | below'
    · rw [abs_of_nonneg (by linarith), abs_of_nonneg (by linarith)] at nearer
      exact reading_of_between bound least low low' same (.inl ⟨above, by linarith⟩)
    · rw [abs_of_nonneg (by linarith), abs_of_nonpos (by linarith)] at nearer
      exact reading_of_between bound least low mirror mirrored (.inl ⟨above, by linarith⟩)
  · rcases le_total (m * 2 ^ e : ℚ) r with above' | below'
    · rw [abs_of_nonpos (by linarith), abs_of_nonneg (by linarith)] at nearer
      exact reading_of_between bound least low mirror mirrored (.inr ⟨by linarith, below⟩)
    · rw [abs_of_nonpos (by linarith), abs_of_nonpos (by linarith)] at nearer
      exact reading_of_between bound least low low' same (.inr ⟨by linarith, below⟩)

end Format

namespace Floating

open Format

section Grid

variable {m n count : Nat} {e k : Int}

-- The decimals of some digits near a number are multiples of one place; those of a greater place
-- are so, too, and below the others stands a power of ten.
theorem exists_grid_of_reading (some : 0 < m) (bound : m < 2 ^ 24) (least : -149 ≤ e)
    (digits : 0 < count) (short : n < 10 ^ count) (same : reading (n * 10 ^ k) = m * 2 ^ e) :
    ∃ g : Nat, reading (g * 10 ^ decimalPlace count (m * 2 ^ e)) = m * 2 ^ e := by
  have positive : (0 : ℚ) < m * 2 ^ e := by positivity
  have first : (10 : ℚ) ^ Int.log 10 ((m : ℚ) * 2 ^ e) ≤ m * 2 ^ e :=
    Int.zpow_log_le_self (by decide) positive
  by_cases small : n * 10 ^ k < (10 : ℚ) ^ Int.log 10 ((m : ℚ) * 2 ^ e)
  · refine ⟨10 ^ (count - 1), ?_⟩
    have power : ((10 ^ (count - 1) : Nat) : ℚ) * 10 ^ decimalPlace count (m * 2 ^ e) =
        10 ^ Int.log 10 ((m : ℚ) * 2 ^ e) := by
      push_cast
      rw [← zpow_natCast, ← zpow_add₀ (by norm_num), decimalPlace]
      congr 1
      omega
    rw [power]
    exact reading_of_between bound least (by positivity) (by positivity) same
      (.inr ⟨small.le, first⟩)
  · have above : (10 : ℚ) ^ Int.log 10 ((m : ℚ) * 2 ^ e) < 10 ^ (count + k : Int) := by
      have short : (n : ℚ) < 10 ^ count := by exact_mod_cast short
      rw [zpow_add₀ (by norm_num), zpow_natCast]
      exact (not_lt.1 small).trans_lt (mul_lt_mul_of_pos_right short (by positivity))
    have exponents := (zpow_lt_zpow_iff_right₀ (by norm_num)).1 above
    have place : k =
        (k - decimalPlace count (m * 2 ^ e)).toNat + decimalPlace count (m * 2 ^ e) := by
      unfold decimalPlace
      omega
    refine ⟨n * 10 ^ (k - decimalPlace count (m * 2 ^ e)).toNat, ?_⟩
    push_cast
    rw [mul_assoc, ← zpow_natCast, ← zpow_add₀ (by norm_num), ← place]
    exact same

theorem abs_nearestDecimal_sub_le_abs (some : 0 < m) (g : Nat) :
    |(nearestDecimal count m e).value - m * 2 ^ e| ≤
      |(g : ℚ) * 10 ^ decimalPlace count (m * 2 ^ e) - m * 2 ^ e| := by
  obtain ⟨a, eq, nearest⟩ := exists_nearestDecimal_eq some e count
  rw [eq, Decimal.value_mk, abs_grid_sub, abs_grid_sub]
  exact mul_le_mul_of_nonneg_right (by exact_mod_cast nearest.closest g) (by positivity)

end Grid

section Powers

def scaled (count mantissa : Nat) (exponent : Int) : Nat × Nat :=
  let place := Decimal.lastPlace count (numerator mantissa exponent) (denominator exponent)
  (raise 10 (numerator mantissa exponent) (-place), raise 10 (denominator exponent) place)

def gap (q : Nat × Nat) : Nat := ((q.1 : Int) - roundQuotient q.1 q.2 * q.2).natAbs

/-- Why a count of digits leaves nothing shorter to find: the nearest decimal is nearer than a
quarter of the last binary place, or all others are farther than half of it, or the nearest one is
read as the number. -/
def Settled (count mantissa : Nat) (exponent : Int) : Prop :=
  25 * (mantissa * gap (scaled count mantissa exponent)) ≤ 6 * (scaled count mantissa exponent).1 ∨
    51 * (scaled count mantissa exponent).1 ≤ 100 * (mantissa *
      ((scaled count mantissa exponent).2 - gap (scaled count mantissa exponent))) ∨
    (nearestDecimal count mantissa exponent).toSingle false = .finite false mantissa exponent

instance (count mantissa : Nat) (exponent : Int) : Decidable (Settled count mantissa exponent) :=
  inferInstanceAs (Decidable (_ ∨ _ ∨ _))

variable {m g count : Nat} {e : Int}

theorem scaled_div (some : 0 < m) : ((scaled count m e).1 : ℚ) / (scaled count m e).2 =
    m * 2 ^ e / 10 ^ decimalPlace count (m * 2 ^ e) := by
  rw [scaled, raise_div_raise (by decide), lastPlace_eq_decimalPlace some,
    numerator_div_denominator]
  rfl

theorem scaled_pos (count m : Nat) (e : Int) : 0 < (scaled count m e).2 :=
  raise_pos (by decide) (raise_pos two_pos one_pos _) _

theorem gap_eq {a : Nat} (some : 0 < m)
    (nearest : Nearest (m * 2 ^ e / 10 ^ decimalPlace count (m * 2 ^ e)) a) :
    |(m : ℚ) * 2 ^ e / 10 ^ decimalPlace count (m * 2 ^ e) - a| * (scaled count m e).2 =
      gap (scaled count m e) := by
  have positive := scaled_pos count m e
  rw [← scaled_div some] at nearest ⊢
  generalize scaled count m e = q at nearest positive ⊢
  have scale : (0 : ℚ) < q.2 := by exact_mod_cast positive
  have rounded : roundQuotient q.1 q.2 = a := by
    exact_mod_cast (nearest_roundQuotient q.1 positive).unique nearest
  rw [gap, rounded, Nat.cast_natAbs, ← abs_of_pos scale, ← abs_mul, abs_of_pos scale, sub_mul,
    div_mul_cancel₀ _ scale.ne']
  push_cast
  rfl

theorem scaled_mul (some : 0 < m) (count : Nat) (e : Int) :
    (scaled count m e).1 * 10 ^ decimalPlace count (m * 2 ^ e) =
      2 ^ e * (m * (scaled count m e).2 : ℚ) := by
  have den : ((scaled count m e).2 : ℚ) ≠ 0 := by exact_mod_cast (scaled_pos count m e).ne'
  have place : (10 : ℚ) ^ decimalPlace count (m * 2 ^ e) ≠ 0 := zpow_ne_zero _ (by norm_num)
  rw [(div_eq_div_iff den place).1 (scaled_div some)]
  ring

theorem gap_le (count m : Nat) (e : Int) : gap (scaled count m e) ≤ (scaled count m e).2 := by
  have positive := scaled_pos count m e
  have high := roundQuotient_le (scaled count m e).1 positive
  have low := le_roundQuotient (scaled count m e).1 positive
  unfold gap
  zify
  rw [abs_le]
  omega

section Settled

variable {a : Nat}

-- Lengths are compared on the scale on which the last binary place is a whole number.
theorem near_of_settled (some : 0 < m)
    (nearest : Nearest (m * 2 ^ e / 10 ^ decimalPlace count (m * 2 ^ e)) a)
    (near : 25 * (m * gap (scaled count m e)) ≤ 6 * (scaled count m e).1) :
    |(a : ℚ) * 10 ^ decimalPlace count (m * 2 ^ e) - m * 2 ^ e| ≤ 6 / 25 * 2 ^ e := by
  have den : (0 : ℚ) < (scaled count m e).2 := by exact_mod_cast scaled_pos count m e
  have area : (0 : ℚ) < m * (scaled count m e).2 := by positivity
  have unit := scaled_mul some count e
  have near : (25 : ℚ) * (m * gap (scaled count m e)) ≤ 6 * (scaled count m e).1 := by
    exact_mod_cast near
  rw [← gap_eq some nearest] at near
  have near := mul_le_mul_of_nonneg_right near
    (zpow_nonneg (by norm_num : (0 : ℚ) ≤ 10) (decimalPlace count (m * 2 ^ e)))
  rw [abs_grid_sub]
  apply le_of_mul_le_mul_right _ area
  linarith

theorem far_of_settled (some : 0 < m)
    (nearest : Nearest (m * 2 ^ e / 10 ^ decimalPlace count (m * 2 ^ e)) a) (other : g ≠ a)
    (far : 51 * (scaled count m e).1 ≤
      100 * (m * ((scaled count m e).2 - gap (scaled count m e)))) :
    51 / 100 * 2 ^ e ≤ |(g : ℚ) * 10 ^ decimalPlace count (m * 2 ^ e) - m * 2 ^ e| := by
  have den : (0 : ℚ) < (scaled count m e).2 := by exact_mod_cast scaled_pos count m e
  have area : (0 : ℚ) < m * (scaled count m e).2 := by positivity
  have unit := scaled_mul some count e
  have far : (51 : ℚ) * (scaled count m e).1 ≤
      100 * (m * ((scaled count m e).2 - gap (scaled count m e))) := by
    rw [← Nat.cast_sub (gap_le count m e)]
    exact_mod_cast far
  have apart := one_le_abs_sub_add_abs_sub (m * 2 ^ e / 10 ^ decimalPlace count (m * 2 ^ e))
    (Int.ofNat_inj.not.2 other)
  rw [Int.cast_natCast, Int.cast_natCast] at apart
  rw [← gap_eq some nearest] at far
  rw [abs_grid_sub]
  generalize |(m : ℚ) * 2 ^ e / 10 ^ decimalPlace count (m * 2 ^ e) - a| = least at far apart
  generalize |(m : ℚ) * 2 ^ e / 10 ^ decimalPlace count (m * 2 ^ e) - g| = distance at apart ⊢
  have place : (0 : ℚ) < 10 ^ decimalPlace count (m * 2 ^ e) := by positivity
  have far := mul_le_mul_of_nonneg_right far place.le
  have beyond : 1 - least ≤ distance := by linarith
  have beyond := mul_le_mul_of_nonneg_right beyond (mul_pos place area).le
  apply le_of_mul_le_mul_right _ area
  linarith

theorem reading_of_settled (holds : single.Holds (.finite false m e)) (some : 0 < m)
    (settled : Settled count m e)
    (same : reading (g * 10 ^ decimalPlace count (m * 2 ^ e)) = m * 2 ^ e) :
    reading (nearestDecimal count m e).value = m * 2 ^ e := by
  obtain ⟨a, eq, nearest⟩ := exists_nearestDecimal_eq some e count
  rcases settled with near | far | reads
  · cases holds with
    | finite bound least _ full =>
      rw [eq, Decimal.value_mk]
      exact reading_eq_of_near some bound least full (near_of_settled some nearest near)
  · by_cases chosen : g = a
    · rw [eq, Decimal.value_mk, ← chosen]
      exact same
    · cases holds with
      | finite bound least _ _ =>
        have close := abs_sub_lt_of_reading some bound least (by positivity) same
        exact absurd (far_of_settled some nearest chosen far) (not_le.2 close)
  · exact (Decimal.toSingle_eq_iff holds).1 reads

end Settled

-- One by one, for the powers of two with all their binary places, by their exponents above the least
-- one, and for those with fewer.
theorem settled_powers :
    (∀ k < 254, k ∉ [30, 213, 216] → ∀ n < 8, Settled (n + 1) (2 ^ 23) ((k : Nat) - 149)) ∧
      ∀ j < 23, ∀ n < 8, Settled (n + 1) (2 ^ j) (-149) := by
  decide +kernel

end Powers

section Shortest

variable {negative : Bool} {m n count g : Nat} {e k : Int}

/-- The floats with shorter decimals than the nearest ones. -/
def Shortened (m : Nat) (e : Int) : Prop := m = 2 ^ 23 ∧ e ∈ [-119, 64, 67]

theorem settled_of_power {j : Nat} (holds : single.Holds (.finite negative (2 ^ j) e))
    (plain : ¬Shortened (2 ^ j) e) (digits : 0 < count) (short : count < 9) :
    Settled count (2 ^ j) e := by
  obtain ⟨n, rfl⟩ := Nat.exists_eq_succ_of_ne_zero digits.ne'
  cases holds with
  | finite bound least most full =>
    have places : j < 24 := (Nat.pow_lt_pow_iff_right one_lt_two).1 bound
    by_cases all : j = 23
    · subst all
      obtain ⟨k, rfl⟩ : ∃ k : Nat, e = k - 149 := ⟨(e + 149).toNat, by
        change -149 ≤ e at least
        omega⟩
      refine settled_powers.1 k ?_ ?_ n (by omega)
      · change (k : Int) - 149 ≤ 104 at most
        omega
      · intro mem
        apply plain
        refine ⟨rfl, ?_⟩
        simp only [List.mem_cons, List.not_mem_nil, or_false] at mem ⊢
        omega
    · have least : e = -149 := by
        rcases full with normal | least
        · have := (Nat.pow_le_pow_iff_right one_lt_two).1 normal
          change 23 ≤ j at this
          omega
        · exact least
      subst least
      exact settled_powers.2 j (by omega) n (by omega)

theorem length_shown_nearestDecimal_le (some : 0 < m) (digits : 0 < count) :
    (nearestDecimal count m e).shown.length ≤ count := by
  obtain ⟨a, eq, nearest⟩ := exists_nearestDecimal_eq some e count
  apply Decimal.length_shown_le _ digits
  have place : (0 : ℚ) < 10 ^ decimalPlace count (m * 2 ^ e) := by positivity
  have less : (m : ℚ) * 2 ^ e / 10 ^ decimalPlace count (m * 2 ^ e) ≤
      ((10 ^ count : Nat) : Int) := by
    have above : (m : ℚ) * 2 ^ e < 10 ^ (Int.log 10 ((m : ℚ) * 2 ^ e) + 1) :=
      Int.lt_zpow_succ_log_self (by decide) _
    rw [div_le_iff₀ place]
    push_cast
    rw [← zpow_natCast, ← zpow_add₀ (by norm_num), decimalPlace, add_sub_cancel]
    exact above.le
  rw [eq]
  exact_mod_cast nearest.le less (Nearest.whole _)

theorem reading_nearest_of_reading (holds : single.Holds (.finite negative m e)) (some : 0 < m)
    (plain : ¬Shortened m e) (digits : 0 < count) (short : count < 9)
    (same : reading (g * 10 ^ decimalPlace count (m * 2 ^ e)) = m * 2 ^ e) :
    reading (nearestDecimal count m e).value = m * 2 ^ e := by
  have first := Nat.log2_self_le some.ne'
  have last := Nat.lt_log2_self (n := m)
  generalize m.log2 = j at first last
  rcases first.eq_or_lt with power | between
  · subst power
    have holds' : single.Holds (.finite false (2 ^ j) e) := by
      cases holds with
      | finite bound least most full => exact .finite bound least most full
    exact reading_of_settled holds' some (settled_of_power holds plain digits short) same
  · cases holds with
    | finite bound least _ _ =>
      have places : j < 24 := (Nat.pow_lt_pow_iff_right one_lt_two).1 (between.trans bound)
      exact reading_of_nearer least places between last (Decimal.value_nonneg _) (by positivity)
        (abs_nearestDecimal_sub_le_abs some g) same

theorem singleOfText_ne_of_fewer {text : String} (holds : single.Holds (.finite negative m e))
    (plain : ¬Shortened m e)
    (fewer : (significantDigits text).length <
      (significantDigits (render (.finite negative m e))).length) :
    singleOfText text ≠ .finite negative m e := by
  intro read
  rw [render, Decimal.significantDigits_write] at fewer
  obtain ⟨-, counted, most, before⟩ := renderCount_spec holds
  rcases Nat.eq_zero_or_pos m with rfl | some
  · exact absurd fewer (Nat.not_lt_zero _)
  obtain ⟨n, k, short, same⟩ := exists_significant some read
  have digits : 0 < (significantDigits text).length := by
    by_contra none
    have zero : n = 0 := by
      rw [Nat.eq_zero_of_not_pos none, Nat.pow_zero] at short
      omega
    have positive : (0 : ℚ) < m * 2 ^ e := by positivity
    rw [← same, zero] at positive
    simp [reading] at positive
  have less : (significantDigits text).length < renderCount negative m e :=
    fewer.trans_le ((length_bareDigits_le _).trans (length_shown_nearestDecimal_le some counted))
  -- The nearest decimal with that many digits was tried, and is not read as the float.
  apply before _ digits less
  rw [Decimal.toSingle_eq_iff holds]
  obtain ⟨bound, least⟩ : m < 2 ^ 24 ∧ -149 ≤ e := by
    cases holds with
    | finite bound least _ _ => exact ⟨bound, least⟩
  obtain ⟨g, grid⟩ := exists_grid_of_reading some bound least digits short same
  exact reading_nearest_of_reading holds some plain digits (less.trans_le most) grid

theorem exists_fewer (negative : Bool) (skewed : e ∈ [-119, 64, 67]) :
    ∃ text : String, (significantDigits text).length <
        (significantDigits (render (.finite negative (2 ^ 23) e))).length ∧
      singleOfText text = .finite negative (2 ^ 23) e := by
  simp only [List.mem_cons, List.not_mem_nil, or_false] at skewed
  rcases skewed with rfl | rfl | rfl
  · cases negative
    · exact ⟨"1.2621775E-29", by decide +kernel⟩
    · exact ⟨"-1.2621775E-29", by decide +kernel⟩
  · cases negative
    · exact ⟨"1.5474251E+26", by decide +kernel⟩
    · exact ⟨"-1.5474251E+26", by decide +kernel⟩
  · cases negative
    · exact ⟨"1.2379401E+27", by decide +kernel⟩
    · exact ⟨"-1.2379401E+27", by decide +kernel⟩

end Shortest

end Floating

end Number

/-- No text with fewer significant digits than a float is printed with is read as that float, unless
the float is two to the minus ninety-sixth, to the eighty-seventh or to the ninetieth, or one of
their negatives: for these there is such a text. -/
theorem printed_floats_are_shortest {x : Floating} (holds : Format.single.Holds x)
    (finite : x.isFinite = true) :
    (∀ text : String, (significantDigits text).length < (significantDigits x.render).length →
      singleOfText text ≠ x) ↔
    ∀ negative : Bool, ∀ e ∈ [-119, 64, 67], x ≠ .finite negative (2 ^ 23) e := by
  constructor
  · rintro shortest negative e skewed rfl
    obtain ⟨text, fewer, read⟩ := Floating.exists_fewer negative skewed
    exact shortest text fewer read
  · intro plain text fewer
    cases x with
    | nan | infinite => cases finite
    | finite negative m e =>
      refine Floating.singleOfText_ne_of_fewer holds ?_ fewer
      rintro ⟨rfl, skewed⟩
      exact plain negative e skewed rfl

theorem printed_floats_are_shortest_normal :
    Format.single.Holds (.finite false (2 ^ 23) (-149)) ∧
    (Floating.finite false (2 ^ 23) (-149)).isFinite = true ∧
    ∀ text : String, (significantDigits text).length <
        (significantDigits (Floating.render (.finite false (2 ^ 23) (-149)))).length →
      singleOfText text ≠ .finite false (2 ^ 23) (-149) :=
  have holds : Format.single.Holds (.finite false (2 ^ 23) (-149)) :=
    .finite (by decide) (by decide) (by decide) (.inl (by decide))
  ⟨holds, rfl, (printed_floats_are_shortest holds rfl).2 (by decide)⟩

-- Two to the eighty-seventh takes one digit less than it is printed with.
theorem power_printed_with_nine_digits :
    Floating.render (.finite false (2 ^ 23) 64) = "1.54742505E+26" ∧
      singleOfText "1.5474251E+26" = .finite false (2 ^ 23) 64 ∧
      (significantDigits "1.5474251E+26").length < (significantDigits "1.54742505E+26").length := by
  decide +kernel

end PlZero
