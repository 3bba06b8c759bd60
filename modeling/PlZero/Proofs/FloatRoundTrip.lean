import PlZero.Proofs.ExactOrder
import PlZero.Proofs.FittingValues
import PlZero.Proofs.WrittenDecimals

set_option autoImplicit false

namespace PlZero

open Number

namespace Number

namespace Floating

open Format

variable {negative : Bool} {mantissa : Nat} {exponent : Int}

theorem abs_nearestDecimal_sub_le (some : 0 < mantissa) (count : Nat) :
    |(nearestDecimal count mantissa exponent).value - mantissa * 2 ^ exponent| ≤
      10 ^ decimalPlace count (mantissa * 2 ^ exponent) / 2 := by
  obtain ⟨n, eq, nearest⟩ := exists_nearestDecimal_eq some exponent count
  have scale : (0 : ℚ) < 10 ^ decimalPlace count (mantissa * 2 ^ exponent) := by positivity
  have within := mul_le_mul_of_nonneg_right nearest.within scale.le
  rw [eq, Decimal.value_mk, abs_grid_sub]
  rw [Int.cast_natCast] at within
  linarith

theorem toSingle_nearestDecimal_renderDigits
    (holds : single.Holds (.finite negative mantissa exponent)) :
    (nearestDecimal renderDigits mantissa exponent).toSingle negative =
      .finite negative mantissa exponent := by
  rw [Decimal.toSingle_eq_iff holds]
  rcases Nat.eq_zero_or_pos mantissa with rfl | some
  · simp [nearestDecimal, Decimal.value, reading]
  cases holds with
  | finite bound least _ full =>
    apply reading_eq_of_near some bound least full
    refine (abs_nearestDecimal_sub_le some renderDigits).trans ?_
    have positive : (0 : ℚ) < mantissa * 2 ^ exponent := by positivity
    have unit : (0 : ℚ) < 2 ^ exponent := zpow_pos two_pos exponent
    have last := value_add_unit_le (e := exponent) bound
    have first : (10 : ℚ) ^ Int.log 10 ((mantissa : ℚ) * 2 ^ exponent) ≤ mantissa * 2 ^ exponent :=
      Int.zpow_log_le_self (by decide) positive
    have place : (10 : ℚ) ^ decimalPlace renderDigits (mantissa * 2 ^ exponent) =
        10 ^ Int.log 10 ((mantissa : ℚ) * 2 ^ exponent) / 10 ^ 8 := by
      rw [decimalPlace, show (renderDigits : Int) = 9 from rfl, add_sub_assoc,
        zpow_add₀ (by norm_num)]
      norm_num
      ring
    rw [place]
    linarith

theorem equals_toSingle_iff {d : Decimal}
    (holds : single.Holds (.finite negative mantissa exponent)) :
    (d.toSingle negative).equals (.finite negative mantissa exponent) = true ↔
      d.toSingle negative = .finite negative mantissa exponent := by
  have packed := d.packed_toSingle negative
  have held := d.holds_toSingle negative
  generalize d.toSingle negative = x at packed held ⊢
  cases packed with
  | infinite => cases negative <;> simp [equals, order]
  | @finite m e =>
    rw [equals_iff Floating.noConfusion Floating.noConfusion]
    constructor
    · intro same
      have same : value negative m e = value negative mantissa exponent := by
        simpa [exact] using same
      have size := congrArg abs same
      rw [abs_value, abs_value] at size
      obtain ⟨rfl, rfl⟩ := held.eq_of_value sound_single holds size
      rfl
    · exact congrArg exact

theorem find?_counts {p : Nat → Bool} {bound : Nat} (some : 0 < bound) (last : p bound = true) :
    ∃ n, (counts bound).find? p = Option.some n ∧ p n = true ∧ 0 < n ∧ n ≤ bound ∧
      ∀ k, 0 < k → k < n → p k = false := by
  obtain ⟨n, found⟩ : ∃ n, (List.range bound).find? (p ∘ (· + 1)) = Option.some n := by
    rw [← Option.isSome_iff_exists, List.find?_isSome]
    exact ⟨bound - 1, List.mem_range.2 (by omega), by simpa [Nat.sub_add_cancel some] using last⟩
  obtain ⟨holds, mem, before⟩ := List.find?_range_eq_some.1 found
  refine ⟨n + 1, ?_, holds, by omega, List.mem_range.1 mem, ?_⟩
  · rw [counts, List.find?_map, found]
    rfl
  · intro k positive less
    have earlier := before (k - 1) (by omega)
    simpa [Nat.sub_add_cancel positive] using earlier

theorem renderCount_spec (holds : single.Holds (.finite negative mantissa exponent)) :
    (nearestDecimal (renderCount negative mantissa exponent) mantissa exponent).toSingle negative =
        .finite negative mantissa exponent ∧
      0 < renderCount negative mantissa exponent ∧
      renderCount negative mantissa exponent ≤ renderDigits ∧
      ∀ n, 0 < n → n < renderCount negative mantissa exponent →
        (nearestDecimal n mantissa exponent).toSingle negative ≠
          .finite negative mantissa exponent := by
  have last := (equals_toSingle_iff holds).2 (toSingle_nearestDecimal_renderDigits holds)
  obtain ⟨n, found, reads, positive, most, before⟩ := find?_counts
    (p := fun count => ((nearestDecimal count mantissa exponent).toSingle negative).equals
      (.finite negative mantissa exponent)) (by decide) last
  have count : renderCount negative mantissa exponent = n := by rw [renderCount, found]; rfl
  rw [count]
  refine ⟨(equals_toSingle_iff holds).1 reads, positive, most, fun k some less same => ?_⟩
  have differs := before k some less
  rw [(equals_toSingle_iff holds).2 same] at differs
  cases differs

theorem singleOfText_render {x : Floating} (holds : single.Holds x) (finite : x.isFinite = true) :
    singleOfText x.render = x := by
  cases x with
  | nan | infinite => cases finite
  | finite negative mantissa exponent =>
    rw [render, Decimal.singleOfText_write]
    exact (renderCount_spec holds).1

end Floating

namespace Format

variable {f : Format}

theorem normalMantissa_pos (f : Format) : 0 < f.normalMantissa := Nat.pow_pos two_pos

theorem holds_decode (sound : f.Sound) (bits : Nat) : f.Holds (f.decode bits) := by
  have fraction := Nat.mod_lt bits f.normalMantissa_pos
  have small : bits / f.normalMantissa % Nat.pow 2 f.exponentBits < Nat.pow 2 f.exponentBits :=
    Nat.mod_lt _ (Nat.pow_pos two_pos)
  unfold decode
  dsimp only
  generalize bits / f.normalMantissa % Nat.pow 2 f.exponentBits = biased at small ⊢
  split
  · split
    · exact .infinite
    · exact .nan
  split
  · exact .finite (fraction.trans (normalMantissa_lt sound)) le_rfl sound.minExponent_le (.inr rfl)
  · next special some =>
    have double : f.mantissaBound = 2 * f.normalMantissa := by
      have places := sound.precision_pos
      rw [mantissaBound, normalMantissa, Nat.pow_eq, Nat.pow_eq, ← Nat.pow_succ']
      congr 1
      omega
    have range : (biased : Int) ≤ 2 * f.bias := by
      have exponents := sound.minExponent_le
      have halves : Nat.pow 2 f.exponentBits ≤ 2 * Nat.pow 2 (f.exponentBits - 1) := by
        rw [Nat.pow_eq, Nat.pow_eq, ← Nat.pow_succ']
        exact Nat.pow_le_pow_right two_pos (by omega)
      unfold minExponent maxExponent bias at exponents
      unfold bias
      omega
    refine .finite (by omega) (by omega) ?_ (.inl (by omega))
    unfold minExponent maxExponent
    omega

theorem encode_decode {bits : Nat}
    (bound : bits < 2 * Nat.pow 2 f.exponentBits * f.normalMantissa)
    (finite : (f.decode bits).isFinite = true) : f.encode (f.decode bits) = bits := by
  have fraction := Nat.mod_lt bits f.normalMantissa_pos
  have whole := Nat.div_add_mod' bits f.normalMantissa
  have upper := Nat.div_add_mod' (bits / f.normalMantissa) (Nat.pow 2 f.exponentBits)
  have sign : f.signBit (bits / f.normalMantissa / Nat.pow 2 f.exponentBits % 2 == 1) =
      bits / f.normalMantissa / Nat.pow 2 f.exponentBits * Nat.pow 2 f.exponentBits := by
    have scale : 0 < Nat.pow 2 f.exponentBits := Nat.pow_pos two_pos
    have bit : bits / f.normalMantissa / Nat.pow 2 f.exponentBits < 2 := by
      rw [Nat.div_lt_iff_lt_mul scale, Nat.div_lt_iff_lt_mul f.normalMantissa_pos]
      exact bound
    generalize bits / f.normalMantissa / Nat.pow 2 f.exponentBits = sign at bit ⊢
    interval_cases sign <;> simp [signBit]
  unfold decode at finite ⊢
  dsimp only at finite ⊢
  split at finite
  · split at finite <;> cases finite
  next special =>
  rw [if_neg special]
  split
  · next least =>
    rw [least, Nat.add_zero] at upper
    rw [encode, if_pos fraction, sign, upper, whole]
  · next some =>
    have exponent : (f.minExponent +
        (bits / f.normalMantissa % Nat.pow 2 f.exponentBits : Nat) - 1 - f.minExponent + 1).toNat =
        bits / f.normalMantissa % Nat.pow 2 f.exponentBits := by omega
    rw [encode, if_neg (by omega), sign, exponent, upper, Nat.add_sub_cancel_left, whole]

end Format

end Number

/-- A finite single is printed as a text that is read as the same single, in the same bits. So a
finite float that is cast to a string and back is the same float. -/
theorem printed_floats_read_back :
    (∀ bits < 2 ^ 32, (Format.single.decode bits).isFinite = true →
      singleOfText (Format.single.decode bits).render = Format.single.decode bits ∧
        Format.single.encode (singleOfText (Format.single.decode bits).render) = bits) ∧
    ∀ x : Floating, (Value.float x).Fits → x.isFinite = true →
      (Value.cast .string (.float x) >>= Value.cast .float) = .ok (.float x) := by
  constructor
  · intro bits bound finite
    have same := Floating.singleOfText_render (Format.holds_decode Format.sound_single bits) finite
    rw [same]
    exact ⟨rfl, Format.encode_decode bound finite⟩
  · intro x fits finite
    have holds : Format.single.Holds x := fits ▸ Format.holds_fit Format.sound_single x
    have same := Floating.singleOfText_render holds finite
    have text : Value.cast .string (.float x) = .ok (.text x.render) := rfl
    have back : Value.cast .float (.text x.render) = .ok (.ofFloating x) := by
      rw [Value.cast, same]
    rw [text]
    change Value.cast .float (.text x.render) = _
    rw [back, Value.ofFloating, fits]

-- Zero with the sign of the negatives, by its bits, and the least float.
theorem printed_floats_read_back_extremes :
    (2 ^ 31 < 2 ^ 32 ∧ (Format.single.decode (2 ^ 31)).isFinite = true ∧
      singleOfText (Format.single.decode (2 ^ 31)).render = Format.single.decode (2 ^ 31) ∧
      Format.single.encode (singleOfText (Format.single.decode (2 ^ 31)).render) = 2 ^ 31) ∧
    (Value.float (.finite false 1 (-149))).Fits ∧
      (Value.cast .string (.float (.finite false 1 (-149))) >>= Value.cast .float) =
        .ok (.float (.finite false 1 (-149))) :=
  have fits : (Value.float (.finite false 1 (-149))).Fits := by
    unfold Value.Fits
    decide +kernel
  ⟨⟨by decide, by decide +kernel, printed_floats_read_back.1 _ (by decide) (by decide +kernel)⟩,
    fits, printed_floats_read_back.2 _ fits rfl⟩

end PlZero
