import PlZero.Proofs.ExactOrder
import PlZero.Proofs.FittingValues
import PlZero.Proofs.RationalRounding
import PlZero.Value.Operations

set_option autoImplicit false

namespace PlZero

namespace Number

namespace Format

open Floating

variable {f : Format} {negative : Bool} {x : Floating} {q v : ℚ}

theorem round_not (negative : Bool) (num den : Nat) :
    f.round (!negative) num den = (f.round negative num den).neg := by
  unfold round
  dsimp only
  split
  · rfl
  unfold pack
  split <;> split <;> rfl

theorem Packed.exact_le (packed : f.Packed false q x) (less : q ≤ v) (below : v < f.limit) :
    x.exact ≤ (v : ℝ) := by
  cases packed with
  | infinite above => exact absurd (above.trans less) (not_le.2 below)
  | finite _ value =>
    rw [exact, value_false, value]
    exact_mod_cast less

theorem Packed.le_exact (packed : f.Packed false q x) (less : v ≤ q) : (v : ℝ) ≤ x.exact := by
  cases packed with
  | infinite => exact le_top
  | finite _ value =>
    rw [exact, value_false, value]
    exact_mod_cast less

theorem packed_ofInt (sound : f.Sound) (a : Int) :
    f.Packed (decide (a < 0)) (f.rounded |(a : ℚ)|) (f.ofInt a) := by
  have packed := packed_round sound (decide (a < 0)) a.natAbs one_pos
  rwa [Nat.cast_one, div_one, Nat.cast_natAbs, Int.cast_abs] at packed

theorem ofInt_ne_nan (sound : f.Sound) (a : Int) : f.ofInt a ≠ .nan := by
  intro none
  have packed := packed_ofInt sound a
  rw [none] at packed
  cases packed

theorem exact_ofInt_neg (f : Format) (a : Int) : (f.ofInt (-a)).exact = -(f.ofInt a).exact := by
  by_cases zero : a = 0
  · simp [zero, ofInt, round, Format.zero, exact, value, Floating.signed]
  · have sign : decide (-a < 0) = !decide (a < 0) := by
      by_cases negative : a < 0 <;> simp [negative] <;> omega
    rw [ofInt, sign, Int.natAbs_neg, round_not, exact_neg, ofInt]

theorem Holds.neg (holds : f.Holds x) : f.Holds x.neg := by
  cases holds with
  | nan => exact .nan
  | infinite => exact .infinite
  | finite bound least most full => exact .finite bound least most full

section Integers

variable {a : Int}

theorem exact_ofInt_le_of_nonneg (sound : f.Sound) (holds : f.Holds x) (number : x ≠ .nan)
    (low : 0 ≤ a) (less : ((a : ℝ) : EReal) ≤ x.exact) : (f.ofInt a).exact ≤ x.exact := by
  have packed := packed_ofInt sound a
  rw [decide_eq_false (not_lt.2 low), abs_of_nonneg (by exact_mod_cast low)] at packed
  cases x with
  | nan => exact absurd rfl number
  | infinite negative =>
    cases negative with
    | false => exact le_top
    | true => exact absurd less (by simp [exact])
  | finite negative m e =>
    have less : (a : ℚ) ≤ value negative m e := by
      rw [exact] at less
      exact_mod_cast less
    have some : (0 : ℚ) ≤ value negative m e := le_trans (by exact_mod_cast low) less
    have size : value negative m e = m * 2 ^ e := by rw [← abs_value negative, abs_of_nonneg some]
    have kept := holds.rounded_eq sound
    rw [← size] at kept
    refine packed.exact_le ?_ (size ▸ holds.lt_limit)
    rw [← kept]
    exact rounded_mono sound (by exact_mod_cast low) less

theorem le_exact_ofInt_of_nonneg (sound : f.Sound) (holds : f.Holds x) (number : x ≠ .nan)
    (low : 0 ≤ a) (less : x.exact ≤ ((a : ℝ) : EReal)) : x.exact ≤ (f.ofInt a).exact := by
  have packed := packed_ofInt sound a
  rw [decide_eq_false (not_lt.2 low), abs_of_nonneg (by exact_mod_cast low)] at packed
  cases x with
  | nan => exact absurd rfl number
  | infinite negative =>
    cases negative with
    | false => exact absurd less (by simp [exact])
    | true => exact bot_le
  | finite negative m e =>
    have less : value negative m e ≤ a := by
      rw [exact] at less
      exact_mod_cast less
    apply packed.le_exact
    rcases le_total (value negative m e) 0 with below | some
    · exact below.trans (rounded_nonneg f _)
    · have size : value negative m e = m * 2 ^ e := by
        rw [← abs_value negative, abs_of_nonneg some]
      have kept := holds.rounded_eq sound
      rw [← size] at kept
      rw [← kept]
      exact rounded_mono sound some less

theorem exact_ofInt_le (sound : f.Sound) (holds : f.Holds x) (number : x ≠ .nan)
    (less : ((a : ℝ) : EReal) ≤ x.exact) : (f.ofInt a).exact ≤ x.exact := by
  rcases le_total 0 a with low | low
  · exact exact_ofInt_le_of_nonneg sound holds number low less
  · have turned := le_exact_ofInt_of_nonneg sound holds.neg (neg_ne_nan number) (neg_nonneg.2 low)
      (by simpa using less)
    rwa [exact_neg, exact_ofInt_neg, EReal.neg_le_neg_iff] at turned

theorem le_exact_ofInt (sound : f.Sound) (holds : f.Holds x) (number : x ≠ .nan)
    (less : x.exact ≤ ((a : ℝ) : EReal)) : x.exact ≤ (f.ofInt a).exact := by
  rcases le_total 0 a with low | low
  · exact le_exact_ofInt_of_nonneg sound holds number low less
  · have turned := exact_ofInt_le_of_nonneg sound holds.neg (neg_ne_nan number) (neg_nonneg.2 low)
      (by simpa using less)
    rwa [exact_neg, exact_ofInt_neg, EReal.neg_le_neg_iff] at turned

theorem exact_ofInt_eq (sound : f.Sound) (least : f.minExponent ≤ 0) (most : 0 < f.maxExponent)
    (small : |a| ≤ 2 ^ f.precision) : (f.ofInt a).exact = ((a : ℝ) : EReal) := by
  have kept (b : Int) (low : 0 ≤ b) (small : b ≤ 2 ^ f.precision) :
      (f.ofInt b).exact = ((b : ℝ) : EReal) := by
    have packed := packed_ofInt sound b
    have places : b.toNat ≤ 2 ^ f.precision := Int.toNat_le.2 (by exact_mod_cast small)
    have grid := rounded_of_grid sound places least
    have whole : ((b.toNat : Nat) : ℚ) * 2 ^ (0 : Int) = b := by
      rw [zpow_zero, mul_one]
      exact_mod_cast Int.toNat_of_nonneg low
    rw [whole] at grid
    rw [decide_eq_false (not_lt.2 low), abs_of_nonneg (by exact_mod_cast low), grid] at packed
    have below : (b : ℚ) < f.limit := by
      calc (b : ℚ)
          ≤ 2 ^ (f.precision : Int) := by exact_mod_cast small
        _ < f.limit := zpow_lt_zpow_right₀ one_lt_two (by omega)
    exact_mod_cast le_antisymm (packed.exact_le le_rfl below) (packed.le_exact le_rfl)
  rcases le_total 0 a with low | low
  · exact kept a low (abs_of_nonneg low ▸ small)
  · have turned := kept (-a) (neg_nonneg.2 low) (abs_of_nonpos low ▸ small)
    rw [exact_ofInt_neg] at turned
    have := congrArg Neg.neg turned
    simpa using this

end Integers

end Format

end Number

open Number

namespace Comparison

def Relates : Comparison → EReal → EReal → Prop
  | equal, x, y => x = y
  | unequal, x, y => x ≠ y
  | less, x, y => x < y
  | greater, x, y => y < x
  | lessEqual, x, y => x ≤ y
  | greaterEqual, x, y => y ≤ x
  | other _, _, _ => False

theorem holds_order {operator : Comparison} (known : operator.kind ≠ .invalid) {x y : Floating}
    (number : x ≠ .nan) (number' : y ≠ .nan) :
    ∃ b, operator.holds (x.order y) = .ok b ∧ (b = true ↔ operator.Relates x.exact y.exact) := by
  rw [Floating.order_eq number number']
  rcases lt_trichotomy x.exact y.exact with less | same | greater
  · rw [if_pos less]
    cases operator with
    | other => exact absurd rfl known
    | _ => exact ⟨_, rfl, by simp [Relates, less, less.le, less.ne, less.not_gt, less.not_ge]⟩
  · rw [if_neg same.not_lt, if_pos same]
    cases operator with
    | other => exact absurd rfl known
    | _ => exact ⟨_, rfl, by simp [Relates, same]⟩
  · rw [if_neg greater.not_gt, if_neg greater.ne']
    cases operator with
    | other => exact absurd rfl known
    | _ =>
      exact ⟨_, rfl, by simp [Relates, greater, greater.le, greater.ne', greater.not_gt,
        greater.not_ge]⟩

theorem holds_of_relates {operator : Comparison} (known : operator.kind ≠ .invalid) {x y : Floating}
    (number : x ≠ .nan) (number' : y ≠ .nan) (true_of : operator.Relates x.exact y.exact) :
    operator.holds (x.order y) = .ok true := by
  obtain ⟨b, holds, iff⟩ := holds_order known number number'
  rw [holds, iff.2 true_of]

theorem holds_of_not_relates {operator : Comparison} (known : operator.kind ≠ .invalid)
    {x y : Floating} (number : x ≠ .nan) (number' : y ≠ .nan)
    (not : ¬ operator.Relates x.exact y.exact) : operator.holds (x.order y) = .ok false := by
  obtain ⟨b, holds, iff⟩ := holds_order known number number'
  rw [holds, Bool.eq_false_iff.2 (mt iff.1 not)]

section Mixed

variable {x : Floating}

theorem apply_integer_float (operator : Comparison) (a : Int) (fits : (Value.float x).Fits) :
    operator.apply (.integer a) (.float x) = operator.holds ((Format.single.ofInt a).order x) := by
  change operator.holds ((Format.single.ofInt a).order (Format.single.fit x)) = _
  rw [fits]

theorem apply_float_integer (operator : Comparison) (a : Int) (fits : (Value.float x).Fits) :
    operator.apply (.float x) (.integer a) = operator.holds (x.order (Format.single.ofInt a)) := by
  change operator.holds ((Format.single.fit x).order (Format.single.ofInt a)) = _
  rw [fits]

end Mixed

end Comparison

open Comparison

/-- A comparison of an integer with a float never says the reverse of what is true of the exact
numbers, and integers of up to twenty-four places are compared exactly. -/
theorem mixed_comparisons_keep_order (a : Int) {x : Floating} (fits : (Value.float x).Fits)
    (number : x ≠ .nan) :
    (((a : ℝ) : EReal) < x.exact →
      Comparison.apply .lessEqual (.integer a) (.float x) = .ok true ∧
      Comparison.apply .greater (.integer a) (.float x) = .ok false ∧
      Comparison.apply .greaterEqual (.float x) (.integer a) = .ok true ∧
      Comparison.apply .less (.float x) (.integer a) = .ok false) ∧
    (x.exact < ((a : ℝ) : EReal) →
      Comparison.apply .greaterEqual (.integer a) (.float x) = .ok true ∧
      Comparison.apply .less (.integer a) (.float x) = .ok false ∧
      Comparison.apply .lessEqual (.float x) (.integer a) = .ok true ∧
      Comparison.apply .greater (.float x) (.integer a) = .ok false) ∧
    (((a : ℝ) : EReal) = x.exact →
      Comparison.apply .equal (.integer a) (.float x) = .ok true ∧
      Comparison.apply .equal (.float x) (.integer a) = .ok true) ∧
    (|a| ≤ 2 ^ 24 → ∀ operator : Comparison, operator.kind ≠ .invalid →
      (∃ b, operator.apply (.integer a) (.float x) = .ok b ∧
        (b = true ↔ operator.Relates ((a : ℝ) : EReal) x.exact)) ∧
      ∃ b, operator.apply (.float x) (.integer a) = .ok b ∧
        (b = true ↔ operator.Relates x.exact ((a : ℝ) : EReal))) := by
  have holds : Format.single.Holds x := by
    have := Format.holds_fit Format.sound_single x
    rwa [fits] at this
  have number' := Format.ofInt_ne_nan Format.sound_single a
  have above := Format.exact_ofInt_le (a := a) Format.sound_single holds number
  have below := Format.le_exact_ofInt (a := a) Format.sound_single holds number
  have kept := Format.exact_ofInt_eq (a := a) Format.sound_single (by decide) (by decide)
  simp only [Comparison.apply_integer_float _ a fits, Comparison.apply_float_integer _ a fits]
  refine ⟨fun less => ?_, fun greater => ?_, fun same => ?_, fun small operator known => ?_⟩
  · have less := above less.le
    exact ⟨holds_of_relates (by decide) number' number less,
      holds_of_not_relates (by decide) number' number (not_lt.2 less),
      holds_of_relates (by decide) number number' less,
      holds_of_not_relates (by decide) number number' (not_lt.2 less)⟩
  · have greater := below greater.le
    exact ⟨holds_of_relates (by decide) number' number greater,
      holds_of_not_relates (by decide) number' number (not_lt.2 greater),
      holds_of_relates (by decide) number number' greater,
      holds_of_not_relates (by decide) number number' (not_lt.2 greater)⟩
  · have same := le_antisymm (above same.le) (below same.ge)
    exact ⟨holds_of_relates (by decide) number' number same,
      holds_of_relates (by decide) number number' same.symm⟩
  · rw [← kept small]
    exact ⟨holds_order known number' number, holds_order known number number'⟩

-- The least integer that no single holds, beside the single that it is rounded to.
theorem mixed_comparisons_keep_order_rounded :
    let x : Floating := .finite false 8388608 1
    x.exact < (((16777217 : Int) : ℝ) : EReal) ∧
      Comparison.apply .equal (.integer 16777217) (.float x) = .ok true ∧
      Comparison.apply .greaterEqual (.integer 16777217) (.float x) = .ok true ∧
      Comparison.apply .less (.integer 16777217) (.float x) = .ok false := by
  intro x
  have fits : (Value.float x).Fits := by
    change Format.single.fit x = x
    decide +kernel
  have less : x.exact < (((16777217 : Int) : ℝ) : EReal) := by
    simp only [x, Floating.exact, Floating.value_false]
    norm_cast
  have number : Floating.finite false 8388608 1 ≠ .nan := by decide
  have greater := (mixed_comparisons_keep_order 16777217 fits number).2.1 less
  exact ⟨less, by decide +kernel, greater.1, greater.2.1⟩

end PlZero
