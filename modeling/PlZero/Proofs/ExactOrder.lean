import Mathlib.Data.EReal.Operations
import PlZero.Proofs.HeldNumbers

set_option autoImplicit false

namespace PlZero.Number

namespace Floating

def value (negative : Bool) (mantissa : Nat) (exponent : Int) : ℚ :=
  signed negative mantissa * 2 ^ exponent

/-- The exact number, or infinity. What is no number counts as zero. -/
noncomputable def exact : Floating → EReal
  | nan => 0
  | infinite negative => if negative then ⊥ else ⊤
  | finite negative mantissa exponent => (value negative mantissa exponent : ℝ)

variable {x y : Floating}

theorem value_false (m : Nat) (e : Int) : value false m e = m * 2 ^ e := by
  simp [value, signed]

theorem abs_value (negative : Bool) (m : Nat) (e : Int) : |value negative m e| = m * 2 ^ e := by
  have size : (0 : ℚ) ≤ m * 2 ^ e := by positivity
  cases negative with
  | false => rw [value_false, abs_of_nonneg size]
  | true =>
    have : value true m e = -(m * 2 ^ e) := by simp [value, signed]
    rw [this, abs_neg, abs_of_nonneg size]

@[simp] theorem value_neg (negative : Bool) (m : Nat) (e : Int) :
    value (!negative) m e = -value negative m e := by
  cases negative <;> simp [value, signed]

theorem neg_ne_nan (number : x ≠ nan) : x.neg ≠ nan := by
  cases x with
  | nan => exact number
  | infinite | finite => exact nofun

@[simp] theorem exact_neg (x : Floating) : x.neg.exact = -x.exact := by
  cases x with
  | nan => simp [neg, exact]
  | infinite negative => cases negative <;> simp [neg, exact]
  | finite => simp [neg, exact]

-- Two finite numbers are compared as multiples of the lesser power.
theorem value_eq_raise (negative : Bool) (m : Nat) (e d : Int) :
    value negative m e = signed negative (raise 2 m (e - d)) * 2 ^ min e d := by
  have exponents : e = (e - d).toNat + min e d := by omega
  have power : (2 : ℚ) ^ e = 2 ^ (e - d).toNat * 2 ^ min e d := by
    rw [← zpow_natCast, ← zpow_add₀ two_ne_zero, ← exponents]
  have scaled : (signed negative (raise 2 m (e - d)) : ℚ) =
      signed negative m * 2 ^ (e - d).toNat := by
    cases negative <;> simp [signed, raise]
  rw [value, power, scaled, mul_assoc]

theorem order_eq (number : x ≠ nan) (number' : y ≠ nan) :
    x.order y =
      some (if x.exact < y.exact then .lt else if x.exact = y.exact then .eq else .gt) := by
  cases x with
  | nan => exact absurd rfl number
  | infinite s =>
    cases y with
    | nan => exact absurd rfl number'
    | infinite t => cases s <;> cases t <;> simp [order, exact]
    | finite t n d => cases s <;> simp [order, exact]
  | finite s m e =>
    cases y with
    | nan => exact absurd rfl number'
    | infinite t => cases t <;> simp [order, exact]
    | finite t n d =>
      have scale : (0 : ℚ) < 2 ^ min e d := zpow_pos two_pos _
      have left := value_eq_raise s m e d
      have right := value_eq_raise t n d e
      rw [min_comm] at right
      simp only [order, exact, EReal.coe_lt_coe_iff, EReal.coe_eq_coe_iff, Rat.cast_lt,
        Rat.cast_inj, left, right, mul_lt_mul_iff_left₀ scale, mul_left_inj' scale.ne',
        Int.cast_lt, Int.cast_inj]

theorem equals_iff (number : x ≠ nan) (number' : y ≠ nan) :
    x.equals y = true ↔ x.exact = y.exact := by
  rw [equals, order_eq number number', beq_iff_eq, Option.some_inj]
  split
  · next less => exact ⟨nofun, fun same => absurd same less.ne⟩
  · split
    · next same => exact ⟨fun _ => same, fun _ => rfl⟩
    · next apart => exact ⟨nofun, fun same => absurd same apart⟩

end Floating

end PlZero.Number
