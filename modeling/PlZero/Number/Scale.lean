set_option autoImplicit false

/-!
Quotients of natural numbers on a scale of powers: their magnitude, and their nearest whole number.
A quotient `num / den` divided by `base ^ e` is `raise base num (-e) / raise base den e`, whatever
the sign of `e`. The nearest whole number is within half a unit, and the magnitude is the exponent
of the last power that is not above the quotient.
-/

namespace PlZero.Number

/-- `n` times a power of the base; a negative exponent leaves `n` as it is. -/
def raise (base n : Nat) (e : Int) : Nat := n * Nat.pow base e.toNat

theorem raise_pos {base n : Nat} (hb : 0 < base) (hn : 0 < n) (e : Int) : 0 < raise base n e :=
  Nat.mul_pos hn (Nat.pow_pos hb)

/-- The nearest whole number to `num / den`, of two the even one. -/
def roundQuotient (num den : Nat) : Nat :=
  let low := num / den
  let twice := 2 * (num % den)
  if twice < den then low
  else if den < twice then low + 1
  else if low % 2 = 0 then low else low + 1

theorem roundQuotient_le (num : Nat) {den : Nat} (h : 0 < den) :
    2 * (roundQuotient num den * den) ≤ 2 * num + den := by
  have whole := Nat.div_add_mod' num den
  have small := Nat.mod_lt num h
  simp only [roundQuotient]
  split
  · omega
  split
  · rw [Nat.add_mul]; omega
  split
  · omega
  · rw [Nat.add_mul]; omega

theorem le_roundQuotient (num : Nat) {den : Nat} (h : 0 < den) :
    2 * num ≤ 2 * (roundQuotient num den * den) + den := by
  have whole := Nat.div_add_mod' num den
  have small := Nat.mod_lt num h
  simp only [roundQuotient]
  split
  · omega
  split
  · rw [Nat.add_mul]; omega
  split
  · omega
  · rw [Nat.add_mul]; omega

/-- The exponent `e` with `base ^ e ≤ num / den < base ^ (e + 1)`: the numbers of digits leave two
candidates. -/
def floorLog (base num den : Nat) : Int :=
  let high := ((Nat.toDigits base num).length : Int) - (Nat.toDigits base den).length
  if raise base den high ≤ raise base num (-high) then high else high - 1

theorem lt_pow_digits {base : Nat} (hb : 1 < base) (n : Nat) :
    n < Nat.pow base (Nat.toDigits base n).length :=
  (Nat.length_toDigits_le_iff hb Nat.length_toDigits_pos).1 (Nat.le_refl _)

theorem pow_digits_le {base n : Nat} (hb : 1 < base) (hn : 0 < n) :
    Nat.pow base ((Nat.toDigits base n).length - 1) ≤ n := by
  by_cases one : (Nat.toDigits base n).length = 1
  · rw [one]
    exact hn
  · have pos : 0 < (Nat.toDigits base n).length := Nat.length_toDigits_pos
    apply Nat.le_of_not_lt
    intro lt
    have short := (Nat.length_toDigits_le_iff hb (by omega)).2 lt
    omega

theorem raise_lt_raise {base a b i j : Nat} {e : Int} (hb : 1 < base) (ha : a < Nat.pow base i)
    (hj : Nat.pow base j ≤ b) (he : (i : Int) ≤ j + e) : raise base a (-e) < raise base b e := by
  have pos : 0 < base := by omega
  calc raise base a (-e)
      < Nat.pow base i * Nat.pow base (-e).toNat :=
        Nat.mul_lt_mul_of_pos_right ha (Nat.pow_pos pos)
    _ = Nat.pow base (i + (-e).toNat) := (Nat.pow_add ..).symm
    _ ≤ Nat.pow base (j + e.toNat) := Nat.pow_le_pow_right pos (by omega)
    _ = Nat.pow base j * Nat.pow base e.toNat := Nat.pow_add ..
    _ ≤ raise base b e := Nat.mul_le_mul_right _ hj

theorem raise_floorLog_le {base num : Nat} (hb : 1 < base) (hn : 0 < num) (den : Nat) :
    raise base den (floorLog base num den) ≤ raise base num (-floorLog base num den) := by
  unfold floorLog
  dsimp only
  split
  · assumption
  · have digits : 0 < (Nat.toDigits base num).length := Nat.length_toDigits_pos
    have below := raise_lt_raise hb (lt_pow_digits hb den) (pow_digits_le hb hn)
      (e := -((Nat.toDigits base num).length - (Nat.toDigits base den).length - 1)) (by omega)
    rw [Int.neg_neg] at below
    exact Nat.le_of_lt below

theorem raise_lt_floorLog {base den : Nat} (hb : 1 < base) (num : Nat) (hd : 0 < den) :
    raise base num (-(floorLog base num den + 1)) <
      raise base den (floorLog base num den + 1) := by
  unfold floorLog
  dsimp only
  split
  · have digits : 0 < (Nat.toDigits base den).length := Nat.length_toDigits_pos
    exact raise_lt_raise hb (lt_pow_digits hb num) (pow_digits_le hb hd) (by omega)
  · next above => simpa using above

end PlZero.Number
