import PlZero.Proofs.WrittenDecimals

set_option autoImplicit false

namespace PlZero.Number

def bareDigits (digits : List Char) : List Char := stripZeros (digits.dropWhile (· == '0'))

def isDigitOrMark (c : Char) : Bool := c.isDigit || c == 'e' || c == 'E'

def leadingDigits (cs : List Char) : List Char := (cs.filter isDigitOrMark).takeWhile Char.isDigit

/-- The significant digits of a numeral: those before its exponent, less the zeros at both ends. -/
def significantDigits (text : String) : List Char := bareDigits (leadingDigits text.toList)

section Bare

theorem zero_of_mem_replicate (n : Nat) : ∀ c ∈ List.replicate n '0', (c == '0') = true := by
  intro c mem
  rw [List.eq_of_mem_replicate mem]
  rfl

theorem stripZeros_append_zeros (ds : List Char) (j : Nat) :
    stripZeros (ds ++ List.replicate j '0') = stripZeros ds := by
  rw [stripZeros, List.reverse_append, List.reverse_replicate,
    List.dropWhile_append_of_pos (zero_of_mem_replicate j), stripZeros]

theorem bareDigits_padded (i j : Nat) (ds : List Char) :
    bareDigits (List.replicate i '0' ++ ds ++ List.replicate j '0') = bareDigits ds := by
  rw [List.append_assoc, bareDigits, List.dropWhile_append_of_pos (zero_of_mem_replicate i),
    List.dropWhile_append]
  split
  · next empty =>
    rw [List.dropWhile_eq_nil_iff.2 (zero_of_mem_replicate j), bareDigits, List.isEmpty_iff.1 empty]
  · exact stripZeros_append_zeros _ j

theorem exists_padded (ds : List Char) :
    ∃ i j, ds = List.replicate i '0' ++ bareDigits ds ++ List.replicate j '0' := by
  have zeros : ∀ c ∈ ds.takeWhile (· == '0'), c = '0' := by
    intro c mem
    simpa using List.mem_takeWhile_imp mem
  obtain ⟨j, stripped⟩ := stripZeros_append (ds.dropWhile (· == '0'))
  refine ⟨(ds.takeWhile (· == '0')).length, j, ?_⟩
  rw [List.append_assoc, bareDigits, ← stripped, ← List.eq_replicate_of_mem zeros,
    List.takeWhile_append_dropWhile]

theorem length_bareDigits_le (ds : List Char) : (bareDigits ds).length ≤ ds.length := by
  obtain ⟨i, j, padded⟩ := exists_padded ds
  have length := congrArg List.length padded
  simp only [List.length_append] at length
  omega

end Bare

section Leading

variable {negative : Bool} {whole fraction sign point mark cs : List Char} {e : Int}

theorem filter_dropWhile {p q : Char → Bool} (apart : ∀ c, q c = true → p c = false)
    (cs : List Char) : (cs.dropWhile q).filter p = cs.filter p := by
  induction cs with
  | nil => rfl
  | cons c cs ih =>
    rw [List.dropWhile_cons]
    split
    · next blank => rw [ih, List.filter_cons_of_neg (by simp [apart c blank])]
    · rfl

theorem leadingDigits_trimBy (cs : List Char) :
    leadingDigits (Text.trimBy Text.isAsciiSpace cs) = leadingDigits cs := by
  have apart (c : Char) (blank : Text.isAsciiSpace c = true) : isDigitOrMark c = false := by
    by_contra digit
    have char : isNumeralChar c := by
      rw [Bool.not_eq_false, isDigitOrMark, Bool.or_eq_true, Bool.or_eq_true, beq_iff_eq,
        beq_iff_eq] at digit
      unfold isNumeralChar
      tauto
    rw [char.isAsciiSpace_eq] at blank
    cases blank
  rw [leadingDigits, Text.trimBy, List.filter_reverse, filter_dropWhile apart,
    List.filter_reverse, List.reverse_reverse, filter_dropWhile apart, leadingDigits]

theorem filter_digits {ds : List Char} (run : ∀ c ∈ ds, c.isDigit = true) :
    ds.filter isDigitOrMark = ds := by
  rw [List.filter_eq_self]
  intro c mem
  simp [isDigitOrMark, run c mem]

theorem SignText.filter_eq (text : SignText negative sign) : sign.filter isDigitOrMark = [] := by
  cases text <;> rfl

theorem FractionText.filter_eq (text : FractionText fraction point) :
    point.filter isDigitOrMark = fraction ∧ ∀ c ∈ fraction, c.isDigit = true := by
  cases text with
  | none => exact ⟨rfl, nofun⟩
  | point run => exact ⟨filter_digits run, run⟩

theorem ExponentText.takeWhile_eq (text : ExponentText e mark) :
    (mark.filter isDigitOrMark).takeWhile Char.isDigit = [] := by
  cases text with
  | none => rfl
  | mark mark => rcases mark with rfl | rfl <;> rfl

theorem NumeralText.leadingDigits_eq (text : NumeralText negative whole fraction e cs) :
    leadingDigits cs = whole ++ fraction := by
  obtain ⟨signed, run, point, exponent, _⟩ := text
  obtain ⟨kept, run'⟩ := point.filter_eq
  rw [leadingDigits, List.filter_append, List.filter_append, List.filter_append, signed.filter_eq,
    filter_digits run, kept, List.nil_append, ← List.append_assoc,
    List.takeWhile_append_of_pos (List.forall_mem_append.2 ⟨run, run'⟩), exponent.takeWhile_eq,
    List.append_nil]

example : leadingDigits "-0.0120E+45".toList = "00120".toList := by decide

theorem NumeralText.digits (text : NumeralText negative whole fraction e cs) :
    ∀ c ∈ whole ++ fraction, c.isDigit = true := by
  obtain ⟨_, run, point, _, _⟩ := text
  exact List.forall_mem_append.2 ⟨run, point.filter_eq.2⟩

end Leading

section Reading

open Format

theorem exists_significant {negative : Bool} {mantissa : Nat} {exponent : Int} {text : String}
    (some : 0 < mantissa) (read : singleOfText text = .finite negative mantissa exponent) :
    ∃ (n : Nat) (k : Int), n < 10 ^ (significantDigits text).length ∧
      reading (n * 10 ^ k) = mantissa * 2 ^ exponent := by
  unfold singleOfText at read
  split at read
  · simp only [Format.zero, Floating.finite.injEq] at read
    omega
  next negative' d scanned =>
  obtain ⟨whole, fraction, e, numeral, rfl⟩ := pointNumeral?_eq_some_iff.1 scanned
  have packed := Decimal.packed_toSingle ⟨decimalValue (whole ++ fraction), e - fraction.length⟩
    negative'
  rw [read] at packed
  cases packed with
  | finite _ value =>
    have digits : significantDigits text = bareDigits (whole ++ fraction) := by
      rw [significantDigits, ← leadingDigits_trimBy, numeral.leadingDigits_eq]
    obtain ⟨i, j, padded⟩ := exists_padded (whole ++ fraction)
    have run : ∀ c ∈ bareDigits (whole ++ fraction), c.isDigit = true := by
      intro c mem
      have mem := List.mem_append_left (List.replicate j '0')
        (List.mem_append_right (List.replicate i '0') mem)
      rw [← padded] at mem
      exact numeral.digits c mem
    refine ⟨decimalValue (significantDigits text), j + (e - fraction.length), ?_, ?_⟩
    · rw [digits]
      exact decimalValue_lt run
    · rw [value, Decimal.value, padded, decimalValue_padded, digits, zpow_add₀ (by norm_num),
        zpow_natCast]
      push_cast
      rw [mul_assoc]

end Reading

theorem toDigits_pow (n : Nat) : Nat.toDigits 10 (10 ^ n) = '1' :: List.replicate n '0' := by
  induction n with
  | zero => rfl
  | succ n ih =>
    have digits := Nat.toDigits_append_toDigits (b := 10) (d := 0) (by decide)
      (Nat.pow_pos (by decide : 0 < 10) : 0 < 10 ^ n) (by decide)
    rw [Nat.add_zero, ← Nat.pow_succ', ih, Nat.toDigits_zero] at digits
    rw [← digits, List.replicate_succ']
    rfl

theorem Decimal.length_shown_le (d : Decimal) {count : Nat} (some : 0 < count)
    (bound : d.digits ≤ 10 ^ count) : d.shown.length ≤ count := by
  by_cases none : d.digits = 0
  · rw [shown, if_pos none]
    exact some
  rcases bound.lt_or_eq with less | power
  · obtain ⟨n, digits⟩ := d.exists_shown none
    have length := (Nat.length_toDigits_le_iff (by decide) some).2 less
    rw [digits, List.length_append] at length
    omega
  · have one := stripZeros_append_zeros ['1'] count
    rw [List.singleton_append, ← toDigits_pow] at one
    rw [shown, if_neg none, power, one]
    exact some

theorem Decimal.significantDigits_write (d : Decimal) (negative : Bool) (count : Nat) :
    significantDigits (String.ofList (d.write (Floating.renderLayout count) negative)) =
      bareDigits d.shown := by
  obtain ⟨magnitude, ⟨i, j, whole, fraction, e, numeral, padded, -⟩, -⟩ :=
    d.shows_write negative count
  rw [significantDigits, String.toList_ofList, numeral.leadingDigits_eq, padded, bareDigits_padded]

end PlZero.Number
