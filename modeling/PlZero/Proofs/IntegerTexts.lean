import PlZero.Proofs.LongestNumeral
import PlZero.Proofs.LosslessScanning
import PlZero.Proofs.NumeralTexts
import PlZero.Value.Operations

set_option autoImplicit false

namespace PlZero

namespace Text

def asciiBlanks : List Char := [' ', '\t', '\n', '\r', '\x0c', '\x0b']

theorem isAsciiSpace_iff {c : Char} : isAsciiSpace c = true ↔ c ∈ asciiBlanks := by
  have same (d : Char) : c = d ↔ c.toNat = d.toNat := Char.toNat_inj.symm
  simp only [isAsciiSpace, asciiBlanks, Bool.or_eq_true, beq_iff_eq, Bool.and_eq_true,
    decide_eq_true_eq, List.mem_cons, List.not_mem_nil, or_false, same]
  simp only [Char.reduceToNat]
  omega

variable {p : Char → Bool} {before cs after : List Char}

theorem trimBy_append (leading : ∀ c ∈ before, p c = true) (inside : ∀ c ∈ cs, p c = false)
    (trailing : ∀ c ∈ after, p c = true) : trimBy p (before ++ (cs ++ after)) = cs := by
  have reversed : ∀ c ∈ after.reverse, p c = true := fun c mem =>
    trailing c (List.mem_reverse.1 mem)
  have whole := Number.trimBy_of_forall inside
  unfold trimBy at *
  rw [List.dropWhile_append_of_pos leading]
  cases cs with
  | nil => simp [List.dropWhile_eq_nil_iff.2 trailing]
  | cons c cs =>
    have first : ¬ p c = true := by simp [inside c List.mem_cons_self]
    rw [List.dropWhile_cons_of_neg first] at whole
    rw [List.cons_append, List.dropWhile_cons_of_neg first, ← List.cons_append,
      List.reverse_append, List.dropWhile_append_of_pos reversed, whole]

theorem exists_of_trimBy (p : Char → Bool) (cs : List Char) :
    ∃ before after, cs = before ++ (trimBy p cs ++ after) ∧ (∀ c ∈ before, p c = true) ∧
      ∀ c ∈ after, p c = true := by
  let rest := cs.dropWhile p
  refine ⟨cs.takeWhile p, (rest.reverse.takeWhile p).reverse, ?_, run_of_takeWhile cs, ?_⟩
  · rw [trimBy, ← List.reverse_append, List.takeWhile_append_dropWhile, List.reverse_reverse,
      List.takeWhile_append_dropWhile]
  · exact fun c mem => run_of_takeWhile rest.reverse c (List.mem_reverse.1 mem)

end Text

namespace Number

open Text WellFormed

inductive IntegerText : Int → List Char → Prop
  | mk {negative : Bool} {before sign digits after : List Char} :
      (∀ c ∈ before, c ∈ asciiBlanks) → SignText negative sign → digits ≠ [] →
      (∀ c ∈ digits, c.isDigit = true) → (∀ c ∈ after, c ∈ asciiBlanks) →
      IntegerText (if negative then -(positional 10 digits : Int) else positional 10 digits)
        (before ++ (sign ++ digits ++ after))

variable {cs digits : List Char} {negative : Bool} {n : Int} {text : String}

theorem decimalValue_eq_positional (run : ∀ c ∈ digits, c.isDigit = true) :
    decimalValue digits = positional 10 digits := by
  rw [positional, ← digitsValue_eq_ofDigits]
  induction digits using List.reverseRecOn with
  | nil => rfl
  | append_singleton ds d ih =>
    have value : digitValue d = d.toNat - '0'.toNat := if_pos (run d (by simp))
    have before := ih fun c mem => run c (List.mem_append_left _ mem)
    simp only [decimalValue, digitsValue] at before
    simp [decimalValue, digitsValue, Nat.ofDigitChars_append, Nat.ofDigitChars_cons, before, value,
      Nat.mul_comm]

theorem signed_decimalValue (negative : Bool) (run : ∀ c ∈ digits, c.isDigit = true) :
    Floating.signed negative (decimalValue digits) =
      if negative then -(positional 10 digits : Int) else positional 10 digits := by
  rw [Floating.signed, decimalValue_eq_positional run]

theorem integerText_iff :
    IntegerText n cs ↔ ∃ negative digits,
      wholeNumeral? (trimBy isAsciiSpace cs) = some (negative, digits) ∧
        n = Floating.signed negative (decimalValue digits) := by
  constructor
  · intro stands
    obtain @⟨negative, before, sign, digits, after, leading, signed, some, run, trailing⟩ := stands
    have inside : ∀ c ∈ sign ++ digits, isAsciiSpace c = false := by
      refine List.forall_mem_append.2 ⟨fun c mem => ?_, fun c mem => ?_⟩
      · exact (signed.chars c mem).isAsciiSpace_eq
      · exact isNumeralChar.isAsciiSpace_eq (.inl (run c mem))
    have trimmed := trimBy_append (fun c mem => isAsciiSpace_iff.2 (leading c mem)) inside
      fun c mem => isAsciiSpace_iff.2 (trailing c mem)
    refine ⟨negative, digits, ?_, (signed_decimalValue negative run).symm⟩
    rw [trimmed]
    exact wholeNumeral?_eq_some_iff.2 ⟨sign, signed, some, run, rfl⟩
  · rintro ⟨negative, digits, numeral, rfl⟩
    obtain ⟨sign, signed, some, run, core⟩ := wholeNumeral?_eq_some_iff.1 numeral
    obtain ⟨before, after, whole, leading, trailing⟩ := exists_of_trimBy isAsciiSpace cs
    rw [core] at whole
    rw [signed_decimalValue negative run, whole]
    exact .mk (fun c mem => isAsciiSpace_iff.1 (leading c mem)) signed some run
      fun c mem => isAsciiSpace_iff.1 (trailing c mem)

theorem length_digits_le
    (numeral : wholeNumeral? (trimBy isAsciiSpace cs) = some (negative, digits)) :
    digits.length ≤ cs.countP Char.isDigit := by
  obtain ⟨sign, _, _, run, core⟩ := wholeNumeral?_eq_some_iff.1 numeral
  obtain ⟨before, after, whole, _⟩ := exists_of_trimBy isAsciiSpace cs
  have all : digits.countP Char.isDigit = digits.length := List.countP_eq_length.2 run
  rw [whole, core]
  simp only [List.countP_append, all]
  omega

theorem integerOfText_of_integerText (short : text.toList.countP Char.isDigit ≤ digitLimit)
    (stands : IntegerText n text.toList) :
    integerOfText text = .ok (if n < minWord ∨ maxWord < n then 0 else n) := by
  obtain ⟨negative, digits, numeral, rfl⟩ := integerText_iff.1 stands
  have fits : ¬ digitLimit < digits.length := by
    have length := length_digits_le numeral
    omega
  have value : wholeValue negative digits = .ok (Floating.signed negative (decimalValue digits)) :=
    if_neg fits
  simp only [integerOfText, numeral, value, Bind.bind, Except.bind, Pure.pure, Except.pure,
    Bool.or_eq_true, decide_eq_true_eq]

theorem integerOfText_of_none (none : ∀ n, ¬ IntegerText n text.toList) :
    integerOfText text = .ok 0 := by
  cases numeral : wholeNumeral? (trimBy isAsciiSpace text.toList) with
  | none => simp only [integerOfText, numeral]
  | some read => exact absurd (integerText_iff.2 ⟨_, _, numeral, rfl⟩) (none _)

theorem digits_toDigits (n : Nat) :
    Nat.toDigits 10 n ≠ [] ∧ (∀ c ∈ Nat.toDigits 10 n, c.isDigit = true) ∧
      positional 10 (Nat.toDigits 10 n) = n := by
  obtain ⟨some, run⟩ := (whole_toDigits n).digits_of
  exact ⟨some, run, by rw [← decimalValue_eq_positional run, decimalValue_toDigits]⟩

theorem toList_toString (n : Int) :
    (toString n).toList = (if n < 0 then ['-'] else []) ++ Nat.toDigits 10 n.natAbs := by
  cases n with
  | ofNat n =>
    have shown : toString (Int.ofNat n) = Nat.repr n := rfl
    have positive : ¬ Int.ofNat n < 0 := Int.not_lt.2 (Int.natCast_nonneg n)
    rw [shown, if_neg positive, Nat.repr, String.toList_ofList]
    rfl
  | negSucc n =>
    have shown : toString (Int.negSucc n) = "-" ++ Nat.repr (n + 1) := rfl
    have negative : Int.negSucc n < 0 := Int.negSucc_lt_zero n
    simp [shown, Nat.repr, negative]

theorem integerText_toString (n : Int) : IntegerText n (toString n).toList := by
  obtain ⟨some, run, value⟩ := digits_toDigits n.natAbs
  have shown := toList_toString n
  by_cases negative : n < 0
  · have text : IntegerText _ ([] ++ (['-'] ++ Nat.toDigits 10 n.natAbs ++ [])) :=
      .mk nofun .minus some run nofun
    have magnitude : -(n.natAbs : Int) = n := by omega
    rw [if_pos rfl, value, magnitude, List.append_nil] at text
    rwa [shown, if_pos negative]
  · have text : IntegerText _ ([] ++ ([] ++ Nat.toDigits 10 n.natAbs ++ [])) :=
      .mk nofun .none some run nofun
    have magnitude : (n.natAbs : Int) = n := by omega
    rw [if_neg nofun, value, magnitude, List.append_nil] at text
    rwa [shown, if_neg negative]

theorem countP_toString_le (low : -2 ^ 31 ≤ n) (high : n ≤ 2 ^ 31 - 1) :
    (toString n).toList.countP Char.isDigit ≤ digitLimit := by
  have small : n.natAbs < 10 ^ 10 := by omega
  have length := (Nat.length_toDigits_le_iff (b := 10) (k := 10) (by decide) (by decide)).2 small
  have counted :
      (toString n).toList.countP Char.isDigit ≤ 1 + (Nat.toDigits 10 n.natAbs).length := by
    rw [toList_toString, List.countP_append]
    refine Nat.add_le_add ?_ List.countP_le_length
    split <;> decide
  have limit : 11 ≤ digitLimit := by decide
  omega

end Number

open Number

theorem Value.cast_integer_of_text {n : Int} {text : String} (read : integerOfText text = .ok n) :
    cast .integer (.text text) = .ok (.ofInt n) := by
  change (orStop (integerOfText text)).map ofInt = _
  rw [read]
  rfl

/-- A text with no more digits than may be read is read as the word that it stands for, and as zero
if it stands for none; and every word is read back from its text. -/
theorem words_read_back :
    (∀ text : String, text.toList.countP Char.isDigit ≤ digitLimit →
      (∀ n, IntegerText n text.toList → -2 ^ 31 ≤ n → n ≤ 2 ^ 31 - 1 →
        integerOfText text = .ok n) ∧
      ((∀ n, IntegerText n text.toList → ¬ (-2 ^ 31 ≤ n ∧ n ≤ 2 ^ 31 - 1)) →
        integerOfText text = .ok 0)) ∧
    ∀ n, -2 ^ 31 ≤ n → n ≤ 2 ^ 31 - 1 →
      (Value.cast .string (.integer n) >>= Value.cast .integer) = .ok (.integer n) := by
  have range (n : Int) : n < minWord ∨ maxWord < n ↔ ¬ (-2 ^ 31 ≤ n ∧ n ≤ 2 ^ 31 - 1) := by
    simp only [minWord, maxWord]
    omega
  have reads (text : String) (short : text.toList.countP Char.isDigit ≤ digitLimit) (n : Int)
      (stands : IntegerText n text.toList) (low : -2 ^ 31 ≤ n) (high : n ≤ 2 ^ 31 - 1) :
      integerOfText text = .ok n := by
    have inside : ¬ (n < minWord ∨ maxWord < n) := fun outside => (range n).1 outside ⟨low, high⟩
    rw [integerOfText_of_integerText short stands, if_neg inside]
  refine ⟨fun text short => ⟨reads text short, fun other => ?_⟩, fun n low high => ?_⟩
  · by_cases stands : ∃ n, IntegerText n text.toList
    · obtain ⟨n, stands⟩ := stands
      have outside := (range n).2 (other n stands)
      rw [integerOfText_of_integerText short stands, if_pos outside]
    · exact integerOfText_of_none fun n here => stands ⟨n, here⟩
  · have back := reads _ (countP_toString_le low high) n (integerText_toString n) low high
    have word : wrapWord n = n :=
      wrapWord_of_bounds (by simp only [minWord]; omega) (by simp only [maxWord]; omega)
    change Value.cast .integer (.text (toString n)) = _
    rw [Value.cast_integer_of_text back, Value.ofInt, word]

-- The least word with zeros before it, and what stands for an integer that is no word.
theorem words_read_back_least :
    (IntegerText (-2 ^ 31) "\x0b -0002147483648\n".toList ∧
      integerOfText "\x0b -0002147483648\n" = .ok (-2 ^ 31)) ∧
    (IntegerText (2 ^ 31) "+2147483648".toList ∧ integerOfText "+2147483648" = .ok 0) ∧
    (Value.cast .string (.integer (-2 ^ 31)) >>= Value.cast .integer) =
      .ok (.integer (-2 ^ 31)) := by
  obtain ⟨reads, back⟩ := words_read_back
  have least : IntegerText (-2 ^ 31) "\x0b -0002147483648\n".toList :=
    integerText_iff.2 ⟨true, "0002147483648".toList, by decide, by decide⟩
  have more : IntegerText (2 ^ 31) "+2147483648".toList :=
    integerText_iff.2 ⟨false, "2147483648".toList, by decide, by decide⟩
  refine ⟨⟨least, (reads _ (by decide)).1 _ least (by decide) (by decide)⟩,
    ⟨more, (reads _ (by decide)).2 fun n stands => ?_⟩, back _ (by decide) (by decide)⟩
  obtain ⟨negative, digits, numeral, rfl⟩ := integerText_iff.1 stands
  have read : wholeNumeral? (Text.trimBy Text.isAsciiSpace "+2147483648".toList) =
      some (false, "2147483648".toList) := by decide
  cases read.symm.trans numeral
  decide

end PlZero
