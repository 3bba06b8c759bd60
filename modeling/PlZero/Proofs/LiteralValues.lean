import PlZero.Proofs.WellFormed
import PlZero.Value

set_option autoImplicit false

namespace PlZero

namespace Number

def isPlain (c : Char) : Prop := c.isDigit = true ∨ c = '.'

variable {c : Char} {cs : List Char}

theorem isPlain.range (plain : isPlain c) : 46 ≤ c.toNat ∧ c.toNat ≤ 57 := by
  rcases plain with digit | rfl
  · simp only [Char.isDigit, ge_iff_le, Bool.and_eq_true, decide_eq_true_eq, UInt32.le_iff_toNat_le]
      at digit
    have low : (48 : Nat) ≤ c.toNat := digit.1
    have high : c.toNat ≤ 57 := digit.2
    omega
  · decide

theorem isPlain.plainChar_eq (plain : isPlain c) : plainChar c = c := by
  have range := plain.range
  exact if_pos (by omega)

theorem isPlain.isAsciiSpace_eq (plain : isPlain c) : Text.isAsciiSpace c = false := by
  have range := plain.range
  have notBlank : c ≠ ' ' := by
    rintro rfl
    exact absurd range (by decide)
  simp only [Text.isAsciiSpace, Bool.or_eq_false_iff, beq_eq_false_iff_ne, Bool.and_eq_false_iff,
    decide_eq_false_iff_not]
  exact ⟨notBlank, by omega⟩

theorem trimBy_of_forall {p : Char → Bool} (outside : ∀ c ∈ cs, p c = false) :
    Text.trimBy p cs = cs := by
  have drop {cs : List Char} (outside : ∀ c ∈ cs, p c = false) : cs.dropWhile p = cs := by
    cases cs with
    | nil => rfl
    | cons c cs => rw [List.dropWhile_cons, outside c List.mem_cons_self]; rfl
  have reversed : ∀ c ∈ cs.reverse, p c = false := fun c mem => outside c (List.mem_reverse.1 mem)
  rw [Text.trimBy, drop outside, drop reversed, List.reverse_reverse]

theorem dropUnderscores_of_forall {before : Char} (first : before ≠ '_')
    (none : ∀ c ∈ cs, c ≠ '_') : dropUnderscores before cs = some cs := by
  induction cs generalizing before with
  | nil => simp [dropUnderscores, first]
  | cons c cs ih =>
    obtain ⟨here, later⟩ := List.forall_mem_cons.1 none
    simp [dropUnderscores, first, here, ih here later]

theorem literalChars?_of_plain (plain : ∀ c ∈ cs, isPlain c) :
    literalChars? (String.ofList cs) = some cs := by
  have mapped : cs.map plainChar = cs :=
    (List.map_congr_left fun c mem => (plain c mem).plainChar_eq).trans (List.map_id' cs)
  have none : ∀ c ∈ cs, c ≠ '_' := by
    rintro _ mem rfl
    exact absurd (plain '_' mem).range (by decide)
  rw [literalChars?, String.toList_ofList, mapped,
    trimBy_of_forall fun c mem => (plain c mem).isAsciiSpace_eq]
  exact dropUnderscores_of_forall (by decide) none

theorem takeSign_of_plain (plain : ∀ c ∈ cs, isPlain c) : takeSign cs = (false, cs) := by
  unfold takeSign
  split
  · exact absurd (plain '+' List.mem_cons_self).range (by decide)
  · exact absurd (plain '-' List.mem_cons_self).range (by decide)
  · rfl

theorem integerOfLiteral_of_digits (some : cs ≠ []) (digits : ∀ c ∈ cs, c.isDigit = true) :
    integerOfLiteral (String.ofList cs) = wholeValue false cs := by
  have plain : ∀ c ∈ cs, isPlain c := fun c mem => .inl (digits c mem)
  have numeral : wholeNumeral? cs = .some (false, cs) := by
    have all : allDigits cs = true := by
      simp only [allDigits, Bool.and_eq_true, Bool.not_eq_true', List.isEmpty_eq_false_iff,
        List.all_eq_true]
      exact ⟨some, digits⟩
    rw [wholeNumeral?, takeSign_of_plain plain]
    exact if_pos all
  rw [integerOfLiteral, literalChars?_of_plain plain, Option.bind_some, numeral]

theorem namedNumber?_of_plain (plain : ∀ c ∈ cs, isPlain c) : namedNumber? cs = none := by
  have lower : cs.map Char.toLower = cs := by
    refine (List.map_congr_left fun c mem => ?_).trans (List.map_id' cs)
    have range := (plain c mem).range
    have high : ¬ (c.val ≥ 'A'.val ∧ c.val ≤ 'Z'.val) := by
      rintro ⟨low, _⟩
      have : (65 : Nat) ≤ c.toNat := low
      omega
    exact dif_neg high
  have other (word : String) (first : Char) (mem : first ∈ word.toList)
      (letter : ¬ (46 ≤ first.toNat ∧ first.toNat ≤ 57)) : (String.ofList cs == word) = false := by
    refine beq_false_of_ne ?_
    rintro rfl
    rw [String.toList_ofList] at mem
    exact letter (plain first mem).range
  unfold namedNumber?
  simp only [lower, other "inf" 'i' (by decide) (by decide),
    other "infinity" 'i' (by decide) (by decide),
    other "nan" 'n' (by decide) (by decide), Bool.or_self, Bool.false_eq_true, if_false]

theorem isPlain_of_point {fs : List Char} (digits : ∀ c ∈ cs, c.isDigit = true)
    (digits' : ∀ c ∈ fs, c.isDigit = true) : ∀ c ∈ cs ++ '.' :: fs, isPlain c := by
  simp only [List.forall_mem_append, List.forall_mem_cons]
  exact ⟨fun c mem => .inl (digits c mem), .inr rfl, fun c mem => .inl (digits' c mem)⟩

theorem pointNumeral?_of_digits {fs : List Char} (some : cs ≠ [])
    (digits : ∀ c ∈ cs, c.isDigit = true) (digits' : ∀ c ∈ fs, c.isDigit = true) :
    pointNumeral? (cs ++ '.' :: fs) =
      .some (false, ⟨decimalValue (cs ++ fs), -(fs.length : Int)⟩) := by
  have plain := isPlain_of_point digits digits'
  have stop : Stops Char.isDigit ('.' :: fs) := by rintro c ⟨⟩; rfl
  have stop' : Stops Char.isDigit [] := nofun
  have whole := takeWhile_run digits stop
  have rest := dropWhile_run digits stop
  have fraction := takeWhile_run digits' stop'
  have after := dropWhile_run digits' stop'
  rw [List.append_nil] at fraction after
  unfold pointNumeral?
  simp only [takeSign_of_plain plain, whole, rest, fraction, after,
    List.isEmpty_eq_false_iff.2 some, Bool.false_and, Bool.false_eq_true, if_false,
    exponentValue?, Option.map_some, Int.zero_sub]

theorem singleOfLiteral_of_digits {fs : List Char} (some : cs ≠ [])
    (digits : ∀ c ∈ cs, c.isDigit = true) (digits' : ∀ c ∈ fs, c.isDigit = true) :
    singleOfLiteral (String.ofList (cs ++ '.' :: fs)) =
      .ok (Decimal.toSingle false ⟨decimalValue (cs ++ fs), -(fs.length : Int)⟩) := by
  have plain := isPlain_of_point digits digits'
  unfold singleOfLiteral
  simp only [literalChars?_of_plain plain, takeSign_of_plain plain, namedNumber?_of_plain plain,
    pointNumeral?_of_digits some digits digits']

end Number

open Number WellFormed

theorem WellFormed.Whole.digits_of {cs : List Char} (whole : Whole cs) :
    cs ≠ [] ∧ ∀ c ∈ cs, c.isDigit = true := by
  cases whole with
  | zero => exact ⟨nofun, List.forall_mem_singleton.2 rfl⟩
  | digits digit _ run => exact ⟨nofun, List.forall_mem_cons.2 ⟨digit, run⟩⟩

theorem WellFormed.Lexicon.exists_whole {raw : String} (holds : Lexicon .number raw) :
    ∃ cs, raw = String.ofList cs ∧ Whole cs := by
  cases holds with
  | integer whole => exact ⟨_, rfl, whole⟩

theorem WellFormed.Lexicon.exists_point {raw : String} (holds : Lexicon .float raw) :
    ∃ cs fs, raw = String.ofList (cs ++ '.' :: fs) ∧ Whole cs ∧ ∀ c ∈ fs, c.isDigit = true := by
  cases holds with
  | float whole _ digits => exact ⟨_, _, rfl, whole, digits⟩

theorem Value.ofLiteral_of_lexicon {l : Literal} (formed : WellFormed.Literal Lexicon l) :
    (∃ v, Value.ofLiteral l.type l.raw = .ok v) ∨
      l.type = .integer ∧ digitLimit < l.raw.length ∧
        Value.ofLiteral l.type l.raw = breakDown .tooManyDigits := by
  obtain ⟨pos, type, raw⟩ := l
  obtain ⟨known, holds⟩ := formed
  cases type with
  | invalid => exact absurd rfl known
  | string => exact .inl ⟨_, rfl⟩
  | integer =>
    obtain ⟨cs, eq, whole⟩ := holds.exists_whole
    obtain ⟨some, digits⟩ := whole.digits_of
    change raw = _ at eq
    have value := integerOfLiteral_of_digits some digits
    rw [eq]
    by_cases long : digitLimit < cs.length
    · refine .inr ⟨rfl, by simpa using long, ?_⟩
      simp only [Value.ofLiteral, value, wholeValue, if_pos long]
      rfl
    · refine .inl ⟨.ofInt (Floating.signed false (decimalValue cs)), ?_⟩
      simp only [Value.ofLiteral, value, wholeValue, if_neg long]
      rfl
  | float =>
    obtain ⟨cs, fs, eq, whole, digits'⟩ := holds.exists_point
    obtain ⟨some, digits⟩ := whole.digits_of
    change raw = _ at eq
    have value := singleOfLiteral_of_digits some digits digits'
    simp only [eq, Value.ofLiteral, value]
    exact .inl ⟨_, rfl⟩

end PlZero
