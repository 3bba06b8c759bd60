import PlZero.Number.Numeral
import PlZero.Proofs.LiteralValues

set_option autoImplicit false

namespace PlZero.Number

inductive SignText : Bool → List Char → Prop
  | none : SignText false []
  | plus : SignText false ['+']
  | minus : SignText true ['-']

inductive FractionText : List Char → List Char → Prop
  | none : FractionText [] []
  | point {digits : List Char} : (∀ c ∈ digits, c.isDigit = true) →
      FractionText digits ('.' :: digits)

inductive ExponentText : Int → List Char → Prop
  | none : ExponentText 0 []
  | mark {mark : Char} {negative : Bool} {sign digits : List Char} : mark = 'e' ∨ mark = 'E' →
      SignText negative sign → digits ≠ [] → (∀ c ∈ digits, c.isDigit = true) →
      ExponentText (Floating.signed negative (decimalValue digits)) (mark :: (sign ++ digits))

/-- A numeral by its sign, its digits before and after the point and its exponent. -/
inductive NumeralText (negative : Bool) (whole fraction : List Char) (exponent : Int) :
    List Char → Prop
  | mk {sign point mark : List Char} : SignText negative sign →
      (∀ c ∈ whole, c.isDigit = true) → FractionText fraction point →
      ExponentText exponent mark → whole ++ fraction ≠ [] →
      NumeralText negative whole fraction exponent (sign ++ (whole ++ (point ++ mark)))

section Signs

variable {negative : Bool} {sign cs : List Char}

def Unsigned (cs : List Char) : Prop := ∀ c ∈ cs.head?, c ≠ '+' ∧ c ≠ '-'

theorem takeSign_append (signed : SignText negative sign) (unsigned : Unsigned cs) :
    takeSign (sign ++ cs) = (negative, cs) := by
  cases signed with
  | plus | minus => rfl
  | none =>
    rw [List.nil_append]
    unfold takeSign
    split
    · exact absurd rfl (unsigned '+' rfl).1
    · exact absurd rfl (unsigned '-' rfl).2
    · rfl

theorem exists_signText (cs : List Char) :
    ∃ sign, SignText (takeSign cs).1 sign ∧ cs = sign ++ (takeSign cs).2 := by
  unfold takeSign
  split
  · exact ⟨_, .plus, rfl⟩
  · exact ⟨_, .minus, rfl⟩
  · exact ⟨_, .none, rfl⟩

theorem unsigned_append {rest : List Char} (digits : ∀ c ∈ cs, c.isDigit = true)
    (unsigned : Unsigned rest) : Unsigned (cs ++ rest) := by
  cases cs with
  | nil => exact unsigned
  | cons first cs =>
    rintro c ⟨⟩
    have digit := digits first List.mem_cons_self
    constructor <;> rintro rfl <;> exact absurd digit (by decide)

theorem unsigned_of_digits (digits : ∀ c ∈ cs, c.isDigit = true) : Unsigned cs := by
  have unsigned := unsigned_append digits (nofun : Unsigned [])
  rwa [List.append_nil] at unsigned

end Signs

theorem wholeNumeral?_eq_some_iff {cs digits : List Char} {negative : Bool} :
    wholeNumeral? cs = some (negative, digits) ↔
      ∃ sign, SignText negative sign ∧ digits ≠ [] ∧ (∀ c ∈ digits, c.isDigit = true) ∧
        cs = sign ++ digits := by
  have all (ds : List Char) : allDigits ds = true ↔ ds ≠ [] ∧ ∀ c ∈ ds, c.isDigit = true := by
    simp [allDigits]
  constructor
  · intro read
    simp only [wholeNumeral?, Option.ite_none_right_eq_some, Option.some.injEq, Prod.mk.injEq, all]
      at read
    obtain ⟨⟨some, run⟩, rfl, rfl⟩ := read
    obtain ⟨sign, signed, eq⟩ := exists_signText cs
    exact ⟨sign, signed, some, run, eq⟩
  · rintro ⟨sign, signed, some, run, rfl⟩
    have shown := takeSign_append signed (unsigned_of_digits run)
    simp [wholeNumeral?, shown, (all digits).2 ⟨some, run⟩]

theorem exponentValue?_eq_some_iff {cs : List Char} {e : Int} :
    exponentValue? cs = some e ↔ ExponentText e cs := by
  constructor
  · intro read
    cases cs with
    | nil =>
      cases read
      exact .none
    | cons c cs =>
      simp only [exponentValue?, Option.ite_none_right_eq_some, Option.map_eq_some_iff] at read
      obtain ⟨mark, ⟨negative, digits⟩, numeral, rfl⟩ := read
      obtain ⟨sign, signed, some, run, rfl⟩ := wholeNumeral?_eq_some_iff.1 numeral
      exact .mark (by simpa using mark) signed some run
  · intro text
    cases text with
    | none => rfl
    | @mark c _ _ _ mark signed some run =>
      have numeral := wholeNumeral?_eq_some_iff.2 ⟨_, signed, some, run, rfl⟩
      have mark : (c == 'e' || c == 'E') = true := by simpa using mark
      simp only [exponentValue?, mark, numeral, if_true, Option.map_some]

section Points

variable {negative : Bool} {whole fraction point mark cs : List Char} {e : Int} {d : Decimal}

theorem ExponentText.head {c : Char} (text : ExponentText e mark) (head : c ∈ mark.head?) :
    c = 'e' ∨ c = 'E' := by
  cases text with
  | none => cases head
  | mark mark =>
    cases head
    exact mark

def takeFraction : List Char → List Char × List Char
  | '.' :: after => (after.takeWhile Char.isDigit, after.dropWhile Char.isDigit)
  | cs => ([], cs)

theorem pointNumeral?_eq (cs : List Char) :
    pointNumeral? cs =
      let whole := (takeSign cs).2.takeWhile Char.isDigit
      let (fraction, rest) := takeFraction ((takeSign cs).2.dropWhile Char.isDigit)
      if whole.isEmpty && fraction.isEmpty then none
      else (exponentValue? rest).map fun e =>
        ((takeSign cs).1, ⟨decimalValue (whole ++ fraction), e - fraction.length⟩) := by
  unfold pointNumeral? takeFraction
  dsimp only
  split <;> split <;> simp_all

theorem takeFraction_append (text : FractionText fraction point) (after : ExponentText e mark) :
    takeFraction (point ++ mark) = (fraction, mark) := by
  cases text with
  | point digits =>
    have stop : Stops Char.isDigit mark := by
      intro c mem
      rcases after.head mem with rfl | rfl <;> rfl
    simp only [takeFraction, List.cons_append, takeWhile_run digits stop,
      dropWhile_run digits stop]
  | none =>
    rw [List.nil_append]
    unfold takeFraction
    split
    · exact absurd (after.head rfl) (by decide)
    · rfl

theorem exists_fractionText (cs : List Char) :
    ∃ point, FractionText (takeFraction cs).1 point ∧ cs = point ++ (takeFraction cs).2 := by
  unfold takeFraction
  split
  · exact ⟨_, .point (run_of_takeWhile _), by simp⟩
  · exact ⟨_, .none, rfl⟩

-- What follows the digits before the point is neither a digit nor a sign.
theorem stops_after_whole (text : FractionText fraction point) (after : ExponentText e mark) :
    Stops Char.isDigit (point ++ mark) ∧ Unsigned (point ++ mark) := by
  have chars : ∀ c ∈ (point ++ mark).head?, c = '.' ∨ c = 'e' ∨ c = 'E' := by
    cases text with
    | point =>
      rintro c ⟨⟩
      exact .inl rfl
    | none => exact fun c mem => .inr (after.head mem)
  constructor <;> intro c mem <;> rcases chars c mem with rfl | rfl | rfl <;> decide

theorem pointNumeral?_eq_some_iff :
    pointNumeral? cs = some (negative, d) ↔
      ∃ whole fraction e, NumeralText negative whole fraction e cs ∧
        d = ⟨decimalValue (whole ++ fraction), e - fraction.length⟩ := by
  rw [pointNumeral?_eq]
  constructor
  · intro read
    simp only [Option.ite_none_left_eq_some, Option.map_eq_some_iff, Prod.mk.injEq] at read
    obtain ⟨some, e, exponent, rfl, rfl⟩ := read
    obtain ⟨sign, signed, eq⟩ := exists_signText cs
    obtain ⟨point, fraction, eq'⟩ :=
      exists_fractionText ((takeSign cs).2.dropWhile Char.isDigit)
    refine ⟨_, _, e, ?_, rfl⟩
    have numeral := NumeralText.mk signed (run_of_takeWhile (takeSign cs).2) fraction
      (exponentValue?_eq_some_iff.1 exponent) (by simpa using some)
    rwa [← eq', List.takeWhile_append_dropWhile, ← eq] at numeral
  · rintro ⟨whole, fraction, e, ⟨signed, run, point, exponent, some⟩, rfl⟩
    obtain ⟨stop, unsigned⟩ := stops_after_whole point exponent
    have first := takeSign_append signed (unsigned_append run unsigned)
    simp only [first, takeWhile_run run stop, dropWhile_run run stop,
      takeFraction_append point exponent, exponentValue?_eq_some_iff.2 exponent, Option.map_some]
    rw [if_neg (by simpa using some)]

end Points

section Blanks

variable {negative : Bool} {whole fraction sign point mark cs : List Char} {e : Int}

def isNumeralChar (c : Char) : Prop :=
  c.isDigit = true ∨ c = '.' ∨ c = 'e' ∨ c = 'E' ∨ c = '+' ∨ c = '-'

theorem SignText.chars (text : SignText negative sign) : ∀ c ∈ sign, isNumeralChar c := by
  cases text with
  | none => exact nofun
  | plus | minus => exact List.forall_mem_singleton.2 (by simp [isNumeralChar])

theorem FractionText.chars (text : FractionText fraction point) :
    ∀ c ∈ point, isNumeralChar c := by
  cases text with
  | none => exact nofun
  | point run => exact List.forall_mem_cons.2 ⟨.inr (.inl rfl), fun c mem => .inl (run c mem)⟩

theorem ExponentText.chars (text : ExponentText e mark) : ∀ c ∈ mark, isNumeralChar c := by
  cases text with
  | none => exact nofun
  | mark mark signed _ run =>
    rw [List.forall_mem_cons, List.forall_mem_append]
    refine ⟨?_, signed.chars, fun c mem => .inl (run c mem)⟩
    rcases mark with rfl | rfl <;> simp [isNumeralChar]

theorem NumeralText.chars (text : NumeralText negative whole fraction e cs) :
    ∀ c ∈ cs, isNumeralChar c := by
  obtain ⟨signed, run, point, exponent, _⟩ := text
  rw [List.forall_mem_append, List.forall_mem_append, List.forall_mem_append]
  exact ⟨signed.chars, fun c mem => .inl (run c mem), point.chars, exponent.chars⟩

theorem isNumeralChar.isAsciiSpace_eq {c : Char} (char : isNumeralChar c) :
    Text.isAsciiSpace c = false := by
  rcases char with digit | rfl | rfl | rfl | rfl | rfl
  · exact isPlain.isAsciiSpace_eq (.inl digit)
  all_goals rfl

theorem singleOfText_of_numeral (text : NumeralText negative whole fraction e cs) :
    singleOfText (String.ofList cs) =
      Decimal.toSingle negative ⟨decimalValue (whole ++ fraction), e - fraction.length⟩ := by
  have read := pointNumeral?_eq_some_iff.2 ⟨_, _, _, text, rfl⟩
  have trimmed := trimBy_of_forall fun c mem => (text.chars c mem).isAsciiSpace_eq
  rw [singleOfText, String.toList_ofList, trimmed, read]

end Blanks

end PlZero.Number
