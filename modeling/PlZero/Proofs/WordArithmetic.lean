import PlZero.Expression
import PlZero.Proofs.LiteralValues

set_option autoImplicit false

namespace PlZero

open Number

def BinaryOperator.onWords (operator : BinaryOperator) (x y : BitVec 32) : Option (BitVec 32) :=
  match operator with
  | plus => some (x + y)
  | minus => some (x - y)
  | star => some (x * y)
  | slash => if y = 0 then none else some (x.sdiv y)
  | other _ => none

example : BinaryOperator.onWords .slash (BitVec.intMin 32) (-1) = some (BitVec.intMin 32) := by
  decide

namespace Node

variable {names : String → BitVec 32}

def word (names : String → BitVec 32) : Node → Option (BitVec 32)
  | literal l => some (BitVec.ofNat 32 (decimalValue l.raw.toList))
  | identifier i => some (names i.name)
  | unary _ .plus a => a.word names
  | unary _ .minus a => (a.word names).map (-·)
  | binary _ operator a b => do operator.onWords (← a.word names) (← b.word names)
  | _ => none

def exactValue (names : String → BitVec 32) : Node → Int
  | literal l => decimalValue l.raw.toList
  | identifier i => (names i.name).toInt
  | unary _ .plus a => a.exactValue names
  | unary _ .minus a => - a.exactValue names
  | binary _ .plus a b => a.exactValue names + b.exactValue names
  | binary _ .minus a b => a.exactValue names - b.exactValue names
  | binary _ .star a b => a.exactValue names * b.exactValue names
  | _ => 0

def divides : Node → Bool
  | unary _ _ a => a.divides
  | binary _ operator a b => operator == .slash || a.divides || b.divides
  | _ => false

/-- From left to right, a division is reached whose right side is zero. -/
inductive DividesByZero (names : String → BitVec 32) : Node → Prop
  | here {pos : Position} {a b : Node} {x : BitVec 32} : a.word names = some x →
      b.word names = some 0 → DividesByZero names (.binary pos .slash a b)
  | operand {pos : Position} {operator : UnaryOperator} {a : Node} : DividesByZero names a →
      DividesByZero names (.unary pos operator a)
  | left {pos : Position} {operator : BinaryOperator} {a b : Node} : DividesByZero names a →
      DividesByZero names (.binary pos operator a b)
  | right {pos : Position} {operator : BinaryOperator} {a b : Node} {x : BitVec 32} :
      a.word names = some x → DividesByZero names b →
      DividesByZero names (.binary pos operator a b)

inductive Integral (st : Stack) (names : String → BitVec 32) : Node → Prop
  | literal {pos : Position} {digits : List Char} : digits ≠ [] →
      (∀ c ∈ digits, c.isDigit = true) → digits.length ≤ digitLimit →
      Integral st names (.literal ⟨pos, .integer, String.ofList digits⟩)
  | identifier {i : Identifier} {v : Variable} : st.findVariable i.name = some v →
      v.value = .integer (names i.name).toInt → Integral st names (.identifier i)
  | unary {pos : Position} {operator : UnaryOperator} {a : Node} :
      operator = .plus ∨ operator = .minus → Integral st names a →
      Integral st names (.unary pos operator a)
  | binary {pos : Position} {operator : BinaryOperator} {a b : Node} :
      operator ∈ [BinaryOperator.plus, .minus, .star, .slash] → Integral st names a →
      Integral st names b → Integral st names (.binary pos operator a b)

def height : Node → Nat
  | unary _ _ a => a.height + 1
  | binary _ _ a b => max a.height b.height + 1
  | _ => 1

theorem height_pos (e : Node) : 0 < e.height := by
  cases e <;> simp [height]

theorem DividesByZero.word_eq_none {e : Node} (divides : e.DividesByZero names) :
    e.word names = none := by
  induction divides with
  | here left right => simp [word, left, right, BinaryOperator.onWords]
  | @operand pos operator a _ ih => cases operator <;> simp [word, ih]
  | left _ ih => simp [word, ih]
  | right left _ ih => simp [word, left, ih]

end Node

theorem wrapWord_eq_toInt (n : Int) : wrapWord n = (BitVec.ofInt 32 n).toInt := by
  rw [BitVec.toInt_ofInt]
  rfl

theorem BinaryOperator.apply_words {operator : BinaryOperator}
    (known : operator ∈ [BinaryOperator.plus, .minus, .star, .slash]) (x y : BitVec 32) :
    operator.apply (.integer x.toInt) (.integer y.toInt) =
      match operator.onWords x y with
      | some w => .ok (.integer w.toInt)
      | none => fail .divideByZero := by
  have wrapped (n : Int) (w : BitVec 32) (same : w.toInt = n.bmod (2 ^ 32)) :
      Except.map Value.ofInt (.ok n : Except Stop Int) = .ok (.integer w.toInt) := by
    rw [same]
    rfl
  cases operator with
  | plus => exact wrapped _ _ (BitVec.toInt_add x y)
  | minus => exact wrapped _ _ BitVec.toInt_sub
  | star => exact wrapped _ _ (BitVec.toInt_mul x y)
  | slash =>
    simp only [apply, onIntegers, onWords]
    by_cases zero : y = 0
    · rw [if_pos zero, zero]
      rfl
    · have nonzero : y.toInt ≠ 0 := fun same => zero (BitVec.toInt_inj.1 same)
      rw [if_neg zero, if_neg nonzero]
      exact wrapped _ _ (BitVec.toInt_sdiv x y)
  | other => simp at known

theorem BinaryOperator.onWords_eq_none {operator : BinaryOperator} {x y : BitVec 32}
    (known : operator ∈ [BinaryOperator.plus, .minus, .star, .slash])
    (none : operator.onWords x y = .none) : operator = .slash ∧ y = 0 := by
  cases operator with
  | slash =>
    rw [onWords] at none
    split at none
    · next zero => exact ⟨rfl, zero⟩
    · cases none
  | other => simp at known
  | _ => cases none

theorem UnaryOperator.minus_word (x : BitVec 32) :
    UnaryOperator.apply .minus (.integer x.toInt) = .ok (.integer (-x).toInt) := by
  rw [BitVec.toInt_neg]
  rfl

/-- What may become of an expression of integers: the nesting there is does not suffice for it, it
gives its word, or it comes to a division by zero. -/
inductive WordOutcome (names : String → BitVec 32) (n : Nat) (e : Node) :
    Except Stop Result → Prop
  | exhausted : n < 2 * e.height → WordOutcome names n e (breakDown .exhausted)
  | word {w : BitVec 32} : e.word names = some w →
      WordOutcome names n e (.ok (.value (.integer w.toInt)))
  | divided {r : Report Fault} : r.cause = .divideByZero → e.DividesByZero names →
      WordOutcome names n e (.error (.report r))

section Evaluation

variable {st : Stack} {names : String → BitVec 32} {n : Nat} {pos : Position} {a b : Node}

theorem evaluate_literal {digits : List Char} (some : digits ≠ [])
    (each : ∀ c ∈ digits, c.isDigit = true) (short : digits.length ≤ digitLimit) :
    evaluate st (n + 2) (.literal ⟨pos, .integer, String.ofList digits⟩) =
      .ok (.value (.integer (BitVec.ofNat 32 (decimalValue digits)).toInt)) := by
  have read : integerOfLiteral (String.ofList digits) = .ok (decimalValue digits : Int) := by
    rw [integerOfLiteral_of_digits some each, wholeValue, if_neg (Nat.not_lt.2 short)]
    rfl
  rw [evaluate, Value.ofLiteral, read, BitVec.toInt_ofNat']
  rfl

theorem evaluate_identifier {i : Identifier} {v : Variable} {w : BitVec 32}
    (found : st.findVariable i.name = some v) (holds : v.value = .integer w.toInt) :
    evaluate st (n + 2) (.identifier i) = .ok (.value (.integer w.toInt)) := by
  have value : st.valueOf i.name = .ok (.integer w.toInt) := by
    cases st with
    | nil => cases found
    | cons s st => simp only [Stack.valueOf, found, holds]
  rw [evaluate, value]
  rfl

theorem WordOutcome.placed {e : Node} {x : Except Stop Result} (outcome : WordOutcome names n e x)
    (pos : Position) : WordOutcome names n e (placed pos x) := by
  cases outcome with
  | exhausted low => exact .exhausted low
  | word word => exact .word word
  | divided cause divides => exact .divided (by rw [Report.cause_locate, cause]) divides

theorem unary_outcome {operator : UnaryOperator} (known : operator = .plus ∨ operator = .minus)
    (operand : WordOutcome names n a (evaluate st n a)) :
    WordOutcome names (n + 2) (.unary pos operator a)
      (evaluate st (n + 2) (.unary pos operator a)) := by
  rw [evaluate]
  apply WordOutcome.placed
  generalize evaluate st n a = x at operand
  cases operand with
  | exhausted low => exact .exhausted (by rw [Node.height]; omega)
  | divided cause divides => exact .divided cause (.operand divides)
  | @word w word =>
    change WordOutcome _ _ _ (Result.signed operator (.value (.integer w.toInt)))
    rw [Result.signed_value]
    rcases known with rfl | rfl
    · exact .word word
    · rw [UnaryOperator.minus_word]
      exact .word (by rw [Node.word, word]; rfl)

theorem binary_outcome {operator : BinaryOperator}
    (known : operator ∈ [BinaryOperator.plus, .minus, .star, .slash])
    (left : WordOutcome names n a (evaluate st n a))
    (right : WordOutcome names n b (evaluate st n b)) :
    WordOutcome names (n + 2) (.binary pos operator a b)
      (evaluate st (n + 2) (.binary pos operator a b)) := by
  rw [evaluate]
  apply WordOutcome.placed
  generalize evaluate st n a = x at left
  generalize evaluate st n b = y at right
  cases left with
  | exhausted low => exact .exhausted (by rw [Node.height]; omega)
  | divided cause divides => exact .divided cause (.left divides)
  | @word u word =>
    cases right with
    | exhausted low => exact .exhausted (by rw [Node.height]; omega)
    | divided cause divides => exact .divided cause (.right word divides)
    | @word w word' =>
      change WordOutcome _ _ _ (placedDivision b.pos
        ((operator.apply (.integer u.toInt) (.integer w.toInt)).map Result.value))
      rw [BinaryOperator.apply_words known]
      have whole : (Node.binary pos operator a b).word names = operator.onWords u w := by
        rw [Node.word, word, word']
        rfl
      cases result : operator.onWords u w with
      | some z => exact .word (whole.trans result)
      | none =>
        obtain ⟨rfl, rfl⟩ := BinaryOperator.onWords_eq_none known result
        exact .divided rfl (.here word word')

theorem low_outcome (e : Node) (low : n < 2) : WordOutcome names n e (evaluate st n e) := by
  have some := e.height_pos
  match n with
  | 0 | 1 => exact .exhausted (by omega)

theorem evaluate_outcome {e : Node} (integral : e.Integral st names) (n : Nat) :
    WordOutcome names n e (evaluate st n e) := by
  induction integral generalizing n with
  | @literal pos digits some each short =>
    match n with
    | 0 | 1 => exact low_outcome _ (by omega)
    | n + 2 =>
      rw [evaluate_literal some each short]
      exact .word (by rw [Node.word, String.toList_ofList])
  | identifier found holds =>
    match n with
    | 0 | 1 => exact low_outcome _ (by omega)
    | n + 2 =>
      rw [evaluate_identifier found holds]
      exact .word rfl
  | unary known _ ih =>
    match n with
    | 0 | 1 => exact low_outcome _ (by omega)
    | n + 2 => exact unary_outcome known (ih n)
  | binary known _ _ ihLeft ihRight =>
    match n with
    | 0 | 1 => exact low_outcome _ (by omega)
    | n + 2 => exact binary_outcome known (ihLeft n) (ihRight n)

end Evaluation

theorem Node.Integral.word_eq {st : Stack} {names : String → BitVec 32} {e : Node}
    (integral : e.Integral st names) (undivided : e.divides = false) :
    e.word names = some (BitVec.ofInt 32 (e.exactValue names)) := by
  induction integral with
  | literal => rw [word, exactValue, BitVec.ofInt_natCast]
  | identifier => rw [word, exactValue, BitVec.ofInt_toInt]
  | @unary pos operator a known _ ih =>
    rw [divides] at undivided
    rcases known with rfl | rfl
    · exact ih undivided
    · rw [word, ih undivided, exactValue, BitVec.ofInt_neg]
      rfl
  | @binary pos operator a b known _ _ ihLeft ihRight =>
    simp only [divides, Bool.or_eq_false_iff, beq_eq_false_iff_ne] at undivided
    obtain ⟨⟨noDivision, left⟩, right⟩ := undivided
    have operands : (Node.binary pos operator a b).word names =
        operator.onWords (BitVec.ofInt 32 (a.exactValue names))
          (BitVec.ofInt 32 (b.exactValue names)) := by
      rw [word, ihLeft left, ihRight right]
      rfl
    rw [operands]
    cases operator with
    | plus => rw [exactValue, BitVec.ofInt_add]; rfl
    | minus =>
      rw [exactValue, Int.sub_eq_add_neg, BitVec.ofInt_add, BitVec.ofInt_neg]
      exact congrArg some (BitVec.sub_eq_add_neg _ _)
    | star => rw [exactValue, BitVec.ofInt_mul]; rfl
    | slash => exact absurd rfl noDivision
    | other => simp at known

/-- An expression of integers gives the integer that is the signed value of its word, and it fails
with a division by zero exactly where it comes to one, unless the nesting there is does not suffice
for its height. Without divisions its integer is the exact one, wrapped once. -/
theorem integers_compute_in_words {st : Stack} {names : String → BitVec 32} {e : Node}
    (integral : e.Integral st names) (n : Nat) :
    (evaluate st n e = breakDown .exhausted ∧ n < 2 * e.height) ∨
    ((∀ x, e.word names = some x → evaluate st n e = .ok (.value (.integer x.toInt))) ∧
      (e.word names = none ↔ e.DividesByZero names) ∧
      ((∃ r, evaluate st n e = .error (.report r) ∧ r.kind = .divideByZero) ↔
        e.DividesByZero names) ∧
      (e.divides = false →
        evaluate st n e = .ok (.value (.integer (wrapWord (e.exactValue names)))))) := by
  have outcome := evaluate_outcome integral n
  generalize evaluate st n e = r at outcome ⊢
  cases outcome with
  | exhausted low => exact .inl ⟨rfl, low⟩
  | @word w word =>
    have undivided : ¬ e.DividesByZero names := by
      intro divides
      rw [divides.word_eq_none] at word
      cases word
    refine .inr ⟨fun x same => ?_, ?_, ?_, fun noDivision => ?_⟩
    · rw [word] at same
      cases same
      rfl
    · simp [word, undivided]
    · simp [undivided]
    · rw [integral.word_eq noDivision] at word
      cases word
      rw [wrapWord_eq_toInt]
  | @divided r cause divides =>
    have none := divides.word_eq_none
    refine .inr ⟨fun x same => ?_, ?_, ?_, fun noDivision => ?_⟩
    · rw [none] at same
      cases same
    · simp [none, divides]
    · exact ⟨fun _ => divides, fun _ => ⟨r, rfl, congrArg Fault.kind cause⟩⟩
    · rw [integral.word_eq noDivision] at none
      cases none

-- `a / (b - 4294967297)` divides the least word by minus one, `-a / (b * 3)` divides by zero.
theorem integers_compute_least_quotient :
    let names (name : String) : BitVec 32 := if name = "a" then BitVec.intMin 32 else 0
    let st : Stack := [{ variableTable := [("b", ⟨.integer 0, true⟩)] },
      { variableTable := [("a", ⟨.integer (-2147483648), false⟩)] }]
    let a : Node := .identifier ⟨.start, "a"⟩
    let b : Node := .identifier ⟨.start, "b"⟩
    let number (raw : String) : Node := .literal ⟨.start, .integer, raw⟩
    let quotient : Node := .binary .start .slash a (.binary .start .minus b (number "4294967297"))
    let failing : Node :=
      .binary .start .slash (.unary .start .minus a) (.binary .start .star b (number "3"))
    (quotient.Integral st names ∧
      evaluate st 6 quotient = .ok (.value (.integer (-2147483648)))) ∧
    (failing.Integral st names ∧ failing.DividesByZero names ∧
      ∃ r, evaluate st 6 failing = .error (.report r) ∧ r.kind = .divideByZero) := by
  intro names st a b number quotient failing
  have isA : a.Integral st names :=
    .identifier (v := ⟨.integer (-2147483648), false⟩) (by decide) (by decide)
  have isB : b.Integral st names := .identifier (v := ⟨.integer 0, true⟩) (by decide) (by decide)
  have isNumber (digits : List Char) (some : digits ≠ []) (all : digits.all Char.isDigit = true)
      (short : digits.length ≤ digitLimit) : (number (String.ofList digits)).Integral st names :=
    .literal some (List.all_eq_true.1 all) short
  have large : (number "4294967297").Integral st names :=
    isNumber "4294967297".toList (by decide) (by decide) (by decide)
  have three : (number "3").Integral st names :=
    isNumber "3".toList (by decide) (by decide) (by decide)
  have isQuotient : quotient.Integral st names :=
    .binary (by decide) isA (.binary (by decide) isB large)
  have isFailing : failing.Integral st names :=
    .binary (by decide) (.unary (.inr rfl) isA) (.binary (by decide) isB three)
  have divides : failing.DividesByZero names :=
    .here (x := BitVec.intMin 32) (by decide) (by decide)
  refine ⟨⟨isQuotient, ?_⟩, isFailing, divides, ?_⟩
  · rcases integers_compute_in_words isQuotient 6 with ⟨_, low⟩ | ⟨gives, _⟩
    · exact absurd low (by decide)
    · exact gives (BitVec.intMin 32) (by decide)
  · rcases integers_compute_in_words isFailing 6 with ⟨_, low⟩ | ⟨_, _, fails, _⟩
    · exact absurd low (by decide)
    · exact fails.2 divides

end PlZero
