import PlZero.Expression
import PlZero.Proofs.HeldNumbers
import PlZero.Proofs.LiteralValues
import PlZero.Proofs.Outcomes

set_option autoImplicit false

namespace PlZero

open Number WellFormed

namespace Value

def Fits : Value → Prop
  | integer n => -2 ^ 31 ≤ n ∧ n ≤ 2 ^ 31 - 1
  | float x => Format.single.fit x = x
  | invalid | text _ => True

theorem fits_ofInt (n : Int) : (ofInt n).Fits := by
  have low := minWord_le_wrapWord n
  have high := wrapWord_le_maxWord n
  simp only [minWord, maxWord] at low high
  simp only [ofInt, Fits]
  omega

theorem fits_ofFloating (x : Floating) : (ofFloating x).Fits :=
  Format.fit_fit Format.sound_single x

end Value

/-- The value that a literal stands for, by its digits or by its text. A number with a point is
read as the nearest double before it is rounded to a single. -/
inductive Literal.Denotes : Literal → Value → Prop
  | integer {pos : Position} {digits : List Char} : Whole digits →
      Denotes ⟨pos, .integer, String.ofList digits⟩ (.integer (wrapWord (decimalValue digits)))
  | float {pos : Position} {whole fraction : List Char} : Whole whole →
      (∀ c ∈ fraction, c.isDigit = true) →
      Denotes ⟨pos, .float, String.ofList (whole ++ '.' :: fraction)⟩
        (.float (Format.single.fit (Decimal.toFloating .double false
          ⟨decimalValue (whole ++ fraction), -(fraction.length : Int)⟩)))
  | string {pos : Position} {raw : String} : Denotes ⟨pos, .string, raw⟩ (.text raw)

namespace Literal

variable {l : Literal} {v : Value}

theorem Denotes.fits (denotes : l.Denotes v) : v.Fits := by
  cases denotes with
  | integer => exact Value.fits_ofInt _
  | float => exact Value.fits_ofFloating _
  | string => trivial

theorem Denotes.ne_invalid (denotes : l.Denotes v) : v ≠ .invalid := by
  cases denotes <;> exact nofun

theorem denotes_of_ofLiteral (formed : WellFormed.Literal Lexicon l)
    (value : Value.ofLiteral l.type l.raw = .ok v) : l.Denotes v := by
  obtain ⟨pos, type, raw⟩ := l
  obtain ⟨known, holds⟩ := formed
  cases type with
  | invalid => exact absurd rfl known
  | string =>
    cases value
    exact .string
  | integer =>
    obtain ⟨digits, eq, whole⟩ := holds.exists_whole
    obtain ⟨some, each⟩ := whole.digits_of
    change raw = _ at eq
    subst eq
    have read := integerOfLiteral_of_digits some each
    simp only [Value.ofLiteral, read, wholeValue] at value
    split at value
    · cases value
    · cases value
      exact .integer whole
  | float =>
    obtain ⟨whole, fraction, eq, formed, each'⟩ := holds.exists_point
    obtain ⟨some, each⟩ := formed.digits_of
    change raw = _ at eq
    subst eq
    have read := singleOfLiteral_of_digits some each each'
    simp only [Value.ofLiteral, read] at value
    cases value
    -- A single is rounded to itself, so that rounding twice has no effect.
    have once : Value.ofFloating (Decimal.toSingle false
        ⟨decimalValue (whole ++ fraction), -(fraction.length : Int)⟩) =
        .float (Decimal.toSingle false
          ⟨decimalValue (whole ++ fraction), -(fraction.length : Int)⟩) :=
      congrArg Value.float (Format.fit_fit Format.sound_single _)
    rw [once]
    exact .float formed each'

end Literal

section Operations

abbrev Yields {α : Type} (Good : α → Prop) (x : Except Stop α) : Prop :=
  Gives Good (fun _ => True) x

theorem Yields.all {α : Type} {Good : α → Prop} (every : ∀ a, Good a) (x : Except Stop α) :
    Yields Good x := by
  cases x with
  | ok a => exact .ok (every a)
  | error => exact .error trivial

theorem Yields.map_all {α β : Type} {Good : β → Prop} {f : α → β} (every : ∀ a, Good (f a))
    (x : Except Stop α) : Yields Good (x.map f) :=
  Gives.map (Yields.all (fun _ => trivial) x) fun a _ => every a

theorem Yields.placedDivision {α : Type} {Good : α → Prop} {x : Except Stop α} (p : Position)
    (yields : Yields Good x) : Yields Good (placedDivision p x) := by
  cases yields with
  | ok good => exact .ok good
  | error => exact .error trivial

theorem Value.yields_ofLiteral (type : DataType) (raw : String) :
    Yields Fits (ofLiteral type raw) := by
  cases type with
  | invalid => exact .error trivial
  | integer => exact Yields.map_all fits_ofInt _
  | float => exact Yields.map_all fits_ofFloating _
  | string => exact .ok trivial

theorem BinaryOperator.yields_apply (operator : BinaryOperator) (left right : Value) :
    Yields Value.Fits (operator.apply left right) := by
  unfold apply
  split
  · exact Yields.map_all Value.fits_ofInt _
  · cases operator with
    | plus => exact .ok trivial
    | _ => exact .error trivial
  · split
    · refine Gives.bind (Yields.all (fun _ => trivial) left.toFloating) fun x _ _ => ?_
      refine Gives.bind (Yields.all (fun _ => trivial) right.toFloating) fun y _ _ => ?_
      exact Yields.map_all Value.fits_ofFloating (operator.onFloats x y)
    · cases operator <;> exact .error trivial

theorem Value.yields_cast {v : Value} (fits : v.Fits) (target : DataType) :
    Yields Fits (v.cast target) := by
  unfold cast
  split
  · exact .ok trivial
  · exact .ok fits
  · split
    · exact .ok (fits_ofInt _)
    · exact .error trivial
  · exact Yields.map_all fits_ofInt _
  · exact .ok fits
  · exact .ok (fits_ofFloating _)
  · exact .ok (fits_ofFloating _)
  · exact .error trivial
  · exact .error trivial

def Result.Fits : Result → Prop
  | value v => v.Fits
  | truth _ => True

theorem Result.yields_signed {r : Result} (fits : r.Fits) (operator : UnaryOperator) :
    Yields Fits (signed operator r) := by
  cases operator with
  | plus => exact .ok fits
  | other => exact .error trivial
  | minus =>
    cases r with
    | truth => exact .error trivial
    | value v =>
      rw [signed_value]
      cases v with
      | integer n => exact .ok (Value.fits_ofInt (-n))
      | float x => exact .ok (Value.fits_ofFloating x.neg)
      | invalid | text => exact .error trivial

theorem Result.yields_cast {r : Result} (fits : r.Fits) (target : DataType) :
    Yields Fits (r.cast target) := by
  cases r with
  | value v => exact Gives.map (Value.yields_cast fits target) fun _ => id
  | truth => cases target <;> exact .error trivial

end Operations

namespace Stack

variable {st : Stack}

def Fits (st : Stack) : Prop := ∀ s ∈ st, ∀ entry ∈ s.variableTable, entry.2.value.Fits

theorem yields_valueOf (fits : st.Fits) (name : String) : Yields Value.Fits (st.valueOf name) := by
  unfold valueOf
  split
  · exact .error trivial
  · split
    · next v found =>
      obtain ⟨s, mem, here⟩ := List.exists_of_findSome?_eq_some found
      obtain ⟨earlier, later, table, _⟩ := List.lookup_eq_some_iff.1 here
      exact .ok (fits s mem (name, v) (by simp [table]))
    · exact .error trivial

theorem yields_evaluate (fits : st.Fits) (n : Nat) (e : Node) :
    Yields Result.Fits (evaluate st n e) := by
  -- By the nesting that is left, of which an operand takes two.
  induction n using Nat.strongRecOn generalizing e with
  | ind n ih =>
    match n with
    | 0 | 1 => exact .error trivial
    | n + 2 =>
      have inner := ih n (by omega)
      cases e with
      | literal l =>
        rw [evaluate]
        exact .placed (.map (Value.yields_ofLiteral l.type l.raw) fun _ => id) fun _ => id
      | identifier i =>
        rw [evaluate]
        exact .placed (.map (yields_valueOf fits i.name) fun _ => id) fun _ => id
      | unary pos operator a =>
        rw [evaluate]
        refine .placed (.bind (inner a) fun r _ good => ?_) fun _ => id
        exact Result.yields_signed good operator
      | binary pos operator a b =>
        rw [evaluate]
        refine .placed (.bind (inner a) fun l _ _ => .bind (inner b) fun r _ _ => ?_) fun _ => id
        apply Yields.placedDivision
        refine .bind (Yields.all (fun _ => trivial) l.toValue) fun v _ _ => ?_
        refine .bind (Yields.all (fun _ => trivial) r.toValue) fun w _ _ => ?_
        exact Gives.map (operator.yields_apply v w) fun _ => id
      | typecast pos target a =>
        rw [evaluate]
        refine .placed (.bind (inner a) fun r _ good => ?_) fun _ => id
        exact Result.yields_cast good target
      | condition c =>
        rw [evaluate]
        exact Yields.map_all (fun _ => trivial) _
      | _ => exact .error trivial

end Stack

end PlZero
