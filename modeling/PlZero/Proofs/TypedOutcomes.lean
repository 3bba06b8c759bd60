import PlZero.Expression
import PlZero.Proofs.WellFormed

set_option autoImplicit false

namespace PlZero

open Number

namespace Failure

/-- Stops that come from what a value is, and not from its type. -/
inductive OfValue : Stop → Prop
  | division {r : Report Fault} : r.cause = .divideByZero → OfValue (.report r)
  | nonFinite {r : Report Fault} {text : String} : r.cause = .castOfNonFinite text →
      OfValue (.report r)
  | number {b : Breakdown} : b.label = "ValueError" → OfValue (.breakdown b)

variable {f : Stop}

theorem OfValue.locate (cause : f.OfValue) (p : Position) : (f.locate p).OfValue := by
  cases cause with
  | division zero => exact .division (by rw [Report.cause_locate, zero])
  | nonFinite text => exact .nonFinite (by rw [Report.cause_locate, text])
  | number label => exact .number label

theorem OfValue.locateDivision (cause : f.OfValue) (p : Position) :
    (f.locateDivision p).OfValue := by
  cases f with
  | breakdown => exact cause
  | report r =>
    rw [Failure.locateDivision]
    split
    · exact cause.locate p
    · exact cause

end Failure

inductive Parallel {α : Type} (Related : α → α → Prop) : Except Stop α → Except Stop α → Prop
  | ok {a b : α} : Related a b → Parallel Related (.ok a) (.ok b)
  | error (f : Stop) : Parallel Related (.error f) (.error f)
  | left {f : Stop} {y : Except Stop α} : f.OfValue → Parallel Related (.error f) y
  | right {f : Stop} {x : Except Stop α} : f.OfValue → Parallel Related x (.error f)

namespace Parallel

variable {α β : Type} {Related : α → α → Prop} {Related' : β → β → Prop} {x y : Except Stop α}

theorem bind {g h : α → Except Stop β} (first : Parallel Related x y)
    (next : ∀ a b, Related a b → Parallel Related' (g a) (h b)) :
    Parallel Related' (x >>= g) (y >>= h) := by
  cases first with
  | ok related => exact next _ _ related
  | error f => exact .error f
  | left cause => exact .left cause
  | right cause => exact .right cause

theorem map {g : α → β} (first : Parallel Related x y)
    (results : ∀ a b, Related a b → Related' (g a) (g b)) :
    Parallel Related' (x.map g) (y.map g) := by
  cases first with
  | ok related => exact .ok (results _ _ related)
  | error f => exact .error f
  | left cause => exact .left cause
  | right cause => exact .right cause

theorem placed (p : Position) (first : Parallel Related x y) :
    Parallel Related (placed p x) (placed p y) := by
  cases first with
  | ok related => exact .ok related
  | error f => exact .error _
  | left cause => exact .left (cause.locate p)
  | right cause => exact .right (cause.locate p)

theorem placedDivision (p : Position) (first : Parallel Related x y) :
    Parallel Related (placedDivision p x) (placedDivision p y) := by
  cases first with
  | ok related => exact .ok related
  | error f => exact .error _
  | left cause => exact .left (cause.locateDivision p)
  | right cause => exact .right (cause.locateDivision p)

theorem refl (results : ∀ a, Related a a) (x : Except Stop α) : Parallel Related x x := by
  cases x with
  | ok a => exact .ok (results a)
  | error f => exact .error f

end Parallel

namespace Value

inductive SameType : Value → Value → Prop
  | invalid : SameType .invalid .invalid
  | integers (a b : Int) : SameType (.integer a) (.integer b)
  | floats (x y : Floating) : SameType (.float x) (.float y)
  | texts (s t : String) : SameType (.text s) (.text t)

theorem sameType_iff {v w : Value} : v.SameType w ↔ v.type = w.type := by
  constructor
  · intro same
    cases same <;> rfl
  · intro same
    cases v <;> cases w <;> cases same <;> constructor

theorem SameType.refl (v : Value) : v.SameType v := sameType_iff.2 rfl

end Value

theorem Failure.ofValue_divideByZero : (Failure.ofCause Fault.divideByZero).OfValue :=
  .division rfl

namespace BinaryOperator

variable (operator : BinaryOperator)

theorem parallel_onIntegers (a b c d : Int) :
    Parallel (fun _ _ => True) (operator.onIntegers a b) (operator.onIntegers c d) := by
  cases operator with
  | plus | minus | star => exact .ok trivial
  | other => exact .error _
  | slash =>
    simp only [onIntegers]
    by_cases zero : b = 0
    · rw [if_pos zero]
      exact .left Failure.ofValue_divideByZero
    by_cases zero' : d = 0
    · rw [if_pos zero']
      exact .right Failure.ofValue_divideByZero
    rw [if_neg zero, if_neg zero']
    exact .ok trivial

theorem parallel_onFloats (x y z w : Floating) :
    Parallel (fun _ _ => True) (operator.onFloats x y) (operator.onFloats z w) := by
  cases operator with
  | plus | minus | star => exact .ok trivial
  | other => exact .error _
  | slash =>
    simp only [onFloats]
    by_cases zero : y.isZero = true
    · rw [if_pos zero]
      exact .left Failure.ofValue_divideByZero
    by_cases zero' : w.isZero = true
    · rw [if_pos zero']
      exact .right Failure.ofValue_divideByZero
    rw [if_neg zero, if_neg zero']
    exact .ok trivial

theorem parallel_apply {v v' w w' : Value} (left : v.SameType v') (right : w.SameType w') :
    Parallel Value.SameType (operator.apply v w) (operator.apply v' w') := by
  have floats (x y z w : Floating) : Parallel Value.SameType
      ((operator.onFloats x y).map .ofFloating) ((operator.onFloats z w).map .ofFloating) :=
    (operator.parallel_onFloats x y z w).map fun _ _ _ => .floats _ _
  cases left with
  | invalid => cases right <;> exact .refl .refl _
  | integers a c =>
    cases right with
    | integers b d =>
      exact (operator.parallel_onIntegers a b c d).map fun _ _ _ => .integers _ _
    | floats => exact floats _ _ _ _
    | invalid | texts => exact .refl .refl _
  | floats =>
    cases right with
    | integers | floats => exact floats _ _ _ _
    | invalid | texts => exact .refl .refl _
  | texts =>
    cases right with
    | texts =>
      cases operator with
      | plus => exact .ok (.texts _ _)
      | _ => exact .error _
    | _ => exact .refl .refl _

end BinaryOperator

theorem UnaryOperator.parallel_apply (operator : UnaryOperator) {v w : Value}
    (same : v.SameType w) : Parallel Value.SameType (operator.apply v) (operator.apply w) := by
  cases operator with
  | plus => exact .ok same
  | other => exact .error _
  | minus =>
    cases same with
    | invalid | texts => exact .error _
    | integers => exact .ok (.integers _ _)
    | floats => exact .ok (.floats _ _)

theorem Number.integerOfText_error {s : String} {b : Breakdown}
    (broken : integerOfText s = .error b) : b = .tooManyDigits := by
  unfold integerOfText at broken
  split at broken
  · cases broken
  · next negative digits _ =>
    unfold wholeValue at broken
    split at broken <;> cases broken
    rfl

namespace Value

theorem parallel_truncate (x y : Floating) :
    Parallel SameType (Value.cast .integer (.float x)) (Value.cast .integer (.float y)) := by
  simp only [Value.cast]
  cases x.truncate with
  | none => exact .left (.nonFinite rfl)
  | some n =>
    cases y.truncate with
    | none => exact .right (.nonFinite rfl)
    | some m => exact .ok (.integers _ _)

theorem parallel_integerOfText (s t : String) :
    Parallel SameType (Value.cast .integer (.text s)) (Value.cast .integer (.text t)) := by
  simp only [Value.cast]
  cases first : integerOfText s with
  | error b =>
    rw [integerOfText_error first]
    exact .left (.number rfl)
  | ok n =>
    cases second : integerOfText t with
    | error b =>
      rw [integerOfText_error second]
      exact .right (.number rfl)
    | ok m => exact .ok (.integers _ _)

theorem parallel_cast (target : DataType) {v w : Value} (same : v.SameType w) :
    Parallel SameType (v.cast target) (w.cast target) := by
  cases target with
  | string => exact .ok (.texts _ _)
  | invalid => exact .error _
  | integer =>
    cases same with
    | invalid => exact .error _
    | integers => exact .ok (.integers _ _)
    | floats => exact parallel_truncate _ _
    | texts => exact parallel_integerOfText _ _
  | float =>
    cases same with
    | invalid => exact .error _
    | integers | floats | texts => exact .ok (.floats _ _)

end Value

def Scope.SameTypes (s t : Scope) : Prop :=
  ∀ name, (s.findVariable name).map (·.value.type) = (t.findVariable name).map (·.value.type)

namespace Stack

variable {st st' : Stack}

theorem findVariable_sameType (same : List.Forall₂ Scope.SameTypes st st') (name : String) :
    (st.findVariable name).map (·.value.type) = (st'.findVariable name).map (·.value.type) := by
  induction same with
  | nil => rfl
  | cons here _ ih =>
    have here := here name
    simp only [findVariable, List.findSome?_cons] at ih ⊢
    split <;> split <;> simp_all

theorem parallel_valueOf (same : List.Forall₂ Scope.SameTypes st st') (name : String) :
    Parallel Value.SameType (st.valueOf name) (st'.valueOf name) := by
  have types := findVariable_sameType same name
  cases same with
  | nil => exact .error _
  | cons =>
    simp only [valueOf]
    split
    · next found =>
      rw [found] at types
      obtain ⟨v', found', type⟩ := Option.map_eq_some_iff.1 types.symm
      rw [found']
      exact .ok (Value.sameType_iff.2 type.symm)
    · next absent =>
      rw [absent] at types
      rw [Option.map_eq_none_iff.1 types.symm]
      exact .error _

end Stack

namespace Result

inductive SameType : Result → Result → Prop
  | values {v w : Value} : v.SameType w → SameType (.value v) (.value w)

variable {r r' : Result}

theorem parallel_signed (operator : UnaryOperator) (same : r.SameType r') :
    Parallel SameType (signed operator r) (signed operator r') := by
  obtain ⟨same⟩ := same
  rw [signed_value, signed_value]
  exact (operator.parallel_apply same).map fun _ _ => .values

theorem parallel_cast (target : DataType) (same : r.SameType r') :
    Parallel SameType (r.cast target) (r'.cast target) := by
  obtain ⟨same⟩ := same
  exact (Value.parallel_cast target same).map fun _ _ => .values

theorem parallel_binary (operator : BinaryOperator) {l l' : Result} (left : l.SameType l')
    (right : r.SameType r') :
    Parallel SameType (do return .value (← operator.apply (← l.toValue) (← r.toValue)))
      (do return .value (← operator.apply (← l'.toValue) (← r'.toValue))) := by
  obtain ⟨left⟩ := left
  obtain ⟨right⟩ := right
  exact (operator.parallel_apply left right).map fun _ _ => .values

end Result

section Expressions

variable {Content : TokenKind → String → Prop} {st st' : Stack} {e : Node}

theorem parallel_evaluate (formed : WellFormed.Expression Content e)
    (same : List.Forall₂ Scope.SameTypes st st') (n : Nat) :
    Parallel Result.SameType (evaluate st n e) (evaluate st' n e) := by
  -- By the nesting that is left, of which an operand takes two.
  induction n using Nat.strongRecOn generalizing e with
  | ind n ih =>
    match n with
    | 0 | 1 => exact .error _
    | n + 2 =>
      have inner {a : Node} (formed : WellFormed.Expression Content a) :
          Parallel Result.SameType (evaluate st n a) (evaluate st' n a) :=
        ih n (by omega) formed
      cases formed with
      | identifier =>
        simp only [evaluate]
        exact .placed _ ((Stack.parallel_valueOf same _).map fun _ _ => .values)
      | literal =>
        simp only [evaluate]
        exact .placed _ ((Parallel.refl Value.SameType.refl _).map fun _ _ => .values)
      | unary _ operand =>
        simp only [evaluate]
        exact .placed _ ((inner operand).bind fun _ _ => Result.parallel_signed _)
      | binary _ left right =>
        simp only [evaluate]
        refine .placed _ ((inner left).bind fun _ _ first => ?_)
        refine (inner right).bind fun _ _ second => ?_
        exact .placedDivision _ (Result.parallel_binary _ first second)
      | typecast _ operand =>
        simp only [evaluate]
        exact .placed _ ((inner operand).bind fun _ _ => Result.parallel_cast _)

/-- Unless an expression stops because of a value, it gives values of one type in all stacks with
variables of the same names and types, or it fails in all of them with the same fault at the same
place. -/
theorem types_decide_outcomes (formed : WellFormed.Expression Content e)
    (same : List.Forall₂ Scope.SameTypes st st') (n : Nat)
    (settled : ∀ f, evaluate st n e = .error f → ¬ f.OfValue)
    (settled' : ∀ f, evaluate st' n e = .error f → ¬ f.OfValue) :
    (∃ v w, evaluate st n e = .ok (.value v) ∧ evaluate st' n e = .ok (.value w) ∧
      v.type = w.type) ∨
    ∃ f, evaluate st n e = .error f ∧ evaluate st' n e = .error f := by
  have outcome := parallel_evaluate formed same n
  generalize evaluate st n e = x, evaluate st' n e = y at outcome settled settled'
  cases outcome with
  | ok related =>
    obtain ⟨related⟩ := related
    exact .inl ⟨_, _, rfl, rfl, Value.sameType_iff.1 related⟩
  | error f => exact .inr ⟨f, rfl, rfl⟩
  | left cause => exact absurd cause (settled _ rfl)
  | right cause => exact absurd cause (settled' _ rfl)

-- A sum with a text that is cast, which is no numeral in one of the stacks.
theorem types_decide_outcomes_cast :
    let name (n : String) : Node := .identifier ⟨.start, n⟩
    let e : Node := .binary .start .plus (name "x") (.typecast .start .integer (name "y"))
    let stack (n : Int) (s : String) : Stack :=
      [{ variableTable := [("y", ⟨.text s, true⟩), ("x", ⟨.integer n, false⟩)] }]
    WellFormed.Expression WellFormed.Lexicon e ∧
      List.Forall₂ Scope.SameTypes (stack 3 " -7 ") (stack 40 "seven") ∧
      ∃ v w, evaluate (stack 3 " -7 ") 6 e = .ok (.value v) ∧
        evaluate (stack 40 "seven") 6 e = .ok (.value w) ∧ v.type = w.type := by
  intro name e stack
  have word (c : Char) (start : isWordStart c = true) (other : TokenKind.ofWord [c] = .name) :
      WellFormed.Lexicon .name (String.ofList [c]) := .name start nofun other
  have formed : WellFormed.Expression WellFormed.Lexicon e :=
    .binary nofun (.identifier (word 'x' (by decide) (by decide)))
      (.typecast nofun (.identifier (word 'y' (by decide) (by decide))))
  have same (n m : Int) (s t : String) : List.Forall₂ Scope.SameTypes (stack n s) (stack m t) := by
    refine .cons (fun name => ?_) .nil
    simp only [Scope.findVariable, List.lookup_cons]
    cases name == "y" <;> cases name == "x" <;> rfl
  have first : evaluate (stack 3 " -7 ") 6 e = .ok (.value (.integer (-4))) := by rfl
  have second : evaluate (stack 40 "seven") 6 e = .ok (.value (.integer 40)) := by rfl
  refine ⟨formed, same _ _ _ _, ?_⟩
  have outcome := types_decide_outcomes formed (same 3 40 " -7 " "seven") 6
    (fun f failed => by rw [first] at failed; cases failed)
    (fun f failed => by rw [second] at failed; cases failed)
  rcases outcome with values | ⟨f, failed, _⟩
  · exact values
  · rw [first] at failed
    cases failed

end Expressions

end PlZero
