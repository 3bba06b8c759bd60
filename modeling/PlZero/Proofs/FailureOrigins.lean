import PlZero.Expression
import PlZero.Proofs.LiteralValues

set_option autoImplicit false

namespace PlZero

open Number WellFormed

def Kind.documented : List Kind :=
  [.undefinedName, .redeclared, .reassignedConstant, .divideByZero, .valueType, .stackOverflow]

def Fault.Documented (f : Fault) : Prop :=
  f.kind ∈ Kind.documented ∧ ∀ type, f ≠ .invalidLiteral type

theorem Fault.Documented.of_kind {f : Fault} (k : Kind) (kind : f.kind = k)
    (mem : k ∈ Kind.documented) (other : ∀ type, f ≠ .invalidLiteral type) : f.Documented :=
  ⟨kind ▸ mem, other⟩

/-- Evaluating a node comes to evaluating another one. A condition counts as a node here. -/
inductive Evaluating (st : Stack) : Nat → Node → Nat → Node → Prop
  | here {n : Nat} {e : Node} : Evaluating st n e n e
  | operand {n k : Nat} {pos : Position} {operator : UnaryOperator} {a e : Node} :
      Evaluating st n a k e → Evaluating st (n + 2) (.unary pos operator a) k e
  | left {n k : Nat} {pos : Position} {operator : BinaryOperator} {a b e : Node} :
      Evaluating st n a k e → Evaluating st (n + 2) (.binary pos operator a b) k e
  | right {n k : Nat} {pos : Position} {operator : BinaryOperator} {a b e : Node} {r : Result} :
      evaluate st n a = .ok r → Evaluating st n b k e →
      Evaluating st (n + 2) (.binary pos operator a b) k e
  | cast {n k : Nat} {pos : Position} {target : DataType} {a e : Node} :
      Evaluating st n a k e → Evaluating st (n + 2) (.typecast pos target a) k e
  | tested {n k : Nat} {c : Condition Node} {e : Node} : Evaluating st n c.left k e →
      Evaluating st (n + 2) (.condition c) k e
  | compared {n k : Nat} {c : Condition Node} {b e : Node} {r : Result} : c.isOdd = false →
      c.right = some b → evaluate st n c.left = .ok r → Evaluating st n b k e →
      Evaluating st (n + 2) (.condition c) k e

/-- The places where evaluation breaks down: an integer literal with too many digits, the cast of a
text that is an integer numeral with too many digits, and the oddness of an infinite number. -/
inductive Breaks (st : Stack) : Nat → Node → Breakdown → Prop
  | literal {n : Nat} {pos : Position} {raw : String} : digitLimit < raw.length →
      Breaks st n (.literal ⟨pos, .integer, raw⟩) .tooManyDigits
  | cast {n : Nat} {pos : Position} {a : Node} {s : String} {negative : Bool}
      {digits : List Char} : evaluate st n a = .ok (.value (.text s)) →
      wholeNumeral? (Text.trimBy Text.isAsciiSpace s.toList) = some (negative, digits) →
      digitLimit < digits.length → Breaks st (n + 2) (.typecast pos .integer a) .tooManyDigits
  | odd {n : Nat} {c : Condition Node} {negative : Bool} : c.isOdd = true →
      evaluate st n c.left = .ok (.value (.float (.infinite negative))) →
      Breaks st (n + 2) (.condition c) .oddOfInfinity

def BreaksIn (st : Stack) (n : Nat) (e : Node) (b : Breakdown) : Prop :=
  ∃ k leaf, Evaluating st n e k leaf ∧ Breaks st k leaf b

/-- A failure that is a documented fault, the nesting that is used up, or a breakdown with a
source. -/
inductive Explained (Source : Breakdown → Prop) : Stop → Prop
  | reported {r : Report Fault} : r.cause.Documented → Explained Source (.report r)
  | exhausted : Explained Source (.breakdown .exhausted)
  | broken {b : Breakdown} : Source b → Explained Source (.breakdown b)

variable {Source Source' : Breakdown → Prop} {f : Stop} {α β : Type}

theorem Explained.imp (h : Explained Source f) (sources : ∀ b, Source b → Source' b) :
    Explained Source' f := by
  cases h with
  | reported documented => exact .reported documented
  | exhausted => exact .exhausted
  | broken source => exact .broken (sources _ source)

theorem Explained.locate (h : Explained Source f) (p : Position) :
    Explained Source (f.locate p) := by
  cases h with
  | reported documented => exact .reported (by rwa [Report.cause_locate])
  | exhausted => exact .exhausted
  | broken source => exact .broken source

theorem Explained.locateDivision (h : Explained Source f) (p : Position) :
    Explained Source (f.locateDivision p) := by
  cases h with
  | @reported r documented =>
    refine .reported ?_
    split
    · rwa [Report.cause_locate]
    · exact documented
  | exhausted => exact .exhausted
  | broken source => exact .broken source

inductive Settled (Source : Breakdown → Prop) (Good : α → Prop) : Except Stop α → Prop
  | ok {a : α} : Good a → Settled Source Good (.ok a)
  | error {f : Stop} : Explained Source f → Settled Source Good (.error f)

namespace Settled

variable {Good : α → Prop} {Good' : β → Prop} {x : Except Stop α}

theorem imp {Better : α → Prop} (h : Settled Source Good x) (sources : ∀ b, Source b → Source' b)
    (good : ∀ a, Good a → Better a) : Settled Source' Better x := by
  cases h with
  | ok holds => exact .ok (good _ holds)
  | error explained => exact .error (explained.imp sources)

theorem fault {cause : Fault} (documented : cause.Documented) :
    Settled Source Good (fail cause) := .error (.reported documented)

theorem bind {g : α → Except Stop β} (h : Settled Source Good x)
    (next : ∀ a, x = .ok a → Good a → Settled Source Good' (g a)) :
    Settled Source Good' (x >>= g) := by
  cases h with
  | ok holds => exact next _ rfl holds
  | error explained => exact .error explained

theorem map {g : α → β} (h : Settled Source Good x) (good : ∀ a, Good a → Good' (g a)) :
    Settled Source Good' (x.map g) := by
  cases h with
  | ok holds => exact .ok (good _ holds)
  | error explained => exact .error explained

theorem placed {p : Position} (h : Settled Source Good x) : Settled Source Good (placed p x) := by
  cases h with
  | ok holds => exact .ok holds
  | error explained => exact .error (explained.locate p)

theorem placedDivision {p : Position} (h : Settled Source Good x) :
    Settled Source Good (placedDivision p x) := by
  cases h with
  | ok holds => exact .ok holds
  | error explained => exact .error (explained.locateDivision p)

end Settled

abbrev Sound (x : Except Stop α) : Prop := Settled (fun _ => False) (fun _ => True) x

theorem Sound.ok (a : α) : Sound (.ok a) := Settled.ok trivial

theorem Sound.settled {x : Except Stop α} (h : Sound x) : Settled Source (fun _ => True) x :=
  h.imp (fun _ => False.elim) fun _ => id

theorem BinaryOperator.sound_onIntegers {operator : BinaryOperator}
    (known : operator.kind ≠ .invalid) (a b : Int) : Sound (operator.onIntegers a b) := by
  cases operator with
  | plus | minus | star => exact .ok _
  | slash =>
    change Sound (if b = 0 then fail .divideByZero else .ok (Int.tdiv a b))
    split
    · exact .fault (.of_kind .divideByZero rfl (by decide) nofun)
    · exact .ok _
  | other => exact absurd rfl known

theorem BinaryOperator.sound_onFloats {operator : BinaryOperator}
    (known : operator.kind ≠ .invalid) (x y : Floating) : Sound (operator.onFloats x y) := by
  cases operator with
  | plus | minus | star => exact .ok _
  | slash =>
    change Sound (if y.isZero then fail .divideByZero else .ok (x.div .double y))
    split
    · exact .fault (.of_kind .divideByZero rfl (by decide) nofun)
    · exact .ok _
  | other => exact absurd rfl known

theorem Value.sound_toFloating (v : Value) : Sound v.toFloating := by
  cases v with
  | integer | float => exact .ok _
  | invalid | text => exact .fault (.of_kind .valueType rfl (by decide) nofun)

theorem BinaryOperator.sound_apply {operator : BinaryOperator} (known : operator.kind ≠ .invalid)
    (left right : Value) : Sound (operator.apply left right) := by
  unfold apply
  split
  · exact (sound_onIntegers known _ _).map fun _ => id
  · cases operator with
    | plus => exact .ok _
    | minus | star | slash => exact .fault (.of_kind .valueType rfl (by decide) nofun)
    | other => exact absurd rfl known
  · split
    · refine left.sound_toFloating.bind fun _ _ _ => right.sound_toFloating.bind fun _ _ _ => ?_
      exact (sound_onFloats known _ _).bind fun _ _ _ => .ok trivial
    · cases operator with
      | plus | minus | star | slash => exact .fault (.of_kind .valueType rfl (by decide) nofun)
      | other => exact absurd rfl known

theorem UnaryOperator.sound_apply {operator : UnaryOperator} (known : operator.kind ≠ .invalid)
    (v : Value) : Sound (operator.apply v) := by
  cases operator with
  | plus => exact .ok _
  | minus =>
    cases v with
    | integer | float => exact .ok _
    | invalid | text => exact .fault (.of_kind .valueType rfl (by decide) nofun)
  | other => exact absurd rfl known

theorem Comparison.sound_holds {operator : Comparison} (known : operator.kind ≠ .invalid)
    (order : Option Ordering) : Sound (operator.holds order) := by
  cases operator with
  | other => exact absurd rfl known
  | _ => exact .ok _

theorem Comparison.sound_apply {operator : Comparison} (known : operator.kind ≠ .invalid)
    (left right : Value) : Sound (operator.apply left right) := by
  unfold apply
  split
  · exact sound_holds known _
  · cases operator with
    | equal | unequal => exact .ok _
    | other => exact absurd rfl known
    | _ => exact .fault (.of_kind .valueType rfl (by decide) nofun)
  · split
    · exact left.sound_toFloating.bind fun _ _ _ => right.sound_toFloating.bind fun _ _ _ =>
        sound_holds known _
    · exact .fault (.of_kind .valueType rfl (by decide) nofun)

theorem Value.settled_isOdd (v : Value) :
    Settled (fun b => b = .oddOfInfinity ∧ ∃ negative, v = .float (.infinite negative))
      (fun _ => True) v.isOdd := by
  cases v with
  | integer => exact .ok trivial
  | float x =>
    cases x with
    | finite | nan => exact .ok trivial
    | infinite negative => exact .error (.broken ⟨rfl, negative, rfl⟩)
  | invalid | text => exact .fault (.of_kind .valueType rfl (by decide) nofun)

theorem Value.settled_cast {target : DataType} (known : target ≠ .invalid) (v : Value) :
    Settled (fun b => b = .tooManyDigits ∧ target = .integer ∧ ∃ s negative digits,
        v = .text s ∧ digitLimit < digits.length ∧
        wholeNumeral? (Text.trimBy Text.isAsciiSpace s.toList) = some (negative, digits))
      (fun _ => True) (Value.cast target v) := by
  cases target with
  | invalid => exact absurd rfl known
  | string => exact .ok trivial
  | float =>
    cases v with
    | invalid => exact .fault (.of_kind .valueType rfl (by decide) nofun)
    | _ => exact .ok trivial
  | integer =>
    cases v with
    | invalid => exact .fault (.of_kind .valueType rfl (by decide) nofun)
    | integer => exact .ok trivial
    | float x =>
      unfold Value.cast
      dsimp only
      split
      · exact .ok trivial
      · exact .fault (.of_kind .valueType rfl (by decide) nofun)
    | text s =>
      change Settled _ _ ((orStop (integerOfText s)).map ofInt)
      unfold integerOfText
      split
      · exact .ok trivial
      · next negative digits numeral =>
        unfold wholeValue
        split
        · next long => exact .error (.broken ⟨rfl, rfl, s, negative, digits, rfl, long, numeral⟩)
        · exact .ok trivial

theorem Settled.within {st : Stack} {n n' : Nat} {e e' : Node} {Good : α → Prop} {x : Except Stop α}
    (h : Settled (BreaksIn st n e) Good x)
    (comes : ∀ {k leaf}, Evaluating st n e k leaf → Evaluating st n' e' k leaf) :
    Settled (BreaksIn st n' e') Good x := by
  refine h.imp ?_ fun _ => id
  rintro b ⟨k, leaf, evaluating, breaks⟩
  exact ⟨k, leaf, comes evaluating, breaks⟩

section Expressions

variable {st : Stack} (some : st ≠ [])

include some in
theorem Stack.sound_valueOf (name : String) : Sound (st.valueOf name) := by
  cases st with
  | nil => exact absurd rfl some
  | cons s st =>
    unfold valueOf
    dsimp only
    split
    · exact .ok _
    · exact .fault (.of_kind .undefinedName rfl (by decide) nofun)

include some in
theorem settled_evaluate {e : Node} (formed : Expression Lexicon e) (n : Nat) :
    Settled (BreaksIn st n e) (fun r => ∃ v, r = .value v) (evaluate st n e) := by
  have valued (v : Value) : ∃ v', Result.value v = .value v' := ⟨v, rfl⟩
  induction formed generalizing n with
  | @identifier i _ =>
    match n with
    | 0 | 1 => exact .error .exhausted
    | n + 2 =>
      rw [evaluate]
      refine .placed ((Stack.sound_valueOf some i.name).settled.map ?_)
      exact fun v _ => valued v
  | @literal l formed =>
    match n with
    | 0 | 1 => exact .error .exhausted
    | n + 2 =>
      rw [evaluate]
      refine .placed ?_
      rcases Value.ofLiteral_of_lexicon formed with ⟨v, value⟩ | ⟨type, long, value⟩
      · rw [value]
        exact .ok (valued v)
      · rw [value]
        obtain ⟨pos, type', raw⟩ := l
        cases type
        exact .error (.broken ⟨_, _, .here, .literal long⟩)
  | @unary _ operator a known _ ih =>
    match n with
    | 0 | 1 => exact .error .exhausted
    | n + 2 =>
      rw [evaluate]
      refine .placed (.bind ((ih n).within .operand) ?_)
      rintro _ _ ⟨v, rfl⟩
      rw [Result.signed_value]
      exact (UnaryOperator.sound_apply known v).settled.map fun v _ => valued v
  | @binary _ operator a b known _ _ left right =>
    match n with
    | 0 | 1 => exact .error .exhausted
    | n + 2 =>
      rw [evaluate]
      refine .placed (.bind ((left n).within .left) ?_)
      rintro _ evaluated ⟨v, rfl⟩
      refine .bind ((right n).within (.right evaluated)) ?_
      rintro _ _ ⟨w, rfl⟩
      refine .placedDivision ((BinaryOperator.sound_apply known v w).settled.bind ?_)
      exact fun v _ _ => .ok (valued v)
  | @typecast pos target a known _ ih =>
    match n with
    | 0 | 1 => exact .error .exhausted
    | n + 2 =>
      rw [evaluate]
      refine .placed (.bind ((ih n).within .cast) ?_)
      rintro _ evaluated ⟨v, rfl⟩
      refine .map (Value.settled_cast known v |>.imp ?_ fun _ => id) fun v _ => valued v
      rintro b ⟨rfl, rfl, s, negative, digits, rfl, long, numeral⟩
      exact ⟨_, _, .here, .cast evaluated numeral long⟩

include some in
theorem settled_holds {c : PlZero.Condition Node} (formed : WellFormed.Condition Lexicon c)
    (n : Nat) :
    Settled (BreaksIn st (n + 1) (.condition c)) (fun _ => True) (holds st n c) := by
  cases n with
  | zero => exact .error .exhausted
  | succ n =>
    rw [holds]
    cases formed with
    | odd formed =>
      refine .placed (.bind ((settled_evaluate some formed n).within fun comes => .tested comes) ?_)
      rintro _ evaluated ⟨v, rfl⟩
      refine v.settled_isOdd.imp ?_ fun _ => id
      rintro b ⟨rfl, negative, rfl⟩
      exact ⟨_, _, .here, .odd rfl evaluated⟩
    | comparison known formed formed' =>
      refine .placed (.bind ((settled_evaluate some formed n).within fun comes => .tested comes) ?_)
      rintro _ evaluated ⟨v, rfl⟩
      refine .bind ((settled_evaluate some formed' n).within (.compared rfl rfl evaluated)) ?_
      rintro _ _ ⟨w, rfl⟩
      exact (Comparison.sound_apply known v w).settled

end Expressions

end PlZero
