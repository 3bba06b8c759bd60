import PlZero.Scope
import PlZero.Value.Operations

set_option autoImplicit false

/-!
Expressions and conditions: what they evaluate to in a stack of scopes. A fault takes the position
of the innermost node that can tell one; a division by zero that of its right operand. In a tree
that no source text has, a condition may stand where an expression should; it gives its truth, which
a plus sign leaves as it is and which nothing else can work with.
-/

namespace PlZero

def placed {α : Type} (p : Position) : Except Stop α → Except Stop α
  | .ok a => .ok a
  | .error f => .error (f.locate p)

def Failure.locateDivision (p : Position) : Stop → Stop
  | .report r => .report (if r.cause = .divideByZero then r.locate p.line p.column else r)
  | .breakdown b => .breakdown b

def placedDivision {α : Type} (p : Position) : Except Stop α → Except Stop α
  | .ok a => .ok a
  | .error f => .error (f.locateDivision p)

def Stack.valueOf (st : Stack) (name : String) : Except Stop Value :=
  match st with
  | [] => breakDown .noScope
  | _ => match st.findVariable name with
    | some v => .ok v.value
    | none => fail (.nameNotFound name)

inductive Result
  | value (v : Value)
  | truth (b : Bool)

namespace Result

def toValue : Result → Except Stop Value
  | value v => .ok v
  | truth _ => breakDown .notValue

def toDatum : Result → Datum
  | value v => .value v
  | truth _ => .unsupported "bool"

/-- A sign before a result. Whether there is such a sign is asked before the operand is looked
at. -/
def signed : UnaryOperator → Result → Except Stop Result
  | .plus, r => .ok r
  | .other symbol, _ => fail (.unexpectedUnary symbol)
  | .minus, r => do return value (← UnaryOperator.apply .minus (← r.toValue))

/-- A result as a value of a type. Whether there are casts to it is asked before the operand is
looked at. -/
def cast : DataType → Result → Except Stop Result
  | target, value v => (Value.cast target v).map value
  | .invalid, truth _ => fail (.unsupportedCast .invalid)
  | _, truth _ => breakDown .notValue

@[simp] theorem toValue_value (v : Value) : (value v).toValue = .ok v := rfl

theorem signed_value (operator : UnaryOperator) (v : Value) :
    signed operator (value v) = (operator.apply v).map value := by
  cases operator with
  | plus | other _ => rfl
  | minus => cases h : UnaryOperator.apply .minus v <;> simp [signed, h, bind, Except.bind] <;> rfl

end Result

mutual

/-- What an expression gives. The number bounds its nesting: an expression takes two of it, a
condition one. -/
def evaluate (st : Stack) : Nat → Node → Except Stop Result
  | 0, _ | 1, _ => breakDown .exhausted
  | n + 2, node =>
    match node with
    | .literal l => placed l.pos ((Value.ofLiteral l.type l.raw).map .value)
    | .identifier i => placed i.pos ((st.valueOf i.name).map .value)
    | .unary pos operator operand => placed pos do
      Result.signed operator (← evaluate st n operand)
    | .binary pos operator left right => placed pos do
      let l ← evaluate st n left
      let r ← evaluate st n right
      placedDivision right.pos do
        return .value (← operator.apply (← l.toValue) (← r.toValue))
    | .typecast pos target operand => placed pos do
      Result.cast target (← evaluate st n operand)
    | .condition c => (holds st (n + 1) c).map .truth
    | node => .error (.ofCauseAt node.pos (.unrecognizedExpression node.variety))

def holds (st : Stack) : Nat → Condition Node → Except Stop Bool
  | 0, _ => breakDown .exhausted
  | n + 1, c => placed c.pos do
    let left ← evaluate st n c.left
    if c.isOdd then (← left.toValue).isOdd
    else match c.operator, c.right with
      | some operator, some right =>
        let right ← evaluate st n right
        operator.apply (← left.toValue) (← right.toValue)
      | operator, _ => fail (.invalidComparison operator)

end

end PlZero
