import PlZero.Number.Arithmetic
import PlZero.Value

set_option autoImplicit false

/-!
Operations on values. Integers with integers stay integers; a float on either side makes both
floats, computed as doubles and rounded to singles; strings can be joined and tested for equality.
-/

namespace PlZero

open Number

namespace BinaryOperator

def onIntegers (operator : BinaryOperator) (a b : Int) : Except Stop Int :=
  match operator with
  | plus => .ok (a + b)
  | minus => .ok (a - b)
  | star => .ok (a * b)
  | slash => if b = 0 then fail .divideByZero else .ok (Int.tdiv a b)
  | other symbol => fail (.unexpectedBinary symbol)

def onFloats (operator : BinaryOperator) (x y : Floating) : Except Stop Floating :=
  match operator with
  | plus => .ok (x.add .double y)
  | minus => .ok (x.sub .double y)
  | star => .ok (x.mul .double y)
  | slash => if y.isZero then fail .divideByZero else .ok (x.div .double y)
  | other symbol => fail (.unexpectedBinary symbol)

def apply (operator : BinaryOperator) (left right : Value) : Except Stop Value :=
  match left, right with
  | .integer a, .integer b => (operator.onIntegers a b).map .ofInt
  | .text s, .text t =>
    match operator with
    | plus => .ok (.text (s ++ t))
    | other _ => breakDown .foreignOperator
    | _ => fail (.invalidStringOperator operator)
  | _, _ =>
    if left.isNumeric && right.isNumeric then do
      return .ofFloating (← operator.onFloats (← left.toFloating) (← right.toFloating))
    else match operator with
      | other _ => breakDown .foreignOperator
      | _ => fail (.incompatibleTypes operator left.type right.type)

end BinaryOperator

namespace UnaryOperator

def apply (operator : UnaryOperator) (operand : Value) : Except Stop Value :=
  match operator, operand with
  | plus, v => .ok v
  | other symbol, _ => fail (.unexpectedUnary symbol)
  | minus, .integer n => .ok (.ofInt (-n))
  | minus, .float x => .ok (.ofFloating x.neg)
  | minus, v => fail (.invalidSign v.type)

end UnaryOperator

namespace Comparison

/-- What a comparison says of two things in a given order; without an order they are unequal. -/
def holds (operator : Comparison) (order : Option Ordering) : Except Stop Bool :=
  match operator with
  | equal => .ok (order == some .eq)
  | unequal => .ok (order != some .eq)
  | less => .ok (order == some .lt)
  | greater => .ok (order == some .gt)
  | lessEqual => .ok (order == some .lt || order == some .eq)
  | greaterEqual => .ok (order == some .gt || order == some .eq)
  | other symbol => fail (.unexpectedComparison symbol)

def orderOfIntegers (a b : Int) : Ordering := if a < b then .lt else if a = b then .eq else .gt

def apply (operator : Comparison) (left right : Value) : Except Stop Bool :=
  match left, right with
  | .integer a, .integer b => operator.holds (some (orderOfIntegers a b))
  | .text s, .text t =>
    match operator with
    | equal => .ok (s == t)
    | unequal => .ok (s != t)
    | other _ => breakDown .foreignOperator
    | _ => fail (.unorderedStrings operator)
  | _, _ =>
    if left.isNumeric && right.isNumeric then do
      operator.holds ((← left.toFloating).order (← right.toFloating))
    else fail (.incomparableTypes left.type right.type)

end Comparison

namespace Value

def isOdd : Value → Except Stop Bool
  | integer n => .ok (n % 2 != 0)
  | float (.finite _ mantissa exponent) => .ok (Floating.leavesRemainder mantissa exponent)
  | float .nan => .ok true
  | float (.infinite _) => breakDown .oddOfInfinity
  | v => fail (.oddOfType v.type)

/-- A value as a value of another type. Text that is no numeral becomes zero. -/
def cast (target : DataType) (v : Value) : Except Stop Value :=
  match target, v with
  | .string, v => .ok (text v.render)
  | .integer, integer n => .ok (integer n)
  | .integer, float x =>
    match x.truncate with
    | some n => .ok (ofInt n)
    | none => fail (.castOfNonFinite x.render)
  | .integer, text s => (orStop (integerOfText s)).map ofInt
  | .float, float x => .ok (float x)
  | .float, integer n => .ok (ofFloating (Format.single.ofInt n))
  | .float, text s => .ok (ofFloating (singleOfText s))
  | .invalid, _ => fail (.unsupportedCast .invalid)
  | target, invalid => fail (.impossibleCast .invalid target)

end Value

end PlZero
