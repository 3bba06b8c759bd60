import PlZero.Number.Decimal

set_option autoImplicit false

namespace PlZero.Number

/-- The single that a decimal is read as: the double nearest to it, rounded once more. -/
def Decimal.toSingle (negative : Bool) (d : Decimal) : Floating :=
  Format.single.fit (d.toFloating .double negative)

namespace Floating

def numerator (mantissa : Nat) (exponent : Int) : Nat := raise 2 mantissa exponent

def denominator (exponent : Int) : Nat := raise 2 1 (-exponent)

def nearestDecimal (count mantissa : Nat) (exponent : Int) : Decimal :=
  if mantissa = 0 then ⟨0, 0⟩
  else .nearest count (numerator mantissa exponent) (denominator exponent)

def counts (bound : Nat) : List Nat := (List.range bound).map (· + 1)

def renderDigits : Nat := 9

def describeDigits : Nat := 17

def renderCount (negative : Bool) (mantissa : Nat) (exponent : Int) : Nat :=
  ((counts renderDigits).find? fun count =>
    ((nearestDecimal count mantissa exponent).toSingle negative).equals
      (.finite negative mantissa exponent)).getD renderDigits

def renderLayout (count : Nat) : Layout := ⟨count, [], 'E'⟩

def render : Floating → String
  | nan => "NaN"
  | infinite negative => if negative then "-Infinity" else "Infinity"
  | finite negative mantissa exponent =>
    let count := renderCount negative mantissa exponent
    String.ofList
      ((nearestDecimal count mantissa exponent).write (renderLayout count) negative)

def shortestDecimal (negative : Bool) (mantissa : Nat) (exponent : Int) : Decimal :=
  if mantissa = 0 then ⟨0, 0⟩
  else
    let num := numerator mantissa exponent
    let den := denominator exponent
    ((counts describeDigits).findSome? fun count =>
      (Decimal.neighbours count num den).find? fun d =>
        (d.toFloating .double negative).equals (.finite negative mantissa exponent)).getD
      (.nearest describeDigits num den)

def describeLayout : Layout := ⟨16, ['.', '0'], 'e'⟩

def describe : Floating → String
  | nan => "nan"
  | infinite negative => if negative then "-inf" else "inf"
  | finite negative mantissa exponent =>
    String.ofList ((shortestDecimal negative mantissa exponent).write describeLayout negative)

end Floating

end PlZero.Number
