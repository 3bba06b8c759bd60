import PlZero.Number.Floating

set_option autoImplicit false

namespace PlZero.Number

structure Format where
  precision : Nat
  exponentBits : Nat

namespace Format

def single : Format := ⟨24, 8⟩

def double : Format := ⟨53, 11⟩

def mantissaBound (f : Format) : Nat := Nat.pow 2 f.precision

def normalMantissa (f : Format) : Nat := Nat.pow 2 (f.precision - 1)

def bias (f : Format) : Nat := Nat.pow 2 (f.exponentBits - 1) - 1

def minExponent (f : Format) : Int := 2 - (f.bias : Int) - f.precision

def maxExponent (f : Format) : Int := (f.bias : Int) + 1 - f.precision

def zero (f : Format) (negative : Bool) : Floating := .finite negative 0 f.minExponent

def lastPlace (f : Format) (num den : Nat) : Int :=
  let free := floorLog 2 num den + 1 - f.precision
  if free < f.minExponent then f.minExponent else free

/-- A mantissa that has grown by rounding moves to the next exponent; past the last one is
infinity. -/
def pack (f : Format) (negative : Bool) (mantissa : Nat) (exponent : Int) : Floating :=
  if f.mantissaBound ≤ mantissa then
    if f.maxExponent < exponent + 1 then .infinite negative
    else .finite negative f.normalMantissa (exponent + 1)
  else if f.maxExponent < exponent then .infinite negative
  else .finite negative mantissa exponent

def round (f : Format) (negative : Bool) (num den : Nat) : Floating :=
  if num = 0 then f.zero negative
  else
    let e := f.lastPlace num den
    f.pack negative (roundQuotient (raise 2 num (-e)) (raise 2 den e)) e

def fit (f : Format) : Floating → Floating
  | .nan => .nan
  | .infinite negative => .infinite negative
  | .finite negative mantissa exponent =>
    f.round negative (raise 2 mantissa exponent) (raise 2 1 (-exponent))

def ofInt (f : Format) (n : Int) : Floating := f.round (decide (n < 0)) n.natAbs 1

def decode (f : Format) (bits : Nat) : Floating :=
  let fraction := bits % f.normalMantissa
  let biased := bits / f.normalMantissa % Nat.pow 2 f.exponentBits
  let negative := bits / f.normalMantissa / Nat.pow 2 f.exponentBits % 2 == 1
  if biased = Nat.pow 2 f.exponentBits - 1 then
    if fraction = 0 then .infinite negative else .nan
  else if biased = 0 then .finite negative fraction f.minExponent
  else .finite negative (f.normalMantissa + fraction) (f.minExponent + biased - 1)

def signBit (f : Format) (negative : Bool) : Nat := if negative then Nat.pow 2 f.exponentBits else 0

/-- The pattern of bits of a number of the format; every number that is none has one pattern. -/
def encode (f : Format) : Floating → Nat
  | .nan => (Nat.pow 2 f.exponentBits - 1) * f.normalMantissa + f.normalMantissa / 2
  | .infinite negative =>
    (f.signBit negative + (Nat.pow 2 f.exponentBits - 1)) * f.normalMantissa
  | .finite negative mantissa exponent =>
    if mantissa < f.normalMantissa then f.signBit negative * f.normalMantissa + mantissa
    else
      (f.signBit negative + (exponent - f.minExponent + 1).toNat) * f.normalMantissa +
        (mantissa - f.normalMantissa)

end Format

end PlZero.Number
