import PlZero.Number.Format

set_option autoImplicit false

namespace PlZero.Number

structure Decimal where
  digits : Nat
  exponent : Int
deriving DecidableEq

namespace Decimal

def magnitude (d : Decimal) : Int := d.exponent + (Nat.toDigits 10 d.digits).length - 1

def lastPlace (count num den : Nat) : Int := floorLog 10 num den + 1 - count

def nearest (count num den : Nat) : Decimal :=
  let e := lastPlace count num den
  ⟨roundQuotient (raise 10 num (-e)) (raise 10 den e), e⟩

/-- The decimals of `count` digits on both sides of `num / den`, the nearer one first. -/
def neighbours (count num den : Nat) : List Decimal :=
  let e := lastPlace count num den
  let low := raise 10 num (-e) / raise 10 den e
  let first := roundQuotient (raise 10 num (-e)) (raise 10 den e)
  [⟨first, e⟩, ⟨if first = low then low + 1 else low, e⟩]

/-- A decimal as a number of a format. Far beyond the formats it is infinite or zero at once. -/
def toFloating (f : Format) (negative : Bool) (d : Decimal) : Floating :=
  if d.digits = 0 then f.zero negative
  else if 400 < d.magnitude then .infinite negative
  else if d.magnitude < -400 then f.zero negative
  else f.round negative (raise 10 d.digits d.exponent) (raise 10 1 (-d.exponent))

end Decimal

structure Layout where
  plainBelow : Int
  wholeMark : List Char
  exponentMark : Char

namespace Layout

def plainFrom : Int := -4

def zeros (n : Int) : List Char := List.replicate n.toNat '0'

def exponentText (e : Int) : List Char :=
  let digits := Nat.toDigits 10 e.natAbs
  (if e < 0 then '-' else '+') :: (zeros (2 - digits.length) ++ digits)

def write (l : Layout) (digits : List Char) (magnitude : Int) : List Char :=
  if plainFrom ≤ magnitude && magnitude < l.plainBelow then
    if magnitude < 0 then '0' :: '.' :: (zeros (-magnitude - 1) ++ digits)
    else if (digits.length : Int) ≤ magnitude + 1 then
      digits ++ zeros (magnitude + 1 - digits.length) ++ l.wholeMark
    else
      digits.take (magnitude + 1).toNat ++ '.' :: digits.drop (magnitude + 1).toNat
  else
    let fraction := digits.drop 1
    digits.take 1 ++ (if fraction.isEmpty then [] else '.' :: fraction) ++
      l.exponentMark :: exponentText magnitude

end Layout

def stripZeros (digits : List Char) : List Char :=
  (digits.reverse.dropWhile (· == '0')).reverse

namespace Decimal

def write (l : Layout) (negative : Bool) (d : Decimal) : List Char :=
  let text :=
    if d.digits = 0 then l.write ['0'] 0
    else l.write (stripZeros (Nat.toDigits 10 d.digits)) d.magnitude
  if negative then '-' :: text else text

end Decimal

end PlZero.Number
