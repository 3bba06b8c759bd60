import PlZero.Number.Scale

set_option autoImplicit false

namespace PlZero.Number

inductive Floating
  | nan
  | infinite (negative : Bool)
  | finite (negative : Bool) (mantissa : Nat) (exponent : Int)
deriving DecidableEq, Inhabited

namespace Floating

def isFinite : Floating → Bool
  | finite _ _ _ => true
  | _ => false

def isZero : Floating → Bool
  | finite _ mantissa _ => mantissa == 0
  | _ => false

def isNegative : Floating → Bool
  | nan => false
  | infinite negative => negative
  | finite negative _ _ => negative

def neg : Floating → Floating
  | nan => nan
  | infinite negative => infinite !negative
  | finite negative mantissa exponent => finite (!negative) mantissa exponent

def signed (negative : Bool) (n : Nat) : Int := if negative then -n else n

def order : Floating → Floating → Option Ordering
  | nan, _ => none
  | _, nan => none
  | infinite s, infinite t =>
    some (if s = t then .eq else if s then .lt else .gt)
  | infinite s, finite _ _ _ => some (if s then .lt else .gt)
  | finite _ _ _, infinite t => some (if t then .gt else .lt)
  | finite s m e, finite t n d =>
    let x := signed s (raise 2 m (e - d))
    let y := signed t (raise 2 n (d - e))
    some (if x < y then .lt else if x = y then .eq else .gt)

def equals (x y : Floating) : Bool := x.order y == some .eq

def truncate : Floating → Option Int
  | finite s m e => some (signed s (raise 2 m e / raise 2 1 (-e)))
  | _ => none

def leavesRemainder (mantissa : Nat) (exponent : Int) : Bool :=
  raise 2 mantissa exponent % raise 2 2 (-exponent) != 0

end Floating

end PlZero.Number
