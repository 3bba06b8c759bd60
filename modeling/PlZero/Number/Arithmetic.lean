import PlZero.Number.Format

set_option autoImplicit false

namespace PlZero.Number

namespace Floating

/-- The sum, rounded once. A sum that vanishes is negative only if both terms are. -/
def add (f : Format) : Floating → Floating → Floating
  | nan, _ => nan
  | _, nan => nan
  | infinite s, infinite t => if s = t then infinite s else nan
  | infinite s, finite _ _ _ => infinite s
  | finite _ _ _, infinite t => infinite t
  | finite s m e, finite t n d =>
    let sum := signed s (raise 2 m (e - d)) + signed t (raise 2 n (d - e))
    let least := if e < d then e else d
    if sum = 0 then f.zero (s && t)
    else f.round (decide (sum < 0)) (raise 2 sum.natAbs least) (raise 2 1 (-least))

def sub (f : Format) (x y : Floating) : Floating := add f x y.neg

def mul (f : Format) : Floating → Floating → Floating
  | nan, _ => nan
  | _, nan => nan
  | infinite s, y => if y.isZero then nan else infinite (s != y.isNegative)
  | x, infinite t => if x.isZero then nan else infinite (x.isNegative != t)
  | finite s m e, finite t n d => f.round (s != t) (raise 2 (m * n) (e + d)) (raise 2 1 (-(e + d)))

def div (f : Format) : Floating → Floating → Floating
  | nan, _ => nan
  | _, nan => nan
  | infinite _, infinite _ => nan
  | infinite s, finite t _ _ => infinite (s != t)
  | finite s _ _, infinite t => f.zero (s != t)
  | finite s m e, finite t n d => f.round (s != t) (raise 2 m (e - d)) (raise 2 n (d - e))

end Floating

end PlZero.Number
