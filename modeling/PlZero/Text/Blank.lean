set_option autoImplicit false

namespace PlZero.Text

def isWideSpace (c : Char) : Bool :=
  let n := c.toNat
  n == 133 || n == 160 || n == 5760 || (8192 ≤ n && n ≤ 8202) || n == 8232 || n == 8233 ||
    n == 8239 || n == 8287 || n == 12288

def isAsciiSpace (c : Char) : Bool := c == ' ' || (9 ≤ c.toNat && c.toNat ≤ 13)

/-- White space of all scripts, with the four separators that close the ASCII controls. -/
def isSpace (c : Char) : Bool :=
  isAsciiSpace c || (28 ≤ c.toNat && c.toNat ≤ 31) || isWideSpace c

def trimBy (p : Char → Bool) (cs : List Char) : List Char :=
  ((cs.dropWhile p).reverse.dropWhile p).reverse

def strip (s : String) : String := String.ofList (trimBy isSpace s.toList)

end PlZero.Text
