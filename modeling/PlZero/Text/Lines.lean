set_option autoImplicit false

namespace PlZero.Text

def consLine (c : Char) : List (List Char) → List (List Char)
  | [] => [[c]]
  | line :: lines => (c :: line) :: lines

def splitLines : List Char → List (List Char)
  | [] => []
  | c :: cs => if c = '\n' then [] :: splitLines cs else consLine c (splitLines cs)

def lines (s : String) : List String := (splitLines s.toList).map String.ofList

def unifyNewlines : List Char → List Char
  | [] => []
  | '\r' :: '\n' :: cs => '\n' :: unifyNewlines cs
  | c :: cs => (if c = '\r' then '\n' else c) :: unifyNewlines cs

def chomp (line : String) : String :=
  String.ofList (line.toList.reverse.dropWhile (· == '\r')).reverse

end PlZero.Text
