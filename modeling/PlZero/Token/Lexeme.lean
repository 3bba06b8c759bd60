import PlZero.Number.Digits
import PlZero.Token

set_option autoImplicit false

namespace PlZero

open Number

def isBlank (c : Char) : Bool := c == ' ' || c == '\t' || c == '\r' || c == '\n'

def isWordStart (c : Char) : Bool := c.isAlpha || c == '_'

def isWordChar (c : Char) : Bool := c.isAlphanum || c == '_'

def isBinaryDigit (c : Char) : Bool := c == '0' || c == '1'

def isOctalDigit (c : Char) : Bool := '0' ≤ c && c ≤ '7'

def isHexDigit (c : Char) : Bool :=
  c.isDigit || ('a' ≤ c && c ≤ 'f') || ('A' ≤ c && c ≤ 'F')

inductive Flaw
  | unterminatedString
  | malformedFloat (digits : String)
  | tooManyDigits
deriving DecidableEq

structure Lexeme where
  reading : Except Flaw (TokenKind × String)
  taken : List Char
  rest : List Char

namespace Lexeme

def numeral (n : Nat) : Except Flaw (TokenKind × String) :=
  let digits := Nat.toDigits 10 n
  if digitLimit < digits.length then .error .tooManyDigits
  else .ok (.number, String.ofList digits)

def radix (base : Nat) (mark : List Char) (isDigit : Char → Bool) (text : List Char) : Lexeme :=
  let digits := text.takeWhile isDigit
  ⟨numeral (digitsValue base digits), mark ++ digits, text.dropWhile isDigit⟩

def decimal (text : List Char) : Lexeme :=
  let digits := text.takeWhile Char.isDigit
  match text.dropWhile Char.isDigit with
  | '.' :: after =>
    let fraction := after.takeWhile Char.isDigit
    if fraction.isEmpty then
      ⟨.error (.malformedFloat (String.ofList digits)), digits, '.' :: after⟩
    else
      let float := digits ++ '.' :: fraction
      ⟨.ok (.float, String.ofList float), float, after.dropWhile Char.isDigit⟩
  | rest => ⟨.ok (.number, String.ofList digits), digits, rest⟩

/-- A leading zero announces octal, hexadecimal or binary digits, if such digits follow. -/
def number : List Char → Lexeme
  | '0' :: mark :: after =>
    if isOctalDigit mark then radix 8 [] isOctalDigit ('0' :: mark :: after)
    else if (mark == 'x' || mark == 'X') && after.head?.any isHexDigit then
      radix 16 ['0', mark] isHexDigit after
    else if (mark == 'b' || mark == 'B') && after.head?.any isBinaryDigit then
      radix 2 ['0', mark] isBinaryDigit after
    else if mark == '.' then decimal ('0' :: mark :: after)
    else ⟨.ok (.number, "0"), ['0'], mark :: after⟩
  | ['0'] => ⟨.ok (.number, "0"), ['0'], []⟩
  | text => decimal text

/-- The text up to the closing quote and the rest after it. A backslash protects the character
after it from closing the string and stays in the text. -/
def closeString (quote : Char) : List Char → Option (List Char × List Char)
  | [] => none
  | ['\\'] => none
  | '\\' :: c :: cs => (closeString quote cs).map fun (body, rest) => ('\\' :: c :: body, rest)
  | c :: cs =>
    if c = quote then some ([], cs)
    else (closeString quote cs).map fun (body, rest) => (c :: body, rest)

def string (quote : Char) (text : List Char) : Lexeme :=
  match closeString quote text with
  | some (body, rest) => ⟨.ok (.string, String.ofList body), quote :: (body ++ [quote]), rest⟩
  | none => ⟨.error .unterminatedString, quote :: text, []⟩

def word (text : List Char) : Lexeme :=
  let letters := text.takeWhile isWordChar
  ⟨.ok (.ofWord letters, String.ofList letters), letters, text.dropWhile isWordChar⟩

def single (kind : TokenKind) (c : Char) (rest : List Char) : Lexeme :=
  ⟨.ok (kind, String.singleton c), [c], rest⟩

def symbolKind : Char → TokenKind
  | '.' => .dot
  | ',' => .comma
  | ';' => .semicolon
  | '?' => .question
  | '!' => .bang
  | '=' => .equal
  | '#' => .hash
  | '<' => .less
  | '>' => .greater
  | '+' => .plus
  | '-' => .minus
  | '*' => .star
  | '/' => .slash
  | '(' => .leftParen
  | ')' => .rightParen
  | _ => .invalid

def symbol : Char → List Char → Lexeme
  | ':', '=' :: rest => ⟨.ok (.assign, ":="), [':', '='], rest⟩
  | '<', '=' :: rest => ⟨.ok (.lessEqual, "<="), ['<', '='], rest⟩
  | '>', '=' :: rest => ⟨.ok (.greaterEqual, ">="), ['>', '='], rest⟩
  | c, rest => single (symbolKind c) c rest

def read (c : Char) (cs : List Char) : Lexeme :=
  if isWordStart c then word (c :: cs)
  else if c.isDigit then number (c :: cs)
  else if c == '\'' || c == '"' then string c cs
  else symbol c cs

theorem taken_append_decimal (text : List Char) :
    (decimal text).taken ++ (decimal text).rest = text := by
  have split := List.takeWhile_append_dropWhile (p := Char.isDigit) (l := text)
  unfold decimal
  dsimp only
  split
  · next after h =>
    rw [h] at split
    split
    · exact split
    · simp [split]
  · next h => exact split

theorem taken_append_number (text : List Char) :
    (number text).taken ++ (number text).rest = text := by
  unfold number
  split
  · split
    · simp [radix]
    split
    · simp [radix]
    split
    · simp [radix]
    split
    · exact taken_append_decimal _
    · rfl
  · rfl
  · exact taken_append_decimal _

theorem append_of_closeString {quote : Char} {text body rest : List Char}
    (h : closeString quote text = some (body, rest)) : body ++ quote :: rest = text := by
  fun_induction closeString quote text generalizing body with
  | case1 => simp at h
  | case2 => simp at h
  | case3 c cs ih =>
    obtain ⟨⟨b, r⟩, hb, heq⟩ := Option.map_eq_some_iff.1 h
    obtain ⟨rfl, rfl⟩ := Prod.mk.inj heq
    simp [ih hb]
  | case4 => simp_all
  | case5 _ _ _ _ _ ih =>
    obtain ⟨⟨b, r⟩, hb, heq⟩ := Option.map_eq_some_iff.1 h
    obtain ⟨rfl, rfl⟩ := Prod.mk.inj heq
    simp [ih hb]

theorem taken_append_symbol (c : Char) (cs : List Char) :
    (symbol c cs).taken ++ (symbol c cs).rest = c :: cs := by
  unfold symbol; split <;> rfl

theorem taken_append_rest (c : Char) (cs : List Char) :
    (read c cs).taken ++ (read c cs).rest = c :: cs := by
  unfold read
  split
  · exact List.takeWhile_append_dropWhile
  split
  · exact taken_append_number _
  split
  · unfold string
    split
    · next body rest h => simp [append_of_closeString h]
    · simp
  · exact taken_append_symbol c cs

theorem taken_decimal_ne_nil {c : Char} (h : c.isDigit = true) (cs : List Char) :
    (decimal (c :: cs)).taken ≠ [] := by
  unfold decimal
  dsimp only
  split
  · split
    · simp [h]
    · simp
  · simp [h]

theorem taken_number_ne_nil {c : Char} (h : c.isDigit = true) (cs : List Char) :
    (number (c :: cs)).taken ≠ [] := by
  unfold number
  split
  · split
    · simp [radix, isOctalDigit]
    split
    · simp [radix]
    split
    · simp [radix]
    split
    · next heq _ _ _ _ => exact taken_decimal_ne_nil (by decide) _
    · simp
  · simp
  · next heq => exact taken_decimal_ne_nil h _

theorem isWordChar_of_isWordStart {c : Char} (h : isWordStart c = true) : isWordChar c = true := by
  simp only [isWordStart, isWordChar, Char.isAlphanum, Bool.or_eq_true] at *
  rcases h with h | h
  · exact .inl (.inl h)
  · exact .inr h

theorem taken_ne_nil (c : Char) (cs : List Char) : (read c cs).taken ≠ [] := by
  unfold read
  split
  · next h => simp [word, isWordChar_of_isWordStart h]
  split
  · next h => exact taken_number_ne_nil h cs
  split
  · unfold string
    split <;> simp
  · unfold symbol
    split <;> simp [single]

end Lexeme

end PlZero
