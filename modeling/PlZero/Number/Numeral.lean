import PlZero.Number.Digits
import PlZero.Number.Shown
import PlZero.Number.Word
import PlZero.Report
import PlZero.Text.Blank
import PlZero.Text.Digit

set_option autoImplicit false

/-!
Numbers read from text. The strict forms are what casts accept: ASCII digits, a sign, and ASCII
blanks at the ends; any other text counts as zero. The liberal forms are what literals accept: also
the digits and blanks of other scripts, and single underscores between digits.
-/

namespace PlZero.Number

def takeSign : List Char → Bool × List Char
  | '+' :: cs => (false, cs)
  | '-' :: cs => (true, cs)
  | cs => (false, cs)

def allDigits (cs : List Char) : Bool := !cs.isEmpty && cs.all Char.isDigit

def wholeNumeral? (cs : List Char) : Option (Bool × List Char) :=
  let (negative, digits) := takeSign cs
  if allDigits digits then some (negative, digits) else none

def wholeValue (negative : Bool) (digits : List Char) : Except Breakdown Int :=
  if digitLimit < digits.length then .error .tooManyDigits
  else .ok (Floating.signed negative (decimalValue digits))

def exponentValue? : List Char → Option Int
  | [] => some 0
  | c :: cs =>
    if c == 'e' || c == 'E' then
      (wholeNumeral? cs).map fun (negative, digits) =>
        Floating.signed negative (decimalValue digits)
    else none

def pointNumeral? (cs : List Char) : Option (Bool × Decimal) :=
  let (negative, unsigned) := takeSign cs
  let whole := unsigned.takeWhile Char.isDigit
  let afterWhole := unsigned.dropWhile Char.isDigit
  let (fraction, rest) := match afterWhole with
    | '.' :: after => (after.takeWhile Char.isDigit, after.dropWhile Char.isDigit)
    | _ => ([], afterWhole)
  if whole.isEmpty && fraction.isEmpty then none
  else (exponentValue? rest).map fun e =>
    (negative, ⟨decimalValue (whole ++ fraction), e - fraction.length⟩)

/-- A text as an integer; what is no integer numeral or out of range counts as zero. -/
def integerOfText (text : String) : Except Breakdown Int :=
  match wholeNumeral? (Text.trimBy Text.isAsciiSpace text.toList) with
  | none => .ok 0
  | some (negative, digits) => do
    let n ← wholeValue negative digits
    return if n < minWord || maxWord < n then 0 else n

def singleOfText (text : String) : Floating :=
  match pointNumeral? (Text.trimBy Text.isAsciiSpace text.toList) with
  | none => Format.single.zero false
  | some (negative, d) => d.toSingle negative

def plainChar (c : Char) : Char :=
  if c.toNat < 127 then c
  else if Text.isWideSpace c then ' '
  else match Text.digit? c with
    | some n => Nat.digitChar n
    | none => c

/-- Leaves out underscores; each has to stand between two digits. -/
def dropUnderscores (before : Char) : List Char → Option (List Char)
  | [] => if before == '_' then none else some []
  | c :: cs =>
    if c == '_' then
      if before.isDigit then dropUnderscores c cs else none
    else if before == '_' && !c.isDigit then none
    else (dropUnderscores c cs).map (c :: ·)

def literalChars? (text : String) : Option (List Char) :=
  dropUnderscores ' ' (Text.trimBy Text.isAsciiSpace (text.toList.map plainChar))

def integerOfLiteral (text : String) : Except Breakdown Int :=
  match (literalChars? text).bind wholeNumeral? with
  | none => .error .notNumeral
  | some (negative, digits) => wholeValue negative digits

def namedNumber? (word : List Char) : Option (Bool → Floating) :=
  let lower := String.ofList (word.map Char.toLower)
  if lower == "inf" || lower == "infinity" then some .infinite
  else if lower == "nan" then some fun _ => .nan
  else none

def singleOfLiteral (text : String) : Except Breakdown Floating :=
  match literalChars? text with
  | none => .error .notNumeral
  | some cs =>
    let (negative, word) := takeSign cs
    match namedNumber? word with
    | some number => .ok (number negative)
    | none => match pointNumeral? cs with
      | some (negative, d) => .ok (d.toSingle negative)
      | none => .error .notNumeral

end PlZero.Number
