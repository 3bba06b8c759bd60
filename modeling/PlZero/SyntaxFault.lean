import PlZero.Report
import PlZero.Token

set_option autoImplicit false

namespace PlZero

inductive Place
  | unnamed
  | programEnd
  | afterProgram
  | afterStatement
  | constantName
  | afterConstant (name : String)
  | variableName
  | procedureName
  | afterProcedure (name : String)
  | afterTarget (name : String)
  | callTarget
  | inputTarget
  | afterCondition
  | beginEnd
  | castEnd
  | groupEnd
deriving DecidableEq

def Place.text : Place → String
  | .unnamed => ""
  | .programEnd => " at end of program"
  | .afterProgram => " after the closing '.'"
  | .afterStatement => " after statement"
  | .constantName => " in constant declaration"
  | .afterConstant name => s!" after constant '{name}'"
  | .variableName => " in variable declaration"
  | .procedureName => " after 'procedure'"
  | .afterProcedure name => s!" after procedure '{name}'"
  | .afterTarget name => s!" after '{name}'"
  | .callTarget => " after 'call'"
  | .inputTarget => " after '?'"
  | .afterCondition => " after condition"
  | .beginEnd => " to close 'begin'"
  | .castEnd => " to close typecast"
  | .groupEnd => " to close expression"

inductive SyntaxFault
  | unterminatedString
  | malformedFloat (digits : String)
  | expected (kind : TokenKind) (place : Place) (found : TokenKind)
  | expectedLiteral (found : TokenKind)
  | expectedSeparator (found : TokenKind)
  | expectedComparison (found : TokenKind)
  | expectedExpression (found : TokenKind)
  | nestedTooDeeply (found : TokenKind)
deriving DecidableEq

namespace SyntaxFault

def kind : SyntaxFault → Kind
  | unterminatedString => .unterminatedString
  | malformedFloat _ => .malformedFloat
  | _ => .unexpectedToken

def message : SyntaxFault → String
  | unterminatedString => "Unterminated string."
  | malformedFloat digits => s!"Expected digits after the decimal point in '{digits}.'"
  | expected kind place found => s!"Expected {kind.label}{place.text} but got {found.label}"
  | expectedLiteral found => s!"Expected an integer, float, or string but got {found.label}"
  | expectedSeparator found => s!"Expected COMMA or SEMICOLON but got {found.label}"
  | expectedComparison found => s!"Expected a comparison operator but got {found.label}"
  | expectedExpression found => s!"Expected an expression but got {found.label}"
  | nestedTooDeeply found => s!"Input nested too deeply at {found.label}"

end SyntaxFault

instance : Describe SyntaxFault := ⟨SyntaxFault.kind, SyntaxFault.message⟩

end PlZero
