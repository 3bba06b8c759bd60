import PlZero.Position

set_option autoImplicit false

namespace PlZero

inductive Kind
  | parse
  | unexpectedToken
  | unterminatedString
  | malformedFloat
  | runtime
  | undefinedName
  | redeclared
  | reassignedConstant
  | divideByZero
  | valueType
  | operator
  | unsupportedDataType
  | unrecognizedNode
  | stackOverflow
deriving DecidableEq

def Kind.label : Kind → String
  | .parse => "ParseError"
  | .unexpectedToken => "SyntaxError"
  | .unterminatedString => "UnterminatedString"
  | .malformedFloat => "MalformedFloat"
  | .runtime => "RuntimeError"
  | .undefinedName => "NameError"
  | .redeclared => "RedeclareError"
  | .reassignedConstant => "ReassignConstantError"
  | .divideByZero => "DivideByZeroError"
  | .valueType => "TypeError"
  | .operator => "OperatorError"
  | .unsupportedDataType => "UnsupportedDataTypeError"
  | .unrecognizedNode => "UnrecognizedNodeError"
  | .stackOverflow => "StackOverflowError"

def Kind.all : List Kind :=
  [.parse, .unexpectedToken, .unterminatedString, .malformedFloat, .runtime, .undefinedName,
    .redeclared, .reassignedConstant, .divideByZero, .valueType, .operator, .unsupportedDataType,
    .unrecognizedNode, .stackOverflow]

def Kind.ofLabel? (label : String) : Option Kind :=
  Kind.all.find? (·.label == label)

def Kind.arisesInReading : Kind → Bool
  | .parse | .unexpectedToken | .unterminatedString | .malformedFloat => true
  | _ => false

class Describe (ε : Type) where
  kind : ε → Kind
  message : ε → String

structure Report (ε : Type) where
  cause : ε
  line : Int := 0
  column : Int := 0
deriving DecidableEq

namespace Report

variable {ε δ : Type}

def hasPosition (r : Report ε) : Bool := decide (0 < r.line)

def locate (line column : Int) (r : Report ε) : Report ε :=
  if r.hasPosition then r else ⟨r.cause, line, column⟩

@[simp] theorem cause_locate (line column : Int) (r : Report ε) :
    (r.locate line column).cause = r.cause := by
  unfold locate; split <;> rfl

theorem locate_of_hasPosition {r : Report ε} (h : r.hasPosition = true) (line column : Int) :
    r.locate line column = r := by
  simp [locate, h]

theorem locate_locate {line : Int} (h : 0 < line) (column line' column' : Int) (r : Report ε) :
    (r.locate line column).locate line' column' = r.locate line column := by
  apply locate_of_hasPosition
  unfold locate
  split
  · assumption
  · simpa [hasPosition] using h

def map (f : ε → δ) (r : Report ε) : Report δ := ⟨f r.cause, r.line, r.column⟩

variable [Describe ε]

def kind (r : Report ε) : Kind := Describe.kind r.cause

def message (r : Report ε) : String := Describe.message r.cause

def format (r : Report ε) : String :=
  s!"{r.kind.label}: ( {r.line}, {r.column} ) {r.message}"

end Report

structure Notice where
  kind : Kind
  message : String
deriving DecidableEq

instance : Describe Notice := ⟨Notice.kind, Notice.message⟩

/-- Stops that no rule of the language describes: limits of number text, files that cannot be read
as text, uses of a tree that no source text has, the user's interrupt, and the budgets of nesting
and of repetition. -/
inductive Breakdown
  | tooManyDigits
  | notNumeral
  | oddOfInfinity
  | notDecodable
  | notPath
  | noScope
  | foreignOperator
  | notValue
  | interrupted
  | exhausted
  | unfinished
deriving DecidableEq

def Breakdown.label : Breakdown → String
  | .tooManyDigits | .notNumeral | .oddOfInfinity | .notPath => "ValueError"
  | .notDecodable => "UnicodeDecodeError"
  | .noScope => "IndexError"
  | .foreignOperator | .notValue => "AttributeError"
  | .interrupted => "KeyboardInterrupt"
  | .exhausted => "RecursionError"
  | .unfinished => "Unfinished"

inductive Failure (ε : Type)
  | report (r : Report ε)
  | breakdown (b : Breakdown)
deriving DecidableEq

namespace Failure

variable {ε δ : Type}

def ofCause (cause : ε) : Failure ε := .report ⟨cause, 0, 0⟩

def ofCauseAt (p : Position) (cause : ε) : Failure ε := .report ⟨cause, p.line, p.column⟩

def locate (p : Position) : Failure ε → Failure ε
  | .report r => .report (r.locate p.line p.column)
  | .breakdown b => .breakdown b

def map (f : ε → δ) : Failure ε → Failure δ
  | .report r => .report (r.map f)
  | .breakdown b => .breakdown b

end Failure

end PlZero
