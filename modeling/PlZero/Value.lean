import PlZero.Fault
import PlZero.Number.Numeral
import PlZero.Number.Word
import PlZero.Text.Quoted

set_option autoImplicit false

namespace PlZero

open Number

inductive Value
  | invalid
  | integer (n : Int)
  | float (x : Floating)
  | text (s : String)
deriving DecidableEq, Inhabited

namespace Value

def ofInt (n : Int) : Value := integer (wrapWord n)

def ofFloating (x : Floating) : Value := float (Format.single.fit x)

def type : Value → DataType
  | invalid => .invalid
  | integer _ => .integer
  | float _ => .float
  | text _ => .string

def isNumeric (v : Value) : Bool :=
  match v with
  | integer _ | float _ => true
  | _ => false

def toFloating : Value → Except Stop Floating
  | integer n => .ok (Format.single.ofInt n)
  | float x => .ok (Format.single.fit x)
  | v => fail (.notNumber v.type)

def equals : Value → Value → Bool
  | invalid, invalid => true
  | integer a, integer b => a == b
  | float x, float y => x.equals y
  | text s, text t => s == t
  | _, _ => false

def render : Value → String
  | invalid => ""
  | integer n => toString n
  | float x => x.render
  | text s => s

def describe (v : Value) : String :=
  let content := match v with
    | invalid => "None"
    | integer n => toString n
    | float x => x.describe
    | text s => Text.quoted s
  s!"TypedValue({v.type.label}, {content})"

def ofLiteral : DataType → String → Except Stop Value
  | .integer, raw => (orStop (integerOfLiteral raw)).map ofInt
  | .float, raw => (orStop (singleOfLiteral raw)).map ofFloating
  | .string, raw => .ok (text raw)
  | .invalid, _ => fail (.invalidLiteral .invalid)

end Value

/-- What may be handed to a variable: a value, or what a value is made of. -/
inductive Datum
  | absent
  | integer (n : Int)
  | float (x : Floating)
  | text (s : String)
  | value (v : Value)
  | unsupported (type : String)

def Datum.toValue : Datum → Except Stop Value
  | absent => .ok .invalid
  | integer n => .ok (.ofInt n)
  | float x => .ok (.ofFloating x)
  | text s => .ok (.text s)
  | value v => .ok v
  | unsupported type => fail (.unsupportedData type)

end PlZero
