import PlZero.Report
import PlZero.Tree

set_option autoImplicit false

namespace PlZero

inductive Fault
  | nameNotFound (name : String)
  | variableNotFound (name : String)
  | procedureNotFound (name : String)
  | redeclared (name : String)
  | reassignedConstant
  | divideByZero
  | unsupportedData (type : String)
  | invalidLiteral (type : DataType)
  | incompatibleTypes (operator : BinaryOperator) (left right : DataType)
  | invalidStringOperator (operator : BinaryOperator)
  | invalidSign (type : DataType)
  | incomparableTypes (left right : DataType)
  | unorderedStrings (operator : Comparison)
  | oddOfType (type : DataType)
  | notNumber (type : DataType)
  | castOfNonFinite (text : String)
  | unsupportedCast (target : DataType)
  | impossibleCast (source target : DataType)
  | unexpectedUnary (symbol : String)
  | unexpectedBinary (symbol : String)
  | unexpectedComparison (symbol : String)
  | invalidComparison (operator : Option Comparison)
  | unrecognizedStatement (variety : String)
  | unrecognizedExpression (variety : String)
  | tooManyCalls (name : String)
  | recursionTooDeep
deriving DecidableEq

def Comparison.title : Comparison → String
  | .equal => "ComparisonOperator.EQ"
  | .unequal => "ComparisonOperator.NE"
  | .less => "ComparisonOperator.LT"
  | .greater => "ComparisonOperator.GT"
  | .lessEqual => "ComparisonOperator.LE"
  | .greaterEqual => "ComparisonOperator.GE"
  | .other symbol => symbol

namespace Fault

def kind : Fault → Kind
  | nameNotFound _ | variableNotFound _ | procedureNotFound _ => .undefinedName
  | redeclared _ => .redeclared
  | reassignedConstant => .reassignedConstant
  | divideByZero => .divideByZero
  | unsupportedData _ => .unsupportedDataType
  | invalidLiteral _ | incompatibleTypes _ _ _ | invalidStringOperator _ | invalidSign _
  | incomparableTypes _ _ | unorderedStrings _ | oddOfType _ | notNumber _ | castOfNonFinite _
  | unsupportedCast _ | impossibleCast _ _ => .valueType
  | unexpectedUnary _ | unexpectedBinary _ | unexpectedComparison _
  | invalidComparison _ => .operator
  | unrecognizedStatement _ | unrecognizedExpression _ => .unrecognizedNode
  | tooManyCalls _ | recursionTooDeep => .stackOverflow

def message : Fault → String
  | nameNotFound name => s!"Name '{name}' not found."
  | variableNotFound name => s!"Variable '{name}' not found."
  | procedureNotFound name => s!"Procedure '{name}' not found."
  | redeclared name => s!"Cannot redeclare '{name}' in the same scope."
  | reassignedConstant => "Cannot reassign a constant."
  | divideByZero => "Cannot divide by zero."
  | unsupportedData type => s!"Cannot assign an unsupported data type: {type}"
  | invalidLiteral type => s!"Invalid literal type: {type.label}"
  | incompatibleTypes operator left right =>
    s!"Incompatible data types for binary operator '{operator.symbol}': " ++
      s!"{left.label} and {right.label}"
  | invalidStringOperator operator => s!"Invalid string operator: {operator.symbol}"
  | invalidSign type => s!"Invalid type with unary operator: {type.label}"
  | incomparableTypes left right => s!"Cannot compare types {left.label} and {right.label}"
  | unorderedStrings operator => s!"Strings cannot be compared with '{operator.symbol}'"
  | oddOfType type =>
    s!"Odd conditions can only work with integers and floats, but got type: {type.label}"
  | notNumber type => s!"Expected a number but got {type.label}"
  | castOfNonFinite text => s!"Cannot cast {text} to {DataType.integer.label}"
  | unsupportedCast target => s!"Unsupported cast type: {target.label}"
  | impossibleCast source target => s!"Cannot cast {source.label} to {target.label}"
  | unexpectedUnary symbol => s!"Unexpected unary operator: {symbol}"
  | unexpectedBinary symbol => s!"Unexpected binary operator: {symbol}"
  | unexpectedComparison symbol => s!"Unexpected comparison operator: {symbol}"
  | invalidComparison operator =>
    s!"Invalid comparison operator: " ++ operator.elim "None" Comparison.title
  | unrecognizedStatement variety => s!"Node '{variety}' not recognized."
  | unrecognizedExpression variety => s!"Invalid node expression: {variety}"
  | tooManyCalls name => s!"Too many nested calls to '{name}'."
  | recursionTooDeep => "Maximum recursion depth exceeded."

end Fault

instance : Describe Fault := ⟨Fault.kind, Fault.message⟩

abbrev Stop := Failure Fault

def fail {α : Type} (cause : Fault) : Except Stop α := .error (.ofCause cause)

def breakDown {α : Type} (b : Breakdown) : Except Stop α := .error (.breakdown b)

def orStop {α : Type} : Except Breakdown α → Except Stop α
  | .ok a => .ok a
  | .error b => .error (.breakdown b)

end PlZero
