import PlZero.Position

set_option autoImplicit false

/-!
Program trees. One type of node serves expressions, conditions, statements and declarations: a tree
may be handed in with any node in any place, and it is running it that tells which places suit it.
Every node carries the position of the first token it was read from.
-/

namespace PlZero

inductive DataType
  | invalid
  | integer
  | float
  | string
deriving DecidableEq, Inhabited

def DataType.label : DataType → String
  | .invalid => "Invalid"
  | .integer => "Integer"
  | .float => "Float"
  | .string => "String"

def DataType.ofLabel? (label : String) : Option DataType :=
  [DataType.invalid, .integer, .float, .string].find? (·.label == label)

/-- A sign; `other` is a symbol that no source text gives. -/
inductive UnaryOperator
  | plus
  | minus
  | other (symbol : String)
deriving DecidableEq

def UnaryOperator.symbol : UnaryOperator → String
  | .plus => "+"
  | .minus => "-"
  | .other symbol => symbol

def UnaryOperator.ofSymbol : String → UnaryOperator
  | "+" => .plus
  | "-" => .minus
  | symbol => .other symbol

inductive BinaryOperator
  | plus
  | minus
  | star
  | slash
  | other (symbol : String)
deriving DecidableEq

def BinaryOperator.symbol : BinaryOperator → String
  | .plus => "+"
  | .minus => "-"
  | .star => "*"
  | .slash => "/"
  | .other symbol => symbol

def BinaryOperator.ofSymbol : String → BinaryOperator
  | "+" => .plus
  | "-" => .minus
  | "*" => .star
  | "/" => .slash
  | symbol => .other symbol

inductive Comparison
  | equal
  | unequal
  | less
  | greater
  | lessEqual
  | greaterEqual
  | other (symbol : String)
deriving DecidableEq

def Comparison.symbol : Comparison → String
  | .equal => "="
  | .unequal => "#"
  | .less => "<"
  | .greater => ">"
  | .lessEqual => "<="
  | .greaterEqual => ">="
  | .other symbol => symbol

def Comparison.ofSymbol : String → Comparison
  | "=" => .equal
  | "#" => .unequal
  | "<" => .less
  | ">" => .greater
  | "<=" => .lessEqual
  | ">=" => .greaterEqual
  | symbol => .other symbol

structure Identifier where
  pos : Position
  name : String
deriving DecidableEq

structure Literal where
  pos : Position
  type : DataType
  raw : String
deriving DecidableEq

structure VariableDeclaration where
  pos : Position
  name : String
  isConstant : Bool := false
  value : Option Literal := none
deriving DecidableEq

structure Condition (ν : Type) where
  pos : Position
  left : ν
  isOdd : Bool := false
  operator : Option Comparison := none
  right : Option ν := none

structure Block (ν : Type) where
  pos : Position
  body : List ν

inductive Node
  | identifier (i : Identifier)
  | literal (l : Literal)
  | unary (pos : Position) (operator : UnaryOperator) (operand : Node)
  | binary (pos : Position) (operator : BinaryOperator) (left right : Node)
  | typecast (pos : Position) (target : DataType) (operand : Node)
  | condition (c : Condition Node)
  | assignment (pos : Position) (target : Identifier) (expr : Node)
  | call (pos : Position) (target : Identifier)
  | input (pos : Position) (target : Identifier)
  | print (pos : Position) (expr : Node)
  | sequence (pos : Position) (body : List Node)
  | conditional (pos : Position) (condition : Condition Node) (body : Option Node)
  | loop (pos : Position) (condition : Condition Node) (body : Option Node)
  | exitMarker (pos : Position)
  | declaration (d : VariableDeclaration)
  | declarations (pos : Position) (group : List VariableDeclaration)
  | block (b : Block Node)
  | procedure (pos : Position) (name : String) (body : Block Node)
  | program (pos : Position) (body : Block Node)
  | unknown (pos : Position) (name : String)

namespace Node

def pos : Node → Position
  | identifier i => i.pos
  | literal l => l.pos
  | unary p _ _ => p
  | binary p _ _ _ => p
  | typecast p _ _ => p
  | condition c => c.pos
  | assignment p _ _ => p
  | call p _ => p
  | input p _ => p
  | print p _ => p
  | sequence p _ => p
  | conditional p _ _ => p
  | loop p _ _ => p
  | exitMarker p => p
  | declaration d => d.pos
  | declarations p _ => p
  | block b => b.pos
  | procedure p _ _ => p
  | program p _ => p
  | unknown p _ => p

def variety : Node → String
  | identifier _ => "Identifier"
  | literal _ => "Literal"
  | unary _ _ _ => "Unary"
  | binary _ _ _ _ => "Binary"
  | typecast _ _ _ => "Typecast"
  | condition _ => "Condition"
  | assignment _ _ _ => "Assignment"
  | call _ _ => "Call"
  | input _ _ => "Input"
  | print _ _ => "Print"
  | sequence _ _ => "Begin"
  | conditional _ _ _ => "If"
  | loop _ _ _ => "While"
  | exitMarker _ => "ExitMarker"
  | declaration _ => "VariableDeclaration"
  | declarations _ _ => "VariableDeclarationGroup"
  | block _ => "Block"
  | procedure _ _ _ => "ProcedureDeclaration"
  | program _ _ => "Program"
  | unknown _ name => name

def isExitMarker : Node → Bool
  | exitMarker _ => true
  | _ => false

end Node

structure Procedure where
  pos : Position
  name : String
  body : Block Node

structure Program where
  pos : Position
  body : Block Node

def Program.node (p : Program) : Node := .program p.pos p.body

def Program.ofBlock (b : Block Node) : Program := ⟨b.pos, b⟩

end PlZero
