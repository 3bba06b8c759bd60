import PlZero.Json
import PlZero.Tree

set_option autoImplicit false

namespace PlZero

def Position.fields (p : Position) : List (String × Json) :=
  [("line", .number p.line), ("col", .number p.column), ("offset", .number p.offset)]

def outline (variety : String) (pos : Position) (own : List (String × Json)) : Json :=
  .record (("kind", .text variety) :: pos.fields ++ own)

def Identifier.outline (i : Identifier) : Json :=
  PlZero.outline "identifier" i.pos [("name", .text i.name)]

def Literal.outline (l : Literal) : Json :=
  PlZero.outline "literal" l.pos [("data_type", .text l.type.label), ("raw", .text l.raw)]

def VariableDeclaration.outline (d : VariableDeclaration) : Json :=
  PlZero.outline "variable_declaration" d.pos
    [("name", .text d.name), ("is_constant", .bool d.isConstant),
      ("value", d.value.elim .null Literal.outline)]

mutual

def Node.outline : Node → Json
  | .identifier i => i.outline
  | .literal l => l.outline
  | .unary pos operator operand =>
    PlZero.outline "unary" pos
      [("operator", .text operator.symbol), ("operand", operand.outline)]
  | .binary pos operator left right =>
    PlZero.outline "binary" pos
      [("operator", .text operator.symbol), ("left", left.outline), ("right", right.outline)]
  | .typecast pos target operand =>
    PlZero.outline "typecast" pos
      [("target_type", .text target.label), ("operand", operand.outline)]
  | .condition c => conditionOutline c
  | .assignment pos target expr =>
    PlZero.outline "assignment" pos [("identifier", target.outline), ("expr", expr.outline)]
  | .call pos target => PlZero.outline "call" pos [("identifier", target.outline)]
  | .input pos target => PlZero.outline "input" pos [("identifier", target.outline)]
  | .print pos expr => PlZero.outline "print" pos [("expr", expr.outline)]
  | .sequence pos body => PlZero.outline "begin" pos [("body", .list (outlines body))]
  | .conditional pos condition body =>
    PlZero.outline "if" pos
      [("condition", conditionOutline condition), ("body", optionalOutline body)]
  | .loop pos condition body =>
    PlZero.outline "while" pos
      [("condition", conditionOutline condition), ("body", optionalOutline body)]
  | .exitMarker pos => PlZero.outline "exit_marker" pos []
  | .declaration d => d.outline
  | .declarations pos group =>
    PlZero.outline "variable_declaration_group" pos
      [("declarations", .list (group.map VariableDeclaration.outline))]
  | .block b => blockOutline b
  | .procedure pos name body =>
    PlZero.outline "procedure_declaration" pos
      [("name", .text name), ("body", blockOutline body)]
  | .program pos body => PlZero.outline "program" pos [("body", blockOutline body)]
  | .unknown pos name => PlZero.outline (String.ofList (name.toList.map Char.toLower)) pos []

def conditionOutline : Condition Node → Json
  | ⟨pos, left, isOdd, operator, right⟩ =>
    PlZero.outline "condition" pos
      [("left", left.outline), ("is_odd", .bool isOdd),
        ("operator", operator.elim .null (.text ·.symbol)), ("right", optionalOutline right)]

def blockOutline : Block Node → Json
  | ⟨pos, body⟩ => PlZero.outline "block" pos [("body", .list (outlines body))]

def optionalOutline : Option Node → Json
  | none => .null
  | some node => node.outline

def outlines : List Node → List Json
  | [] => []
  | node :: nodes => node.outline :: outlines nodes

end

end PlZero
