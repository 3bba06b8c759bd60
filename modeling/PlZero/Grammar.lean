import PlZero.Grammar.Reader
import PlZero.Tree

set_option autoImplicit false

/-!
The grammar. Each rule is a function of the nesting still allowed, and every rule it calls has one
less.

    program    := block '.'
    block      := [constants] [variables] {procedure} [statement] [';']
    constants  := 'const' name '=' literal {',' name '=' literal} ';'
    variables  := 'var' name {',' name} ';'
    procedure  := 'procedure' name ';' block
    statement  := name ':=' expression | 'call' name | '?' name | '!' expression
                | 'begin' statement {';' statement} 'end'
                | 'if' condition 'then' statement | 'while' condition 'do' statement | nothing
    condition  := 'odd' expression | expression comparison expression
    expression := term [('+' | '-') expression]
    term       := unary [('*' | '/') term]
    unary      := ('+' | '-') unary | factor
    factor     := name | literal | '(' ('int' | 'float' | 'string') ')' factor
                | '(' expression ')'

Operators of one strength group to the right. The outermost block that ends at the closing point
gets an exit marker there.
-/

namespace PlZero

namespace TokenKind

def literalType? : TokenKind → Option DataType
  | number => some .integer
  | float => some .float
  | string => some .string
  | _ => none

def castType? : TokenKind → Option DataType
  | intWord => some .integer
  | floatWord => some .float
  | stringWord => some .string
  | _ => none

def sign? : TokenKind → Option UnaryOperator
  | plus => some .plus
  | minus => some .minus
  | _ => none

def additive? : TokenKind → Option BinaryOperator
  | plus => some .plus
  | minus => some .minus
  | _ => none

def multiplicative? : TokenKind → Option BinaryOperator
  | star => some .star
  | slash => some .slash
  | _ => none

def comparison? : TokenKind → Option Comparison
  | equal => some .equal
  | hash => some .unequal
  | less => some .less
  | greater => some .greater
  | lessEqual => some .lessEqual
  | greaterEqual => some .greaterEqual
  | _ => none

end TokenKind

namespace Grammar

open Rule

def identifier (place : Place) : Rule Identifier := do
  let token ← expect .name place
  return ⟨token.pos, token.text⟩

def separator : Rule Bool := do
  if ← sees .semicolon then return false
  else if ← sees .comma then
    discard advance
    return true
  else reject .expectedSeparator

def constantItem : Rule VariableDeclaration := do
  let name ← expect .name .constantName
  discard <| expect .equal (.afterConstant name.text)
  let value ← current
  match value.kind.literalType? with
  | none => reject .expectedLiteral
  | some type =>
    discard advance
    return ⟨name.pos, name.text, true, some ⟨value.pos, type, value.text⟩⟩

def constantGroup : Rule Node := do
  let start ← expect .constWord .unnamed
  let group ← items (return (← constantItem, ← separator)) (← get).rounds
  discard advance
  return .declarations start.pos group

def variableItem : Rule VariableDeclaration := do
  let name ← expect .name .variableName
  return ⟨name.pos, name.text, false, none⟩

def variableGroup : Rule Node := do
  let start ← expect .varWord .unnamed
  let group ← items (return (← variableItem, ← separator)) (← get).rounds
  discard advance
  return .declarations start.pos group

mutual

def factor : Nat → Rule Node
  | 0 => exhausted
  | n + 1 => do
    let token ← current
    if token.kind = .name then return .identifier (← identifier .unnamed)
    else if let some type := token.kind.literalType? then
      discard advance
      return .literal ⟨token.pos, type, token.text⟩
    else if token.kind = .leftParen then
      discard advance
      if let some target := (← current).kind.castType? then
        discard advance
        discard <| expect .rightParen .castEnd
        return .typecast token.pos target (← factor n)
      else
        let expr ← expression n
        discard <| expect .rightParen .groupEnd
        return expr
    else reject .expectedExpression

def unary : Nat → Rule Node
  | 0 => exhausted
  | n + 1 => do
    let token ← current
    match token.kind.sign? with
    | none => factor n
    | some operator =>
      discard advance
      return .unary token.pos operator (← unary n)

def term : Nat → Rule Node
  | 0 => exhausted
  | n + 1 => do
    let start ← current
    let left ← unary n
    match (← current).kind.multiplicative? with
    | none => return left
    | some operator =>
      discard advance
      return .binary start.pos operator left (← term n)

def expression : Nat → Rule Node
  | 0 => exhausted
  | n + 1 => do
    let start ← current
    let left ← term n
    match (← current).kind.additive? with
    | none => return left
    | some operator =>
      discard advance
      return .binary start.pos operator left (← expression n)

end

def condition : Nat → Rule (Condition Node)
  | 0 => exhausted
  | n + 1 => do
    let start ← current
    if start.kind = .oddWord then
      discard advance
      return { pos := start.pos, left := ← expression n, isOdd := true }
    else
      let left ← expression n
      match (← current).kind.comparison? with
      | none => reject .expectedComparison
      | some operator =>
        discard advance
        let right ← expression n
        return { pos := start.pos, left, operator, right }

mutual

def statement : Nat → Rule (Option Node)
  | 0 => exhausted
  | n + 1 => do
    let start ← current
    match start.kind with
    | .name =>
      let target ← identifier .unnamed
      discard <| expect .assign (.afterTarget target.name)
      return some (.assignment start.pos target (← expression n))
    | .callWord =>
      discard advance
      return some (.call start.pos (← identifier .callTarget))
    | .question =>
      discard advance
      return some (.input start.pos (← identifier .inputTarget))
    | .bang =>
      discard advance
      return some (.print start.pos (← expression n))
    | .beginWord => return some (← sequence n)
    | .ifWord =>
      discard advance
      let test ← condition n
      discard <| expect .thenWord .afterCondition
      return some (.conditional start.pos test (← statement n))
    | .whileWord =>
      discard advance
      let test ← condition n
      discard <| expect .doWord .afterCondition
      return some (.loop start.pos test (← statement n))
    | _ => return none

def sequence : Nat → Rule Node
  | 0 => exhausted
  | n + 1 => do
    let start ← expect .beginWord .unnamed
    let step : Rule (Option Node × Bool) := do
      let item ← statement n
      let more ← sees .semicolon
      if more then discard advance
      return (item, more)
    let body ← items step (← get).rounds
    discard <| expect .endWord .beginEnd
    return .sequence start.pos (body.filterMap id)

end

mutual

def block : Nat → Rule (Block Node)
  | 0 => exhausted
  | n + 1 => do
    let start ← get
    let declared ← deeper do
      let constants ← itemFrom .constWord constantGroup
      let vars ← itemFrom .varWord variableGroup
      let procedures ← itemsFrom .procedureWord (procedure n) (← get).rounds
      return constants ++ vars ++ procedures
    let body ← statement n
    skip .semicolon
    let finish ← current
    let exit := if start.depth = 0 ∧ finish.kind = .dot then [.exitMarker finish.pos] else []
    return ⟨start.current.pos, declared ++ body.toList ++ exit⟩

def procedure : Nat → Rule Node
  | 0 => exhausted
  | n + 1 => do
    let start ← expect .procedureWord .unnamed
    let name ← expect .name .procedureName
    discard <| expect .semicolon (.afterProcedure name.text)
    return .procedure start.pos name.text (← block n)

end

def nestingLimit : Nat := 10000

def programWithin (limit : Nat) : Rule Program := do
  let start ← current
  let body ← guarded (block limit)
  discard <| expect .dot .programEnd
  discard <| expect .eof .afterProgram
  return ⟨start.pos, body⟩

def program : Rule Program := programWithin nestingLimit

def fragment : Rule (Block Node) := do
  let body ← guarded (block nestingLimit)
  skip .dot
  discard <| expect .eof .afterStatement
  return body

end Grammar

def readBy {α : Type} (rule : Rule α) (source : String) : Except (Failure SyntaxFault) α := do
  match rule (← Reader.ofSource source) with
  | .ok a _ => .ok a
  | .error f _ => .error f

def parseWithin (limit : Nat) (source : String) : Except (Failure SyntaxFault) Program :=
  readBy (Grammar.programWithin limit) source

def parse (source : String) : Except (Failure SyntaxFault) Program :=
  readBy Grammar.program source

def parseFragment (source : String) : Except (Failure SyntaxFault) (Block Node) :=
  readBy Grammar.fragment source

end PlZero
