import PlZero.Expression
import PlZero.Machine

set_option autoImplicit false

namespace PlZero

namespace Exec

def stop {α : Type} (cause : Fault) : Exec α := throw (.ofCause cause)

def activeScopes : Exec Stack := do
  match (← get).scopes with
  | [] => throw (.breakdown .noScope)
  | st => return st

def result (n : Nat) (node : Node) : Exec Result := do
  ofExcept (evaluate (← get).scopes n node)

def value (n : Nat) (node : Node) : Exec Value := do
  ofExcept (← result n node).toValue

def test (n : Nat) (c : Condition Node) : Exec Bool := do
  ofExcept (holds (← get).scopes n c)

/-- Runs the nodes of a block, in a scope of its own if it is asked for or if there is none. -/
def block (run : Node → Exec Unit) (ownScope : Bool) (b : Block Node) : Exec Unit := do
  if ownScope || (← get).scopes.isEmpty then
    modify Machine.push
    ensuring Machine.pop (b.body.forM run)
  else
    b.body.forM run

def declare (n : Nat) (d : VariableDeclaration) : Exec Unit := locating d.pos do
  match d.isConstant, d.value with
  | true, some l =>
    let v ← value n (.literal l)
    onInnermost (·.declareVariable d.name (.value v) true)
  | _, _ => onInnermost (·.declareVariable d.name .absent false)

def assign (name : String) (d : Datum) : Exec Unit := do
  let st ← ofExcept ((← activeScopes).assign name d)
  modify ({ · with scopes := st })

def call (run : Node → Exec Unit) (name : String) : Exec Unit := do
  match (← activeScopes).findProcedure name with
  | none => stop (.procedureNotFound name)
  | some p =>
    modify (·.record (.call name))
    onExhaustion (.ofCause (.tooManyCalls name)) (block run true p.body)

/-- Reads the next line, without the carriage returns at its end; at the end of the input there is
nothing to read. -/
def readDatum : Exec Datum := do
  let (reading, input) := (← get).input.read
  modify ({ · with input })
  match reading with
  | .line text => return .text (Text.chomp text)
  | .ended => return .absent
  | .interrupted => throw (.breakdown .interrupted)

/-- Reads a line into a variable; the variable is looked up before the line is read. -/
def input (name : String) : Exec Unit := do
  match (← activeScopes).findVariable name with
  | none => stop (.variableNotFound name)
  | some _ => assign name (← readDatum)

def print (v : Value) : Exec Unit := modify (·.write (v.render ++ "\n"))

def exit (line : Int) : Exec Unit :=
  modify fun m => { m with scopes := [], log := .exit line :: m.log }

end Exec

open Exec

/-- Runs a statement or a declaration. The first number bounds the rounds of each loop, the second
the nesting: a statement takes two of it, a block one. -/
def execute (rounds : Nat) : Nat → Node → Exec Unit
  | 0, _ | 1, _ | 2, _ => throw (.breakdown .exhausted)
  | n + 3, node =>
    match node with
    | .block b => locating b.pos (block (execute rounds n) true b)
    | .declarations pos group => locating pos (group.forM (declare (n + 1)))
    | .procedure pos name body => locating pos (onInnermost (·.declareProcedure ⟨pos, name, body⟩))
    | .assignment pos target expr => locating pos do
      assign target.name (← result (n + 1) expr).toDatum
    | .call pos target => locating pos (call (execute rounds n) target.name)
    | .input pos target => locating pos (input target.name)
    | .print pos expr => locating pos do print (← value (n + 1) expr)
    | .sequence pos body => locating pos (body.forM (execute rounds (n + 1)))
    | .conditional pos condition body => locating pos do
      if ← test (n + 1) condition then body.forM (execute rounds (n + 1))
    | .loop pos condition body => locating pos
      (repeatWhile (test (n + 1) condition) (body.forM (execute rounds (n + 1))) rounds)
    | .exitMarker pos => locating pos (exit pos.line)
    | node => throw (.ofCauseAt node.pos (.unrecognizedStatement node.variety))

end PlZero
