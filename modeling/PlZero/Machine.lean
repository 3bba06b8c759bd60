import PlZero.Scope
import PlZero.Text.Lines
import PlZero.Tree.Outline

set_option autoImplicit false

namespace PlZero

structure Input where
  lines : List String := []
  patience : Option Nat := none

inductive Reading
  | line (text : String)
  | ended
  | interrupted

namespace Input

def ofText (text : String) : Input := { lines := Text.lines text }

def read (i : Input) : Reading × Input :=
  match i.patience, i.lines with
  | some 0, _ => (.interrupted, i)
  | patience, [] => (.ended, ⟨[], patience.map (· - 1)⟩)
  | patience, line :: lines => (.line line, ⟨lines, patience.map (· - 1)⟩)

end Input

inductive Event
  | tree (p : Program)
  | enter (depth : Nat)
  | leave (depth : Nat) (scope : Scope)
  | call (name : String)
  | exit (line : Int)

def Event.text : Event → String
  | .tree p => p.node.outline.render
  | .enter depth => s!"ENTER scope {depth}"
  | .leave depth scope => "LEAVE " ++ scope.describe depth
  | .call name => s!"CALL {name}"
  | .exit line => s!"EXIT at line {line}"

structure Machine where
  scopes : Stack := []
  input : Input := {}
  output : String := ""
  /-- The latest event first. -/
  log : List Event := []

namespace Machine

def record (m : Machine) (e : Event) : Machine := { m with log := e :: m.log }

def write (m : Machine) (text : String) : Machine := { m with output := m.output ++ text }

def events (m : Machine) : List Event := m.log.reverse

def push (m : Machine) : Machine :=
  { m with scopes := {} :: m.scopes, log := .enter m.scopes.length :: m.log }

/-- Leaves the innermost scope; the root is never left. -/
def pop (m : Machine) : Machine :=
  match m.scopes with
  | scope :: enclosing@(_ :: _) =>
    { m with scopes := enclosing, log := .leave enclosing.length scope :: m.log }
  | _ => m

end Machine

/-- An action on the machine. The machine keeps what was done before a stop. -/
abbrev Exec := EStateM Stop Machine

namespace Exec

variable {α : Type}

def ofExcept : Except Stop α → Exec α
  | .ok a => pure a
  | .error f => throw f

def locating (p : Position) (x : Exec α) : Exec α := fun m =>
  match x m with
  | .ok a m => .ok a m
  | .error f m => .error (f.locate p) m

def ensuring (finish : Machine → Machine) (x : Exec α) : Exec α := fun m =>
  match x m with
  | .ok a m => .ok a (finish m)
  | .error f m => .error f (finish m)

def onExhaustion (f : Stop) (x : Exec α) : Exec α := fun m =>
  match x m with
  | .error (.breakdown .exhausted) m => .error f m
  | result => result

def onInnermost (change : Scope → Except Stop Scope) : Exec Unit := fun m =>
  match m.scopes with
  | [] => .error (.breakdown .noScope) m
  | scope :: enclosing =>
    match change scope with
    | .ok scope => .ok () { m with scopes := scope :: enclosing }
    | .error f => .error f m

def repeatWhile (test : Exec Bool) (body : Exec Unit) : Nat → Exec Unit
  | 0 => throw (.breakdown .unfinished)
  | rounds + 1 => do
    if ← test then
      body
      repeatWhile test body rounds

end Exec

end PlZero
