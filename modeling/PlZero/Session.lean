import PlZero.Grammar
import PlZero.Statement

set_option autoImplicit false

/-!
Sessions: programs and fragments run one after the other on one machine. The outermost block of each
shares the root scope that the one before has left, or starts with a new one; whatever a run does,
only the scopes that were there before it, or the root, remain.
-/

namespace PlZero

inductive Cause
  | reading (f : SyntaxFault)
  | running (f : Fault)
deriving DecidableEq

instance : Describe Cause where
  kind
    | .reading f => f.kind
    | .running f => f.kind
  message
    | .reading f => f.message
    | .running f => f.message

/-- How deeply nodes may nest while they run, calls included, and how often a loop may repeat. -/
structure Limits where
  nesting : Nat := 10000
  rounds : Nat := 1152921504606846976

abbrev Session := EStateM (Failure Cause) Machine

def Machine.unwind (depth : Nat) (m : Machine) : Machine :=
  { m with scopes := m.scopes.outermost depth }

/-- Logs a tree, unless it is nested too deeply to be written. -/
def Program.log (limits : Limits) (p : Program) : Exec Unit := do
  if limits.nesting < 2 * p.node.outline.depth then throw (.breakdown .exhausted)
  modify (·.record (.tree p))

def Program.run (limits : Limits) (debug : Bool) (p : Program) : Exec Unit := do
  if debug then p.log limits
  let depth := (← get).scopes.length
  Exec.ensuring (Machine.unwind (if depth = 0 then 1 else depth)) <|
    Exec.onExhaustion (.ofCauseAt p.pos .recursionTooDeep) <|
      Exec.block (execute limits.rounds limits.nesting) false p.body

namespace Session

variable {α : Type}

def read : Except (Failure SyntaxFault) α → Session α
  | .ok a => pure a
  | .error f => throw (f.map .reading)

def exec (x : Exec α) : Session α := EStateM.adaptExcept (Failure.map .running) x

def runProgram (limits : Limits) (debug : Bool) (p : Program) : Session Unit :=
  exec (p.run limits debug)

def runSource (limits : Limits) (debug : Bool) (source : String) : Session Unit := do
  runProgram limits debug (← read (parse source))

def ends (b : Block Node) : Bool := b.body.getLast?.any Node.isExitMarker

def runEntry (limits : Limits) (debug : Bool) (source : String) : Session Bool := do
  let b ← read (parseFragment source)
  runProgram limits debug (.ofBlock b)
  return ends b

end Session

end PlZero
