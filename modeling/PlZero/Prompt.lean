import PlZero.Session
import PlZero.Text.Blank

set_option autoImplicit false

namespace PlZero

def openBlocks (text : String) : Except Breakdown Int :=
  let feed := scan text
  let count (kind : TokenKind) : Int := (feed.tokens.filter (·.kind == kind)).length
  match feed.last with
  | .ok _ => .ok (count .beginWord - count .endWord)
  | .error (.report _) => .ok 0
  | .error (.breakdown b) => .error b

structure Prompt where
  machine : Machine := {}
  debug : Bool := false
  errors : String := ""

abbrev Talk := EStateM Breakdown Prompt

namespace Talk

def write (text : String) : Talk Unit :=
  modify fun p => { p with machine := p.machine.write text }

def say (line : String) : Talk Unit := write (line ++ "\n")

def readEntry (pending : List String) : Nat → Talk (Option String)
  | 0 => throw .unfinished
  | rounds + 1 => do
    write (if pending.isEmpty then ">>> " else "... ")
    let (reading, input) := (← get).machine.input.read
    modify fun p => { p with machine := { p.machine with input } }
    match reading with
    | .interrupted => throw .interrupted
    | .ended =>
      return if pending.isEmpty then none else some (String.intercalate "\n" pending)
    | .line line =>
      let lines := pending ++ [line]
      let text := String.intercalate "\n" lines
      match openBlocks text with
      | .error b => throw b
      | .ok depth => if depth ≤ 0 then return some text else readEntry lines rounds

def rounds : Talk Nat := return (← get).machine.input.lines.length + 1

def nextEntry : Talk (Option String) := fun p =>
  match (do readEntry [] (← rounds) : Talk (Option String)) p with
  | .error .interrupted p => .ok none p
  | result => result

def logLine (text : String) : String := s!"DEBUG: {text}\n"

def flushLog : Talk Unit := modify fun p =>
  let lines := if p.debug then p.machine.events.map fun e => logLine e.text else []
  { p with
    machine := { p.machine with log := [] }
    errors := p.errors ++ String.join lines }

def farewell : String := "Exiting PL/0 REPL."

def runEntry (limits : Limits) (source : String) : Talk Bool := do
  let p ← get
  match Session.runEntry limits p.debug source p.machine with
  | .ok finished machine =>
    set { p with machine }
    flushLog
    return finished
  | .error failure machine =>
    set { p with machine }
    flushLog
    match failure with
    | .report r =>
      say "[error] >>>"
      say r.format
      return false
    | .breakdown .interrupted => throw .interrupted
    | .breakdown b =>
      say "[error] >>>"
      say s!"Traceback: {b.label}\n"
      return false

def toggleDebug : Talk Unit := do
  modify fun p => { p with debug := !p.debug }
  let mode := if (← get).debug then "ON" else "OFF"
  say s!"[mode] >>> Debug mode {mode}"

def respond (limits : Limits) : Option String → Talk Bool
  | none => do
    say ("\n" ++ farewell)
    return false
  | some text => do
    let entry := Text.strip text
    if entry.isEmpty then return true
    else if entry == "exit" || entry == "quit" then
      say farewell
      return false
    else if String.ofList (entry.toList.map Char.toLower) == "debug-mode" then
      toggleDebug
      return true
    else if ← runEntry limits entry then
      say farewell
      return false
    else return true

def converse (limits : Limits) : Nat → Talk Unit
  | 0 => throw .unfinished
  | rounds + 1 => do
    if ← respond limits (← nextEntry) then converse limits rounds

def greeting : String := "PL/0 REPL. Type 'exit' or 'quit' to leave."

def start (limits : Limits) : Talk Unit := do
  say greeting
  converse limits (← rounds)

end Talk

end PlZero
