import PlZero.CommandLine

set_option autoImplicit false

/-!
The program on real streams. What it does is the pure program's business: here lines are fetched as
they are asked for. An attempt is made with the lines at hand; if it asks for another, that line is
fetched and the attempt is made again, and only what is new is written.
-/

namespace PlZero.Console

/-- What an attempt wrote, and its result unless it has asked for a line that is not at hand. -/
structure Attempt (α : Type) where
  output : String
  errors : String
  result : Option α

def unseen (text : String) (seen : Nat) : String := String.ofList (text.toList.drop seen)

def fetchLine : IO (Option String) := do
  let line ← (← IO.getStdin).getLine
  return (Text.lines line).head?

partial def supply {α : Type} [Nonempty α] (attempt : Input → Attempt α) (lines : List String)
    (ended : Bool) (seenOutput seenErrors : Nat) : IO α := do
  let tried := attempt { lines, patience := if ended then none else some lines.length }
  IO.print (unseen tried.output seenOutput)
  IO.eprint (unseen tried.errors seenErrors)
  (← IO.getStdout).flush
  match tried.result with
  | some a => return a
  | none =>
    let next ← fetchLine
    supply attempt (lines ++ next.toList) next.isNone tried.output.length tried.errors.length

def attemptTalk {α : Type} (action : Talk α) (p : Prompt) (input : Input) :
    Attempt (Except Breakdown α × Prompt) :=
  let fresh : Prompt := { p with machine := { p.machine with input, output := "" }, errors := "" }
  match action fresh with
  | .ok a p => ⟨p.machine.output, p.errors, some (.ok a, p)⟩
  | .error .interrupted p => ⟨p.machine.output, p.errors, none⟩
  | .error b p => ⟨p.machine.output, p.errors, some (.error b, p)⟩

instance {α : Type} : Nonempty (Except Breakdown α × Prompt) := ⟨(.error .unfinished, {})⟩

partial def converse (limits : Limits) (p : Prompt) : IO UInt32 := do
  let readEntry : Talk (Option String) := do Talk.readEntry [] (← Talk.rounds)
  match ← supply (attemptTalk readEntry p) [] false 0 0 with
  | (.error b, _) => IO.eprintln b.label; return 1
  | (.ok entry, p) =>
    match ← supply (attemptTalk (Talk.respond limits entry) p) [] false 0 0 with
    | (.error b, _) => IO.eprintln b.label; return 1
    | (.ok true, p) => converse limits p
    | (.ok false, _) => return 0

def readFile (name : String) : IO File := do
  try
    return .ok (← IO.FS.readBinFile name)
  catch
    | .permissionDenied .. => return .error .denied
    | .inappropriateType _ code _ =>
      return .error (if code.toNat = Refusal.isFolder.number then .isFolder else .notFolder)
    | .invalidArgument .. => return .error .nameTooLong
    | _ => return .error .missing

def runOnce (limits : Limits) (arguments : List String) (file : File) : IO UInt32 := do
  let attempt (input : Input) : Attempt (Except Breakdown Nat) :=
    let outcome := CommandLine.run limits arguments (fun _ => file) input
    match outcome.status with
    | .error .interrupted => ⟨outcome.output, outcome.errors, none⟩
    | status => ⟨outcome.output, outcome.errors, some status⟩
  match ← supply attempt [] false 0 0 with
  | .ok status => return UInt32.ofNat status
  | .error b => IO.eprintln b.label; return 1

def run (limits : Limits) (arguments : List String) : IO UInt32 := do
  let missing : File := .error .missing
  match CommandLine.request arguments with
  | .run settings =>
    match settings.prompt, settings.source with
    | false, some source =>
      runOnce limits arguments (← if settings.isText then pure missing else readFile source)
    | _, _ =>
      IO.println Talk.greeting
      converse limits { debug := settings.debug }
  | _ => runOnce limits arguments missing

end PlZero.Console

def main (arguments : List String) : IO UInt32 := PlZero.Console.run {} arguments
