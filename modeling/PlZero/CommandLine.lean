import PlZero.CommandLine.Words
import PlZero.File
import PlZero.Prompt

set_option autoImplicit false

namespace PlZero

namespace CommandLine

structure Settings where
  source : Option String := none
  isText : Bool := false
  debug : Bool := false
  prompt : Bool := false

inductive Request
  | help
  | version
  | refuse (fault : UsageFault)
  | run (settings : Settings)

def Settings.turn (s : Settings) : List Switch → Except Request Settings
  | [] => .ok s
  | .help :: _ => .error .help
  | .version :: _ => .error .version
  | .string :: switches => turn { s with isText := true } switches
  | .debug :: switches => turn { s with debug := true } switches
  | .prompt :: switches => turn { s with prompt := true } switches

def argumentText : Word → List String
  | .argument text => [text]
  | _ => []

def settle (s : Settings) (surplus : List String) : Request :=
  if surplus.isEmpty then .run s else .refuse (.unrecognized surplus)

def requestOf (s : Settings) (surplus : List String) : List Word → Request
  | [] => settle s surplus
  | .switches all :: words =>
    match s.turn all with
    | .ok s => requestOf s surplus words
    | .error request => request
  | .unknown text :: words => requestOf s (surplus ++ [text]) words
  | .faulty fault :: _ => .refuse fault
  | .divider :: words =>
    match s.source, words.flatMap argumentText with
    | some _, texts => settle s (surplus ++ "--" :: texts)
    | none, [] => settle s surplus
    | none, text :: texts => settle { s with source := text } (surplus ++ texts)
  | .argument text :: words =>
    match s.source, words with
    | some _, words => requestOf s (surplus ++ [text]) words
    | none, .divider :: words =>
      settle { s with source := text } (surplus ++ words.flatMap argumentText)
    | none, words => requestOf { s with source := text } surplus words

def request (arguments : List String) : Request :=
  match readWords arguments with
  | .ok words => requestOf {} [] words
  | .error fault => .refuse fault

def usage : String := "usage: pl0 [-h] [-s] [-d] [-p] [-v] [source]\n"

def helpText : String :=
  usage ++ "\n" ++
    "An interpreter for an extended version of the PL/0 language.\n\n" ++
    "positional arguments:\n" ++
    "  source         Filename or raw source (with -s)\n\n" ++
    "options:\n" ++
    "  -h, --help     show this help message and exit\n" ++
    "  -s, --string   Interpret source as literal string\n" ++
    "  -d, --debug    Enables debug mode.\n" ++
    "  -p, --prompt   Enters in prompt mode.\n" ++
    "  -v, --version  Print the version info.\n"

def versionText : String := "pl0 v1.0.0\n"

end CommandLine

structure Outcome where
  output : String := ""
  errors : String := ""
  status : Except Breakdown Nat := .ok 0

namespace CommandLine

def readError (refusal : Refusal) (name : String) : String :=
  s!"An error occurred: [Errno {refusal.number}] {refusal.text}: {Text.quoted name}\n"

def runText (limits : Limits) (debug : Bool) (errors source : String) (input : Input) : Outcome :=
  let logged (m : Machine) : String :=
    errors ++ if debug then String.join (m.events.map fun e => Talk.logLine e.text) else ""
  match Session.runSource limits debug source { input } with
  | .ok _ m => { output := m.output, errors := logged m }
  | .error (.report r) m =>
    { output := m.output, errors := logged m ++ r.format ++ "\n", status := .ok 1 }
  | .error (.breakdown b) m => { output := m.output, errors := logged m, status := .error b }

def runFile (limits : Limits) (debug : Bool) (name : String) (file : File) (input : Input) :
    Outcome :=
  let errors := if debug then Talk.logLine s!"Reading {name}" else ""
  if name.toList.contains '\x00' then { errors, status := .error .notPath }
  else match file with
  | .error refusal => { errors := errors ++ readError refusal name, status := .ok 1 }
  | .ok content =>
    match String.fromUTF8? content with
    | none => { errors, status := .error .notDecodable }
    | some text =>
      runText limits debug errors (String.ofList (Text.unifyNewlines text.toList)) input

def runPrompt (limits : Limits) (debug : Bool) (input : Input) : Outcome :=
  match Talk.start limits { machine := { input }, debug } with
  | .ok _ p => { output := p.machine.output, errors := p.errors }
  | .error b p => { output := p.machine.output, errors := p.errors, status := .error b }

def run (limits : Limits) (arguments : List String) (files : String → File) (input : Input) :
    Outcome :=
  match request arguments with
  | .help => { output := helpText }
  | .version => { output := versionText }
  | .refuse fault => { errors := usage ++ s!"pl0: error: {fault.message}\n", status := .ok 2 }
  | .run settings =>
    match settings.prompt, settings.source with
    | false, some source =>
      if settings.isText then runText limits settings.debug "" source input
      else runFile limits settings.debug source (files source) input
    | _, _ => runPrompt limits settings.debug input

end CommandLine

end PlZero
