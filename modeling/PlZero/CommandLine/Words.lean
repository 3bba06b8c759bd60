import PlZero.Text.Digit
import PlZero.Text.Quoted

set_option autoImplicit false

namespace PlZero.CommandLine

inductive Switch
  | help
  | string
  | debug
  | prompt
  | version
deriving DecidableEq

def switchNames : List (List Char × Switch) :=
  [("-h", Switch.help), ("--help", .help), ("-s", .string), ("--string", .string),
    ("-d", .debug), ("--debug", .debug), ("-p", .prompt), ("--prompt", .prompt),
    ("-v", .version), ("--version", .version)].map fun (name, switch) => (name.toList, switch)

def switch? (name : List Char) : Option Switch := switchNames.lookup name

def Switch.title : Switch → String
  | help => "-h/--help"
  | string => "-s/--string"
  | debug => "-d/--debug"
  | prompt => "-p/--prompt"
  | version => "-v/--version"

inductive UsageFault
  | ambiguous (word : String) (names : List String)
  | ignoredArgument (switch : Switch) (argument : String)
  | unrecognized (words : List String)

def UsageFault.message : UsageFault → String
  | .ambiguous word names =>
    s!"ambiguous option: {word} could match " ++ String.intercalate ", " names
  | .ignoredArgument switch argument =>
    s!"argument {switch.title}: ignored explicit argument " ++ Text.quoted argument
  | .unrecognized words => "unrecognized arguments: " ++ String.intercalate " " words

inductive Word
  | switches (all : List Switch)
  | unknown (text : String)
  | faulty (fault : UsageFault)
  | argument (text : String)
  | divider

def moreSwitches (switch : Switch) : List Char → Except UsageFault (List Switch)
  | [] => .ok [switch]
  | c :: cs =>
    match switch? ['-', c] with
    | some next => (moreSwitches next cs).map (switch :: ·)
    | none => .error (.ignoredArgument switch (String.ofList (c :: cs)))

def letters (switch : Switch) (cs : List Char) : Word :=
  match moreSwitches switch cs with
  | .ok all => .switches all
  | .error fault => .faulty fault

def isNumber (cs : List Char) : Bool :=
  let isDigit (c : Char) : Bool := (Text.digit? c).isSome
  let numeral := if cs.getLast? = some '\n' then cs.dropLast else cs
  match numeral.dropWhile isDigit with
  | [] => !numeral.isEmpty
  | '.' :: fraction => !fraction.isEmpty && fraction.all isDigit
  | _ => false

def candidates (word : List Char) : List (List Char × Switch × Option (List Char)) :=
  let name := word.takeWhile (· != '=')
  let argument := match word.dropWhile (· != '=') with
    | [] => none
    | _ :: cs => some cs
  switchNames.filterMap fun (full, switch) =>
    if name.isPrefixOf full then some (full, switch, argument) else none

/-- A word that starts with a dash and is no option's name. After one dash, an equals sign may stand
between the first letter and the letters after it; no option takes an argument. -/
def dashWord (word : List Char) : Except UsageFault Word :=
  let text := String.ofList word
  let plain : Word :=
    if isNumber (word.drop 1) || word.contains ' ' then .argument text else .unknown text
  match word with
  | '-' :: '-' :: _ =>
    match candidates word with
    | [] => .ok plain
    | [(_, switch, none)] => .ok (.switches [switch])
    | [(_, switch, some argument)] =>
      .ok (.faulty (.ignoredArgument switch (String.ofList argument)))
    | several => .error (.ambiguous text (several.map (String.ofList ·.1)))
  | '-' :: c :: cs =>
    match switch? ['-', c], cs with
    | some switch, ['='] => .ok (.faulty (.ignoredArgument switch ""))
    | some switch, '=' :: cs => .ok (letters switch cs)
    | some switch, cs => .ok (letters switch cs)
    | none, _ => .ok plain
  | _ => .ok (.argument text)

def readWord (text : String) : Except UsageFault Word :=
  let word := text.toList
  match switch? word, word with
  | some switch, _ => .ok (.switches [switch])
  | none, '-' :: _ => dashWord word
  | none, _ => .ok (.argument text)

def readWords : List String → Except UsageFault (List Word)
  | [] => .ok []
  | "--" :: texts => .ok (.divider :: texts.map .argument)
  | text :: texts => do
    let word ← readWord text
    return word :: (← readWords texts)

end PlZero.CommandLine
