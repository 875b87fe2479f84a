import StackMachine.CommandLine.Path
import StackMachine.Machine.Limits
import StackMachine.Text.Blank
import StackMachine.Text.Numeral

/-!
# Command lines

The arguments of the program are the name of a command, options, and one path. An option
`--name` that takes a value has it after `=` or as the next argument; `-o` has it also right
behind the letter. After `--` there are neither options nor values of options any more.

An option or path is *pending* from when it is met until the next one is, or until the end: only
then its value is looked at. So of two mistakes the one that is met first is not always the one
reported.

* `Command`: what a command line asks for;
* `Refusal`: why it asks for nothing;
* `Command.parse`: the command of a list of arguments.
-/

namespace StackMachine

/-- Why a list of arguments is not a command. -/
inductive Refusal
  | missingRequiredArgument
  | unknownArgument
  /-- A value is missing, is empty or is not one of those allowed. -/
  | invalidValue
  /-- A number is none or is out of range. -/
  | valueValidation
  /-- An option is given twice. -/
  | argumentConflict
  /-- An option that takes no value has one. -/
  | tooManyValues
  | invalidSubcommand
  /-- There is no command. -/
  | missingSubcommand
  /-- The help text is asked for. -/
  | help
deriving DecidableEq, Inhabited

/-- The exit code of the program when there is no command. -/
def Refusal.exitCode : Refusal → UInt32
  | help => 0
  | _ => 2

/-- When the output has colours. -/
inductive ColorChoice
  /-- If it goes to a terminal. -/
  | auto
  | always
  | never
deriving DecidableEq, Inhabited

namespace ColorChoice

/-- The choice with a given name. -/
def ofName? (name : String) : Option ColorChoice :=
  if name = "auto" then some auto
  else if name = "always" then some always
  else if name = "never" then some never
  else none

/-- Whether the output has colours. -/
def isOn (choice : ColorChoice) (terminal : Bool) : Bool :=
  match choice with
  | auto => terminal
  | always => true
  | never => false

end ColorChoice

/-- What a command line asks for. -/
inductive Command
  /-- Run a program and show its value. -/
  | run (path : String) (json : Bool) (color : ColorChoice) (limits : Limits)
  /-- Run a program and show its trace, and its value unless `noResult`. -/
  | trace (path : String) (noResult : Bool) (color : ColorChoice) (limits : Limits)
  /-- Show the listing of a program. -/
  | dump (path : String) (color : ColorChoice)
  /-- Say whether an image can be loaded. -/
  | check (path : String) (color : ColorChoice)
  /-- Assemble a text into an image. -/
  | asm (source output : String)
deriving DecidableEq, Inhabited

namespace CommandLine

/-- The names of the commands. -/
inductive Verb
  | run
  | trace
  | dump
  | check
  | asm
deriving DecidableEq, Inhabited

/-- The command with a given name. -/
def Verb.ofName? (name : String) : Option Verb :=
  if name = "run" then some .run
  else if name = "trace" then some .trace
  else if name = "dump" then some .dump
  else if name = "check" then some .check
  else if name = "asm" then some .asm
  else none

/-- The options. -/
inductive Flag
  | help
  | json
  | noResult
  | color
  | fuel
  | stackLimit
  | callDepth
  | output
deriving DecidableEq, Inhabited

namespace Flag

/-- All options. -/
def all : List Flag :=
  [help, json, noResult, color, fuel, stackLimit, callDepth, output]

/-- The name of an option, after `--`. -/
def name : Flag → String
  | help => "help"
  | json => "json"
  | noResult => "no-result"
  | color => "color"
  | fuel => "fuel"
  | stackLimit => "stack-limit"
  | callDepth => "call-depth"
  | output => "output"

/-- The letter of an option, after `-`. -/
def letter? : Flag → Option Char
  | help => some 'h'
  | output => some 'o'
  | _ => none

/-- Whether an option takes a value. -/
def takesValue : Flag → Bool
  | help | json | noResult => false
  | color | fuel | stackLimit | callDepth | output => true

/-- Whether a command has an option. -/
def belongsTo (verb : Verb) : Flag → Bool
  | help => true
  | json => verb == .run
  | noResult => verb == .trace
  | color => verb != .asm
  | fuel | stackLimit | callDepth => verb == .run || verb == .trace
  | output => verb == .asm

/-- The option of a command with a given name. -/
def ofName? (verb : Verb) (name : String) : Option Flag :=
  all.find? fun f => f.belongsTo verb && f.name == name

/-- The option of a command with a given letter. -/
def ofLetter? (verb : Verb) (letter : Char) : Option Flag :=
  all.find? fun f => f.belongsTo verb && f.letter? == some letter

end Flag

/-- The values of the options. -/
structure Settings where
  json : Bool := false
  noResult : Bool := false
  color : ColorChoice := .auto
  limits : Limits := {}
  output : Option String := none

namespace Settings

/-- Switch on an option without a value. -/
def enable (s : Settings) : Flag → Settings
  | .json => { s with json := true }
  | .noResult => { s with noResult := true }
  | _ => s

/-- Give an option its value. The range of the call depth is looked at after its sign, so that
    `-0` is in it. -/
def assign (s : Settings) (flag : Flag) (value : String) : Except Refusal Settings :=
  match flag with
  | .color =>
    match ColorChoice.ofName? value with
    | some color => .ok { s with color }
    | none => .error .invalidValue
  | .fuel =>
    match Text.unsigned? UInt64.size value.toList with
    | some fuel => .ok { s with limits := { s.limits with fuel } }
    | none => .error .valueValidation
  | .stackLimit =>
    match Text.unsigned? UInt64.size value.toList with
    | some stackLimit => .ok { s with limits := { s.limits with stackLimit } }
    | none => .error .valueValidation
  | .callDepth =>
    match Text.integer? value.toList with
    | some i =>
      if 0 ≤ i ∧ i < UInt32.size then
        .ok { s with limits := { s.limits with callDepth := i.toNat } }
      else .error .valueValidation
    | none => .error .valueValidation
  | .output => if value = "" then .error .invalidValue else .ok { s with output := some value }
  | .help | .json | .noResult => .ok s

end Settings

/-- An option or path whose value was not looked at yet. -/
inductive Pending
  | option (flag : Flag) (value : Option String)
  | path (path : String)

/-- How far a command line is read. -/
structure Reading where
  settings : Settings := {}
  /-- The options that were given. -/
  seen : List Flag := []
  path : Option String := none
  pending : Option Pending := none
  /-- Whether there was a `--`. -/
  trailing : Bool := false

namespace Reading

/-- Note that an option was given, unless it was given before. -/
def markSeen (r : Reading) (flag : Flag) : Except Refusal Reading :=
  if r.seen.contains flag then .error .argumentConflict
  else .ok { r with seen := flag :: r.seen }

/-- Give an option its value. -/
def assign (r : Reading) (flag : Flag) (value : String) : Except Refusal Reading := do
  let r ← r.markSeen flag
  return { r with settings := ← r.settings.assign flag value }

/-- Look at the value of what is pending. -/
def settle (r : Reading) : Except Refusal Reading :=
  match r.pending with
  | none => .ok r
  | some (.path path) =>
    if path = "" then .error .invalidValue
    else .ok { r with path := some path, pending := none }
  | some (.option _ none) => .error .invalidValue
  | some (.option flag (some value)) => ({ r with pending := none }).assign flag value

/-- An option without a value. -/
def takeSwitch (r : Reading) (flag : Flag) : Except Refusal Reading := do
  let r ← r.settle
  if flag = .help then throw .help
  let r ← r.markSeen flag
  return { r with settings := r.settings.enable flag }

/-- An option with the value that stands in the same argument, if there is one. -/
def takeOption (r : Reading) (flag : Flag) (value : Option String) : Except Refusal Reading := do
  let r ← r.settle
  match value with
  | some value => r.assign flag value
  | none => return { r with pending := some (.option flag none) }

/-- An argument `--name` or `--name=value`. -/
def takeLong (r : Reading) (verb : Verb) (text : List Char) : Except Refusal Reading :=
  let (name, value) := Text.cutAt '=' text
  match Flag.ofName? verb (String.ofList name), value with
  | none, _ => .error .unknownArgument
  | some flag, value =>
    if flag.takesValue then r.takeOption flag (value.map String.ofList)
    else
      match value with
      | some _ => .error .tooManyValues
      | none => r.takeSwitch flag

/-- An argument `-abc`. The letters are options of their own, up to the first one that takes a
    value. -/
def takeLetters (r : Reading) (verb : Verb) : List Char → Except Refusal Reading
  | [] => .ok r
  | letter :: rest =>
    match Flag.ofLetter? verb letter with
    | none => .error .unknownArgument
    | some flag =>
      if flag.takesValue then
        match rest with
        | [] => r.takeOption flag none
        | '=' :: value => r.takeOption flag (some (String.ofList value))
        | value => r.takeOption flag (some (String.ofList value))
      else do
        let r ← r.takeSwitch flag
        r.takeLetters verb rest

/-- An argument that is no option: the value of the option before it, unless there was a `--`
    since, or else the path. -/
def takeWord (r : Reading) (word : String) : Except Refusal Reading :=
  match r.pending, r.trailing with
  | some (.option flag none), false =>
    .ok { r with pending := some (.option flag (some word)) }
  | some (.path _), _ => .error .unknownArgument
  | _, _ =>
    if r.path.isSome then .error .unknownArgument
    else do
      let r ← r.settle
      return { r with pending := some (.path word) }

/-- An argument. -/
def take (r : Reading) (verb : Verb) (argument : String) : Except Refusal Reading :=
  if r.trailing then r.takeWord argument
  else
    match argument.toList with
    | ['-', '-'] => .ok { r with trailing := true }
    | '-' :: '-' :: text => r.takeLong verb text
    | '-' :: letter :: letters => r.takeLetters verb (letter :: letters)
    | _ => r.takeWord argument

/-- All arguments. -/
def takeAll (r : Reading) (verb : Verb) : List String → Except Refusal Reading
  | [] => r.settle
  | argument :: rest =>
    match r.take verb argument with
    | .error refusal => .error refusal
    | .ok r => r.takeAll verb rest

end Reading

/-- Where the image of a source goes if nothing else is said. -/
def defaultOutput (source : String) : String :=
  String.ofList (Path.withExtension ['v', 'e', 'l', 'a'] source.toList)

/-- The command of a name, a path and the values of the options. -/
def Verb.command (verb : Verb) (path : String) (s : Settings) : Command :=
  match verb with
  | .run => .run path s.json s.color s.limits
  | .trace => .trace path s.noResult s.color s.limits
  | .dump => .dump path s.color
  | .check => .check path s.color
  | .asm => .asm path (s.output.getD (defaultOutput path))

/-- The command with the given name and arguments after it. -/
def parseCommand (verb : Verb) (arguments : List String) : Except Refusal Command :=
  match Reading.takeAll {} verb arguments with
  | .error refusal => .error refusal
  | .ok r =>
    match r.path with
    | none => .error .missingRequiredArgument
    | some path => .ok (verb.command path r.settings)

/-- The answer to a request for help on a command, the name of which is the only argument. -/
def helpOn : List String → Refusal
  | [] => .help
  | [name] => if (Verb.ofName? name).isSome ∨ name = "help" then .help else .invalidSubcommand
  | _ => .invalidSubcommand

/-- The answer to an option in place of the name of a command. -/
def refuseOption : List Char → Refusal
  | '-' :: text =>
    let (name, value) := Text.cutAt '=' text
    if String.ofList name = "help" then if value.isSome then .tooManyValues else .help
    else .unknownArgument
  | 'h' :: _ => .help
  | _ => .unknownArgument

/-- The answer to `--` in place of the name of a command. -/
def refuseTrailing : List String → Refusal
  | [] => .missingSubcommand
  | name :: _ =>
    if (Verb.ofName? name).isSome ∨ name = "help" then .unknownArgument else .invalidSubcommand

end CommandLine

/-- The command of a list of arguments. -/
def Command.parse : List String → Except Refusal Command
  | [] => .error .missingSubcommand
  | first :: rest =>
    match first.toList with
    | ['-', '-'] => .error (CommandLine.refuseTrailing rest)
    | '-' :: c :: text => .error (CommandLine.refuseOption (c :: text))
    | _ =>
      match CommandLine.Verb.ofName? first with
      | some verb => CommandLine.parseCommand verb rest
      | none =>
        if first = "help" then .error (CommandLine.helpOn rest) else .error .invalidSubcommand

end StackMachine
