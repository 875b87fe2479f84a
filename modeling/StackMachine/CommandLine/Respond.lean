import StackMachine.Assembly.Assembler
import StackMachine.CommandLine.Arguments
import StackMachine.CommandLine.Directory
import StackMachine.Session

/-!
# Responses

What a command writes and with which exit code it ends, given the contents of what it reads.
A path that ends in `.vasm` is an assembly text, any other one an image; the path `-` is the
standard input, which may be either.

* `CommandLine.readImage`: the image of a file or of the standard input;
* `Command.respond`: the response to a command;
* `CommandLine.perform`: a whole command line in a directory.
-/

namespace StackMachine

/-- The text in a list of bytes, if it is valid UTF-8. -/
def decodeText? (bytes : List UInt8) : Option String :=
  String.fromUTF8? ⟨bytes.toArray⟩

namespace FileError

/-- The text of a file error, as part of a message. -/
def message (e : FileError) : String :=
  match e.number with
  | none => e.text
  | some number => e.text ++ " (os error " ++ Text.decimal number ++ ")"

end FileError

namespace CommandLine

/-- The message that a file cannot be read. -/
def readFailure (path reason : String) : String :=
  "failed to read '" ++ path ++ "': " ++ reason

/-- The message that a file cannot be written. -/
def writeFailure (path : String) (err : FileError) : String :=
  "failed to write '" ++ path ++ "': " ++ err.message

/-- The image of an assembly text from `name`. -/
def assembleFrom (name text : String) : Except String (List UInt8) :=
  match assemble text with
  | .error err => .error (name ++ ": " ++ err.message)
  | .ok image => .ok image

/-- The bytes of a file. -/
def contents (path : String) (file : Except FileError (List UInt8)) : Except String (List UInt8) :=
  match file with
  | .error err => .error (readFailure path err.message)
  | .ok bytes => .ok bytes

/-- The image of the assembly text in a file. -/
def assembleFile (path : String) (file : Except FileError (List UInt8)) :
    Except String (List UInt8) :=
  match contents path file with
  | .error message => .error message
  | .ok bytes =>
    match decodeText? bytes with
    | none => .error (readFailure path "stream did not contain valid UTF-8")
    | some text => assembleFrom path text

/-- The image that comes from the standard input. -/
def assembleInput (bytes : List UInt8) : Except String (List UInt8) :=
  if imageMagic.isPrefixOf bytes then .ok bytes
  else
    match decodeText? bytes with
    | none => .error "stdin is neither an image nor UTF-8 text"
    | some text => assembleFrom "<stdin>" text

/-- Whether a path stands for the standard input. -/
def isInput (path : String) : Bool :=
  path == "-"

/-- Whether the file at a path is an assembly text. -/
def isAssembly (path : String) : Bool :=
  Path.extension? path.toList == some ['v', 'a', 's', 'm']

/-- The image of a program, given what its path leads to. The standard input can always be
    read. -/
def readImage (path : String) (file : Except FileError (List UInt8)) :
    Except String (List UInt8) :=
  if isInput path then
    match contents path file with
    | .error message => .error message
    | .ok bytes => assembleInput bytes
  else if isAssembly path then assembleFile path file
  else contents path file

/-- The message of an error with a code. -/
def withCode (message : String) (code : Int64) : String :=
  message ++ " (code " ++ Text.decimalInt code.toInt ++ ")"

/-- The program of an image. -/
def loadImage (image : List UInt8) : Except String Program :=
  match Program.load image with
  | .error err => .error ("invalid program image: " ++ withCode err.message err.code)
  | .ok p => .ok p

/-- The line of a result. -/
def resultLine (v : Value) : StyledLine :=
  [styled (if v.isError then .red else .green) v.display]

/-- Run an image and show its value. -/
def runImage (image : List UInt8) (json : Bool) (palette : Palette) (limits : Limits) :
    Except String String :=
  match (Session.tryExecute { limits } image).1 with
  | .error err => .error (withCode err.message err.code)
  | .ok v => .ok (if json then v.json else palette.render (resultLine v))

/-- The line that says that an image of `size` bytes from `path` can be loaded. -/
def checkLine (path : String) (p : Program) (size : Nat) : StyledLine :=
  [plain (path ++ ": "), styled .green "ok",
   plain (" (" ++ Text.decimal p.code.size ++ " instructions, " ++
     Text.decimal p.constants.size ++ " constants, " ++ Text.decimal size ++ " bytes)")]

/-- The output of `run`, without the end of its line. -/
def runOutput (path : String) (file : Except FileError (List UInt8)) (json : Bool)
    (palette : Palette) (limits : Limits) : Except String String := do
  runImage (← readImage path file) json palette limits

/-- The run of `trace`. -/
def traceOutput (path : String) (file : Except FileError (List UInt8)) (limits : Limits) :
    Except String (Outcome Printer) := do
  let p ← loadImage (← readImage path file)
  return (Session.trace { limits } p).1

/-- The output of `dump`. -/
def dumpOutput (path : String) (file : Except FileError (List UInt8)) (palette : Palette) :
    Except String String := do
  let p ← loadImage (← readImage path file)
  return StackMachine.dump p palette

/-- The output of `check`, without the end of its line. -/
def checkOutput (path : String) (file : Except FileError (List UInt8)) (palette : Palette) :
    Except String String := do
  let image ← readImage path file
  let p ← loadImage image
  return palette.render (checkLine path p image.length)

end CommandLine

/-- What the program leaves behind. -/
structure Report where
  exitCode : UInt32
  stdout : String := ""
  stderr : String := ""
deriving DecidableEq, Inhabited

namespace Report

/-- Success with an output. -/
def success (stdout : String) : Report :=
  { exitCode := 0, stdout }

/-- Failure with a message, after an output. -/
def failure (message : String) (stdout : String) : Report :=
  { exitCode := 1, stdout, stderr := "error: " ++ message ++ "\n" }

/-- The report of an output or a message. -/
def ofExcept (output : Except String String) : Report :=
  match output with
  | .ok stdout => success stdout
  | .error message => failure message ""

end Report

namespace CommandLine

/-- The report of a trace: its lines, and the result if it is wanted. A fault is a failure. -/
def traceReport (o : Outcome Printer) (noResult : Bool) (palette : Palette) : Report :=
  let lines := String.join ((o.observed.render palette).map fun line => line ++ "\n")
  match o.result with
  | .error fault => .failure (withCode fault.message fault.code) lines
  | .ok v =>
    if noResult then .success lines
    else
      .success (lines ++ palette.render [styled .dim "---"] ++ "\n" ++
        palette.render (resultLine v) ++ "\n")

end CommandLine

/-- What there is to do for a command. -/
inductive Response
  /-- Only the report. -/
  | report (report : Report)
  /-- Write an image to a path. -/
  | save (path : String) (image : List UInt8)
deriving Inhabited

namespace Command

open CommandLine

/-- The path that a command reads, and whether `-` stands for the standard input there. -/
def input : Command → String × Bool
  | run path .. => (path, true)
  | trace path .. => (path, true)
  | dump path _ => (path, true)
  | check path _ => (path, true)
  | asm source _ => (source, false)

/-- The response to a command, given what the path that it reads leads to, and whether the output
    goes to a terminal. -/
def respond (c : Command) (file : Except FileError (List UInt8)) (terminal : Bool) : Response :=
  match c with
  | run path json color limits =>
    let output := runOutput path file json (.ofBool (color.isOn terminal)) limits
    .report (.ofExcept (output.map (· ++ "\n")))
  | trace path noResult color limits =>
    match traceOutput path file limits with
    | .error message => .report (.failure message "")
    | .ok o => .report (traceReport o noResult (.ofBool (color.isOn terminal)))
  | dump path color =>
    .report (.ofExcept (dumpOutput path file (.ofBool (color.isOn terminal))))
  | check path color =>
    let output := checkOutput path file (.ofBool (color.isOn terminal))
    .report (.ofExcept (output.map (· ++ "\n")))
  | asm source output =>
    match assembleFile source file with
    | .error message => .report (.failure message "")
    | .ok image => .save output image

end Command

namespace CommandLine

/-- The report once an image was written, or was not. -/
def saveReport (path : String) (image : List UInt8) (written : Except FileError Unit) : Report :=
  match written with
  | .error err => .failure (writeFailure path err) ""
  | .ok _ =>
    .success ("wrote " ++ Text.decimal image.length ++ " bytes to " ++ path ++ "\n")

/-- What the path that a command reads leads to in a directory. -/
def fetch (c : Command) (d : Directory) (stdin : List UInt8) : Except FileError (List UInt8) :=
  let (path, mayBeInput) := c.input
  if mayBeInput && isInput path then .ok stdin else d.read path

/-- Carry out a command in a directory, with output that does not go to a terminal. -/
def perform (c : Command) (d : Directory) (stdin : List UInt8) : Report × Directory :=
  match c.respond (fetch c d stdin) false with
  | .report report => (report, d)
  | .save path image =>
    match d.write path image with
    | .error err => (saveReport path image (.error err), d)
    | .ok d => (saveReport path image (.ok ()), d)

end CommandLine

end StackMachine
