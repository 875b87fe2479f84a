import StackMachine.CommandLine.Respond

/-!
# The program

Reads what a command needs, and writes what it responds with.
-/

namespace StackMachine

namespace CommandLine

/-- The error of an operation on files. -/
def fileError (err : IO.Error) : FileError :=
  match err with
  | .noFileOrDirectory _ number _ => ⟨FileError.notFound.text, some number.toNat⟩
  | .permissionDenied _ number _ => ⟨"Permission denied", some number.toNat⟩
  | .inappropriateType _ number text => ⟨text, some number.toNat⟩
  | .invalidArgument _ number text => ⟨text, some number.toNat⟩
  | .resourceExhausted _ number text => ⟨text, some number.toNat⟩
  | .otherError number text => ⟨text, some number.toNat⟩
  | err => ⟨toString err, none⟩

/-- What the path that a command reads leads to. -/
def readInput (c : Command) : IO (Except FileError (List UInt8)) := do
  let (path, mayBeInput) := c.input
  try
    if mayBeInput && isInput path then
      let stdin ← IO.getStdin
      let mut bytes := ByteArray.empty
      repeat
        let piece ← stdin.read 65536
        if piece.isEmpty then break
        bytes := bytes ++ piece
      return .ok bytes.toList
    else
      return .ok (← IO.FS.readBinFile path).toList
  catch err => return .error (fileError err)

/-- Write an image to a path. -/
def saveImage (path : String) (image : List UInt8) : IO (Except FileError Unit) := do
  try
    IO.FS.writeBinFile path ⟨image.toArray⟩
    return .ok ()
  catch err => return .error (fileError err)

/-- Print a report. -/
def printReport (r : Report) : IO UInt32 := do
  (← IO.getStdout).putStr r.stdout
  (← IO.getStderr).putStr r.stderr
  return r.exitCode

/-- The lines that say how the program is used. -/
def usageLines : List String :=
  ["Usage: vela <COMMAND>",
   "",
   "Commands:",
   "  run <FILE> [--json]         execute a program and print its result",
   "  trace <FILE> [--no-result]  trace program execution",
   "  dump <FILE>                 show the contents of a program image",
   "  check <FILE>                validate a program image",
   "  asm <SOURCE> [-o <FILE>]    assemble a text program into a binary image"]

/-- Print how the program is used. -/
def printUsage (refusal : Refusal) : IO UInt32 := do
  let text := String.join (usageLines.map fun line => line ++ "\n")
  if refusal = .help then (← IO.getStdout).putStr text else (← IO.getStderr).putStr text
  return refusal.exitCode

end CommandLine

end StackMachine

open StackMachine CommandLine in
/-- Carry out the command that the arguments ask for. -/
def main (arguments : List String) : IO UInt32 := do
  match Command.parse arguments with
  | .error refusal => printUsage refusal
  | .ok c =>
    let terminal := (← (← IO.getStdout).isTty) && (← (← IO.getStderr).isTty)
    match c.respond (← readInput c) terminal with
    | .report r => printReport r
    | .save path image => printReport (saveReport path image (← saveImage path image))
