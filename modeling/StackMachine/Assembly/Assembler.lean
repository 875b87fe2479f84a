import StackMachine.Assembly.Statement

/-!
# The assembler

An assembly text is read line by line into build steps, and these make the image. A line that
is wrong ends the reading. Only when all lines are right is it seen whether there is any
instruction, and whether all labels referred to are defined.

* `Assembly.readLine`: the steps of a line, some labels being defined before it;
* `Assembly.readLines`: the steps of all lines, each with the number of its line;
* `assemble`: the image of a text.
-/

namespace StackMachine

open Text

namespace Assembly

open AssemblyError (Reason)

/-- A build step and the number of the line that it comes from. -/
structure NumberedStep where
  line : Nat
  step : BuildStep

/-- The step that defines the label of a line. -/
def defineLabel (defined : List String) : Option String → Except Reason (List BuildStep)
  | none => .ok []
  | some name =>
    if defined.contains name then .error (.duplicateLabel name) else .ok [.label name]

/-- The steps of a line. -/
def readLine (defined : List String) (line : List Char) : Except Reason (List BuildStep) :=
  match splitLabel (code line) with
  | .error reason => .error reason
  | .ok (label, rest) =>
    match defineLabel defined label with
    | .error reason => .error reason
    | .ok definition =>
      match readStatement (words rest) with
      | .error reason => .error reason
      | .ok statement => .ok (definition ++ statement.toList)

/-- The label that a step defines. -/
def definition? : BuildStep → Option String
  | .label name => some name
  | _ => none

/-- The label that a step refers to. -/
def reference? : BuildStep → Option String
  | .emitTo _ label => some label
  | _ => none

/-- Whether a step emits an instruction. -/
def isEmission : BuildStep → Bool
  | .emit _ => true
  | .emitTo _ _ => true
  | _ => false

/-- The steps of the lines from `number` on, the labels `defined` being defined before. -/
def readLines (defined : List String) (number : Nat) :
    List (List Char) → Except AssemblyError (List NumberedStep)
  | [] => .ok []
  | line :: rest =>
    match readLine defined line with
    | .error reason => .error ⟨number, reason⟩
    | .ok steps =>
      match readLines (steps.filterMap definition? ++ defined) (number + 1) rest with
      | .error err => .error err
      | .ok later => .ok (steps.map (⟨number, ·⟩) ++ later)

/-- The first reference to a label that is not among those `defined`. -/
def undefined? (defined : List String) : List NumberedStep → Option AssemblyError
  | [] => none
  | s :: rest =>
    match reference? s.step with
    | none => undefined? defined rest
    | some label =>
      if defined.contains label then undefined? defined rest
      else some ⟨s.line, .undefinedLabel label⟩

/-- The image of the steps of a text whose last line is `last`. -/
def finish (last : Nat) (numbered : List NumberedStep) : Except AssemblyError (List UInt8) :=
  let steps := numbered.map fun s => s.step
  if !steps.any isEmission then .error ⟨last, .emptyProgram⟩
  else
    match undefined? (steps.filterMap definition?) numbered with
    | some err => .error err
    | none =>
      match build steps with
      | .error reason => .error ⟨last, .build reason⟩
      | .ok image => .ok image

end Assembly

/-- The image of an assembly text. -/
def assemble (source : String) : Except AssemblyError (List UInt8) :=
  let sourceLines := lines source.toList
  match Assembly.readLines [] 1 sourceLines with
  | .error err => .error err
  | .ok steps => Assembly.finish (max 1 sourceLines.length) steps

end StackMachine
