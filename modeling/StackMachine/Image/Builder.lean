import StackMachine.Image.Program

/-!
# Building images

An image is built in steps: constants are added, instructions emitted, labels bound to the
current place in the code, source lines attached. A branch may name a label that is bound
later; labels become offsets when the image is finished.

* `Builder.apply`: what a step does;
* `Builder.finish`: the image, or why there is none;
* `build`: the image of a list of steps;
* `encodeImage`: how sections are laid out in an image.
-/

namespace StackMachine

open Bytes

/-- Why an image cannot be finished. -/
inductive BuildError
  | undefinedLabel (name : String)
  | duplicateLabel (name : String)
  /-- No instruction was emitted. -/
  | emptyCode
  /-- The image has `2 ^ 32` bytes or more. -/
  | tooLarge
deriving DecidableEq, Inhabited

/-- The text of a build error. -/
def BuildError.message : BuildError → String
  | undefinedLabel name => "undefined label `" ++ name ++ "`"
  | duplicateLabel name => "label `" ++ name ++ "` defined more than once"
  | emptyCode => "code section is empty"
  | tooLarge => "image exceeds 4 GiB"

/-- The steps of building an image. -/
inductive BuildStep
  /-- Set the version of the format. -/
  | version (version : UInt32)
  /-- Add a constant. -/
  | constant (value : Value)
  /-- Bind a label to the current place. -/
  | label (name : String)
  /-- Attach a source line to the next instruction. -/
  | line (line : UInt32)
  /-- Emit an instruction. -/
  | emit (instruction : Instruction)
  /-- Emit an instruction that goes to the place of a label. -/
  | emitTo (instruction : Instruction) (label : String)
deriving DecidableEq, Inhabited

namespace BuildStep

/-- Emit a jump to a label. -/
def jump (label : String) : BuildStep :=
  emitTo (.jump 0) label

/-- Emit a jump to a label that is taken on `false`. -/
def jumpIfFalse (label : String) : BuildStep :=
  emitTo (.jumpIfFalse 0) label

/-- Emit a jump to a label that is taken on `true`. -/
def jumpIfTrue (label : String) : BuildStep :=
  emitTo (.jumpIfTrue 0) label

/-- Emit a call of the code at a label. -/
def call (label : String) (argc : UInt8) (locals : UInt16) : BuildStep :=
  emitTo (.call 0 argc locals) label

end BuildStep

/-- An instruction of an unfinished image; its target is the place of the label, if there is
    one. -/
structure Emission where
  instruction : Instruction
  label : Option String
deriving DecidableEq, Inhabited

/-- An unfinished image. -/
structure Builder where
  version : UInt32 := imageVersion
  constants : Array Value := #[]
  emitted : Array Emission := #[]
  /-- The number of bytes of the emitted instructions. -/
  offset : Nat := 0
  /-- The places of the labels, the last bound first. -/
  labels : List (String × Nat) := []
  /-- The first label that was bound again. -/
  rebound : Option String := none
  lines : Array LineEntry := #[]
  /-- The source line of the next instruction. -/
  pendingLine : Option UInt32 := none
deriving DecidableEq, Inhabited

namespace Builder

/-- Whether no instruction was emitted. -/
def isEmpty (b : Builder) : Bool :=
  b.emitted.isEmpty

/-- The index of the next constant. -/
def nextConstant (b : Builder) : Nat :=
  b.constants.size

/-- Emit an instruction, with the source line that waits for one. -/
def emit (b : Builder) (e : Emission) : Builder :=
  { b with
    emitted := b.emitted.push e
    offset := b.offset + e.instruction.size
    lines :=
      match b.pendingLine with
      | some line => b.lines.push ⟨UInt32.ofNat b.offset, line⟩
      | none => b.lines
    pendingLine := none }

/-- Bind a label to the current place. -/
def bind (b : Builder) (name : String) : Builder :=
  { b with
    labels := (name, b.offset) :: b.labels
    rebound :=
      match b.rebound with
      | some first => some first
      | none => if (b.labels.lookup name).isSome then some name else none }

/-- What a step does. -/
def apply (b : Builder) : BuildStep → Builder
  | .version version => { b with version }
  | .constant value => { b with constants := b.constants.push value }
  | .label name => b.bind name
  | .line line => { b with pendingLine := some line }
  | .emit i => b.emit ⟨i, none⟩
  | .emitTo i label => b.emit ⟨i.withTarget 0, some label⟩

/-- The instruction of an emission, its label being bound. -/
def resolve (labels : List (String × Nat)) (e : Emission) : Except BuildError Instruction :=
  match e.label with
  | none => .ok e.instruction
  | some label =>
    match labels.lookup label with
    | none => .error (.undefinedLabel label)
    | some offset => .ok (e.instruction.withTarget (UInt32.ofNat offset))

/-- The instructions of all emissions, or the first label that is not bound. -/
def resolveAll (labels : List (String × Nat)) :
    List Emission → Except BuildError (List Instruction)
  | [] => .ok []
  | e :: rest =>
    match resolve labels e with
    | .error err => .error err
    | .ok i =>
      match resolveAll labels rest with
      | .error err => .error err
      | .ok is => .ok (i :: is)

end Builder

/-- The table entries of sections that follow each other from `offset` on. -/
def placeSections (offset : Nat) : List (SectionKind × List UInt8) → List Section
  | [] => []
  | (kind, body) :: rest =>
    ⟨kind, UInt32.ofNat offset, UInt32.ofNat body.length⟩ ::
      placeSections (offset + body.length) rest

/-- The offset of the first of `count` sections. -/
def sectionsStart (count : Nat) : Nat :=
  headerSize + count * sectionEntrySize

/-- The image with the given sections, one after the other behind the table. -/
def encodeImage (version : UInt32) (sections : List (SectionKind × List UInt8)) : List UInt8 :=
  let header : Header := { version, sectionCount := UInt32.ofNat sections.length }
  header.encode
    ++ (placeSections (sectionsStart sections.length) sections).flatMap Section.encode
    ++ sections.flatMap fun s => s.2

/-- The sections of a program. There is a debug section only if there are source lines. -/
def programSections (constants : List Value) (code : List Instruction) (lines : List LineEntry) :
    List (SectionKind × List UInt8) :=
  [(.constants, ConstantPool.encode constants), (.code, code.flatMap Instruction.encode)] ++
    if lines.isEmpty then [] else [(.debug, lines.flatMap LineEntry.encode)]

namespace Builder

/-- The image, unless it is too large. -/
def encode (b : Builder) (code : List Instruction) : Except BuildError (List UInt8) :=
  let sections := programSections b.constants.toList code b.lines.toList
  let size := sectionsStart sections.length + (sections.flatMap fun s => s.2).length
  if UInt32.size ≤ size then .error .tooLarge else .ok (encodeImage b.version sections)

/-- The image. -/
def finish (b : Builder) : Except BuildError (List UInt8) :=
  if b.isEmpty then .error .emptyCode
  else
    match b.rebound with
    | some name => .error (.duplicateLabel name)
    | none =>
      match resolveAll b.labels b.emitted.toList with
      | .error err => .error err
      | .ok code => b.encode code

end Builder

/-- The image that a list of steps builds. -/
def build (steps : List BuildStep) : Except BuildError (List UInt8) :=
  (steps.foldl Builder.apply {}).finish

end StackMachine
