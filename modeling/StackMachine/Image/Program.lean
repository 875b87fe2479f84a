import StackMachine.Image.ConstantPool
import StackMachine.Image.Search
import StackMachine.Image.Section
import StackMachine.Instruction.Codec

/-!
# Programs

A program is what an image denotes. Loading checks the image once, stage by stage: header,
section table, constant pool and code. The debug section, which assigns source lines to
places in the code, has no further conditions.

* `Program.load`: the program of an image, or the first thing that is wrong with it;
* `Program.indexOf?`: the position of the instruction at a given offset;
* `Program.lineFor?`: the source line of the instruction at a given offset, the one
  that comes first in the debug section.
-/

namespace StackMachine

open Bytes

/-- Why bytes are not the image of a program. -/
inductive LoadError
  /-- There are fewer bytes than a header has. -/
  | tooShort (len : Nat)
  | badMagic (magic : List UInt8)
  | unsupportedVersion (version : UInt32)
  | malformedSectionTable (reason : SectionError)
  | malformedConstantPool (reason : ConstantPoolError)
  | malformedCode (offset : Nat) (reason : CodeError)
deriving DecidableEq, Inhabited

namespace LoadError

/-- The code that stands for a load error in values. -/
def code : LoadError → Int64
  | tooShort _ => 1
  | badMagic _ => 2
  | unsupportedVersion _ => 3
  | malformedSectionTable _ => 4
  | malformedConstantPool _ => 5
  | malformedCode .. => 6

open Text in
/-- The text of a load error. -/
def message : LoadError → String
  | tooShort len =>
    "image too short: " ++ decimal len ++ " bytes (minimum " ++ decimal headerSize ++ ")"
  | badMagic magic => "invalid magic: [" ++ ", ".intercalate (magic.map hexByte) ++ "]"
  | unsupportedVersion version =>
    "unsupported version: " ++ decimal version.toNat ++ " (highest supported " ++
      decimal imageVersion.toNat ++ ")"
  | malformedSectionTable reason => "malformed section table: " ++ reason.message
  | malformedConstantPool reason => "malformed constant pool: " ++ reason.message
  | malformedCode offset reason =>
    "malformed code at offset " ++ decimal offset ++ ": " ++ reason.message

end LoadError

/-- An instruction and the offset of its first byte in the code. -/
structure Placed where
  offset : Nat
  instruction : Instruction
deriving DecidableEq, Inhabited

/-- A source line for the instruction at an offset in the code. -/
structure LineEntry where
  offset : UInt32
  line : UInt32
deriving DecidableEq, Inhabited

namespace LineEntry

/-- The bytes of an entry of the debug section. -/
def encode (e : LineEntry) : List UInt8 :=
  word 4 e.offset.toNat ++ word 4 e.line.toNat

/-- The entries that a list of words consists of. -/
def ofWords : List UInt32 → List LineEntry
  | offset :: line :: words => ⟨offset, line⟩ :: ofWords words
  | _ => []

/-- `e` put into a list of entries with ascending offsets, in front of those with the same
    offset. -/
def insert (e : LineEntry) : List LineEntry → List LineEntry
  | [] => [e]
  | d :: rest => if e.offset ≤ d.offset then e :: d :: rest else d :: insert e rest

/-- The entries with ascending offsets, and those with the same offset in their order. -/
def sort (entries : List LineEntry) : List LineEntry :=
  entries.foldr insert []

/-- The entry `e` and those after it, but of neighbours with the same offset only the first one. -/
def dedupFrom (e : LineEntry) : List LineEntry → List LineEntry
  | [] => [e]
  | d :: rest => if d.offset = e.offset then dedupFrom e rest else e :: dedupFrom d rest

/-- Of neighbours with the same offset only the first one. -/
def dedup : List LineEntry → List LineEntry
  | [] => []
  | e :: rest => dedupFrom e rest

/-- The entries of a debug section with ascending offsets; of those with the same offset only
    the first one. -/
def decodeAll (bs : List UInt8) : List LineEntry :=
  dedup (sort (ofWords (words32 bs)))

end LineEntry

/-- The instructions that `bs` consists of, the first one at `offset`. -/
def decodeCode (offset : Nat) (bs : List UInt8) : Except LoadError (List Placed) :=
  match bs with
  | [] => .ok []
  | b :: rest =>
    match Instruction.decode (b :: rest) with
    | .error reason => .error (.malformedCode offset reason)
    | .ok i =>
      match decodeCode (offset + i.size) ((b :: rest).drop i.size) with
      | .error err => .error err
      | .ok placed => .ok (⟨offset, i⟩ :: placed)
termination_by bs.length
decreasing_by
  have := i.size_pos
  simp only [List.length_drop, List.length_cons]
  omega

/-- A loaded program, with the image that it comes from. -/
structure Program where
  bytes : List UInt8
  header : Header
  sections : SectionTable
  constants : Array Value
  /-- The instructions with ascending offsets. -/
  code : Array Placed
  /-- The source lines with ascending offsets. -/
  lines : Array LineEntry
deriving DecidableEq, Inhabited

namespace Program

/-- The bytes of the code section. -/
def codeBytes (p : Program) : List UInt8 :=
  match p.sections.find? .code with
  | none => []
  | some s => s.body p.bytes

/-- The number of bytes of the code section. -/
def codeLen (p : Program) : Nat :=
  match p.sections.find? .code with
  | none => 0
  | some s => s.len.toNat

/-- The constant with a given index. -/
def constant? (p : Program) (index : Nat) : Option Value :=
  p.constants[index]?

/-- The instruction at a given position, not offset. -/
def fetch? (p : Program) (index : Nat) : Option Placed :=
  p.code[index]?

/-- The position of the instruction that starts at a given offset. -/
def indexOf? (p : Program) (offset : Nat) : Option Nat :=
  bisect? (fun i => (p.code.getD i default).offset) p.code.size offset

/-- The source line of the instruction at a given offset. -/
def lineFor? (p : Program) (offset : Nat) : Option UInt32 :=
  (bisect? (fun i => (p.lines.getD i default).offset.toNat) p.lines.size offset).map fun i =>
    (p.lines.getD i default).line

/-- The constants of an image with the given section table. -/
def loadConstants (bytes : List UInt8) (sections : SectionTable) :
    Except LoadError (List Value) :=
  match sections.find? .constants with
  | none => .ok []
  | some s =>
    match ConstantPool.decode (s.body bytes) with
    | .error reason => .error (.malformedConstantPool reason)
    | .ok values => .ok values

/-- The instructions of an image with the given section table. -/
def loadCode (bytes : List UInt8) (sections : SectionTable) : Except LoadError (List Placed) :=
  match sections.find? .code with
  | none => .error (.malformedSectionTable .missingCode)
  | some s => decodeCode 0 (s.body bytes)

/-- The source lines of an image with the given section table. -/
def loadLines (bytes : List UInt8) (sections : SectionTable) : List LineEntry :=
  match sections.find? .debug with
  | none => []
  | some s => LineEntry.decodeAll (s.body bytes)

/-- The program with the given header, once that is accepted. -/
def loadSections (bytes : List UInt8) (header : Header) : Except LoadError Program :=
  match SectionTable.parse bytes header with
  | .error reason => .error (.malformedSectionTable reason)
  | .ok sections =>
    match loadConstants bytes sections with
    | .error err => .error err
    | .ok constants =>
      match loadCode bytes sections with
      | .error err => .error err
      | .ok code =>
        .ok
          { bytes, header, sections
            constants := constants.toArray
            code := code.toArray
            lines := (loadLines bytes sections).toArray }

/-- The program that an image denotes. -/
def load (bytes : List UInt8) : Except LoadError Program :=
  match Header.decode? bytes with
  | none => .error (.tooShort bytes.length)
  | some header =>
    if !header.hasMagic then .error (.badMagic header.magic)
    else if !header.isSupported then .error (.unsupportedVersion header.version)
    else loadSections bytes header

end Program

end StackMachine
