import StackMachine.Image.Header
import StackMachine.Text.Numeral

/-!
# Sections

The section table of an image says where its sections are. A table is accepted only if
every section is of a known kind and the only one of its kind, lies within the
image, and shares no byte with the header, the table or another section; if there is a
code section that is not empty; and if the debug section consists of whole entries.

* `SectionTable.parse`: the table of an image, or the first thing that is wrong with it.
-/

namespace StackMachine

open Bytes

/-- The kinds of sections. -/
inductive SectionKind
  | constants
  | code
  | debug
deriving DecidableEq, Inhabited

namespace SectionKind

/-- The number of a kind in the table. -/
def number : SectionKind → UInt32
  | constants => 1
  | code => 2
  | debug => 3

/-- The kind with a given number. -/
def ofNumber? : UInt32 → Option SectionKind
  | 1 => some constants
  | 2 => some code
  | 3 => some debug
  | _ => none

/-- The name of a kind. -/
def name : SectionKind → String
  | constants => "constants"
  | code => "code"
  | debug => "debug"

@[simp] theorem ofNumber?_number (k : SectionKind) : ofNumber? k.number = some k := by
  cases k <;> rfl

end SectionKind

/-- An entry of the section table: a kind and a range of bytes of the image. -/
structure Section where
  kind : SectionKind
  offset : UInt32
  len : UInt32
deriving DecidableEq, Inhabited

namespace Section

/-- The offset of the first byte. -/
def start (s : Section) : Nat :=
  s.offset.toNat

/-- The offset after the last byte. -/
def stop (s : Section) : Nat :=
  s.offset.toNat + s.len.toNat

/-- Whether there is no byte in the section. -/
def isEmpty (s : Section) : Bool :=
  s.len == 0

/-- The bytes of the entry in the table. -/
def encode (s : Section) : List UInt8 :=
  word 4 s.kind.number.toNat ++ word 4 s.offset.toNat ++ word 4 s.len.toNat

/-- The bytes of the section in an image. -/
def body (s : Section) (image : List UInt8) : List UInt8 :=
  slice image s.start s.len.toNat

end Section

/-- Why a section table is not accepted. -/
inductive SectionError
  /-- The table does not fit in the image. -/
  | tableTruncated (count : UInt32) (len : Nat)
  | unknownKind (number : UInt32)
  | duplicateKind (kind : SectionKind)
  /-- A section ends after the image. -/
  | outOfBounds (kind : SectionKind) (offset len : UInt32)
  /-- A section with any bytes starts before the end of the table. -/
  | overlapsHeader (kind : SectionKind)
  /-- Two sections share bytes; the first one starts no later than the second. -/
  | overlap (first second : SectionKind)
  | missingCode
  | emptyCode
  /-- The debug section has a length that is no multiple of the size of its entries. -/
  | debugMisaligned (len : UInt32)
deriving DecidableEq, Inhabited

/-- The number of bytes of an entry of the debug section. -/
def lineEntrySize : Nat := 8

namespace SectionError

open Text in
/-- The text of a section error. -/
def message : SectionError → String
  | tableTruncated count len =>
    "table of " ++ decimal count.toNat ++ " entries does not fit in " ++ decimal len ++ " bytes"
  | unknownKind number => "unknown section kind " ++ decimal number.toNat
  | duplicateKind kind => "duplicate " ++ kind.name ++ " section"
  | outOfBounds kind offset len =>
    kind.name ++ " section " ++ decimal offset.toNat ++ "+" ++ decimal len.toNat ++
      " lies outside the image"
  | overlapsHeader kind => kind.name ++ " section overlaps the header"
  | overlap first second => first.name ++ " section overlaps the " ++ second.name ++ " section"
  | missingCode => "code section is missing"
  | emptyCode => "code section is empty"
  | debugMisaligned len =>
    "debug section length " ++ decimal len.toNat ++ " is not a multiple of " ++
      decimal lineEntrySize

end SectionError

/-- The entries of an accepted section table, in the order of the table. -/
structure SectionTable where
  entries : List Section
deriving DecidableEq, Inhabited

namespace SectionTable

/-- An entry of the table as it is written, before its kind is known. -/
structure RawEntry where
  number : UInt32
  offset : UInt32
  len : UInt32

/-- The entries that a list of words consists of. -/
def rawEntries : List UInt32 → List RawEntry
  | number :: offset :: len :: words => ⟨number, offset, len⟩ :: rawEntries words
  | _ => []

/-- An entry, if nothing is wrong with it in an image of `size` bytes whose table ends at
    `tableEnd` and whose entries so far are `seen`. -/
def checkEntry (size tableEnd : Nat) (seen : List Section) (e : RawEntry) :
    Except SectionError Section :=
  match SectionKind.ofNumber? e.number with
  | none => .error (.unknownKind e.number)
  | some kind =>
    if seen.any fun s => s.kind == kind then .error (.duplicateKind kind)
    else if size < e.offset.toNat + e.len.toNat then .error (.outOfBounds kind e.offset e.len)
    else if 0 < e.len ∧ e.offset.toNat < tableEnd then .error (.overlapsHeader kind)
    else .ok ⟨kind, e.offset, e.len⟩

/-- All entries after the ones already `seen`. -/
def checkEntries (size tableEnd : Nat) :
    List Section → List RawEntry → Except SectionError (List Section)
  | seen, [] => .ok seen
  | seen, e :: rest =>
    match checkEntry size tableEnd seen e with
    | .error err => .error err
    | .ok s => checkEntries size tableEnd (seen ++ [s]) rest

/-- `s` put into a list of sections in the order of their offsets, before those that start
    where it does. -/
def insertByOffset (s : Section) : List Section → List Section
  | [] => [s]
  | t :: rest => if s.offset ≤ t.offset then s :: t :: rest else t :: insertByOffset s rest

/-- The first two neighbours of which the first one ends after the second one starts. -/
def overlap? : List Section → Option (SectionKind × SectionKind)
  | s :: t :: rest => if t.start < s.stop then some (s.kind, t.kind) else overlap? (t :: rest)
  | _ => none

/-- Two sections that share a byte, if there are any: neighbours among the sections with
    any bytes, in the order of their offsets. -/
def overlapping? (entries : List Section) : Option (SectionKind × SectionKind) :=
  overlap? ((entries.filter fun s => !s.isEmpty).foldr insertByOffset [])

/-- The section of a kind. -/
def find? (table : SectionTable) (kind : SectionKind) : Option Section :=
  table.entries.find? fun s => s.kind == kind

/-- What is wrong with a table as a whole, its entries being accepted. -/
def defect? (table : SectionTable) : Option SectionError :=
  match overlapping? table.entries with
  | some (first, second) => some (.overlap first second)
  | none =>
    match table.find? .code with
    | none => some .missingCode
    | some code =>
      if code.isEmpty then some .emptyCode
      else
        match table.find? .debug with
        | none => none
        | some debug =>
          if debug.len.toNat % lineEntrySize = 0 then none
          else some (.debugMisaligned debug.len)

/-- The section table after the header `h` of an image. -/
def parse (image : List UInt8) (h : Header) : Except SectionError SectionTable :=
  let size := image.length
  if size < h.tableEnd then .error (.tableTruncated h.sectionCount size)
  else
    let table := slice image headerSize (h.tableEnd - headerSize)
    match checkEntries size h.tableEnd [] (rawEntries (words32 table)) with
    | .error err => .error err
    | .ok entries =>
      match defect? ⟨entries⟩ with
      | some err => .error err
      | none => .ok ⟨entries⟩

end SectionTable

end StackMachine
