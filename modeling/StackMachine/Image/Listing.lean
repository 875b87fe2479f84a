import StackMachine.Image.Program
import StackMachine.Instruction.Text
import StackMachine.Text.Styled

/-!
# Listings

A listing shows what is in a program: header, sections, constants and code, each block under
its heading. In the code, a place that some branch or call goes to has its label on a line of
its own, and an instruction with a source line has it as a remark.

* `Listing.ofProgram`: the lines of the listing;
* `dump`: the listing as text.
-/

namespace StackMachine

namespace Listing

open Text

/-- The heading of a block. -/
def heading (name : String) : StyledLine :=
  [styled .blue ("[" ++ name ++ "]")]

/-- The block of the header. -/
def headerLines (p : Program) : List StyledLine :=
  [heading "header",
   [plain ("magic    " ++ String.ofList (p.header.magic.map fun b => Char.ofNat b.toNat))],
   [plain ("version  " ++ decimal p.header.version.toNat)],
   [plain ("sections " ++ decimal p.header.sectionCount.toNat)]]

/-- The line of a section. -/
def sectionLine (s : Section) : StyledLine :=
  [plain (String.ofList (padRight 9 ' ' s.kind.name.toList) ++ " " ++ decimal s.start ++ ".." ++
     decimal s.stop ++ " "),
   styled .dim ("(" ++ decimal s.len.toNat ++ " bytes)")]

/-- The block of the sections. -/
def sectionLines (p : Program) : List StyledLine :=
  heading "sections" :: p.sections.entries.map sectionLine

/-- The line of a constant. -/
def constantLine (v : Value) (index : Nat) : StyledLine :=
  match v with
  | .none => [plain ("C" ++ decimal index ++ "  none")]
  | v => [plain ("C" ++ decimal index ++ "  " ++ v.tag.name ++ " "), styled .green v.display]

/-- The block of the constants. -/
def constantLines (p : Program) : List StyledLine :=
  heading "constants" :: p.constants.toList.zipIdx.map fun (v, index) => constantLine v index

/-- The remark on a source line. -/
def lineRemark : Option UInt32 → StyledLine
  | none => []
  | some line => [plain "  ", styled .dim ("; line " ++ decimal line.toNat)]

/-- The line of a label, if the place is one of the `targets`. -/
def labelLines (targets : List Nat) (offset : Nat) : List StyledLine :=
  if targets.contains offset then [[styled .blue (labelName offset ++ ":")]] else []

/-- The line of an instruction. -/
def instructionLine (p : Program) (i : Placed) : StyledLine :=
  [plain "  ", styled .dim (offsetDigits i.offset), plain ("  " ++ i.instruction.display)] ++
    lineRemark (p.lineFor? i.offset)

/-- The places that branches and calls go to. -/
def targets (p : Program) : List Nat :=
  (p.code.toList.filterMap fun i => i.instruction.target?).map UInt32.toNat

/-- The lines of the code, without the heading. -/
def codeLines (p : Program) : List StyledLine :=
  let targets := targets p
  p.code.toList.flatMap fun i => labelLines targets i.offset ++ [instructionLine p i]

/-- The lines of the listing of a program. An empty line ends every block but the last. -/
def ofProgram (p : Program) : List StyledLine :=
  headerLines p ++ [] :: sectionLines p ++ [] :: constantLines p ++ [] :: heading "code" ::
    codeLines p

end Listing

/-- The listing of a program as text. -/
def dump (p : Program) (palette : Palette) : String :=
  String.join ((Listing.ofProgram p).map fun line => palette.render line ++ "\n")

end StackMachine
