import StackMachine.Image.Listing
import StackMachine.Machine.Run

/-!
# Traces

A trace has one line for every event of a run. Lines are indented by the number of active
calls, which the printer counts on its own: the line of a call and the line of the return from
it both have the indentation of the caller.

```text
0000  push.i 5               [0]
0009  call L0018 1 0         [1]
      -> L0018
0018    load 0               [0]  ; line 4
```

The source lines are those of the program, which the printer keeps in a table of its own.

* `Printer.observe`: the line of an event;
* `trace`: a run with its trace.
-/

namespace StackMachine

open Text

/-- The source lines of a program by their offsets. Of those with the same offset the last one
    counts, so they are listed from the last one on. -/
def Program.sourceLines (p : Program) : List (Nat × UInt32) :=
  p.lines.toList.reverse.map fun e => (e.offset.toNat, e.line)

/-- A printer of traces of a program. -/
structure Printer where
  program : Program
  /-- The source lines of the program. -/
  sourceLines : List (Nat × UInt32) := program.sourceLines
  /-- The number of active calls. -/
  depth : Nat := 0
  /-- The lines so far. -/
  lines : Array StyledLine := #[]

namespace Printer

/-- Two blanks for every active call. -/
def indent (t : Printer) : String :=
  String.ofList (List.replicate (2 * t.depth) ' ')

/-- The width of the column of instructions. -/
def instructionWidth : Nat := 22

/-- The line of an instruction. The last columns are the number of operands and the source line,
    if there is one. -/
def stepLine (t : Printer) (offset : Nat) (i : Instruction) (depth : Nat) : StyledLine :=
  let text := padRight instructionWidth ' ' (t.indent ++ i.display).toList
  [styled .dim (offsetDigits offset), plain ("  " ++ String.ofList text ++ " "),
   styled .dim ("[" ++ decimal depth ++ "]")] ++
    Listing.lineRemark (t.sourceLines.lookup offset)

/-- The line of an event that is not an instruction, below the mnemonics. -/
def eventLine (t : Printer) (style : Style) (text : String) : StyledLine :=
  [plain ("      " ++ t.indent), styled style text]

/-- The printer with a line more. -/
def add (t : Printer) (line : StyledLine) : Printer :=
  { t with lines := t.lines.push line }

/-- The printer after an event. -/
def observe (t : Printer) : Event → Printer
  | .step offset i depth => t.add (t.stepLine offset i depth)
  | .call target depth =>
    { t.add (t.eventLine .blue ("-> " ++ labelName target.toNat)) with depth }
  | .ret v =>
    let t := { t with depth := t.depth - 1 }
    t.add (t.eventLine .blue ("<- " ++ v.display))
  | .halt v => t.add (t.eventLine .green ("=> " ++ v.display))
  | .fault fault => t.add (t.eventLine .red ("!! " ++ fault.message))

/-- The lines as text. -/
def render (t : Printer) (palette : Palette) : List String :=
  t.lines.toList.map palette.render

end Printer

/-- A run with its trace. -/
def trace (p : Program) (limits : Limits) : Outcome Printer :=
  execute p limits Printer.observe { program := p }

end StackMachine
