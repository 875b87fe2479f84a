/-!
# Styled text

Listings and traces are lines of *spans*, texts with or without a style. A
`Palette` says which escape sequence switches a style on and which one switches
all styles off; `Palette.off` has none.

* `Palette.render`: a line as text. A style surrounds its own span only, so a
  palette never changes what is written between the escape sequences.
-/

namespace StackMachine

/-- The styles of a span. -/
inductive Style
  /-- Headings, labels, calls and returns. -/
  | blue
  /-- Results and constants. -/
  | green
  /-- Faults and error values. -/
  | red
  /-- Offsets, stack depths and remarks. -/
  | dim
deriving DecidableEq, Inhabited

/-- A piece of a line. -/
structure Span where
  style : Option Style
  text : String
deriving DecidableEq, Inhabited

/-- A line of text without its end. -/
abbrev StyledLine := List Span

/-- A span without a style. -/
def plain (text : String) : Span :=
  ⟨none, text⟩

/-- A span with a style. -/
def styled (style : Style) (text : String) : Span :=
  ⟨some style, text⟩

/-- The escape sequences of the styles, and the one that ends them. -/
structure Palette where
  blue : String
  green : String
  red : String
  dim : String
  reset : String
deriving DecidableEq, Inhabited

namespace Palette

/-- The escape sequences of terminals with sixteen colours. -/
def on : Palette where
  blue := "\x1b[34m"
  green := "\x1b[32m"
  red := "\x1b[31m"
  dim := "\x1b[2m"
  reset := "\x1b[0m"

/-- No escape sequences. -/
def off : Palette where
  blue := ""
  green := ""
  red := ""
  dim := ""
  reset := ""

/-- The palette that is on or off. -/
def ofBool (enabled : Bool) : Palette :=
  if enabled then on else off

/-- Whether there is an escape sequence to end styles. -/
def isOn (p : Palette) : Bool :=
  p.reset != ""

/-- The escape sequence that switches a style on. -/
def start (p : Palette) : Style → String
  | .blue => p.blue
  | .green => p.green
  | .red => p.red
  | .dim => p.dim

/-- A span as text. -/
def renderSpan (p : Palette) (s : Span) : String :=
  match s.style with
  | none => s.text
  | some style => p.start style ++ s.text ++ p.reset

/-- A line as text. -/
def render (p : Palette) (line : StyledLine) : String :=
  String.join (line.map p.renderSpan)

end Palette

end StackMachine
