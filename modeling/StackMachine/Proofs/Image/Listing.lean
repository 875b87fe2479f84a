import StackMachine.Image.Listing
import StackMachine.Proofs.Image.Loading
import StackMachine.Proofs.Instruction.Text

/-!
# The lines of a listing

A listing is made of lines without control characters, and is split into these again. The first of
them that reads `[code]` is the heading of the code, and what follows it is the code. Without the
offsets of its instructions, the code is an assembly text.

* `Listing.lines_dump_off`: the lines of a listing;
* `Listing.assembly`: the assembly text in a listing;
* `Listing.lines_assembly_dump_off`: its lines.
-/

namespace StackMachine

open Text

namespace Listing

/-! ## Lines -/

/-- A line without its styles. -/
def text (line : StyledLine) : List Char :=
  line.flatMap (·.text.toList)

theorem toList_render_off (line : StyledLine) : (Palette.off.render line).toList = text line := by
  have hspan (s : Span) : (Palette.off.renderSpan s).toList = s.text.toList := by
    obtain ⟨style, text⟩ := s
    cases style with
    | none => rfl
    | some style => cases style <;> simp [Palette.renderSpan, Palette.start, Palette.off]
  rw [Palette.render, String.toList_join, List.flatMap_map, text]
  exact List.flatMap_congr fun s _ => hspan s

theorem toList_dump_off (p : Program) :
    (dump p .off).toList = ((ofProgram p).map text).flatMap (· ++ ['\n']) := by
  rw [dump, String.toList_join, List.flatMap_map, List.flatMap_map]
  refine List.flatMap_congr fun line _ => ?_
  rw [String.toList_append, toList_render_off]
  rfl

/-! ## Before the code -/

/-- A line without control characters that is not the heading of the code. -/
structure IsPreface (line : StyledLine) : Prop where
  printable : Printable (text line)
  ne_heading : text line ≠ text (heading "code")

theorem printable_of_isWord {cs : List Char} (h : IsWord cs) : Printable cs :=
  printable_of_forall_isPlain h.isPlain

@[simp] theorem printable_decimal (n : Nat) : Printable (decimal n).toList := by
  rw [decimal, String.toList_ofList]
  exact printable_of_isWord (isWord_digits n)

@[simp] theorem printable_decimalInt (n : ℤ) : Printable (decimalInt n).toList := by
  rw [decimalInt, String.toList_ofList]
  exact printable_of_isWord (isWord_integerDigits n)

@[simp] theorem printable_display (v : Value) : Printable v.display.toList := by
  cases v with
  | none => decide
  | int n => exact printable_decimalInt _
  | float x => exact printable_of_isWord (Value.isWord_displayFloat x)
  | bool b => cases b <;> decide
  | error code =>
    simp only [Value.display, String.toList_append, printable_append, printable_decimalInt]
    decide

theorem isPreface_of_mem_headerLines {p : Program} (h : p.IsLoaded) :
    ∀ line ∈ headerLines p, IsPreface line := by
  have hmagic : p.header.magic = imageMagic := by simpa [Header.hasMagic] using h.magic
  intro line hline
  simp only [headerLines, hmagic, List.mem_cons, List.not_mem_nil, or_false] at hline
  rcases hline with rfl | rfl | rfl | rfl <;>
    exact ⟨by simp [imageMagic, heading, text, plain, styled],
      by simp [imageMagic, heading, text, plain, styled]⟩

theorem isPreface_of_mem_sectionLines (p : Program) : ∀ line ∈ sectionLines p, IsPreface line := by
  have hline (s : Section) : IsPreface (sectionLine s) := by
    obtain ⟨kind, offset, len⟩ := s
    cases kind <;>
      exact ⟨by simp [sectionLine, text, plain, styled, padRight, SectionKind.name],
        by simp [sectionLine, heading, text, plain, styled, padRight, SectionKind.name]⟩
  exact List.forall_mem_cons.2 ⟨⟨by decide, by decide⟩, List.forall_mem_map.2 fun s _ => hline s⟩

theorem isPreface_of_mem_constantLines (p : Program) :
    ∀ line ∈ constantLines p, IsPreface line := by
  have htag (tag : Tag) : Printable tag.name.toList := by
    cases tag <;> decide
  have hline (v : Value) (index : Nat) : IsPreface (constantLine v index) := by
    cases v <;> exact ⟨by simp [constantLine, text, plain, styled, htag],
      by simp [constantLine, heading, text, plain, styled]⟩
  exact List.forall_mem_cons.2 ⟨⟨by decide, by decide⟩, List.forall_mem_map.2 fun v _ => hline _ _⟩

/-- The lines before the heading of the code. -/
def preface (p : Program) : List StyledLine :=
  headerLines p ++ [] :: sectionLines p ++ [] :: constantLines p ++ [[]]

theorem ofProgram_eq (p : Program) :
    ofProgram p = preface p ++ heading "code" :: codeLines p := by
  simp [ofProgram, preface]

theorem isPreface_of_mem_preface {p : Program} (h : p.IsLoaded) :
    ∀ line ∈ preface p, IsPreface line := by
  have hempty : IsPreface [] := ⟨printable_nil, by decide⟩
  simp only [preface, List.forall_mem_append, List.forall_mem_cons]
  exact ⟨⟨⟨isPreface_of_mem_headerLines h, hempty, isPreface_of_mem_sectionLines p⟩, hempty,
    isPreface_of_mem_constantLines p⟩, hempty, List.forall_mem_nil _⟩

/-! ## The code -/

theorem text_lineRemark_some (line : UInt32) : text (lineRemark (some line)) =
    [' ', ' '] ++ ';' :: " line ".toList ++ (decimal line.toNat).toList := by
  simp [lineRemark, text, plain, styled]

theorem text_labelLine (offset : Nat) :
    text [styled .blue (labelName offset ++ ":")] = (labelName offset).toList ++ [':'] := by
  simp [text, styled]

/-- The line of an instruction without its offset. -/
def statementLine (p : Program) (i : Placed) : List Char :=
  i.instruction.display.toList ++ text (lineRemark (p.lineFor? i.offset))

theorem text_instructionLine (p : Program) (i : Placed) :
    text (instructionLine p i) =
      ' ' :: ' ' :: ((offsetDigits i.offset).toList ++ ' ' :: ' ' :: statementLine p i) := by
  simp [instructionLine, statementLine, text, plain, styled]

theorem printable_labelLine (offset : Nat) : Printable ((labelName offset).toList ++ [':']) :=
  printable_append.2 ⟨printable_of_isWord (isWord_labelName offset), by decide⟩

@[simp] theorem printable_offsetDigits (offset : Nat) : Printable (offsetDigits offset).toList :=
  fun c hc => le_of_isPlain (isPlain_of_isDigit (forall_isDigit_offsetDigits offset c hc))

@[simp] theorem printable_instruction (i : Instruction) : Printable i.display.toList := by
  intro c hc
  rcases i.isPlain_or_eq_of_mem_display c hc with h | rfl
  · exact le_of_isPlain h
  · decide

@[simp] theorem printable_lineRemark (line? : Option UInt32) :
    Printable (text (lineRemark line?)) := by
  cases line? with
  | none => exact printable_nil
  | some line => simp [text_lineRemark_some]

theorem printable_statementLine (p : Program) (i : Placed) : Printable (statementLine p i) :=
  printable_append.2 ⟨printable_instruction _, printable_lineRemark _⟩

theorem printable_codeLines (p : Program) : ∀ line ∈ codeLines p, Printable (text line) := by
  refine List.forall_mem_flatMap.2 fun i _ => List.forall_mem_append.2 ⟨?_, ?_⟩
  · rw [labelLines]
    split
    · rw [List.forall_mem_singleton, text_labelLine]
      exact printable_labelLine i.offset
    · exact List.forall_mem_nil _
  · simp [text_instructionLine, printable_statementLine]

/-- No line has control characters. -/
theorem printable_ofProgram {p : Program} (h : p.IsLoaded) :
    ∀ line ∈ ofProgram p, Printable (text line) := by
  rw [ofProgram_eq, List.forall_mem_append]
  exact ⟨fun line hline => (isPreface_of_mem_preface h line hline).printable,
    List.forall_mem_cons.2 ⟨by decide, printable_codeLines p⟩⟩

/-- The lines of a listing. -/
theorem lines_dump_off {p : Program} (h : p.IsLoaded) :
    lines (dump p .off).toList = (ofProgram p).map text := by
  rw [toList_dump_off, lines_flatMap (List.forall_mem_map.2 (printable_ofProgram h))]

/-! ## The assembly text -/

/-- The lines of a listing that come after the heading of the code. -/
def codePart (listing : String) : List (List Char) :=
  ((lines listing.toList).dropWhile (· ≠ "[code]".toList)).drop 1

/-- A line of the code without its offset, if it has one: two blanks, digits and two blanks
    again. -/
def dropOffset : List Char → List Char
  | ' ' :: ' ' :: cs => (cs.dropWhile Char.isDigit).drop 2
  | line => line

/-- The assembly text in a listing: the code without the offsets of the instructions. -/
def assembly (listing : String) : String :=
  String.ofList (((codePart listing).map dropOffset).flatMap (· ++ ['\n']))

theorem codePart_dump_off {p : Program} (h : p.IsLoaded) :
    codePart (dump p .off) = (codeLines p).map text := by
  have hpreface : ∀ line ∈ (preface p).map text, decide (line ≠ "[code]".toList) = true :=
    List.forall_mem_map.2 fun line hline =>
      decide_eq_true (isPreface_of_mem_preface h line hline).ne_heading
  -- Nothing before the heading reads like it, so the lines are cut there.
  rw [codePart, lines_dump_off h, ofProgram_eq, List.map_append, List.map_cons,
    List.dropWhile_append_of_pos hpreface, List.dropWhile_cons_of_neg]
  · rfl
  · decide

/-- The lines of the assembly text in a listing that come from an instruction: its label, if
    it has one, and the instruction with its remark. -/
def assemblyLines (p : Program) (i : Placed) : List (List Char) :=
  (if i.offset ∈ targets p then [(labelName i.offset).toList ++ [':']] else []) ++
    [statementLine p i]

theorem map_dropOffset_codeLines (p : Program) :
    ((codeLines p).map text).map dropOffset = p.code.toList.flatMap (assemblyLines p) := by
  have hlabel (offset : Nat) : dropOffset (text [styled .blue (labelName offset ++ ":")]) =
      (labelName offset).toList ++ [':'] := by
    rw [text_labelLine, toList_labelName]
    rfl
  have hinstruction (i : Placed) : dropOffset (text (instructionLine p i)) = statementLine p i := by
    obtain ⟨-, hrest⟩ := takeWhile_dropWhile_append (forall_isDigit_offsetDigits i.offset)
      (' ' :: ' ' :: statementLine p i) (by rintro c ⟨⟩; rfl)
    rw [text_instructionLine]
    exact congrArg (List.drop 2) hrest
  rw [codeLines, List.map_flatMap, List.map_flatMap]
  refine List.flatMap_congr fun i _ => ?_
  rw [List.map_append, List.map_append, labelLines, assemblyLines]
  simp only [List.contains_iff_mem]
  split <;> simp [hlabel, hinstruction]

/-- The lines of the assembly text in a listing. -/
theorem lines_assembly_dump_off {p : Program} (h : p.IsLoaded) :
    lines (assembly (dump p .off)).toList = p.code.toList.flatMap (assemblyLines p) := by
  rw [assembly, String.toList_ofList, codePart_dump_off h, map_dropOffset_codeLines,
    lines_flatMap]
  refine List.forall_mem_flatMap.2 fun i _ => List.forall_mem_append.2 ⟨?_, ?_⟩
  · split
    · exact List.forall_mem_singleton.2 (printable_labelLine i.offset)
    · exact List.forall_mem_nil _
  · exact List.forall_mem_singleton.2 (printable_statementLine p i)

end Listing

end StackMachine
