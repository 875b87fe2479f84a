import StackMachine.Proofs.Image.Loading

/-!
# Guarded loading

Loading takes ranges of bytes without looking whether they are there. The guarded loader looks: it
*aborts* where a range ends before it starts, or after the bytes that it is taken from. Whatever the
image is, this never happens: the length is looked at before the header is read, and the sections
only after their table was accepted.

* `range?`: a range of bytes, if it is there;
* `Guarded.load`: the guarded loader;
* `guarded_load`: it does not abort, and does what loading does.
-/

namespace StackMachine

open Bytes

namespace Bytes

/-- The bytes from `start` to `stop`, if all of them are there. -/
def range? (bs : List UInt8) (start stop : Nat) : Option (List UInt8) :=
  if start ≤ stop ∧ stop ≤ bs.length then some (slice bs start (stop - start)) else none

theorem range?_eq {bs : List UInt8} {start stop : Nat} (hstart : start ≤ stop)
    (hstop : stop ≤ bs.length) : range? bs start stop = some (slice bs start (stop - start)) :=
  if_pos ⟨hstart, hstop⟩

end Bytes

namespace Program

namespace Guarded

/-- The header of an image. -/
def header (image : List UInt8) : Option Header := do
  let bs ← range? image 0 headerSize
  let magic ← range? bs 0 4
  let version ← range? bs 4 8
  let sectionCount ← range? bs 8 12
  return ⟨magic, UInt32.ofNat (wordValue version), UInt32.ofNat (wordValue sectionCount)⟩

/-- The section table after the header `h` of an image. -/
def sections (image : List UInt8) (h : Header) : Option (Except SectionError SectionTable) :=
  if image.length < h.tableEnd then
    some (.error (.tableTruncated h.sectionCount image.length))
  else do
    let table ← range? image headerSize h.tableEnd
    let entries := SectionTable.rawEntries (words32 table)
    match SectionTable.checkEntries image.length h.tableEnd [] entries with
    | .error err => return .error err
    | .ok entries =>
      match SectionTable.defect? ⟨entries⟩ with
      | some err => return .error err
      | none => return .ok ⟨entries⟩

/-- The bytes of a section. -/
def body (image : List UInt8) (s : Section) : Option (List UInt8) :=
  range? image s.start s.stop

/-- The constants of an image with the given section table. -/
def constants (image : List UInt8) (table : SectionTable) :
    Option (Except LoadError (List Value)) :=
  match table.find? .constants with
  | none => some (.ok [])
  | some s => do
    let bs ← body image s
    return (ConstantPool.decode bs).mapError .malformedConstantPool

/-- The instructions from the position `pos` of the code on. -/
def decodeCode (code : List UInt8) (pos : Nat) : Option (Except LoadError (List Placed)) :=
  if pos < code.length then do
    let bs ← range? code pos code.length
    match Instruction.decode bs with
    | .error reason => return .error (.malformedCode pos reason)
    | .ok i =>
      let placed ← decodeCode code (pos + i.size)
      return placed.map (⟨pos, i⟩ :: ·)
  else some (.ok [])
termination_by code.length - pos
decreasing_by
  have := i.size_pos
  omega

/-- The instructions of an image with the given section table. -/
def code (image : List UInt8) (table : SectionTable) : Option (Except LoadError (List Placed)) :=
  match table.find? .code with
  | none => some (.error (.malformedSectionTable .missingCode))
  | some s => do
    let bs ← body image s
    decodeCode bs 0

/-- The source lines of an image with the given section table. -/
def lines (image : List UInt8) (table : SectionTable) : Option (List LineEntry) :=
  match table.find? .debug with
  | none => some []
  | some s => (body image s).map LineEntry.decodeAll

/-- The program that an image denotes; `none` if the loader aborts. -/
def load (image : List UInt8) : Option (Except LoadError Program) :=
  if image.length < headerSize then some (.error (.tooShort image.length))
  else do
    let header ← header image
    if !header.hasMagic then return .error (.badMagic header.magic)
    else if !header.isSupported then return .error (.unsupportedVersion header.version)
    else
      match ← sections image header with
      | .error reason => return .error (.malformedSectionTable reason)
      | .ok table =>
        match ← constants image table with
        | .error err => return .error err
        | .ok constants =>
          match ← code image table with
          | .error err => return .error err
          | .ok code =>
            let lines ← lines image table
            return .ok
              { bytes := image, header, sections := table
                constants := constants.toArray
                code := code.toArray
                lines := lines.toArray }

end Guarded

/-! ## The loader does not abort -/

/-- The header is read from bytes that are there. -/
theorem guarded_header {image : List UInt8} (h : headerSize ≤ image.length) :
    Guarded.header image = some (.ofImage image) := by
  have hlen : (slice image 0 headerSize).length = headerSize :=
    length_slice (by rwa [Nat.zero_add])
  have hword {start : Nat} (hstart : start + 4 ≤ headerSize) :
      range? (slice image 0 headerSize) start (start + 4) = some (slice image start 4) := by
    rw [range?_eq (Nat.le_add_right _ _) (by rwa [hlen]), Nat.add_sub_cancel_left,
      slice_slice hstart, Nat.zero_add]
  rw [Guarded.header, range?_eq (Nat.zero_le _) h, Nat.sub_zero]
  simp only [Option.bind_eq_bind, Option.bind_some, @hword 0 (by decide), @hword 4 (by decide),
    @hword 8 (by decide), Option.pure_def]
  rfl

/-- The table is read once it is known to fit. -/
theorem guarded_sections (image : List UInt8) (h : Header) :
    Guarded.sections image h = some (SectionTable.parse image h) := by
  have hstart : headerSize ≤ h.tableEnd := Nat.le_add_right _ _
  rw [Guarded.sections, SectionTable.parse]
  by_cases hfits : image.length < h.tableEnd
  · rw [if_pos hfits, if_pos hfits]
  rw [if_neg hfits, if_neg hfits,
    range?_eq hstart (Nat.le_of_not_lt hfits), Option.bind_eq_bind, Option.bind_some]
  dsimp only
  generalize SectionTable.checkEntries image.length h.tableEnd [] _ = checked
  cases checked with
  | error err => rfl
  | ok entries =>
    dsimp only
    cases SectionTable.defect? ⟨entries⟩ <;> rfl

/-- In the code a range is taken only where a byte is left. -/
theorem guarded_decodeCode (code : List UInt8) (pos : Nat) :
    Guarded.decodeCode code pos = some (decodeCode pos (code.drop pos)) := by
  induction hrest : code.length - pos using Nat.strongRecOn generalizing pos with
  | ind n ih =>
    rw [Guarded.decodeCode]
    by_cases hpos : pos < code.length
    · have hrange : range? code pos code.length = some (code.drop pos) := by
        rw [range?_eq (Nat.le_of_lt hpos) (Nat.le_refl _), slice, List.take_of_length_le]
        rw [List.length_drop]
      rw [if_pos hpos, hrange, List.drop_eq_getElem_cons hpos, decodeCode,
        ← List.drop_eq_getElem_cons hpos, Option.bind_eq_bind, Option.bind_some]
      cases Instruction.decode (code.drop pos) with
      | error reason => rfl
      | ok i =>
        have hsize := i.size_pos
        simp only [ih _ (by omega) (pos + i.size) rfl, List.drop_drop, Option.bind_eq_bind,
          Option.bind_some]
        cases decodeCode (pos + i.size) (code.drop (pos + i.size)) <;> rfl
    · rw [if_neg hpos, List.drop_eq_nil_of_le (Nat.le_of_not_lt hpos), decodeCode]

section

variable {image : List UInt8} {table : SectionTable}

/-- A section of an accepted table lies within the image. -/
theorem guarded_body {kind : SectionKind} {s : Section}
    (hinside : ∀ s ∈ table.entries, s.stop ≤ image.length) (hs : table.find? kind = some s) :
    Guarded.body image s = some (s.body image) := by
  have hstop := hinside s (List.mem_of_find?_eq_some hs)
  rw [Section.stop] at hstop
  rw [Guarded.body, Section.body, Section.start, Section.stop,
    range?_eq (Nat.le_add_right _ _) hstop, Nat.add_sub_cancel_left]

theorem guarded_constants (hinside : ∀ s ∈ table.entries, s.stop ≤ image.length) :
    Guarded.constants image table = some (loadConstants image table) := by
  rw [Guarded.constants, loadConstants]
  cases hs : table.find? .constants with
  | none => rfl
  | some s =>
    simp only [guarded_body hinside hs, Option.bind_eq_bind, Option.bind_some]
    cases ConstantPool.decode (s.body image) <;> rfl

theorem guarded_code (hinside : ∀ s ∈ table.entries, s.stop ≤ image.length) :
    Guarded.code image table = some (loadCode image table) := by
  rw [Guarded.code, loadCode]
  cases hs : table.find? .code with
  | none => rfl
  | some s =>
    simp only [guarded_body hinside hs, Option.bind_eq_bind, Option.bind_some]
    exact guarded_decodeCode (s.body image) 0

theorem guarded_lines (hinside : ∀ s ∈ table.entries, s.stop ≤ image.length) :
    Guarded.lines image table = some (loadLines image table) := by
  rw [Guarded.lines, loadLines]
  cases hs : table.find? .debug with
  | none => rfl
  | some s => simp only [guarded_body hinside hs, Option.map_some]

end

/-- No image makes the loader take a range that is not there. -/
theorem guarded_load (image : List UInt8) : Guarded.load image = some (load image) := by
  rw [Guarded.load, load]
  by_cases hlen : image.length < headerSize
  · rw [if_pos hlen, Header.decode?_eq_none hlen]
  have hheader := Nat.le_of_not_lt hlen
  rw [if_neg hlen, guarded_header hheader, Header.decode?_eq_ofImage hheader,
    Option.bind_eq_bind, Option.bind_some]
  generalize Header.ofImage image = header
  simp only
  split
  · rfl
  split
  · rfl
  rw [guarded_sections, loadSections, Option.bind_eq_bind, Option.bind_some]
  cases hparse : SectionTable.parse image header with
  | error reason => rfl
  | ok table =>
    have hinside (s : Section) (hs : s ∈ table.entries) : s.stop ≤ image.length :=
      ((SectionTable.placed_of_parse hparse).1 s hs).1
    simp only [guarded_constants hinside, guarded_code hinside, guarded_lines hinside,
      Option.bind_eq_bind, Option.bind_some]
    cases loadConstants image table with
    | error err => rfl
    | ok constants =>
      simp only
      cases loadCode image table <;> rfl

end Program

end StackMachine
