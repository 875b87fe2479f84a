import StackMachine.Proofs.Image.Layout
import StackMachine.Proofs.Image.Outline

/-!
# Loading what was built

A builder keeps running totals of what it is given: the offset of the next instruction, the places
of the labels, the source line that waits. What it knows after some steps is said by the outline of
these steps (`Builder.Follows`), and so is the image, which loads as the program of the steps.

* `Builder.follows_foldl_apply`: what a builder knows after any steps;
* `build_eq_ok_iff`: which steps build an image, and which image that is;
* `load_build`: the program that is loaded from it.
-/

namespace StackMachine

open Outline

namespace BuildStep

/-- The mark of a step in the outline of a program. -/
def mark : BuildStep → Mark
  | label name => .label name
  | line n => .line n
  | emit i => .instruction i.opcode
  | emitTo i _ => .instruction i.opcode
  | _ => .other

/-- The version that a step sets. -/
def version? : BuildStep → Option UInt32
  | version v => some v
  | _ => none

/-- The constant that a step adds. -/
def constant? : BuildStep → Option Value
  | constant v => some v
  | _ => none

/-- What a step emits. -/
def emission? : BuildStep → Option Emission
  | emit i => some ⟨i, none⟩
  | emitTo i name => some ⟨i.withTarget 0, some name⟩
  | _ => none

/-- The label that a step refers to. -/
def reference? : BuildStep → Option String
  | emitTo _ name => some name
  | _ => none

/-- The instruction that a step emits in the end, the labels having the given places. -/
def instruction? (place : String → Nat) : BuildStep → Option Instruction
  | emit i => some i
  | emitTo i name => some (i.withTarget (UInt32.ofNat (place name)))
  | _ => none

end BuildStep

/-- The outline of the program that steps build. -/
def outline (steps : List BuildStep) : List Mark :=
  steps.map BuildStep.mark

/-- The version that is set last, or else the current one. -/
def chosenVersion (steps : List BuildStep) : UInt32 :=
  (steps.filterMap BuildStep.version?).getLast?.getD imageVersion

/-- The constants that are added. -/
def addedConstants (steps : List BuildStep) : List Value :=
  steps.filterMap BuildStep.constant?

/-- The instructions that are emitted, those with labels going to the places of the labels. -/
def emittedCode (steps : List BuildStep) : List Instruction :=
  steps.filterMap (BuildStep.instruction? (place (outline steps)))

theorem outline_append_singleton (steps : List BuildStep) (s : BuildStep) :
    outline (steps ++ [s]) = outline steps ++ [s.mark] :=
  List.map_append

namespace Builder

/-- A builder knows the places in the code that an outline says. -/
structure Positions (b : Builder) (marks : List Mark) : Prop where
  offset : b.offset = extent marks
  pendingLine : b.pendingLine = waiting marks
  lines : b.lines.toList = recorded marks
  /-- The labels that are bound, the last one first. -/
  bound : b.labels.map (·.1) = (names marks).reverse
  rebound : b.rebound = none ↔ (names marks).Nodup
  places : (names marks).Nodup → ∀ name ∈ names marks,
    b.labels.lookup name = some (place marks name)

/-- A builder knows what the given steps say, and nothing else. -/
structure Follows (b : Builder) (steps : List BuildStep) : Prop where
  version : b.version = chosenVersion steps
  constants : b.constants.toList = addedConstants steps
  emitted : b.emitted.toList = steps.filterMap BuildStep.emission?
  positions : b.Positions (outline steps)

section

variable {b : Builder} {marks : List Mark}

theorem Positions.lookup_isSome_iff (h : b.Positions marks) (name : String) :
    (b.labels.lookup name).isSome ↔ name ∈ names marks := by
  rw [List.lookup_isSome_iff, ← List.mem_reverse, ← h.bound, List.mem_map]
  simp only [beq_iff_eq, eq_comm (a := name)]

/-- A mark that has no name binds nothing. -/
theorem Positions.places_append (h : b.Positions marks) {mark : Mark} (hmark : mark.label? = none) :
    names (marks ++ [mark]) = names marks ∧
      ((names marks).Nodup → ∀ name ∈ names marks,
        b.labels.lookup name = some (place (marks ++ [mark]) name)) := by
  constructor
  · rw [names_append, names, names, List.filterMap_cons_none hmark]
    exact List.append_nil _
  · intro hnodup name hname
    rw [place_append_of_mem hname]
    exact h.places hnodup name hname

/-- Emitting an instruction takes the line that waits. -/
theorem Positions.emit (h : b.Positions marks) (e : Emission) :
    (b.emit e).Positions (marks ++ [.instruction e.instruction.opcode]) := by
  have hlabel : (Mark.instruction e.instruction.opcode).label? = none := rfl
  have hmark : (Mark.instruction e.instruction.opcode).isInstruction := rfl
  obtain ⟨hnames, hplaces⟩ := h.places_append hlabel
  refine
    { offset := ?_
      pendingLine := ?_
      lines := ?_
      bound := hnames ▸ h.bound
      rebound := hnames ▸ h.rebound
      places := hnames ▸ hplaces }
  · rw [extent_append, extent_singleton, ← h.offset]
    rfl
  · rw [waiting_append_instruction _ hmark]
    rfl
  · rw [recorded_append_singleton, if_pos hmark, lineAfter?, ← h.pendingLine, ← h.offset,
      ← h.lines]
    cases hpending : b.pendingLine <;> simp [Builder.emit, hpending]

/-- Binding a label takes the offset of the next instruction. -/
theorem Positions.bind (h : b.Positions marks) (name : String) :
    (b.bind name).Positions (marks ++ [.label name]) := by
  have hnames : names (marks ++ [.label name]) = names marks ++ [name] :=
    names_append _ _
  have hnodup : (names (marks ++ [.label name])).Nodup ↔
      (names marks).Nodup ∧ name ∉ names marks := by
    rw [hnames, ← List.concat_eq_append, List.nodup_concat, and_comm]
  have hmark : (Mark.label name).isInstruction = false := rfl
  refine
    { offset := ?_
      pendingLine := ?_
      lines := ?_
      bound := ?_
      rebound := ?_
      places := ?_ }
  · rw [extent_append]
    exact h.offset
  · rw [waiting_append_of_not _ hmark]
    exact h.pendingLine
  · rw [recorded_append_singleton, hmark]
    exact h.lines.trans (List.append_nil _).symm
  · rw [hnames, List.reverse_append, ← h.bound]
    rfl
  · rw [hnodup, ← h.rebound, ← h.lookup_isSome_iff, Builder.bind]
    cases b.rebound <;> simp
  · rw [hnodup, hnames]
    rintro ⟨hnodup, hnew⟩ name' hname'
    rcases List.mem_append.1 hname' with hname' | hname'
    · -- an older label is not the new one
      have hne : name' ≠ name := fun h => hnew (h ▸ hname')
      rw [place_append_of_mem hname', ← h.places hnodup name' hname', Builder.bind,
        List.lookup_cons, beq_false_of_ne hne]
    · cases List.mem_singleton.1 hname'
      rw [place_append_label hnew, ← h.offset, Builder.bind, List.lookup_cons_self]

/-- Other marks take no place in the code. A line waits for the next instruction, instead of one
    that waited before. -/
theorem Positions.annotate (h : b.Positions marks) {mark : Mark}
    (hmark : mark.isInstruction = false) (hlabel : mark.label? = none) :
    Positions { b with pendingLine := mark.line?.or b.pendingLine } (marks ++ [mark]) := by
  obtain ⟨hnames, hplaces⟩ := h.places_append hlabel
  refine
    { offset := ?_
      pendingLine := ?_
      lines := ?_
      bound := hnames ▸ h.bound
      rebound := hnames ▸ h.rebound
      places := hnames ▸ hplaces }
  · rw [extent_append, extent_singleton, Mark.size_eq_zero hmark]
    exact h.offset
  · rw [waiting_append_of_not _ hmark, h.pendingLine]
  · rw [recorded_append_singleton, hmark]
    exact h.lines.trans (List.append_nil _).symm

end

section

variable {b : Builder} {steps : List BuildStep}

theorem follows_empty : Follows {} [] where
  version := rfl
  constants := rfl
  emitted := rfl
  positions :=
    { offset := rfl
      pendingLine := rfl
      lines := rfl
      bound := rfl
      rebound := iff_of_true rfl .nil
      places := nofun }

/-- What a step does is what is said of it. -/
theorem Follows.apply (h : b.Follows steps) (s : BuildStep) :
    (b.apply s).Follows (steps ++ [s]) := by
  refine { version := ?_, constants := ?_, emitted := ?_, positions := ?_ }
  · cases s <;> simp [Builder.apply, emit, bind, chosenVersion, BuildStep.version?, h.version]
  · cases s <;>
      simp [Builder.apply, emit, bind, addedConstants, BuildStep.constant?, h.constants]
  · cases s <;> simp [Builder.apply, emit, bind, BuildStep.emission?, h.emitted]
  · rw [outline_append_singleton]
    cases s with
    | version | constant =>
      exact { h.positions.annotate (rfl : Mark.other.isInstruction = false) rfl with }
    | label name => exact h.positions.bind name
    | line n => exact h.positions.annotate (rfl : (Mark.line n).isInstruction = false) rfl
    | emit i => exact h.positions.emit ⟨i, none⟩
    | emitTo i name =>
      have hemit := h.positions.emit ⟨i.withTarget 0, some name⟩
      rw [Instruction.opcode_withTarget] at hemit
      exact hemit

theorem follows_foldl_apply (steps : List BuildStep) :
    (steps.foldl Builder.apply {}).Follows steps := by
  -- The builder knows the steps before the last one, and the outline grows at its end.
  induction steps using List.reverseRecOn with
  | nil => exact follows_empty
  | append_singleton steps s ih =>
    rw [List.foldl_append]
    exact ih.apply s

end

theorem resolve_eq_ok_iff {labels : List (String × Nat)} {i : Instruction} {name : String}
    {j : Instruction} :
    resolve labels ⟨i.withTarget 0, some name⟩ = .ok j ↔
      (labels.lookup name).isSome ∧
        j = i.withTarget (UInt32.ofNat ((labels.lookup name).getD 0)) := by
  cases hlookup : labels.lookup name with
  | none => simp [resolve, hlookup]
  | some offset => simp [resolve, hlookup, eq_comm]

theorem resolveAll_cons_eq_ok_iff {labels : List (String × Nat)} {e : Emission}
    {emitted : List Emission} {code : List Instruction} :
    resolveAll labels (e :: emitted) = .ok code ↔
      ∃ i, resolve labels e = .ok i ∧ ∃ rest, resolveAll labels emitted = .ok rest ∧
        code = i :: rest := by
  rw [resolveAll]
  cases resolve labels e with
  | error => simp
  | ok i => cases resolveAll labels emitted <;> simp [eq_comm]

/-- All labels must be bound, and are replaced by what they are bound to. -/
theorem resolveAll_eq_ok_iff {labels : List (String × Nat)} {steps : List BuildStep}
    {code : List Instruction} :
    resolveAll labels (steps.filterMap BuildStep.emission?) = .ok code ↔
      (∀ name ∈ steps.filterMap BuildStep.reference?, (labels.lookup name).isSome) ∧
        code = steps.filterMap
          (BuildStep.instruction? fun name => (labels.lookup name).getD 0) := by
  induction steps generalizing code with
  | nil =>
    rw [List.filterMap_nil, List.filterMap_nil, List.filterMap_nil, resolveAll, Except.ok.injEq,
      eq_comm]
    exact (and_iff_right nofun).symm
  | cons s steps ih =>
    cases s with
    | version | constant | label | line => exact ih
    | emit i =>
      rw [List.filterMap_cons_some (rfl : BuildStep.emission? (.emit i) = some ⟨i, none⟩),
        List.filterMap_cons_some (rfl : BuildStep.instruction? _ (.emit i) = some i),
        List.filterMap_cons_none (rfl : BuildStep.reference? (.emit i) = none),
        resolveAll_cons_eq_ok_iff]
      simp [resolve, ih]
    | emitTo i name =>
      rw [List.filterMap_cons_some
          (rfl : BuildStep.emission? (.emitTo i name) = some ⟨i.withTarget 0, some name⟩),
        List.filterMap_cons_some (rfl : BuildStep.instruction? _ (.emitTo i name) = some _),
        List.filterMap_cons_some (rfl : BuildStep.reference? (.emitTo i name) = some name),
        resolveAll_cons_eq_ok_iff]
      simp only [resolve_eq_ok_iff, ih, List.forall_mem_cons]
      constructor
      · rintro ⟨-, ⟨hname, rfl⟩, -, ⟨hnames, rfl⟩, rfl⟩
        exact ⟨⟨hname, hnames⟩, rfl⟩
      · rintro ⟨⟨hname, hnames⟩, rfl⟩
        exact ⟨_, ⟨hname, rfl⟩, _, ⟨hnames, rfl⟩, rfl⟩

end Builder

/-! ## Images -/

/-- The number of bytes of the image of a program: header, table, constants, code and source
    lines, these only if there are any. -/
def imageSize (steps : List BuildStep) : Nat :=
  let lines := recorded (outline steps)
  let sections := if lines.isEmpty then 2 else 3
  12 + 12 * sections + (ConstantPool.encode (addedConstants steps)).length +
    extent (outline steps) + 8 * lines.length

/-- The image of a program. -/
def imageOf (steps : List BuildStep) : List UInt8 :=
  encodeImage (chosenVersion steps)
    (programSections (addedConstants steps) (emittedCode steps) (recorded (outline steps)))

/-- The steps of a program that has an image. -/
structure Buildable (steps : List BuildStep) : Prop where
  code : ∃ s ∈ steps, s.mark.isInstruction
  distinct : (names (outline steps)).Nodup
  bound : ∀ i name, .emitTo i name ∈ steps → .label name ∈ steps
  fits : imageSize steps < 2 ^ 32

section

variable {steps : List BuildStep}

theorem mem_names_outline {name : String} :
    name ∈ names (outline steps) ↔ .label name ∈ steps := by
  rw [mem_names, outline, List.mem_map]
  constructor
  · rintro ⟨s, hs, hmark⟩
    cases s <;> cases hmark
    exact hs
  · exact fun h => ⟨_, h, rfl⟩

/-- The code has as many bytes as the outline says, wherever the labels are. -/
theorem codeSize_filterMap_instruction? (place : String → Nat) :
    codeSize (steps.filterMap (BuildStep.instruction? place)) = extent (outline steps) := by
  induction steps with
  | nil => rfl
  | cons s steps ih =>
    have hextent : extent (outline (s :: steps)) = s.mark.size + extent (outline steps) := rfl
    rw [hextent, ← ih]
    cases s with
    | version | constant | label | line => exact (Nat.zero_add _).symm
    | emit i => exact codeSize_cons _ _
    | emitTo i name =>
      refine (codeSize_cons _ _).trans ?_
      rw [Instruction.size_withTarget]
      rfl

theorem emittedCode_ne_nil_iff : emittedCode steps ≠ [] ↔ ∃ s ∈ steps, s.mark.isInstruction := by
  rw [emittedCode, ne_eq, List.filterMap_eq_nil_iff]
  push Not
  refine exists_congr fun s => and_congr_right fun _ => ?_
  cases s <;> simp [BuildStep.instruction?, BuildStep.mark, Mark.isInstruction]

theorem length_imageOf : (imageOf steps).length = imageSize steps := by
  have hcode : codeSize (emittedCode steps) = extent (outline steps) :=
    codeSize_filterMap_instruction? _
  rw [imageOf, length_encodeImage, length_programSections, length_bodies_programSections, hcode,
    sectionsStart, headerSize, sectionEntrySize, imageSize]
  omega

namespace Builder

variable {b : Builder}

theorem Follows.isEmpty_eq_false_iff (h : b.Follows steps) :
    b.isEmpty = false ↔ ∃ s ∈ steps, s.mark.isInstruction := by
  rw [← emittedCode_ne_nil_iff, emittedCode, isEmpty, ← Array.isEmpty_toList, h.emitted,
    List.isEmpty_eq_false_iff, ne_eq, ne_eq, List.filterMap_eq_nil_iff, List.filterMap_eq_nil_iff]
  refine not_congr (forall_congr' fun s => forall_congr' fun _ => ?_)
  cases s <;> simp [BuildStep.emission?, BuildStep.instruction?]

theorem Follows.resolveAll_eq_ok_iff (h : b.Follows steps)
    (hdistinct : (names (outline steps)).Nodup) {code : List Instruction} :
    resolveAll b.labels b.emitted.toList = .ok code ↔
      (∀ i name, .emitTo i name ∈ steps → .label name ∈ steps) ∧ code = emittedCode steps := by
  have hbound : (∀ name ∈ steps.filterMap BuildStep.reference?, (b.labels.lookup name).isSome) ↔
      ∀ i name, .emitTo i name ∈ steps → .label name ∈ steps := by
    simp only [h.positions.lookup_isSome_iff, mem_names_outline, List.mem_filterMap]
    constructor
    · exact fun hall i name hs => hall name ⟨_, hs, rfl⟩
    · rintro hall name ⟨s, hs, hname⟩
      cases s <;> cases hname
      exact hall _ name hs
  rw [h.emitted, Builder.resolveAll_eq_ok_iff, hbound]
  refine and_congr_right fun hbound => ?_
  have hcode : steps.filterMap
      (BuildStep.instruction? fun name => (b.labels.lookup name).getD 0) = emittedCode steps := by
    refine List.filterMap_congr fun s hs => ?_
    cases s with
    | version | constant | label | line | emit => rfl
    | emitTo i name =>
      have hname := mem_names_outline.2 (hbound i name hs)
      rw [BuildStep.instruction?, h.positions.places hdistinct name hname]
      rfl
  rw [hcode]

theorem Follows.encode_eq (h : b.Follows steps) :
    b.encode (emittedCode steps) =
      if 2 ^ 32 ≤ imageSize steps then .error .tooLarge else .ok (imageOf steps) := by
  have hsize : sectionsStart (programSections b.constants.toList (emittedCode steps)
      b.lines.toList).length + (bodies (programSections b.constants.toList (emittedCode steps)
        b.lines.toList)).length = imageSize steps := by
    rw [← length_imageOf, imageOf, length_encodeImage, h.constants, h.positions.lines]
  have himage : encodeImage b.version (programSections b.constants.toList (emittedCode steps)
      b.lines.toList) = imageOf steps := by
    rw [imageOf, h.version, h.constants, h.positions.lines]
  rw [bodies] at hsize
  simp only [encode, hsize, himage]
  rfl

theorem Follows.encode_eq_ok_iff (h : b.Follows steps) {image : List UInt8} :
    b.encode (emittedCode steps) = .ok image ↔
      imageSize steps < 2 ^ 32 ∧ image = imageOf steps := by
  rw [h.encode_eq]
  split
  · rename_i hlimit
    exact iff_of_false nofun fun h => Nat.not_lt.2 hlimit h.1
  · rename_i hlimit
    rw [Except.ok.injEq, eq_comm]
    exact (and_iff_right (Nat.lt_of_not_le hlimit)).symm

end Builder

/-- The steps from which an image is built, and which image that is. -/
theorem build_eq_ok_iff {image : List UInt8} :
    build steps = .ok image ↔ Buildable steps ∧ image = imageOf steps := by
  have h := Builder.follows_foldl_apply steps
  rw [build, Builder.finish]
  constructor
  · intro hbuild
    split at hbuild
    · cases hbuild
    rename_i hempty
    split at hbuild
    · cases hbuild
    rename_i hrebound
    split at hbuild
    · cases hbuild
    rename_i code hresolve
    have hdistinct := h.positions.rebound.1 hrebound
    obtain ⟨hbound, rfl⟩ := (h.resolveAll_eq_ok_iff hdistinct).1 hresolve
    obtain ⟨hfits, himage⟩ := h.encode_eq_ok_iff.1 hbuild
    have hcode := h.isEmpty_eq_false_iff.1 (Bool.eq_false_iff.2 hempty)
    exact ⟨⟨hcode, hdistinct, hbound, hfits⟩, himage⟩
  · rintro ⟨hsteps, rfl⟩
    rw [h.isEmpty_eq_false_iff.2 hsteps.code, h.positions.rebound.2 hsteps.distinct,
      (h.resolveAll_eq_ok_iff hsteps.distinct).2 ⟨hsteps.bound, rfl⟩]
    exact h.encode_eq_ok_iff.2 ⟨hsteps.fits, rfl⟩

/-- If there is nothing else wrong with the steps, then the size of the image decides. -/
theorem build_eq (hcode : ∃ s ∈ steps, s.mark.isInstruction)
    (hdistinct : (names (outline steps)).Nodup)
    (hbound : ∀ i name, .emitTo i name ∈ steps → .label name ∈ steps) :
    build steps = if 2 ^ 32 ≤ imageSize steps then .error .tooLarge else .ok (imageOf steps) := by
  have h := Builder.follows_foldl_apply steps
  rw [build, Builder.finish, h.isEmpty_eq_false_iff.2 hcode, h.positions.rebound.2 hdistinct,
    (h.resolveAll_eq_ok_iff hdistinct).2 ⟨hbound, rfl⟩]
  exact h.encode_eq

/-- An offset in the code fits in four bytes, as the size of the image does. -/
theorem Buildable.extent_lt (h : Buildable steps) : extent (outline steps) < 2 ^ 32 := by
  have hfits := h.fits
  rw [imageSize] at hfits
  omega

/-- The program that an image was built from is loaded from it. -/
theorem load_imageOf (hsteps : Buildable steps) (hversion : chosenVersion steps ≤ imageVersion) :
    ∃ p, Program.load (imageOf steps) = .ok p ∧ p.header.version = chosenVersion steps ∧
      p.constants.toList = addedConstants steps ∧ p.code.toList = placeCode 0 (emittedCode steps) ∧
      p.lines.toList = recorded (outline steps) := by
  have hfits : (imageOf steps).length < 2 ^ 32 := length_imageOf ▸ hsteps.fits
  exact ⟨_, load_encodeImage hversion (emittedCode_ne_nil_iff.2 hsteps.code)
    (pairwise_recorded hsteps.extent_lt) hfits, rfl, rfl, rfl, rfl⟩

/-- Every constant is found where the builder said that it would be. -/
theorem addedConstants_getElem? {before after : List BuildStep} {v : Value}
    (hsteps : steps = before ++ .constant v :: after) :
    (addedConstants steps)[(before.foldl Builder.apply {}).nextConstant]? = some v := by
  have hindex : (before.foldl Builder.apply {}).nextConstant = (addedConstants before).length := by
    rw [← (Builder.follows_foldl_apply before).constants, Builder.nextConstant, Array.length_toList]
  have hconstants : addedConstants steps =
      addedConstants before ++ v :: addedConstants after := by
    rw [hsteps, addedConstants, List.filterMap_append]
    rfl
  rw [hindex, hconstants, List.getElem?_append_right (Nat.le_refl _), Nat.sub_self]
  rfl

/-- Loading undoes building. Steps that emit an instruction, bind no label twice and all labels
    that they refer to, and make less than `2 ^ 32` bytes, build an image. If its version is
    supported, then the program that is loaded from it has that version, the constants in the order
    in which they were added, the instructions in the order in which they were emitted and with
    labels replaced by their places, and the source lines. -/
theorem load_build (hcode : ∃ s ∈ steps, s.mark.isInstruction)
    (hdistinct : (names (outline steps)).Nodup)
    (hbound : ∀ i name, .emitTo i name ∈ steps → .label name ∈ steps)
    (hfits : imageSize steps < 2 ^ 32) :
    ∃ image, build steps = .ok image ∧ image.length = imageSize steps ∧
      (chosenVersion steps ≤ imageVersion → ∃ p, Program.load image = .ok p ∧
        p.header.version = chosenVersion steps ∧
        p.constants.toList = addedConstants steps ∧
        (∀ before v after, steps = before ++ .constant v :: after →
          p.constant? (UInt32.ofNat (before.foldl Builder.apply {}).nextConstant).toNat = some v) ∧
        p.code.toList = placeCode 0 (emittedCode steps) ∧
        p.lines.toList = recorded (outline steps)) ∧
      (imageVersion < chosenVersion steps →
        Program.load image = .error (.unsupportedVersion (chosenVersion steps))) := by
  have hsteps : Buildable steps := ⟨hcode, hdistinct, hbound, hfits⟩
  refine ⟨imageOf steps, build_eq_ok_iff.2 ⟨hsteps, rfl⟩, length_imageOf, fun hversion => ?_,
    load_encodeImage_of_lt⟩
  obtain ⟨p, hload, hheader, hconstants, hcode, hlines⟩ := load_imageOf hsteps hversion
  refine ⟨p, hload, hheader, hconstants, fun before v after happend => ?_, hcode, hlines⟩
  have hv := addedConstants_getElem? happend
  have hindex : (before.foldl Builder.apply {}).nextConstant < 2 ^ 32 := by
    have hlt := (List.getElem?_eq_some_iff.1 hv).1
    have hpool := ConstantPool.length_le_length_encode (addedConstants steps)
    rw [imageSize] at hfits
    omega
  rw [UInt32.toNat_ofNat', Nat.mod_eq_of_lt hindex, Program.constant?, ← Array.getElem?_toList,
    hconstants, hv]

end

/-- A loop with a way out, and a label that an instruction which goes nowhere is given. -/
def loopSteps : List BuildStep :=
  [.line 3, .label "loop", .constant (.int 7), .emit (.pushConst 0), .jumpIfFalse "done",
    .line 4, .line 5, .emitTo .nop "done", .jump "loop", .label "done", .emit .halt]

theorem load_build_loop :
    ∃ image p, build loopSteps = .ok image ∧ Program.load image = .ok p ∧
      p.constant? 0 = some (.int 7) ∧
      p.code.toList = [⟨0, .pushConst 0⟩, ⟨5, .jumpIfFalse 16⟩, ⟨10, .nop⟩, ⟨11, .jump 0⟩,
        ⟨16, .halt⟩] ∧
      p.lines.toList = [⟨0, 3⟩, ⟨10, 5⟩] := by
  have hbound : ∀ i name, .emitTo i name ∈ loopSteps → .label name ∈ loopSteps := by
    intro i name hmem
    simp only [loopSteps, BuildStep.jumpIfFalse, BuildStep.jump, List.mem_cons,
      BuildStep.emitTo.injEq, reduceCtorEq, List.not_mem_nil, false_or, or_false] at hmem
    rcases hmem with ⟨-, rfl⟩ | ⟨-, rfl⟩ | ⟨-, rfl⟩ <;> decide
  obtain ⟨image, hbuild, -, hload, -⟩ :=
    @load_build loopSteps ⟨.emit .halt, by decide, rfl⟩ (by decide) hbound (by decide)
  obtain ⟨p, hp, -, -, hconstant, hcode, hlines⟩ := hload (by decide)
  exact ⟨image, p, hbuild, hp, hconstant [.line 3, .label "loop"] _ _ rfl, hcode, hlines⟩

end StackMachine
