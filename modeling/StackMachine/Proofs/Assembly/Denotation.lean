import StackMachine.Proofs.Assembly.Elements
import StackMachine.Proofs.Image.Building

/-!
# What assembly texts denote

A text denotes a program: the constants of its `.const` directives, its instructions with labels
replaced by their places, and the source lines of its `.line` directives. `Denotes` says so of the
elements of a text, with nothing of how they are read or laid out in an image. The image of a text
loads as the program that the text denotes.

* `Element.Marked`, `Element.Emits`: what single elements mean;
* `Denotes`: what a text means;
* `assemble_denotes`: the program that is loaded is that one.
-/

namespace StackMachine

open Text Outline

namespace Assembly

namespace Element

/-- Whether an element is an instruction. -/
def isInstruction : Element → Bool
  | label _ => false
  | statement head _ => head.head? != some '.'

/-- The operands, if the element is a directive with the given name. -/
def operandsOf (name : String) : Element → List (List Char)
  | label _ => []
  | statement head args => if String.ofList head = name then args else []

/-- The marks of elements in the outline of a program. -/
inductive Marked : Element → Mark → Prop
  | label (name : List Char) : Marked (.label name) (.label (String.ofList name))
  | const (text : List Char) : Marked (.statement ".const".toList [text]) .other
  | line {text : List Char} {n : UInt32} (h : unsigned? UInt32.size text = some n.toNat) :
    Marked (.statement ".line".toList [text]) (.line n)
  | instruction {head : List Char} (args : List (List Char)) {op : Opcode}
    (h : op.mnemonic = String.ofList head) : Marked (.statement head args) (.instruction op)

/-- A label is bound, and goes to its place. -/
def GoesTo (marks : List Mark) (name : List Char) (target : UInt32) : Prop :=
  String.ofList name ∈ names marks ∧ target.toNat = place marks (String.ofList name)

/-- An instruction has the operands that are written. -/
def Operands (marks : List Mark) : Instruction → List (List Char) → Prop
  | .pushInt n, [text] => signed? text = some n
  | .pushFloat x, [text] => Binary64.read? text = some x
  | .pushConst index, [text] => unsigned? UInt32.size text = some index.toNat
  | .load slot, [text] => unsigned? UInt16.size text = some slot.toNat
  | .store slot, [text] => unsigned? UInt16.size text = some slot.toNat
  | .jump target, [name] => GoesTo marks name target
  | .jumpIfFalse target, [name] => GoesTo marks name target
  | .jumpIfTrue target, [name] => GoesTo marks name target
  | .call target argc locals, [name, argcText, localsText] =>
    GoesTo marks name target ∧ unsigned? UInt8.size argcText = some argc.toNat ∧
      unsigned? UInt16.size localsText = some locals.toNat
  | i, args => i.opcode.operandCount = 0 ∧ args = []

/-- The instruction that an element means in a program with the given outline. -/
def Emits (marks : List Mark) : Element → Instruction → Prop
  | label _, _ => False
  | statement head args, i => i.opcode.mnemonic = String.ofList head ∧ Operands marks i args

end Element

/-- A program is what a text with the given elements means. -/
structure Denotes (es : List Element) (marks : List Mark) (p : Program) : Prop where
  marked : List.Forall₂ Element.Marked es marks
  /-- No label is defined twice. -/
  distinct : (names marks).Nodup
  constants : (es.flatMap (Element.operandsOf ".const")).map Value.read? =
    p.constants.toList.map some
  instructions : List.Forall₂ (Element.Emits marks) (es.filter Element.isInstruction)
    (p.code.toList.map (·.instruction))
  /-- The instructions follow each other. -/
  offsets : p.code.toList = placeCode 0 (p.code.toList.map (·.instruction))
  lines : p.lines.toList = recorded marks

/-- A number that is read fits where it is meant to. -/
theorem lt_of_unsigned? {bound : Nat} {text : List Char} {n : Nat}
    (h : unsigned? bound text = some n) : n < bound := by
  rw [unsigned?] at h
  split at h
  · split at h <;> cases h
    assumption
  · cases h

/-- So it is not changed by storing it there. -/
theorem unsigned?_stored {bound : Nat} {text : List Char} {n m : Nat}
    (h : unsigned? bound text = some n) (hstored : n < bound → m = n) :
    unsigned? bound text = some m := by
  rw [h, hstored (lt_of_unsigned? h)]

section

variable {marks : List Mark} {op : Opcode} {args : List (List Char)} {step : BuildStep}

open Element

/-- A reference is to a label that is bound, and is replaced by its place. -/
theorem readReference_goesTo {i : Instruction} {name : List Char}
    (hbound : ∀ name, step.reference? = some name → name ∈ names marks)
    (hfits : extent marks < 2 ^ 32) (h : readReference i name = .ok step) :
    ∃ target, step.instruction? (place marks) = some (i.withTarget target) ∧
      GoesTo marks name target := by
  rw [readReference] at h
  split at h <;> cases h
  have hplace := place_le_extent marks (String.ofList name)
  refine ⟨_, rfl, hbound _ rfl, ?_⟩
  rw [UInt32.toNat_ofNat', Nat.mod_eq_of_lt (by omega)]

/-- An opcode without operands is its own instruction. -/
theorem operands_of_simple? (marks : List Mark) {i : Instruction} (h : op.simple? = some i) :
    i.opcode = op ∧ op.operandCount = 0 ∧ Operands marks i [] := by
  cases op <;> cases h <;> exact ⟨rfl, rfl, rfl, rfl⟩

theorem readOperands_emits
    (hbound : ∀ name, step.reference? = some name → name ∈ names marks)
    (hfits : extent marks < 2 ^ 32) (hcount : args.length = op.operandCount)
    (h : readOperands op args = .ok step) :
    ∃ i, step.instruction? (place marks) = some i ∧ i.opcode = op ∧ Operands marks i args := by
  unfold readOperands at h
  split at h
  · obtain ⟨n, hn, rfl⟩ := map_eq_ok_iff.1 h
    exact ⟨_, rfl, rfl, readOperand_eq_ok_iff.1 hn⟩
  · obtain ⟨n, hn, rfl⟩ := map_eq_ok_iff.1 h
    exact ⟨_, rfl, rfl, readOperand_eq_ok_iff.1 hn⟩
  · obtain ⟨n, hn, rfl⟩ := map_eq_ok_iff.1 h
    exact ⟨_, rfl, rfl, unsigned?_stored (readOperand_eq_ok_iff.1 hn) UInt32.toNat_ofNat_of_lt'⟩
  · obtain ⟨n, hn, rfl⟩ := map_eq_ok_iff.1 h
    exact ⟨_, rfl, rfl, unsigned?_stored (readOperand_eq_ok_iff.1 hn) UInt16.toNat_ofNat_of_lt'⟩
  · obtain ⟨n, hn, rfl⟩ := map_eq_ok_iff.1 h
    exact ⟨_, rfl, rfl, unsigned?_stored (readOperand_eq_ok_iff.1 hn) UInt16.toNat_ofNat_of_lt'⟩
  · obtain ⟨target, hi, hgoes⟩ := readReference_goesTo hbound hfits h
    exact ⟨_, hi, rfl, hgoes⟩
  · obtain ⟨target, hi, hgoes⟩ := readReference_goesTo hbound hfits h
    exact ⟨_, hi, rfl, hgoes⟩
  · obtain ⟨target, hi, hgoes⟩ := readReference_goesTo hbound hfits h
    exact ⟨_, hi, rfl, hgoes⟩
  · split at h
    · cases h
    rename_i argc hargc
    split at h
    · cases h
    rename_i locals hlocals
    obtain ⟨target, hi, hgoes⟩ := readReference_goesTo hbound hfits h
    exact ⟨_, hi, rfl, hgoes,
      unsigned?_stored (readOperand_eq_ok_iff.1 hargc) UInt8.toNat_ofNat_of_lt',
      unsigned?_stored (readOperand_eq_ok_iff.1 hlocals) UInt16.toNat_ofNat_of_lt'⟩
  · split at h <;> cases h
    rename_i i hsimple
    obtain ⟨hop, hzero, hoperands⟩ := operands_of_simple? marks hsimple
    rw [hzero] at hcount
    exact ⟨i, rfl, hop, List.eq_nil_of_length_eq_zero hcount ▸ hoperands⟩

theorem readInstruction_emits
    (hbound : ∀ name, step.reference? = some name → name ∈ names marks)
    (hfits : extent marks < 2 ^ 32) (h : readInstruction op args = .ok step) :
    ∃ i, step.instruction? (place marks) = some i ∧ i.opcode = op ∧ Operands marks i args := by
  rw [readInstruction] at h
  split at h
  · rename_i hcount
    exact readOperands_emits hbound hfits hcount h
  · cases h

end

/-! ## Elements and steps -/

section

variable {marks : List Mark} {e : Element} {step : BuildStep}

/-- A directive is no instruction. -/
theorem ofList_ne_of_head? {head : List Char} (hhead : head.head? ≠ some '.') {name : String}
    (hname : name.toList.head? = some '.') : String.ofList head ≠ name := by
  rintro rfl
  exact hhead (by rwa [String.toList_ofList] at hname)

/-- A step does what an element means, in a program with the given outline. -/
structure Fits (marks : List Mark) (e : Element) (step : BuildStep) : Prop where
  marked : e.Marked step.mark
  emits : List.Forall₂ (Element.Emits marks) ([e].filter Element.isInstruction)
    (step.instruction? (place marks)).toList
  constants : (e.operandsOf ".const").map Value.read? = step.constant?.toList.map some
  version : step.version? = none

theorem fits_of_instruction? {head : List Char} {args : List (List Char)} {i : Instruction}
    (hhead : head.head? ≠ some '.') (hmnemonic : i.opcode.mnemonic = String.ofList head)
    (hoperands : Element.Operands marks i args) (hi : step.instruction? (place marks) = some i) :
    Fits marks (.statement head args) step := by
  have hfilter : (Element.statement head args).isInstruction = true := by
    simpa [Element.isInstruction] using hhead
  have hstep : step.mark = .instruction i.opcode ∧ step.constant? = none ∧
      step.version? = none := by
    cases step <;> cases hi <;> exact ⟨by simp [BuildStep.mark], rfl, rfl⟩
  obtain ⟨hmark, hconstant, hversion⟩ := hstep
  refine { marked := ?_, emits := ?_, constants := ?_, version := hversion }
  · rw [hmark]
    exact .instruction args hmnemonic
  · rw [hi, List.filter_cons_of_pos hfilter]
    exact .cons ⟨hmnemonic, hoperands⟩ .nil
  · rw [Element.operandsOf, if_neg (ofList_ne_of_head? hhead rfl), hconstant]
    rfl

/-- An element is read as a step that does what the element means. -/
theorem Reads.fits (h : Reads e step)
    (hbound : ∀ name, step.reference? = some name → name ∈ names marks)
    (hfits : extent marks < 2 ^ 32) : Fits marks e step := by
  cases h with
  | label name => exact ⟨.label name, .nil, rfl, rfl⟩
  | const hv =>
    refine ⟨.const _, .nil, ?_, rfl⟩
    simp [Element.operandsOf, hv, BuildStep.constant?]
  | line hn =>
    refine ⟨.line (unsigned?_stored hn UInt32.toNat_ofNat_of_lt'), .nil, ?_, rfl⟩
    simp [Element.operandsOf, BuildStep.constant?]
  | instruction hhead hop hread =>
    obtain ⟨i, hi, rfl, hoperands⟩ := readInstruction_emits hbound hfits hread
    have hmnemonic := List.find?_some hop
    exact fits_of_instruction? hhead (by simpa using hmnemonic) hoperands hi

end

/-! ## Texts -/

section

variable {marks : List Mark} {es : List Element} {steps : List BuildStep}

theorem marked_of_fits (h : List.Forall₂ (Fits marks) es steps) :
    List.Forall₂ Element.Marked es (outline steps) :=
  List.forall₂_map_right_iff.2 (h.imp fun _ _ hfits => hfits.marked)

theorem emits_of_fits (h : List.Forall₂ (Fits marks) es steps) :
    List.Forall₂ (Element.Emits marks) (es.filter Element.isInstruction)
      (steps.filterMap (BuildStep.instruction? (place marks))) := by
  rw [List.filterMap_eq_flatMap_toList]
  induction h with
  | nil => exact .nil
  | @cons e step es steps hfits _ ih =>
    rw [List.flatMap_cons, ← List.singleton_append, List.filter_append]
    exact List.rel_append hfits.emits ih

theorem constants_of_fits (h : List.Forall₂ (Fits marks) es steps) :
    (es.flatMap (Element.operandsOf ".const")).map Value.read? =
      (addedConstants steps).map some := by
  rw [addedConstants, List.filterMap_eq_flatMap_toList]
  induction h with
  | nil => rfl
  | @cons e step es steps hfits _ ih =>
    rw [List.flatMap_cons, List.map_append, hfits.constants, ih, List.flatMap_cons,
      List.map_append]

theorem version_of_fits (h : List.Forall₂ (Fits marks) es steps) :
    chosenVersion steps = imageVersion := by
  have hnone : steps.filterMap BuildStep.version? = [] := by
    induction h with
    | nil => rfl
    | cons hfits _ ih => rw [List.filterMap_cons_none hfits.version, ih]
  rw [chosenVersion, hnone]
  rfl

/-- The steps of a text that can be built do what its elements mean. -/
theorem fits_of_reads (h : List.Forall₂ Reads es steps) (hsteps : Buildable steps) :
    List.Forall₂ (Fits (outline steps)) es steps := by
  obtain ⟨hlen, hreads⟩ := List.forall₂_iff_zip.1 h
  refine List.forall₂_iff_zip.2 ⟨hlen, fun {e step} hmem => ?_⟩
  -- the labels that are referred to are bound, as the steps can be built
  refine (hreads hmem).fits (fun name hname => ?_) hsteps.extent_lt
  cases step <;> cases hname
  exact mem_names_outline.2 (hsteps.bound _ name (List.of_mem_zip hmem).2)

/-- A text with an image has been read line by line, and its steps built. -/
theorem readLines_of_assemble {source : String} {image : List UInt8}
    (h : assemble source = .ok image) :
    ∃ numbered, readLines [] 1 (lines source.toList) = .ok numbered ∧
      build (numbered.map (·.step)) = .ok image := by
  rw [assemble] at h
  split at h
  · cases h
  rename_i numbered hread
  refine ⟨_, hread, ?_⟩
  rw [finish] at h
  split at h
  · cases h
  split at h
  · cases h
  split at h <;> cases h
  assumption

theorem reads_of_assemble {source : String} {image : List UInt8}
    (h : assemble source = .ok image) :
    ∃ steps, List.Forall₂ Reads (elements source) steps ∧ build steps = .ok image := by
  obtain ⟨numbered, hread, hbuild⟩ := readLines_of_assemble h
  exact ⟨_, readLines_reads hread, hbuild⟩

end

/-- The image of a text loads as the program that the text denotes, in the current version of the
    format. -/
theorem assemble_denotes {source : String} {image : List UInt8} (h : assemble source = .ok image) :
    ∃ p marks, Program.load image = .ok p ∧ p.header.version = 1 ∧
      Denotes (elements source) marks p := by
  obtain ⟨steps, hreads, hbuild⟩ := reads_of_assemble h
  obtain ⟨hsteps, rfl⟩ := build_eq_ok_iff.1 hbuild
  have hfits := fits_of_reads hreads hsteps
  have hversion := version_of_fits hfits
  obtain ⟨p, hload, hheader, hconstants, hcode, hlines⟩ :=
    load_imageOf hsteps (hversion ▸ UInt32.le_refl imageVersion)
  refine ⟨p, outline steps, hload, hheader.trans hversion, ?_⟩
  exact
    { marked := marked_of_fits hfits
      distinct := hsteps.distinct
      constants := by rw [hconstants, constants_of_fits hfits]
      instructions := by
        rw [hcode, map_instruction_placeCode]
        exact emits_of_fits hfits
      offsets := by rw [hcode, map_instruction_placeCode]
      lines := hlines }

/-- A loop in which both labels are referred to before or after they are defined, one of them in
    the line of an instruction. -/
def loopSource : String :=
  ".const 2.5 ; the limit\n.line 3\nloop: push.const 0\n  jmp.false done\n" ++
    ".line 4\n.line 5\n  call loop 1 0\n  jmp loop\ndone:\n  halt\n"

theorem assemble_denotes_loop :
    ∃ image p marks, assemble loopSource = .ok image ∧ Program.load image = .ok p ∧
      p.header.version = 1 ∧ Denotes (elements loopSource) marks p := by
  have hok : (assemble loopSource).isOk = true := by decide +kernel
  obtain ⟨image, himage⟩ : ∃ image, assemble loopSource = .ok image := by
    cases h : assemble loopSource with
    | error => rw [h] at hok; cases hok
    | ok image => exact ⟨image, rfl⟩
  obtain ⟨p, marks, hload, hversion, hdenotes⟩ := assemble_denotes himage
  exact ⟨image, p, marks, himage, hload, hversion, hdenotes⟩

end Assembly

end StackMachine
