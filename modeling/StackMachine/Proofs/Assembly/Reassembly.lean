import StackMachine.Proofs.Image.Building
import StackMachine.Proofs.Image.Listing

/-!
# Disassembly reassembles

The code in the listing of a program is an assembly text, once the offsets of the instructions are
left out. If all branches and calls go to instructions, then each of them goes to a label that is
defined once, and the program of that text has the same code.

* `Program.steps`: the steps that a listing is read as;
* `Assembly.readLines_assemblyLines`: the lines are read as these steps;
* `Program.place_labelName`: the label of a place stands for that place;
* `Assembly.assemble_assembly_dump`: the text is assembled, and the code is the same;
* `Assembly.exists_assemble_dump_tooLarge`: a program that is too large for that.
-/

namespace StackMachine

open Text Outline

/-! ## Steps -/

namespace Instruction

variable (i : Instruction)

@[simp] theorem mark_step : i.step.mark = .instruction i.opcode := by
  cases i <;> rfl

theorem definition?_step : Assembly.definition? i.step = none := by
  cases i <;> rfl

/-- An instruction sets no version, adds no constant and gives no source line. -/
theorem settings_step :
    i.step.version? = none ∧ i.step.constant? = none ∧ i.step.mark.line? = none := by
  cases i <;> exact ⟨rfl, rfl, rfl⟩

/-- The step of an instruction emits it, if the label of its target stands for its target. -/
theorem instruction?_step (place : String → Nat)
    (h : ∀ target, i.target? = some target → place (labelName target.toNat) = target.toNat) :
    i.step.instruction? place = some i := by
  have htarget {target : UInt32} (hi : i.target? = some target) :
      UInt32.ofNat (place (labelName target.toNat)) = target := by
    rw [h target hi, UInt32.ofNat_toNat]
  cases i with
  | jump | jumpIfFalse | jumpIfTrue | call =>
    simp [step, target?, BuildStep.instruction?, withTarget, htarget rfl]
  | _ => rfl

/-- A label that a step refers to is that of the target. -/
theorem exists_target_of_step_eq {j : Instruction} {name : String} (h : i.step = .emitTo j name) :
    ∃ target, i.target? = some target ∧ name = labelName target.toNat := by
  cases i <;> cases h <;> exact ⟨_, rfl, rfl⟩

end Instruction

namespace Program

/-- The steps of an instruction, with its label if something goes to it. -/
def placedSteps (targets : List Nat) (i : Placed) : List BuildStep :=
  (if i.offset ∈ targets then [.label (labelName i.offset)] else []) ++ [i.instruction.step]

/-- The steps that the code of a listing is read as. -/
def steps (p : Program) : List BuildStep :=
  p.code.toList.flatMap (placedSteps (Listing.targets p))

end Program

namespace Assembly

open AssemblyError (Reason)
open Listing

variable {p : Program} {i : Placed} {defined : List String}

/-! ## Reading lines -/

theorem readLine_labelLine {offset : Nat} (h : labelName offset ∉ defined) :
    readLine defined ((labelName offset).toList ++ [':']) = .ok [.label (labelName offset)] := by
  have hword := isWord_labelName offset
  have hcolon : ':' ∉ (labelName offset).toList := not_mem_of_forall_isPlain hword.isPlain rfl
  have hcode : code ((labelName offset).toList ++ [':']) = (labelName offset).toList ++ [':'] := by
    have hsemicolon : ';' ∉ (labelName offset).toList ++ [':'] :=
      List.not_mem_append (not_mem_of_forall_isPlain hword.isPlain rfl) (by decide)
    rw [code, cutAt_of_not_mem hsemicolon, trim_of_forall_not_blank]
    exact List.forall_mem_append.2 ⟨fun c hc => isBlank_of_isPlain (hword.isPlain c hc),
      List.forall_mem_singleton.2 rfl⟩
  have htrim : trim (labelName offset).toList = (labelName offset).toList :=
    trim_of_forall_not_blank fun c hc => isBlank_of_isPlain (hword.isPlain c hc)
  simp only [readLine, splitLabel, hcode, cutAt_append_cons hcolon, htrim, isLabel_labelName,
    if_true, String.ofList_toList, defineLabel, List.contains_iff_mem, h, if_false]
  rfl

/-- The line of an instruction without its remark is the text of the instruction, up to blanks at
    the end. -/
theorem exists_blanks_statementLine (p : Program) (i : Placed) :
    ∃ blanks, (cutAt ';' (statementLine p i)).1 = i.instruction.display.toList ++ blanks ∧
      ∀ c ∈ blanks, c = ' ' := by
  have hdisplay : ';' ∉ i.instruction.display.toList :=
    i.instruction.not_mem_display rfl (by decide)
  rw [statementLine]
  cases p.lineFor? i.offset with
  | none =>
    have hnone : text (lineRemark none) = [] := rfl
    rw [hnone, List.append_nil, cutAt_of_not_mem hdisplay]
    exact ⟨[], (List.append_nil _).symm, List.forall_mem_nil _⟩
  | some line =>
    rw [text_lineRemark_some, List.append_assoc, ← List.append_assoc, List.cons_append,
      cutAt_append_cons (List.not_mem_append hdisplay (by decide))]
    exact ⟨[' ', ' '], rfl, fun c => List.eq_of_mem_replicate (n := 2)⟩

/-- The line of an instruction is read as the step that emits the instruction. -/
theorem readLine_statementLine (defined : List String)
    (hfloat : ∀ x, i.instruction = .pushFloat x → x.isNaN = false) :
    readLine defined (statementLine p i) = .ok [i.instruction.step] := by
  obtain ⟨blanks, hcut, hblanks⟩ := exists_blanks_statementLine p i
  have hcolon : ':' ∉ trim (i.instruction.display.toList ++ blanks) := fun hmem => by
    rcases List.mem_append.1 (mem_of_mem_trim hmem) with hmem | hmem
    · exact i.instruction.not_mem_display rfl (by decide) hmem
    · cases hblanks _ hmem
  have hwords : words (trim (i.instruction.display.toList ++ blanks)) = i.instruction.wordsOf := by
    rw [words_trim, words_append_of_forall_blank fun c hc => hblanks c hc ▸ rfl,
      i.instruction.words_display]
  simp only [readLine, splitLabel, code, hcut, cutAt_of_not_mem hcolon, defineLabel, hwords,
    i.instruction.readStatement_wordsOf hfloat]
  rfl

/-- One line after the other is read. -/
theorem readLines_cons {line : List Char} {number : Nat} {steps : List BuildStep}
    {rest : List (List Char)} {later : List NumberedStep}
    (hline : readLine defined line = .ok steps)
    (hrest : readLines (steps.filterMap definition? ++ defined) (number + 1) rest = .ok later) :
    readLines defined number (line :: rest) = .ok (steps.map (⟨number, ·⟩) ++ later) := by
  simp only [readLines, hline, hrest]

/-- The lines of instructions with ascending offsets are read as their steps. -/
theorem readLines_assemblyLines (p : Program) {placed : List Placed}
    (hfloats : ∀ i ∈ placed, ∀ x, i.instruction = .pushFloat x → x.isNaN = false)
    (hascending : placed.Pairwise fun i j => i.offset < j.offset)
    (hfresh : ∀ i ∈ placed, labelName i.offset ∉ defined) (number : Nat) :
    ∃ numbered, readLines defined number (placed.flatMap (assemblyLines p)) = .ok numbered ∧
      numbered.map (·.step) = placed.flatMap (Program.placedSteps (targets p)) := by
  -- The labels that are defined are those of smaller offsets, so the next one is new.
  induction placed generalizing defined number with
  | nil => exact ⟨[], rfl, rfl⟩
  | cons i placed ih =>
    obtain ⟨hfloat, hfloats⟩ := List.forall_mem_cons.1 hfloats
    obtain ⟨hfirst, hascending⟩ := List.pairwise_cons.1 hascending
    obtain ⟨hnew, hfresh⟩ := List.forall_mem_cons.1 hfresh
    rw [List.flatMap_cons, List.flatMap_cons, assemblyLines, Program.placedSteps]
    split
    · have hfresh : ∀ j ∈ placed, labelName j.offset ∉ labelName i.offset :: defined :=
        fun j hj hmem => by
          rcases List.mem_cons.1 hmem with h | h
          · exact absurd (labelName_inj h) (hfirst j hj).ne'
          · exact hfresh j hj h
      obtain ⟨later, hlater, hsteps⟩ := ih hfloats hascending hfresh (number + 2)
      have hstatement := readLines_cons (readLine_statementLine (p := p) _ hfloat)
        (by rwa [List.filterMap_cons_none i.instruction.definition?_step])
      refine ⟨_, readLines_cons (readLine_labelLine hnew) hstatement, ?_⟩
      rw [← hsteps]
      rfl
    · obtain ⟨later, hlater, hsteps⟩ := ih hfloats hascending hfresh (number + 1)
      refine ⟨_, readLines_cons (readLine_statementLine defined hfloat)
        (by rwa [List.filterMap_cons_none i.instruction.definition?_step]), ?_⟩
      rw [← hsteps]
      rfl

end Assembly

/-! ## Building the steps -/

namespace Program

open Listing

section

variable {targets : List Nat} {placed : List Placed}

theorem mem_placedSteps {i : Placed} {s : BuildStep} : s ∈ placedSteps targets i ↔
    i.offset ∈ targets ∧ s = .label (labelName i.offset) ∨ s = i.instruction.step := by
  rw [placedSteps, List.mem_append, List.mem_singleton]
  split <;> simp [*]

/-- Places that something goes to have labels, and no others. -/
theorem label_mem_placedSteps_iff {name : String} :
    .label name ∈ placed.flatMap (placedSteps targets) ↔
      ∃ i ∈ placed, i.offset ∈ targets ∧ name = labelName i.offset := by
  rw [List.mem_flatMap]
  refine exists_congr fun i => and_congr_right fun _ => ?_
  rw [mem_placedSteps, BuildStep.label.injEq]
  refine or_iff_left fun h => ?_
  have hmark := congrArg BuildStep.mark h
  rw [Instruction.mark_step] at hmark
  cases hmark

theorem outline_placedSteps (targets : List Nat) (i : Placed) :
    outline (placedSteps targets i) =
      (if i.offset ∈ targets then [.label (labelName i.offset)] else []) ++
        [.instruction i.instruction.opcode] := by
  rw [placedSteps, outline, List.map_append, List.map_singleton, Instruction.mark_step]
  split <;> rfl

theorem outline_flatMap_cons (targets : List Nat) (i : Placed) (placed : List Placed) :
    outline ((i :: placed).flatMap (placedSteps targets)) =
      outline (placedSteps targets i) ++ outline (placed.flatMap (placedSteps targets)) := by
  rw [List.flatMap_cons, outline, List.map_append, outline, outline]

/-- Every label stands for the place that it is made from. -/
theorem place_flatMap_placedSteps {offset : Nat} {code : List Instruction} {j : Placed}
    (hj : j ∈ placeCode offset code) (hlabel : j.offset ∈ targets) :
    offset + place (outline ((placeCode offset code).flatMap (placedSteps targets)))
      (labelName j.offset) = j.offset := by
  induction code generalizing offset with
  | nil => cases hj
  | cons i code ih =>
    rw [placeCode, outline_flatMap_cons]
    rcases List.mem_cons.1 hj with rfl | hj
    · rw [outline_placedSteps, if_pos hlabel, List.append_assoc, List.singleton_append,
        place_label_cons, Nat.add_zero]
    · -- the label is not that of an earlier instruction, whose size counts
      have hlater := (bounds_of_mem_placeCode hj).1
      have hpos := i.size_pos
      have hextent : extent (outline (placedSteps targets ⟨offset, i⟩)) = i.size := by
        rw [outline_placedSteps]
        split <;> simp [extent, Mark.size, Instruction.size]
      have hother : labelName j.offset ∉ names (outline (placedSteps targets ⟨offset, i⟩)) := by
        rw [outline_placedSteps]
        intro hname
        split at hname
        · have heq : j.offset = offset := labelName_inj (List.mem_singleton.1 hname)
          omega
        · cases hname
      rw [place_append_of_not_mem hother, hextent, ← Nat.add_assoc, ih hj]

/-- Places apart have labels apart. -/
theorem nodup_names_placedSteps (hascending : placed.Pairwise fun i j => i.offset < j.offset) :
    (names (outline (placed.flatMap (placedSteps targets)))).Nodup := by
  induction hascending with
  | nil => exact .nil
  | @cons i placed hfirst _ ih =>
    rw [outline_flatMap_cons, names_append, outline_placedSteps]
    split
    · refine List.nodup_cons.2 ⟨fun hname => ?_, ih⟩
      obtain ⟨j, hj, -, heq⟩ := label_mem_placedSteps_iff.1 (mem_names_outline.1 hname)
      exact absurd (labelName_inj heq) (hfirst j hj).ne
    · exact ih

end

variable {p : Program}

theorem settings_of_mem_steps {s : BuildStep} (hs : s ∈ p.steps) :
    s.version? = none ∧ s.constant? = none ∧ s.mark.line? = none := by
  obtain ⟨i, -, hs⟩ := List.mem_flatMap.1 hs
  rcases mem_placedSteps.1 hs with ⟨-, rfl⟩ | rfl
  · exact ⟨rfl, rfl, rfl⟩
  · exact i.instruction.settings_step

theorem chosenVersion_steps (p : Program) : chosenVersion p.steps = imageVersion := by
  rw [chosenVersion, List.filterMap_eq_nil_iff.2 fun s hs => (settings_of_mem_steps hs).1]
  rfl

/-- Some step emits an instruction. -/
theorem exists_emission (h : p.IsLoaded) : ∃ s ∈ p.steps, s.mark.isInstruction = true := by
  obtain ⟨i, hi⟩ := List.exists_mem_of_ne_nil _ (mt List.map_eq_nil_iff.2 h.instructions_ne_nil)
  refine ⟨i.instruction.step, List.mem_flatMap.2 ⟨i, hi, mem_placedSteps.2 (.inr rfl)⟩, ?_⟩
  rw [Instruction.mark_step]
  rfl

theorem mem_targets {target : Nat} : target ∈ targets p ↔
    ∃ i ∈ p.instructions, ∃ t, i.target? = some t ∧ t.toNat = target := by
  rw [targets, List.mem_map, instructions]
  simp only [List.mem_filterMap, List.mem_map]
  constructor
  · rintro ⟨t, ⟨i, hi, ht⟩, rfl⟩
    exact ⟨i.instruction, ⟨i, hi, rfl⟩, t, ht, rfl⟩
  · rintro ⟨_, ⟨i, hi, rfl⟩, t, ht, rfl⟩
    exact ⟨t, ⟨i, hi, ht⟩, rfl⟩

/-- The label of a place that something goes to is bound to that place. -/
theorem place_labelName (h : p.IsLoaded) {target : Nat} (htarget : target ∈ targets p)
    (hoffset : target ∈ p.offsets) : place (outline p.steps) (labelName target) = target := by
  obtain ⟨i, hi, rfl⟩ := List.mem_map.1 hoffset
  rw [h.code_eq.2] at hi
  have hplace := place_flatMap_placedSteps hi htarget
  rw [Nat.zero_add, ← h.code_eq.2] at hplace
  exact hplace

/-- All labels that are referred to are bound. -/
theorem label_mem_steps
    (htargets : ∀ i ∈ p.instructions, ∀ t, i.target? = some t → t.toNat ∈ p.offsets)
    {j : Instruction} {name : String} (hs : .emitTo j name ∈ p.steps) : .label name ∈ p.steps := by
  obtain ⟨i, hi, hs⟩ := List.mem_flatMap.1 hs
  rcases mem_placedSteps.1 hs with ⟨-, hlabel⟩ | hstep
  · cases hlabel
  obtain ⟨t, ht, rfl⟩ := i.instruction.exists_target_of_step_eq hstep.symm
  have hmem : i.instruction ∈ p.instructions := List.mem_map_of_mem hi
  obtain ⟨k, hk, hoffset⟩ := List.mem_map.1 (htargets _ hmem t ht)
  refine label_mem_placedSteps_iff.2 ⟨k, hk, ?_, by rw [hoffset]⟩
  rw [hoffset]
  exact mem_targets.2 ⟨_, hmem, t, ht, rfl⟩

section

variable (h : p.IsLoaded)
  (htargets : ∀ i ∈ p.instructions, ∀ t, i.target? = some t → t.toNat ∈ p.offsets)

include h htargets

/-- The steps emit the instructions of the program. -/
theorem emittedCode_steps : emittedCode p.steps = p.instructions := by
  have hplaced (i : Placed) (hi : i ∈ p.code.toList) :
      (placedSteps (targets p) i).filterMap
        (BuildStep.instruction? (place (outline p.steps))) = [i.instruction] := by
    have hmem : i.instruction ∈ p.instructions := List.mem_map_of_mem hi
    have hstep := i.instruction.instruction?_step (place (outline p.steps)) fun t ht =>
      place_labelName h (mem_targets.2 ⟨_, hmem, t, ht, rfl⟩) (htargets _ hmem t ht)
    rw [placedSteps, List.filterMap_append, List.filterMap_cons_some hstep]
    split <;> rfl
  rw [emittedCode]
  nth_rewrite 2 [steps]
  rw [List.filterMap_flatMap, List.flatMap_congr hplaced, instructions, ← List.map_eq_flatMap]

/-- The header has 12 bytes, the table 24 and the empty pool 4. -/
theorem imageSize_steps : imageSize p.steps = p.codeLen + 40 := by
  have hconstants : addedConstants p.steps = [] :=
    List.filterMap_eq_nil_iff.2 fun s hs => (settings_of_mem_steps hs).2.1
  have hrecorded : recorded (outline p.steps) = [] :=
    recorded_eq_nil (List.forall_mem_map.2 fun s hs => (settings_of_mem_steps hs).2.2)
  have hextent : extent (outline p.steps) = p.codeLen := by
    rw [h.codeLen_eq, ← emittedCode_steps h htargets]
    exact (codeSize_filterMap_instruction? _).symm
  have hpool : (ConstantPool.encode []).length = 4 := rfl
  simp only [imageSize, hconstants, hrecorded, hextent, hpool, List.isEmpty_nil, if_true,
    List.length_nil]
  omega

theorem buildable_steps (hfits : p.codeLen + 40 < 2 ^ 32) : Buildable p.steps := by
  exact
    { code := exists_emission h
      distinct := nodup_names_placedSteps (h.code_eq.2 ▸ pairwise_placeCode 0 _)
      bound := fun _ _ => label_mem_steps htargets
      fits := (imageSize_steps h htargets).trans_lt hfits }

/-- The image of the steps has the code of the program. -/
theorem exists_load_imageOf_steps (hfits : p.codeLen + 40 < 2 ^ 32) :
    ∃ q, load (imageOf p.steps) = .ok q ∧ q.code = p.code ∧ q.codeBytes = p.codeBytes := by
  obtain ⟨hbytes, hplaced⟩ := h.code_eq
  obtain ⟨q, hq, -, -, hcode, -⟩ := load_imageOf (buildable_steps h htargets hfits)
    (chosenVersion_steps p ▸ UInt32.le_refl imageVersion)
  rw [emittedCode_steps h htargets, ← hplaced] at hcode
  have hinstructions : q.instructions = p.instructions := by
    rw [instructions, instructions, hcode]
  refine ⟨q, hq, Array.toList_inj.1 hcode, ?_⟩
  rw [← (load_eq_ok_iff.1 hq).2.code_eq.1, hinstructions, hbytes]

end

end Program

namespace Assembly

open Program Listing

theorem undefined?_eq_none {defined : List String} {numbered : List NumberedStep}
    (h : ∀ s ∈ numbered, ∀ i name, s.step = .emitTo i name → name ∈ defined) :
    undefined? defined numbered = none := by
  induction numbered with
  | nil => rfl
  | cons s numbered ih =>
    obtain ⟨line, step⟩ := s
    obtain ⟨hs, hlater⟩ := List.forall_mem_cons.1 h
    cases step with
    | emitTo i name =>
      have hname : defined.contains name = true := List.contains_iff_mem.2 (hs i name rfl)
      simp only [undefined?, reference?, hname, if_true]
      exact ih hlater
    | version | constant | label | line | emit => exact ih hlater

theorem isEmission_eq (s : BuildStep) : isEmission s = s.mark.isInstruction := by
  cases s <;> rfl

/-- If all labels that are referred to are defined, then what is left is to build the image. -/
theorem finish_eq {numbered : List NumberedStep} {steps : List BuildStep} (last : Nat)
    (hsteps : numbered.map (·.step) = steps) (hcode : ∃ s ∈ steps, s.mark.isInstruction)
    (hbound : ∀ i name, .emitTo i name ∈ steps → .label name ∈ steps) :
    finish last numbered =
      match build steps with
      | .error reason => .error ⟨last, .build reason⟩
      | .ok image => .ok image := by
  obtain ⟨s, hs, hmark⟩ := hcode
  have hemission : steps.any isEmission = true :=
    List.any_eq_true.2 ⟨s, hs, (isEmission_eq s).trans hmark⟩
  have hundefined : undefined? (steps.filterMap definition?) numbered = none := by
    refine undefined?_eq_none fun s hs i name hstep => ?_
    have hmem : .emitTo i name ∈ steps := hstep ▸ hsteps ▸ List.mem_map_of_mem hs
    exact List.mem_filterMap.2 ⟨_, hbound i name hmem, rfl⟩
  rw [finish, hsteps, hemission, hundefined]
  rfl

/-- If there is nothing wrong with the steps of a text, then the size of the image decides. -/
theorem assemble_eq {source : String} {numbered : List NumberedStep} {steps : List BuildStep}
    (hread : readLines [] 1 (lines source.toList) = .ok numbered)
    (hsteps : numbered.map (·.step) = steps) (hcode : ∃ s ∈ steps, s.mark.isInstruction)
    (hdistinct : (names (outline steps)).Nodup)
    (hbound : ∀ i name, .emitTo i name ∈ steps → .label name ∈ steps) :
    assemble source =
      if 2 ^ 32 ≤ imageSize steps then
        .error ⟨max 1 (lines source.toList).length, .build .tooLarge⟩
      else .ok (imageOf steps) := by
  have hfinish := finish_eq (max 1 (lines source.toList).length) hsteps hcode hbound
  rw [build_eq hcode hdistinct hbound] at hfinish
  simp only [assemble, hread]
  refine hfinish.trans ?_
  by_cases hlarge : 2 ^ 32 ≤ imageSize steps
  · rw [if_pos hlarge, if_pos hlarge]
  · rw [if_neg hlarge, if_neg hlarge]

section

variable {p : Program} (h : p.IsLoaded)
  (htargets : ∀ i ∈ p.instructions, ∀ t, i.target? = some t → t.toNat ∈ p.offsets)

include h htargets

/-- The assembly text in the listing of a program has the image of its steps, unless that is too
    large. -/
theorem assemble_assembly_dump_eq (hfloats : ∀ x, .pushFloat x ∈ p.instructions → x.isNaN = false) :
    assemble (Listing.assembly (dump p .off)) =
      if 2 ^ 32 ≤ p.codeLen + 40 then
        .error ⟨max 1 (p.code.toList.flatMap (assemblyLines p)).length, .build .tooLarge⟩
      else .ok (imageOf p.steps) := by
  have hascending : p.code.toList.Pairwise fun i j => i.offset < j.offset :=
    h.code_eq.2 ▸ pairwise_placeCode 0 _
  have hfloat : ∀ i ∈ p.code.toList, ∀ x, i.instruction = .pushFloat x → x.isNaN = false :=
    fun i hi x hx => hfloats x (hx ▸ List.mem_map_of_mem hi)
  obtain ⟨numbered, hread, hsteps⟩ : ∃ numbered,
      readLines [] 1 (p.code.toList.flatMap (assemblyLines p)) = .ok numbered ∧
        numbered.map (·.step) = p.steps :=
    readLines_assemblyLines p hfloat hascending (fun _ _ => List.not_mem_nil) 1
  rw [← lines_assembly_dump_off h] at hread
  rw [assemble_eq hread hsteps (exists_emission h) (nodup_names_placedSteps hascending) fun _ _ =>
    label_mem_steps htargets, imageSize_steps h htargets, lines_assembly_dump_off h]

end

/-- The code in the listing of a program is an assembly text, once the offsets of the instructions
    are left out. If all branches and calls go to instructions and no NaN is pushed, then it is
    assembled, and the program that is loaded from its image has the same instructions at the same
    offsets and the same bytes of code.

    The image has 40 bytes before the code, and it must have less than `2 ^ 32` in all. A code
    section that is so long that this fails is too large to be assembled at all, and that is then
    the error. -/
theorem assemble_assembly_dump {bytes : List UInt8} {p : Program}
    (hload : Program.load bytes = .ok p)
    (htargets : ∀ i ∈ p.instructions, ∀ t, i.target? = some t → t.toNat ∈ p.offsets)
    (hfloats : ∀ x, .pushFloat x ∈ p.instructions → x.isNaN = false) :
    (p.codeLen + 40 < 2 ^ 32 →
      ∃ image q, assemble (Listing.assembly (dump p .off)) = .ok image ∧
        Program.load image = .ok q ∧ q.code = p.code ∧ q.codeBytes = p.codeBytes) ∧
    (2 ^ 32 ≤ p.codeLen + 40 →
      ∃ line, assemble (Listing.assembly (dump p .off)) = .error ⟨line, .build .tooLarge⟩) := by
  obtain ⟨rfl, h⟩ := Program.load_eq_ok_iff.1 hload
  rw [assemble_assembly_dump_eq h htargets hfloats]
  refine ⟨fun hfits => ?_, fun hlarge => ?_⟩
  · obtain ⟨q, hq, hcode⟩ := exists_load_imageOf_steps h htargets hfits
    rw [if_neg (Nat.not_le.2 hfits)]
    exact ⟨_, q, rfl, hq, hcode⟩
  · rw [if_pos hlarge]
    exact ⟨_, rfl⟩

/-- A negative float is pushed and handed to the code at 22, and then it all begins again. The
    first instruction has a source line. -/
def callImage : List UInt8 :=
  imageMagic ++ [1, 0, 0, 0, 2, 0, 0, 0] ++
    [2, 0, 0, 0, 36, 0, 0, 0, 26, 0, 0, 0] ++ [3, 0, 0, 0, 62, 0, 0, 0, 8, 0, 0, 0] ++
    [0x02, 0x9A, 0x99, 0x99, 0x99, 0x99, 0x99, 0xB9, 0xBF, 0x48, 22, 0, 0, 0, 1, 2, 0,
      0x40, 0, 0, 0, 0, 0x10, 1, 0, 0x49] ++
    [0, 0, 0, 0, 7, 0, 0, 0]

theorem assemble_assembly_dump_call :
    ∃ p image q, Program.load callImage = .ok p ∧ p.codeLen = 26 ∧
      assemble (Listing.assembly (dump p .off)) = .ok image ∧ Program.load image = .ok q ∧
      q.code = p.code ∧ q.codeBytes = p.codeBytes := by
  have hload : Program.load callImage = .ok
      { bytes := callImage, header := { sectionCount := 2 }
        sections := ⟨[⟨.code, 36, 26⟩, ⟨.debug, 62, 8⟩]⟩
        constants := #[], lines := #[⟨0, 7⟩]
        code := #[⟨0, .pushFloat ⟨0xBFB999999999999A⟩⟩, ⟨9, .call 22 1 2⟩, ⟨17, .jump 0⟩,
          ⟨22, .load 1⟩, ⟨25, .ret⟩] } := by
    decide +kernel
  obtain ⟨hfits, -⟩ := assemble_assembly_dump hload
    (by
      intro i hi t ht
      simp only [Program.instructions, List.map_cons, List.map_nil, List.mem_cons,
        List.not_mem_nil, or_false] at hi
      rcases hi with rfl | rfl | rfl | rfl | rfl <;> cases ht <;> decide)
    (by
      intro x hx
      simp only [Program.instructions, List.map_cons, List.map_nil, List.mem_cons,
        List.not_mem_nil, or_false, reduceCtorEq, Instruction.pushFloat.injEq] at hx
      subst hx
      decide)
  obtain ⟨image, q, himage, hq, hcode, hbytes⟩ := hfits (by decide)
  exact ⟨_, image, q, hload, rfl, himage, hq, hcode, hbytes⟩

/-- Code that fits in an image by itself, but not behind the 40 bytes that the assembler puts before
    it, is not assembled again. -/
theorem exists_assemble_dump_tooLarge {n : Nat} (hlarge : 2 ^ 32 ≤ n + 40)
    (hfits : n + 24 < 2 ^ 32) :
    ∃ p, Program.load (encodeImage imageVersion (codeSections (List.replicate n .nop))) = .ok p ∧
      (∀ i ∈ p.instructions, ∀ t, i.target? = some t → t.toNat ∈ p.offsets) ∧
      (∀ x, .pushFloat x ∈ p.instructions → x.isNaN = false) ∧
      ∃ line, assemble (Listing.assembly (dump p .off)) = .error ⟨line, .build .tooLarge⟩ := by
  have hsize : codeSize (List.replicate n .nop) = n :=
    (codeSize_replicate n .nop).trans (Nat.mul_one n)
  have hne : List.replicate n Instruction.nop ≠ [] :=
    List.ne_nil_of_length_pos (by rw [List.length_replicate]; omega)
  obtain ⟨p, hload, hcode⟩ :=
    exists_load_codeSections (UInt32.le_refl imageVersion) hne (by rwa [hsize])
  obtain ⟨-, h⟩ := Program.load_eq_ok_iff.1 hload
  have hinstructions : p.instructions = List.replicate n .nop := by
    rw [instructions, hcode, map_instruction_placeCode]
  have hnop {i : Instruction} (hi : i ∈ p.instructions) : i = .nop :=
    List.eq_of_mem_replicate (hinstructions ▸ hi)
  have htargets : ∀ i ∈ p.instructions, ∀ t, i.target? = some t → t.toNat ∈ p.offsets :=
    fun i hi t ht => by cases hnop hi; cases ht
  have hfloats : ∀ x, .pushFloat x ∈ p.instructions → x.isNaN = false :=
    fun x hx => by cases hnop hx
  have hlen : p.codeLen = n := by rw [h.codeLen_eq, hinstructions, hsize]
  have hassemble := assemble_assembly_dump_eq h htargets hfloats
  rw [hlen, if_pos hlarge] at hassemble
  exact ⟨p, hload, htargets, hfloats, _, hassemble⟩

/-- The least such code of this instruction. -/
theorem assemble_assembly_dump_nops :
    ∃ p, Program.load
        (encodeImage imageVersion (codeSections (List.replicate (2 ^ 32 - 40) .nop))) = .ok p ∧
      (∀ i ∈ p.instructions, ∀ t, i.target? = some t → t.toNat ∈ p.offsets) ∧
      (∀ x, .pushFloat x ∈ p.instructions → x.isNaN = false) ∧
      ∃ line, assemble (Listing.assembly (dump p .off)) = .error ⟨line, .build .tooLarge⟩ :=
  exists_assemble_dump_tooLarge (by decide) (by decide)

end Assembly

end StackMachine
