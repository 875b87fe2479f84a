import StackMachine.Proofs.Assembly.Denotation
import StackMachine.Proofs.Assembly.Reassembly
import StackMachine.Proofs.Image.Insertion

/-!
# A line more

A line with a `nop` can be inserted anywhere in an assembly text. All labels after it stand for
other places then, and all instructions that go to them go there. So the program does what it did
before.

* `Assembly.readLines_insert`: the other lines are read as they were;
* `Assembly.target?_of_reads`: instructions that are read without a label go nowhere;
* `Assembly.assemble_insert_nop`: what this says of texts.
-/

namespace StackMachine

open Text

namespace Assembly

theorem readLine_nop (defined : List String) : readLine defined "nop".toList = .ok [.emit .nop] :=
  rfl

/-- The numbers of the lines do not matter for how they are read. -/
theorem readLines_renumber {defined : List String} {number : Nat} (number' : Nat)
    {ls : List (List Char)} {numbered : List NumberedStep}
    (h : readLines defined number ls = .ok numbered) :
    ∃ numbered', readLines defined number' ls = .ok numbered' ∧
      numbered'.map (·.step) = numbered.map (·.step) := by
  induction ls generalizing defined number number' numbered with
  | nil =>
    cases h
    exact ⟨[], rfl, rfl⟩
  | cons line ls ih =>
    rw [readLines] at h
    split at h
    · cases h
    rename_i steps hline
    split at h <;> cases h
    rename_i later hlater
    obtain ⟨later', hlater', hsteps⟩ := ih (number' + 1) hlater
    refine ⟨_, readLines_cons hline hlater', ?_⟩
    rw [List.map_append, List.map_append, hsteps, List.map_map, List.map_map]
    rfl

/-- The lines before and after the new one are read as they were. -/
theorem readLines_insert {defined : List String} {number : Nat} {before after : List (List Char)}
    {numbered : List NumberedStep}
    (h : readLines defined number (before ++ after) = .ok numbered) :
    ∃ steps steps' numbered', numbered.map (·.step) = steps ++ steps' ∧
      readLines defined number (before ++ "nop".toList :: after) = .ok numbered' ∧
      numbered'.map (·.step) = steps ++ .emit .nop :: steps' := by
  induction before generalizing defined number numbered with
  | nil =>
    obtain ⟨later, hlater, hsteps⟩ := readLines_renumber (number + 1) h
    refine ⟨[], _, _, rfl, readLines_cons (readLine_nop defined) hlater, ?_⟩
    rw [← hsteps]
    rfl
  | cons line before ih =>
    rw [List.cons_append, readLines] at h
    split at h
    · cases h
    rename_i steps hline
    split at h <;> cases h
    rename_i later hlater
    obtain ⟨steps₁, steps₂, later', hsteps, hlater', hsteps'⟩ := ih hlater
    refine ⟨steps ++ steps₁, steps₂, _, ?_, readLines_cons hline hlater', ?_⟩
    · rw [List.map_append, hsteps, List.map_map, List.append_assoc]
      exact congrArg (· ++ (steps₁ ++ steps₂)) (List.map_id steps)
    · rw [List.map_append, hsteps', List.map_map, List.append_assoc]
      exact congrArg (· ++ (steps₁ ++ .emit .nop :: steps₂)) (List.map_id steps)

theorem readReference_ne_emit (i j : Instruction) (name : List Char) :
    readReference i name ≠ .ok (.emit j) := by
  intro h
  rw [readReference] at h
  split at h <;> cases h

/-- An instruction that is read without a label goes nowhere. -/
theorem target?_of_readOperands {op : Opcode} {args : List (List Char)} {i : Instruction}
    (h : readOperands op args = .ok (.emit i)) : i.target? = none := by
  unfold readOperands at h
  split at h
  case h_1 | h_2 | h_3 | h_4 | h_5 =>
    obtain ⟨_, -, hi⟩ := map_eq_ok_iff.1 h
    cases hi
    rfl
  case h_6 | h_7 | h_8 => exact absurd h (readReference_ne_emit _ _ _)
  case h_9 =>
    split at h
    · cases h
    split at h
    · cases h
    exact absurd h (readReference_ne_emit _ _ _)
  case h_10 =>
    split at h <;> cases h
    rename_i hsimple
    cases op <;> cases hsimple <;> rfl

theorem Reads.target?_eq_none {e : Element} {i : Instruction} (h : Reads e (.emit i)) :
    i.target? = none := by
  cases h with
  | instruction _ _ hread =>
    rw [readInstruction] at hread
    split at hread
    · exact target?_of_readOperands hread
    · cases hread

theorem target?_of_reads {es : List Element} {steps : List BuildStep}
    (h : List.Forall₂ Reads es steps) : ∀ i, .emit i ∈ steps → i.target? = none := by
  induction h with
  | nil => exact fun _ hi => absurd hi List.not_mem_nil
  | cons hread _ ih =>
    intro i hi
    rcases List.mem_cons.1 hi with rfl | hi
    · exact hread.target?_eq_none
    · exact ih i hi

/-- There is a text with a line more. -/
theorem exists_lines_insert {source : String} {before after : List (List Char)}
    (h : lines source.toList = before ++ after) {line : List Char} (hline : '\n' ∉ line) :
    ∃ source' : String, lines source'.toList = before ++ line :: after := by
  have hfeed : ∀ l ∈ before ++ line :: after, '\n' ∉ l := by
    intro l hl
    rcases List.mem_cons.1 (List.perm_middle.mem_iff.1 hl) with rfl | hl
    · exact hline
    · exact feed_not_mem_of_mem_lines (h ▸ hl)
  obtain ⟨cs, hcs⟩ := exists_lines_eq hfeed
  exact ⟨String.ofList cs, by rw [String.toList_ofList, hcs]⟩

/-- A line with a `nop` can be inserted before any line of an assembly text, or behind the last one.

    The image has between 1 and 21 bytes more: the instruction, and a source line in a section for
    it if one waits. If these are less than `2 ^ 32`, then the text is assembled, and otherwise it
    is too large. If a run of the old program ends with a value, then a run of the new one ends with
    the same value, with twice as much fuel or any more, and under the same limits otherwise. -/
theorem assemble_insert_nop {source : String} {image : List UInt8}
    (h : assemble source = .ok image) {before after : List (List Char)}
    (hlines : lines source.toList = before ++ after) :
    (∃ source' : String, lines source'.toList = before ++ "nop".toList :: after) ∧
    ∀ source' : String, lines source'.toList = before ++ "nop".toList :: after →
      ∃ size, image.length < size ∧ size ≤ image.length + 21 ∧
        (2 ^ 32 ≤ size → ∃ line, assemble source' = .error ⟨line, .build .tooLarge⟩) ∧
        (size < 2 ^ 32 → ∃ image' p p', assemble source' = .ok image' ∧ image'.length = size ∧
          Program.load image = .ok p ∧ Program.load image' = .ok p' ∧
          ∀ limits v, (run p limits).result = .ok v → ∀ fuel, 2 * limits.fuel ≤ fuel →
            (run p' (limits.withFuel fuel)).result = .ok v) := by
  refine ⟨exists_lines_insert hlines (by decide), fun source' hlines' => ?_⟩
  obtain ⟨numbered, hread, hbuild⟩ := readLines_of_assemble h
  have hreads := readLines_reads hread
  rw [hlines] at hread
  obtain ⟨steps, steps', numbered', hsteps, hread', hsteps'⟩ := readLines_insert hread
  rw [hsteps] at hbuild hreads
  rw [← hlines'] at hread'
  obtain ⟨hbuildable, rfl⟩ := build_eq_ok_iff.1 hbuild
  have hcode := exists_instruction_insert steps steps' .nop
  have hdistinct := distinct_insert steps steps' .nop hbuildable.distinct
  have hbound := bound_insert steps steps' .nop hbuildable.bound
  have hversion := version_of_fits (fits_of_reads hreads hbuildable)
  obtain ⟨hlt, hle⟩ := imageSize_insert steps steps' .nop
  rw [assemble_eq hread' hsteps' hcode hdistinct hbound, length_imageOf]
  refine ⟨_, hlt, hle, fun hlarge => ⟨_, if_pos hlarge⟩, fun hfits => ?_⟩
  obtain ⟨p, p', hload, hload', hrun⟩ := run_insert_nop (target?_of_reads hreads)
    (hversion ▸ UInt32.le_refl imageVersion) hbuildable ⟨hcode, hdistinct, hbound, hfits⟩
  exact ⟨_, p, p', if_neg (Nat.not_le_of_lt hfits), length_imageOf, hload, hload', hrun⟩

/-- A text of `Program.addition`. -/
def additionSource : String :=
  "push.i 20\npush.i 22\ncall sum 2 3\nhalt\nsum: load 0\nload 1\nadd\nret\n"

/-- The same text with a `nop` where the call returns to. It moves the code of the function. -/
def paddedSource : String :=
  "push.i 20\npush.i 22\ncall sum 2 3\nnop\nhalt\nsum: load 0\nload 1\nadd\nret\n"

theorem assemble_insert_nop_addition :
    assemble additionSource = .ok Program.addition.bytes ∧
      ∃ image p, assemble paddedSource = .ok image ∧ Program.load image = .ok p ∧
        (run p { fuel := 2000000 }).result = .ok (.int 42) := by
  have hsource : assemble additionSource = .ok Program.addition.bytes := by decide +kernel
  have hrun : (run .addition {}).result = .ok (.int 42) := by decide +kernel
  have hlines : lines additionSource.toList =
      ["push.i 20", "push.i 22", "call sum 2 3"].map String.toList ++
        ["halt", "sum: load 0", "load 1", "add", "ret"].map String.toList := by
    decide +kernel
  obtain ⟨-, hinsert⟩ := assemble_insert_nop hsource hlines
  obtain ⟨size, -, hle, -, hfits⟩ := hinsert paddedSource (by decide +kernel)
  have hsize : size < 2 ^ 32 := by
    have hlen : Program.addition.bytes.length = 75 := rfl
    omega
  obtain ⟨image, p, p', himage, -, hload, hload', hresult⟩ := hfits hsize
  cases Program.load_addition.symm.trans hload
  exact ⟨hsource, image, p', himage, hload', hresult {} _ hrun 2000000 (by decide)⟩

end Assembly

end StackMachine
