import StackMachine.Proofs.Image.Building
import StackMachine.Proofs.Machine.Relocation

/-!
# An instruction more

If an instruction is inserted into the steps that a program is built from, then the places of all
labels after it move by its size, and all instructions that refer to these labels go there.

* `Outline.displaced_place`, `Outline.length_recorded_insert`: places and source lines after the
  insertion;
* `imageSize_insert`: how much larger the image is;
* `exists_shifted`: the instruction at an offset is found again at the offset after the insertion;
* `inserted_of_steps`, `run_insert_nop`: with a `nop` more, the program does the same.
-/

namespace StackMachine

/-- An offset in the code, and the same place once `size` bytes are inserted at `start`. -/
def Displaced (start size offset offset' : Nat) : Prop :=
  offset ≤ start ∧ offset' = offset ∨ start ≤ offset ∧ offset' = offset + size

/-- The same for the targets of instructions. -/
def TargetDisplaced (start size : Nat) (target target' : UInt32) : Prop :=
  Displaced start size target.toNat target'.toNat

theorem Displaced.le {start size offset offset' : Nat} (h : Displaced start size offset offset') :
    offset ≤ offset' := by
  rcases h with ⟨-, rfl⟩ | ⟨-, rfl⟩ <;> omega

namespace Outline

variable (op : Opcode) (before after : List Mark)

theorem names_insert :
    names (before ++ .instruction op :: after) = names (before ++ after) := by
  rw [names_append, names_append]
  rfl

theorem extent_insert :
    extent (before ++ .instruction op :: after) = extent (before ++ after) + op.size := by
  have hcons : extent (.instruction op :: after) = op.size + extent after := rfl
  rw [extent_append, extent_append, hcons]
  omega

/-- A label keeps its place or goes behind the new instruction, as it is before or after it. -/
theorem displaced_place (name : String) :
    Displaced (extent before) op.size (place (before ++ after) name)
      (place (before ++ .instruction op :: after) name) := by
  by_cases hname : name ∈ names before
  · left
    rw [place_append_of_mem hname, place_append_of_mem hname]
    exact ⟨place_le_extent _ _, rfl⟩
  · right
    have hcons : place (.instruction op :: after) name = op.size + place after name := by
      rw [place, List.takeWhile_cons_of_pos (by simp)]
      rfl
    rw [place_append_of_not_mem hname, place_append_of_not_mem hname, hcons]
    exact ⟨Nat.le_add_right _ _, by omega⟩

theorem length_recorded_append_singleton (marks : List Mark) (mark : Mark) :
    (recorded (marks ++ [mark])).length = (recorded marks).length +
      if mark.isInstruction then (waiting marks).toList.length else 0 := by
  rw [recorded_append_singleton, List.length_append, lineAfter?]
  cases mark.isInstruction <;> cases waiting marks <;> rfl

/-- As long as no other line is given, the line that the new instruction has taken is missing. From
    then on the same line waits, or none. -/
theorem waiting_insert :
    (waiting (before ++ .instruction op :: after) = waiting (before ++ after) ∧
      (recorded (before ++ after)).length ≤
        (recorded (before ++ .instruction op :: after)).length ∧
      (recorded (before ++ .instruction op :: after)).length ≤
        (recorded (before ++ after)).length + 1) ∨
    (waiting (before ++ .instruction op :: after) = none ∧
      (waiting (before ++ after)).isSome ∧
      (recorded (before ++ .instruction op :: after)).length =
        (recorded (before ++ after)).length + 1) := by
  induction after using List.reverseRecOn with
  | nil =>
    have hmark : (Mark.instruction op).isInstruction = true := rfl
    rw [List.append_nil, length_recorded_append_singleton, waiting_append_instruction _ hmark,
      if_pos hmark]
    cases waiting before <;> simp
  | append_singleton after mark ih =>
    rw [← List.cons_append, ← List.append_assoc, ← List.append_assoc,
      length_recorded_append_singleton, length_recorded_append_singleton]
    generalize before ++ after = marks at ih ⊢
    generalize before ++ .instruction op :: after = marks' at ih ⊢
    cases hmark : mark.isInstruction with
    | true =>
      rw [waiting_append_instruction _ hmark, waiting_append_instruction _ hmark]
      rcases ih with ⟨hwaiting, hle⟩ | ⟨hnone, hsome, hlen⟩
      · simp only [hwaiting, if_true, true_and]
        omega
      · obtain ⟨line, hline⟩ := Option.isSome_iff_exists.1 hsome
        simp [hnone, hline, hlen]
    | false =>
      rw [waiting_append_of_not _ hmark, waiting_append_of_not _ hmark]
      rcases ih with ⟨hwaiting, hle⟩ | ⟨hnone, hsome, hlen⟩
      · simp [hwaiting, hle]
      · cases mark.line? <;> simp [hnone, hsome, hlen]

/-- At most one source line more is recorded. -/
theorem length_recorded_insert :
    (recorded (before ++ after)).length ≤
        (recorded (before ++ .instruction op :: after)).length ∧
      (recorded (before ++ .instruction op :: after)).length ≤
        (recorded (before ++ after)).length + 1 := by
  rcases waiting_insert op before after with ⟨-, hle⟩ | ⟨-, -, hlen⟩
  · exact hle
  · omega

end Outline

/-! ## Steps -/

section

variable (before after : List BuildStep) (i : Instruction)

theorem outline_insert : outline (before ++ .emit i :: after) =
    outline before ++ .instruction i.opcode :: outline after :=
  List.map_append

theorem outline_append : outline (before ++ after) = outline before ++ outline after :=
  List.map_append

theorem addedConstants_insert :
    addedConstants (before ++ .emit i :: after) = addedConstants (before ++ after) := by
  rw [addedConstants, addedConstants, List.filterMap_append, List.filterMap_append]
  rfl

theorem chosenVersion_insert :
    chosenVersion (before ++ .emit i :: after) = chosenVersion (before ++ after) := by
  rw [chosenVersion, chosenVersion, List.filterMap_append, List.filterMap_append]
  rfl

/-- The new instruction does not change which labels there are and which are referred to. -/
theorem distinct_insert (h : (Outline.names (outline (before ++ after))).Nodup) :
    (Outline.names (outline (before ++ .emit i :: after))).Nodup := by
  rwa [outline_insert, Outline.names_insert, ← outline_append]

theorem mem_insert {s : BuildStep} :
    s ∈ before ++ .emit i :: after ↔ s = .emit i ∨ s ∈ before ++ after :=
  List.perm_middle.mem_iff.trans List.mem_cons

theorem bound_insert (h : ∀ j name, .emitTo j name ∈ before ++ after →
    .label name ∈ before ++ after) (j : Instruction) (name : String)
    (hj : .emitTo j name ∈ before ++ .emit i :: after) :
    .label name ∈ before ++ .emit i :: after := by
  rcases (mem_insert before after i).1 hj with hj | hj
  · cases hj
  · exact (mem_insert before after i).2 (.inr (h j name hj))

theorem exists_instruction_insert : ∃ s ∈ before ++ .emit i :: after, s.mark.isInstruction :=
  ⟨.emit i, (mem_insert before after i).2 (.inl rfl), rfl⟩

/-- Besides the instruction there may be a new source line, and with it the section for it. -/
theorem imageSize_insert :
    imageSize (before ++ after) < imageSize (before ++ .emit i :: after) ∧
      imageSize (before ++ .emit i :: after) ≤ imageSize (before ++ after) + i.size + 20 := by
  have hsize := i.size_pos
  have hextent := Outline.extent_insert i.opcode (outline before) (outline after)
  have hlines := Outline.length_recorded_insert i.opcode (outline before) (outline after)
  rw [imageSize, imageSize, addedConstants_insert, outline_insert, outline_append, hextent]
  generalize Outline.recorded (outline before ++ outline after) = lines at hlines
  generalize Outline.recorded (outline before ++ .instruction i.opcode :: outline after) = lines'
    at hlines
  rw [Instruction.size] at hsize ⊢
  cases lines <;> cases lines' <;>
    simp only [List.length_nil, List.length_cons, List.isEmpty_nil, List.isEmpty_cons, if_true,
      Bool.false_eq_true, if_false] at hlines ⊢ <;>
    omega

end

/-! ## Code -/

/-- Steps emit the same instructions, whatever the places of the labels are. -/
theorem moved_of_places {G : UInt32 → UInt32 → Prop} {place place' : String → Nat}
    {steps : List BuildStep} (hemit : ∀ i, .emit i ∈ steps → i.target? = none)
    (hG : ∀ name, G (UInt32.ofNat (place name)) (UInt32.ofNat (place' name))) :
    List.Forall₂ (Instruction.Moved G) (steps.filterMap (BuildStep.instruction? place))
      (steps.filterMap (BuildStep.instruction? place')) := by
  have hsteps : List.Forall₂ (fun s t => s ∈ steps ∧ s = t) steps steps :=
    List.forall₂_same.2 fun s hs => ⟨hs, rfl⟩
  refine List.rel_filterMap ?_ hsteps
  rintro s _ ⟨hs, rfl⟩
  cases s with
  | version | constant | label | line => exact .none
  | emit i => exact .some (.same (hemit i hs))
  | emitTo i name => exact .some (Instruction.moved_withTarget (hG name) i)

section

variable {before after before' after' : List Instruction} (new : Instruction)

theorem codeSize_take_eq {code code' : List Instruction}
    (h : code'.map Instruction.size = code.map Instruction.size) (i : Nat) :
    codeSize (code'.take i) = codeSize (code.take i) := by
  rw [codeSize, List.map_take, h, ← List.map_take, codeSize]

/-- The instruction at an offset is the one at the offset that this becomes by the insertion of
    another one. Only the sizes of the instructions matter. -/
theorem exists_shifted (hbefore : before'.map Instruction.size = before.map Instruction.size)
    (hafter : after'.map Instruction.size = after.map Instruction.size) {i offset offset' : Nat}
    (hi : i < (before ++ after).length) (hoffset : codeSize ((before ++ after).take i) = offset)
    (hmoved : Displaced (codeSize before) new.size offset offset') :
    ∃ j, (j < (before' ++ new :: after').length ∧
      codeSize ((before' ++ new :: after').take j) = offset') ∧ Shifted before.length i j := by
  have hlen : before'.length = before.length := by
    simpa using congrArg List.length hbefore
  have hlen' : after'.length = after.length := by
    simpa using congrArg List.length hafter
  have htake : (before ++ after).take before.length = before := List.take_left
  have hbound := hi
  rw [List.length_append] at hbound
  subst hoffset
  rcases hmoved with ⟨hle, rfl⟩ | ⟨hle, rfl⟩
  · have hi' : i ≤ before.length := le_of_codeSize_take_le (Nat.le_of_lt hi) (by rwa [htake])
    refine ⟨i, ⟨?_, ?_⟩, .before hi'⟩
    · rw [List.length_append, List.length_cons]
      omega
    · rw [List.take_append_of_le_length (by omega), codeSize_take_eq hbefore,
        List.take_append_of_le_length hi']
  · have hi' : before.length ≤ i :=
      le_of_codeSize_take_le (List.length_append ▸ Nat.le_add_right _ _) (by rwa [htake])
    refine ⟨i + 1, ⟨?_, ?_⟩, .after hi'⟩
    · rw [List.length_append, List.length_cons]
      omega
    · obtain ⟨d, rfl⟩ := Nat.exists_eq_add_of_le hi'
      have hall : codeSize before' = codeSize before := by
        rw [codeSize, hbefore, codeSize]
      rw [Nat.add_assoc, ← hlen, List.take_length_add_append, List.take_succ_cons,
        codeSize_append, codeSize_cons, codeSize_take_eq hafter, hall, hlen,
        List.take_length_add_append, codeSize_append]
      omega

end

/-! ## Programs -/

theorem exists_getElem?_of_forall₂ {α β : Type} {R : α → β → Prop} {xs : List α} {ys : List β}
    (h : List.Forall₂ R xs ys) {i : Nat} {x : α} (hx : xs[i]? = some x) :
    ∃ y, ys[i]? = some y ∧ R x y := by
  obtain ⟨hi, rfl⟩ := List.getElem?_eq_some_iff.1 hx
  have hi' : i < ys.length := h.length_eq ▸ hi
  exact ⟨ys[i], List.getElem?_eq_getElem hi', h.get hi hi'⟩

theorem map_size_of_moved {G : UInt32 → UInt32 → Prop} {code code' : List Instruction}
    (h : List.Forall₂ (Instruction.Moved G) code code') :
    code'.map Instruction.size = code.map Instruction.size := by
  induction h with
  | nil => rfl
  | cons hi _ ih => rw [List.map_cons, List.map_cons, hi.size_eq, ih]

section

variable {p q : Program}

/-- A program is another one with a `nop` more if it has the same instructions, which go to the same
    places. -/
theorem inserted_of_code {before after before' after' : List Instruction}
    (hconstants : p.constants = q.constants) (hp : p.code.toList = placeCode 0 (before ++ after))
    (hq : q.code.toList = placeCode 0 (before' ++ .nop :: after'))
    (hbefore : List.Forall₂ (Instruction.Moved (TargetDisplaced (codeSize before) 1))
      before before')
    (hafter : List.Forall₂ (Instruction.Moved (TargetDisplaced (codeSize before) 1))
      after after') :
    p.Inserted before.length q := by
  have hlen := hbefore.length_eq
  have hplace (target target' : UInt32)
      (h : TargetDisplaced (codeSize before) 1 target target') :
      p.SamePlace before.length q target target' := by
    intro i hi
    obtain ⟨hlt, hoffset⟩ := (Program.indexOf?_eq_some_iff hp).1 hi
    obtain ⟨j, hj, hij⟩ := exists_shifted .nop (map_size_of_moved hbefore)
      (map_size_of_moved hafter) hlt hoffset h
    exact ⟨j, (Program.indexOf?_eq_some_iff hq).2 hj, hij⟩
  refine { constants := ?_, nop := ?_, fetch := ?_ }
  · intro index
    rw [Program.constant?, hconstants, Program.constant?]
  · rw [Program.fetch?_eq hq, hlen, List.getElem?_append_right (Nat.le_refl _), Nat.sub_self]
    exact ⟨_, rfl, rfl⟩
  · intro i j placed hi hij hj
    rw [Program.fetch?_eq hp] at hi
    obtain ⟨x, hx, rfl⟩ := Option.map_eq_some_iff.1 hi
    obtain ⟨y, hy, hxy⟩ : ∃ y, (before' ++ .nop :: after')[j]? = some y ∧
        x.Moved (TargetDisplaced (codeSize before) 1) y := by
      cases hij with
      | before hle =>
        have hlt := Nat.lt_of_le_of_ne hle hj
        rw [List.getElem?_append_left hlt] at hx
        rw [List.getElem?_append_left (hlen ▸ hlt)]
        exact exists_getElem?_of_forall₂ hbefore hx
      | after hle =>
        rw [List.getElem?_append_right hle] at hx
        rw [List.getElem?_append_right (hlen ▸ Nat.le_succ_of_le hle), ← hlen,
          Nat.succ_sub hle, List.getElem?_cons_succ]
        exact exists_getElem?_of_forall₂ hafter hx
    have hfetch := Program.fetch?_eq hq j
    rw [hy] at hfetch
    exact ⟨_, hfetch, hxy.imp hplace⟩

/-- With one more step that emits a `nop`, the program is the same but for this instruction. -/
theorem inserted_of_steps {before after : List BuildStep}
    (hemit : ∀ i, .emit i ∈ before ++ after → i.target? = none)
    (hfits : Outline.extent (outline (before ++ .emit .nop :: after)) < 2 ^ 32)
    (hconstants : p.constants = q.constants)
    (hp : p.code.toList = placeCode 0 (emittedCode (before ++ after)))
    (hq : q.code.toList = placeCode 0 (emittedCode (before ++ .emit .nop :: after))) :
    ∃ k, p.Inserted k q := by
  rw [emittedCode, List.filterMap_append] at hp hq
  rw [List.filterMap_cons_some (rfl : BuildStep.instruction? _ (.emit .nop) = some .nop)] at hq
  have hplaces (name : String) : TargetDisplaced (Outline.extent (outline before)) 1
      (UInt32.ofNat (Outline.place (outline (before ++ after)) name))
      (UInt32.ofNat (Outline.place (outline (before ++ .emit .nop :: after)) name)) := by
    have hplace := Outline.displaced_place Instruction.nop.opcode (outline before) (outline after)
      name
    have hlt := Nat.lt_of_le_of_lt (Outline.place_le_extent _ name) hfits
    rw [← outline_append, ← outline_insert before after .nop] at hplace
    rw [TargetDisplaced, UInt32.toNat_ofNat', UInt32.toNat_ofNat',
      Nat.mod_eq_of_lt (hplace.le.trans_lt hlt), Nat.mod_eq_of_lt hlt]
    exact hplace
  refine ⟨_, inserted_of_code hconstants hp hq (moved_of_places ?_ ?_) (moved_of_places ?_ ?_)⟩
  · exact fun i hi => hemit i (List.mem_append_left _ hi)
  · rwa [codeSize_filterMap_instruction?]
  · exact fun i hi => hemit i (List.mem_append_right _ hi)
  · rwa [codeSize_filterMap_instruction?]

/-- Both programs are loaded from their images. The value of a run is the same, with twice as much
    fuel or any more. -/
theorem run_insert_nop {before after : List BuildStep}
    (hemit : ∀ i, .emit i ∈ before ++ after → i.target? = none)
    (hversion : chosenVersion (before ++ after) ≤ imageVersion)
    (h : Buildable (before ++ after)) (h' : Buildable (before ++ .emit .nop :: after)) :
    ∃ p p', Program.load (imageOf (before ++ after)) = .ok p ∧
      Program.load (imageOf (before ++ .emit .nop :: after)) = .ok p' ∧
      ∀ limits v, (run p limits).result = .ok v → ∀ fuel, 2 * limits.fuel ≤ fuel →
        (run p' (limits.withFuel fuel)).result = .ok v := by
  obtain ⟨p, hload, -, hconstants, hcode, -⟩ := load_imageOf h hversion
  rw [← chosenVersion_insert before after .nop] at hversion
  obtain ⟨p', hload', -, hconstants', hcode', -⟩ := load_imageOf h' hversion
  rw [addedConstants_insert, ← hconstants] at hconstants'
  obtain ⟨k, hinserted⟩ :=
    inserted_of_steps hemit h'.extent_lt (Array.toList_inj.1 hconstants'.symm) hcode hcode'
  exact ⟨p, p', hload, hload', fun limits v hrun fuel hfuel => run_of_inserted hinserted hrun hfuel⟩

end

end StackMachine
