import StackMachine.Proofs.Assembly.Denotation
import StackMachine.Proofs.Machine.Faults

/-!
# Where assembled programs jump

A label is bound to the offset that the builder has counted up to, and the loader counts the
offsets of the instructions again. Both count the same instructions, so a branch or call goes to
the first instruction after the definition of its label. If there is none, then it goes to the end
of the code, and a run that gets there by a jump ends with a fault. No other jump is invalid.

* `LandsOn`: the place that a label of a text stands for in a program;
* `landsOn_of_reads`: the places of labels in the program of a text;
* `assemble_targets`: the targets in that program, and the invalid jumps of its runs.
-/

namespace StackMachine

open Outline

namespace Assembly

/-- The place that a label stands for in the program of a text with the elements `es`. -/
inductive LandsOn (es : List Element) (p : Program) (name : List Char) (target : UInt32) : Prop
  /-- The first instruction after its definition. -/
  | instruction {before after : List Element} {placed : Placed}
    (hes : es = before ++ .label name :: after)
    (hafter : ∃ e ∈ after, e.isInstruction)
    (hplaced : p.fetch? (before.countP Element.isInstruction) = some placed)
    (htarget : target.toNat = placed.offset)
  /-- The end of the code, as there is no instruction after its definition. -/
  | codeEnd {before after : List Element}
    (hes : es = before ++ .label name :: after)
    (hafter : ∀ e ∈ after, e.isInstruction = false)
    (htarget : target.toNat = p.codeLen)

/-- The operand of an instruction that goes anywhere is a label, and it goes there. -/
theorem goesTo_of_operands {marks : List Mark} {i : Instruction} {args : List (List Char)}
    {target : UInt32} (h : Element.Operands marks i args) (hi : i.target? = some target) :
    ∃ name rest, args = name :: rest ∧ Element.GoesTo marks name target := by
  unfold Element.Operands at h
  split at h
  case h_6 | h_7 | h_8 => exact ⟨_, _, rfl, Option.some.inj hi ▸ h⟩
  case h_9 => exact ⟨_, _, rfl, Option.some.inj hi ▸ h.1⟩
  case h_10 => cases i <;> cases hi <;> exact absurd h.1 (Nat.succ_ne_zero _)
  all_goals cases hi

section

variable {marks : List Mark} {es : List Element} {steps : List BuildStep} {p : Program}

/-- Each instruction of a text is emitted once. -/
theorem countP_of_fits (h : List.Forall₂ (Fits marks) es steps) :
    es.countP Element.isInstruction =
      (steps.filterMap (BuildStep.instruction? (place marks))).length := by
  rw [List.countP_eq_length_filter]
  exact (emits_of_fits h).length_eq

/-- The steps before a definition and those after it are read from the elements there. -/
theorem exists_label_of_fits {before after : List BuildStep} {name : List Char}
    (h : List.Forall₂ (Fits marks) es steps)
    (hsteps : steps = before ++ .label (String.ofList name) :: after) :
    ∃ before' after', es = before' ++ .label name :: after' ∧
      List.Forall₂ (Fits marks) before' before ∧ List.Forall₂ (Fits marks) after' after := by
  rw [hsteps] at h
  have hbefore := List.forall₂_take_append es before _ h
  have hrest := List.forall₂_drop_append es before _ h
  obtain ⟨e, after', hlabel, hafter, hes⟩ := List.forall₂_cons_right_iff.1 hrest
  refine ⟨es.take before.length, after', ?_, hbefore, hafter⟩
  have he : e = .label name := by
    cases e with
    | label name' =>
      have hmark := hlabel.marked
      rw [BuildStep.mark] at hmark
      generalize hname : String.ofList name = s at hmark
      cases hmark
      rw [String.ofList_injective hname]
    | statement =>
      have hmark := hlabel.marked
      cases hmark
  rw [← he, ← hes, List.take_append_drop]

/-- The place of a label is the size of the instructions before its definition. -/
theorem landsOn_of_fits (hp : p.IsLoaded) (hcode : p.instructions = emittedCode steps)
    (h : List.Forall₂ (Fits (outline steps)) es steps) {name : List Char} {target : UInt32}
    (hgoes : Element.GoesTo (outline steps) name target) : LandsOn es p name target := by
  obtain ⟨hname, htarget⟩ := hgoes
  obtain ⟨before, after, hsteps, hnew⟩ := List.eq_append_cons_of_mem (mem_names_outline.1 hname)
  obtain ⟨before', after', hes, hbefore, hafter⟩ := exists_label_of_fits h hsteps
  -- the code is cut where the label is defined, which emits nothing
  have happend (f : String → Nat) : steps.filterMap (BuildStep.instruction? f) =
      before.filterMap (BuildStep.instruction? f) ++
        after.filterMap (BuildStep.instruction? f) := by
    rw [hsteps, List.filterMap_append, List.filterMap_cons_none rfl]
  have houtline : outline steps =
      outline before ++ .label (String.ofList name) :: outline after := by
    rw [hsteps, outline, List.map_append]
    rfl
  let emitted := List.filterMap (BuildStep.instruction? (place (outline steps)))
  have hinstructions : p.instructions = emitted before ++ emitted after :=
    hcode.trans (happend _)
  have hsize : target.toNat = codeSize (emitted before) := by
    rw [codeSize_filterMap_instruction?, htarget, houtline,
      place_append_of_not_mem (mt mem_names_outline.1 hnew), place_label_cons, Nat.add_zero]
  have hcount : before'.countP Element.isInstruction = (emitted before).length :=
    countP_of_fits hbefore
  have hcount' : after'.countP Element.isInstruction = (emitted after).length :=
    countP_of_fits hafter
  -- what is found at the cut depends on whether any code is left
  cases hrest : emitted after with
  | nil =>
    rw [hrest] at hcount' hinstructions
    refine .codeEnd hes ?_ ?_
    · simpa using List.countP_eq_zero.1 hcount'
    · rw [hp.codeLen_eq, hinstructions, List.append_nil, hsize]
  | cons i rest =>
    rw [hrest] at hcount' hinstructions
    have hplaced : p.fetch? (before'.countP Element.isInstruction) =
        some ⟨codeSize (emitted before), i⟩ := by
      rw [Program.fetch?_eq hp.code_eq.2, hcount, hinstructions, List.take_left]
      simp
    exact .instruction hes (List.countP_pos_iff.1 (hcount' ▸ Nat.succ_pos _)) hplaced hsize

/-- An instruction of the program is emitted by an instruction of the text. -/
theorem exists_emits_of_fetch? (hcode : p.instructions = emittedCode steps)
    (h : List.Forall₂ (Fits (outline steps)) es steps) {k : Nat} {placed : Placed}
    (hk : p.fetch? k = some placed) :
    ∃ e, (es.filter Element.isInstruction)[k]? = some e ∧
      e.Emits (outline steps) placed.instruction := by
  have hemits := emits_of_fits h
  have hi : (emittedCode steps)[k]? = some placed.instruction := by
    rw [← hcode, Program.instructions, List.getElem?_map, Array.getElem?_toList, ← Program.fetch?,
      hk, Option.map_some]
  obtain ⟨hlt, hget⟩ := List.getElem?_eq_some_iff.1 hi
  have hlt' : k < (es.filter Element.isInstruction).length := hemits.length_eq ▸ hlt
  exact ⟨_, List.getElem?_eq_getElem hlt', hget ▸ hemits.get hlt' hlt⟩

/-- If it goes anywhere, then to a label. -/
theorem exists_landsOn_of_fetch? (hp : p.IsLoaded) (hcode : p.instructions = emittedCode steps)
    (h : List.Forall₂ (Fits (outline steps)) es steps) {k : Nat} {placed : Placed}
    {target : UInt32} (hk : p.fetch? k = some placed)
    (htarget : placed.instruction.target? = some target) :
    ∃ head name args,
      (es.filter Element.isInstruction)[k]? = some (.statement head (name :: args)) ∧
        LandsOn es p name target := by
  obtain ⟨e, he, hemits⟩ := exists_emits_of_fetch? hcode h hk
  cases e with
  | label => exact hemits.elim
  | statement head args =>
    obtain ⟨name, rest, rfl, hgoes⟩ := goesTo_of_operands hemits.2 htarget
    exact ⟨head, name, rest, he, landsOn_of_fits hp hcode h hgoes⟩

end

/-- A label stands for the offset of an instruction or for the end of the code. -/
theorem LandsOn.mem_offsets_or {es : List Element} {p : Program} {name : List Char}
    {target : UInt32} (h : LandsOn es p name target) :
    target.toNat ∈ p.offsets ∨ target.toNat = p.codeLen := by
  cases h with
  | instruction _ _ hplaced htarget =>
    rw [htarget]
    exact .inl (List.mem_map_of_mem (Array.mem_toList_iff.2 (Array.mem_of_getElem? hplaced)))
  | codeEnd _ _ htarget => exact .inr htarget

/-- Every branch or call in the program of a text goes to a label that the text defines: to the
    first instruction after the definition, or to the end of the code, if there is none. Hence a
    jump that a run finds invalid goes to the end of the code. -/
theorem assemble_targets {source : String} {image : List UInt8} (h : assemble source = .ok image) :
    ∃ p, Program.load image = .ok p ∧
      (∀ k placed target, p.fetch? k = some placed → placed.instruction.target? = some target →
        (target.toNat ∈ p.offsets ∨ target.toNat = p.codeLen) ∧
        ∃ head name args,
          ((elements source).filter Element.isInstruction)[k]? =
            some (.statement head (name :: args)) ∧
          LandsOn (elements source) p name target) ∧
      ∀ (limits : Limits) (σ : Type) (observe : σ → Event → σ) (s : σ) (target : UInt32),
        (execute p limits observe s).result = .error (.invalidJumpTarget target) →
          target.toNat = p.codeLen := by
  obtain ⟨steps, hreads, hbuild⟩ := reads_of_assemble h
  obtain ⟨hsteps, rfl⟩ := build_eq_ok_iff.1 hbuild
  have hfits := fits_of_reads hreads hsteps
  obtain ⟨p, hload, -, -, hcode, -⟩ :=
    load_imageOf hsteps (version_of_fits hfits ▸ UInt32.le_refl imageVersion)
  have hp := (Program.load_eq_ok_iff.1 hload).2
  have hinstructions : p.instructions = emittedCode steps := by
    rw [Program.instructions, hcode, map_instruction_placeCode]
  refine ⟨p, hload, fun k placed target hk htarget => ?_, ?_⟩
  · obtain ⟨head, name, args, he, hlabel⟩ :=
      exists_landsOn_of_fetch? hp hinstructions hfits hk htarget
    exact ⟨hlabel.mem_offsets_or, head, name, args, he, hlabel⟩
  · intro limits σ observe s target hresult
    obtain ⟨hnone, k, placed, hk, htarget⟩ := Machine.exists_target_of_execute hp hresult
    obtain ⟨_, _, _, -, hlabel⟩ := exists_landsOn_of_fetch? hp hinstructions hfits hk htarget
    exact hlabel.mem_offsets_or.resolve_left hnone

/-- A text whose last label is at the end of the code, where it jumps to. -/
def leavingSource : String :=
  "jmp done\nnop\ndone:\n"

theorem assemble_targets_leaving :
    ∃ image p target, assemble leavingSource = .ok image ∧ Program.load image = .ok p ∧
      (run p {}).result = .error (.invalidJumpTarget target) ∧ target.toNat = p.codeLen := by
  have hrun : ((assemble leavingSource).toOption.bind fun image =>
      (Program.load image).toOption.map fun p => (run p {}).result) =
        some (.error (.invalidJumpTarget 6)) := by
    decide +kernel
  cases himage : assemble leavingSource with
  | error err =>
    rw [himage] at hrun
    cases hrun
  | ok image =>
    obtain ⟨p, hload, -, hinvalid⟩ := assemble_targets himage
    have hresult : (run p {}).result = .error (.invalidJumpTarget 6) := by
      simpa [Except.toOption, himage, hload] using hrun
    exact ⟨image, p, 6, rfl, hload, hresult, hinvalid {} Unit _ _ 6 hresult⟩

end Assembly

end StackMachine
