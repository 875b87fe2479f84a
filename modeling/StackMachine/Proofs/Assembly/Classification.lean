import Mathlib.Data.List.Nodup
import StackMachine.Proofs.Assembly.Denotation
import StackMachine.Proofs.Assembly.Errors
import StackMachine.Proofs.Assembly.Reassembly

/-!
# What becomes of an assembly text

Either a line is wrong, and the first such line is where assembling ends. Or there is no
instruction, or a label that is referred to is not defined. Or else there is an image, unless it is
too large: what a builder finds to be wrong with its steps has been found before.

The first reference to a label that is not defined can also be found in a table of all labels with
their first references, whatever order the table has. As a line has one reference at most, no two
labels have the same line there.

* `references`: the references of a text, with the numbers of their lines;
* `earliest?_of_perm`: the first of them that is not defined, found in a table without an order;
* `undefined?_of_readLines`: the first of them that is not defined, found in the steps of a text;
* `nodup_labels_of_right`: no label is defined twice;
* `assemble_classifies`: what becomes of a text.
-/

namespace StackMachine

open Text Outline

namespace Assembly

open AssemblyError (Reason)

/-! ## References -/

/-- The labels that the lines from `number` on refer to, each with the number of the line. -/
def references (number : Nat) : List (List Char) → List (Nat × List Char)
  | [] => []
  | line :: rest =>
    ((lineElements line).filterMap Element.reference?).map (number, ·) ++
      references (number + 1) rest

/-- The first reference to a label that is not among those `defined`. -/
def dangling? (defined : List (List Char)) (refs : List (Nat × List Char)) :
    Option (Nat × List Char) :=
  refs.find? (·.2 ∉ defined)

/-- A line has one label and one statement at most. -/
theorem lineElements_cases (line : List Char) :
    ∃ ws, lineElements line = statementOf ws ∨
      ∃ name, lineElements line = .label name :: statementOf ws := by
  rw [lineElements]
  cases cutAt ':' (code line) with
  | mk name rest =>
    cases rest with
    | none => exact ⟨_, .inl rfl⟩
    | some rest => exact ⟨_, .inr ⟨_, rfl⟩⟩

theorem labels_statementOf (ws : List (List Char)) : labels (statementOf ws) = [] := by
  cases ws <;> rfl

theorem length_references_le (line : List Char) :
    ((lineElements line).filterMap Element.reference?).length ≤ 1 := by
  have hstatement (ws : List (List Char)) :
      ((statementOf ws).filterMap Element.reference?).length ≤ 1 :=
    (List.length_filterMap_le _ _).trans (by cases ws <;> simp [statementOf])
  obtain ⟨ws, h | ⟨name, h⟩⟩ := lineElements_cases line <;> rw [h]
  · exact hstatement ws
  · exact hstatement ws

variable {number : Nat} {ls : List (List Char)} {refs table : List (Nat × List Char)}
  {defined : List (List Char)}

theorem le_of_mem_references {r : Nat × List Char} (h : r ∈ references number ls) :
    number ≤ r.1 := by
  induction ls generalizing number with
  | nil => cases h
  | cons line ls ih =>
    rw [references, List.mem_append, List.mem_map] at h
    rcases h with ⟨_, -, rfl⟩ | h
    · exact Nat.le_refl _
    · exact Nat.le_of_succ_le (ih h)

/-- The references are in different lines. -/
theorem pairwise_references (number : Nat) (ls : List (List Char)) :
    (references number ls).Pairwise (·.1 < ·.1) := by
  induction ls generalizing number with
  | nil => exact .nil
  | cons line ls ih =>
    refine List.pairwise_append.2 ⟨?_, ih (number + 1), fun r hr r' hr' => ?_⟩
    · have hlen := length_references_le line
      match (lineElements line).filterMap Element.reference?, hlen with
      | [], _ => exact .nil
      | [_], _ => exact List.pairwise_singleton _ _
    · obtain ⟨_, -, rfl⟩ := List.mem_map.1 hr
      exact le_of_mem_references hr'

theorem map_snd_references (number : Nat) (ls : List (List Char)) :
    (references number ls).map (·.2) = (ls.flatMap lineElements).filterMap Element.reference? := by
  induction ls generalizing number with
  | nil => rfl
  | cons line ls ih =>
    rw [references, List.map_append, ih, List.flatMap_cons, List.filterMap_append, List.map_map]
    exact congrArg (· ++ _) (List.map_id _)

theorem exists_reference_of_mem {r : Nat × List Char} (h : r ∈ references number ls) :
    ∃ e ∈ ls.flatMap lineElements, e.reference? = some r.2 := by
  have hmem : r.2 ∈ (references number ls).map (·.2) := List.mem_map_of_mem h
  rwa [map_snd_references, List.mem_filterMap] at hmem

theorem isInstruction_of_reference? {e : Element} {name : List Char}
    (h : e.reference? = some name) : e.isInstruction = true := by
  cases e with
  | label => cases h
  | statement head args =>
    rw [Element.reference?] at h
    cases hop : Opcode.ofMnemonic? (String.ofList head) with
    | none =>
      rw [hop] at h
      cases h
    | some op => exact bne_iff_ne.2 (head?_of_mnemonic (ofMnemonic?_eq_some_iff.1 hop))

/-! ## Tables without an order -/

/-- A table with one more reference, unless it has one to the same label. -/
def note (table : List (Nat × List Char)) (r : Nat × List Char) : List (Nat × List Char) :=
  if table.any (·.2 == r.2) then table else table ++ [r]

/-- The table of all labels that are referred to, each with its first reference. -/
def firstUses (refs : List (Nat × List Char)) : List (Nat × List Char) :=
  refs.foldl note []

/-- The first entry of a table that is not among those `defined`, once the table is sorted by the
    numbers of the lines. -/
def earliest? (defined : List (List Char)) (table : List (Nat × List Char)) :
    Option (Nat × List Char) :=
  ((table.filter (·.2 ∉ defined)).mergeSort (·.1 ≤ ·.1)).head?

theorem exists_foldl_note (table refs : List (Nat × List Char)) :
    ∃ new, refs.foldl note table = table ++ new ∧ new.Sublist refs := by
  induction refs generalizing table with
  | nil => exact ⟨[], (List.append_nil _).symm, .slnil⟩
  | cons r refs ih =>
    rw [List.foldl_cons, note]
    split
    · obtain ⟨new, hnew, hsub⟩ := ih table
      exact ⟨new, hnew, hsub.cons r⟩
    · obtain ⟨new, hnew, hsub⟩ := ih (table ++ [r])
      exact ⟨r :: new, by rw [hnew, List.append_assoc, List.singleton_append], hsub.cons_cons r⟩

theorem firstUses_sublist (refs : List (Nat × List Char)) : (firstUses refs).Sublist refs := by
  obtain ⟨new, hnew, hsub⟩ := exists_foldl_note [] refs
  rw [firstUses, hnew]
  exact hsub

/-- A reference that is left out of the table is not the first one to its label. -/
theorem dangling?_foldl_note (defined : List (List Char)) (table refs : List (Nat × List Char)) :
    dangling? defined (refs.foldl note table) = dangling? defined (table ++ refs) := by
  induction refs generalizing table with
  | nil => rw [List.foldl_nil, List.append_nil]
  | cons r refs ih =>
    rw [List.foldl_cons, ih, note]
    split
    · rename_i hany
      obtain ⟨r', hr', hlabel⟩ := List.any_eq_true.1 hany
      rw [dangling?, dangling?, List.find?_append, List.find?_append]
      cases hfind : table.find? (·.2 ∉ defined) with
      | some => rfl
      | none =>
        have hdefined := List.find?_eq_none.1 hfind r' hr'
        have hmem : r.2 ∈ defined := by simpa [beq_iff_eq.1 hlabel] using hdefined
        simp [hmem]
    · rw [List.append_assoc, List.singleton_append]

/-- The first reference to a label that is not defined is found in the table too, whatever order it
    has. -/
theorem earliest?_of_perm (hrefs : refs.Pairwise (·.1 < ·.1)) (h : table.Perm (firstUses refs)) :
    earliest? defined table = dangling? defined refs := by
  have hsorted : ((firstUses refs).filter (·.2 ∉ defined)).Pairwise (·.1 < ·.1) :=
    (hrefs.sublist (firstUses_sublist refs)).filter _
  have heq : (table.filter (·.2 ∉ defined)).mergeSort (·.1 ≤ ·.1) =
      (firstUses refs).filter (·.2 ∉ defined) := by
    have hperm := (List.mergeSort_perm _ fun a b => decide (a.1 ≤ b.1)).trans
      (h.filter (·.2 ∉ defined))
    have hle : ((table.filter (·.2 ∉ defined)).mergeSort (·.1 ≤ ·.1)).Pairwise (·.1 ≤ ·.1) :=
      (List.pairwise_mergeSort (by grind) (by grind) _).imp of_decide_eq_true
    have hnodup : (((firstUses refs).filter (·.2 ∉ defined)).map (·.1)).Nodup :=
      List.pairwise_map.2 (hsorted.imp Nat.ne_of_lt)
    -- there is one order only, as no two references are in the same line
    refine hperm.eq_of_pairwise (fun r r' hr hr' hlt hgt => ?_) hle (hsorted.imp Nat.le_of_lt)
    exact List.inj_on_of_nodup_map hnodup (hperm.mem_iff.1 hr) hr' (Nat.le_antisymm hlt hgt)
  rw [earliest?, heq, List.head?_filter]
  exact dangling?_foldl_note defined [] refs

/-! ## Texts without wrong lines -/

section

variable {es : List Element} {steps : List BuildStep} {defined : List String}
  {numbered : List NumberedStep}

theorem Reads.isEmission_eq {e : Element} {step : BuildStep} (h : Reads e step) :
    isEmission step = e.isInstruction := by
  cases h with
  | label | const | line => rfl
  | instruction hhead _ hread =>
    have hinstruction := bne_iff_ne.2 hhead
    rw [readInstruction] at hread
    split at hread
    · rcases emission_of_readOperands hread with ⟨-, i, rfl⟩ | ⟨-, i, name, _, -, rfl⟩ <;>
        exact hinstruction.symm
    · cases hread

theorem any_isEmission_of_reads (h : List.Forall₂ Reads es steps) :
    steps.any isEmission = es.any Element.isInstruction := by
  induction h with
  | nil => rfl
  | cons hread _ ih => rw [List.any_cons, List.any_cons, hread.isEmission_eq, ih]

theorem filterMap_reference?_of_reads (h : List.Forall₂ Reads es steps) :
    steps.filterMap reference? = (es.filterMap Element.reference?).map String.ofList := by
  rw [List.map_filterMap]
  induction h with
  | nil => rfl
  | cons hread _ ih => rw [List.filterMap_cons, List.filterMap_cons, hread.labels.2, ih]

/-- The references of steps, with the numbers of their lines. -/
def stepReferences (numbered : List NumberedStep) : List (Nat × String) :=
  numbered.filterMap fun s => (reference? s.step).map (s.line, ·)

theorem stepReferences_of_readLines (h : readLines defined number ls = .ok numbered) :
    stepReferences numbered = (references number ls).map (Prod.map id String.ofList) := by
  induction ls generalizing defined number numbered with
  | nil =>
    cases h
    rfl
  | cons line ls ih =>
    rw [readLines] at h
    split at h
    · cases h
    rename_i steps hline
    split at h <;> cases h
    rename_i later hlater
    have hreads := filterMap_reference?_of_reads (readLine_reads hline)
    have hsteps : stepReferences (steps.map (⟨number, ·⟩)) =
        (steps.filterMap reference?).map (number, ·) := by
      rw [stepReferences, List.filterMap_map, List.map_filterMap]
      rfl
    rw [stepReferences, List.filterMap_append, ← stepReferences, ← stepReferences, hsteps, hreads,
      ih hlater, references, List.map_append, List.map_map, List.map_map]
    rfl

theorem undefined?_eq (defined : List String) (numbered : List NumberedStep) :
    undefined? defined numbered = ((stepReferences numbered).find? (·.2 ∉ defined)).map
      fun r => ⟨r.1, .undefinedLabel r.2⟩ := by
  induction numbered with
  | nil => rfl
  | cons s numbered ih =>
    rw [undefined?, ih, stepReferences, stepReferences, List.filterMap_cons]
    cases hlabel : reference? s.step with
    | none => rfl
    | some label => by_cases hmem : label ∈ defined <;> simp [hmem]

/-- The first label that is found to be undefined is the first reference to such a label. -/
theorem undefined?_of_readLines (h : readLines [] 1 ls = .ok numbered) :
    undefined? ((numbered.map (·.step)).filterMap definition?) numbered =
      (dangling? (labels (ls.flatMap lineElements)) (references 1 ls)).map
        fun r => ⟨r.1, .undefinedLabel (String.ofList r.2)⟩ := by
  have hmem (r : Nat × List Char) :
      String.ofList r.2 ∉ (labels (ls.flatMap lineElements)).map String.ofList ↔
        r.2 ∉ labels (ls.flatMap lineElements) :=
    not_congr (List.mem_map_of_injective fun _ _ => String.ofList_injective)
  rw [undefined?_eq, definitions_of_reads (readLines_reads h), stepReferences_of_readLines h,
    List.find?_map, Option.map_map, dangling?]
  simp only [Function.comp_def, Prod.map_snd, Prod.map_fst, id, hmem]

end

/-- No label of a right text is defined twice. -/
theorem nodup_labels_of_right {earlier : List Element}
    (h : ∀ k reason, ¬ WrongAt earlier ls k reason) :
    (labels (ls.flatMap lineElements)).Nodup ∧
      ∀ name ∈ labels (ls.flatMap lineElements), .label name ∉ earlier := by
  -- the elements of a line are among those before the next one, so a label that is not defined
  -- before the next line is none of this line
  induction ls generalizing earlier with
  | nil => exact ⟨.nil, nofun⟩
  | cons line ls ih =>
    obtain ⟨hnodup, hnew⟩ := @ih (earlier ++ lineElements line) fun k reason hwrong =>
      h (k + 1) reason (wrongAt_succ.2 hwrong)
    have hline : ∀ reason, ¬ Wrong earlier (lineElements line) reason := fun reason hwrong =>
      h 0 reason (wrongAt_zero.2 hwrong)
    simp only [List.mem_append, not_or] at hnew
    rw [List.flatMap_cons, labels, List.filterMap_append, ← labels, ← labels]
    obtain ⟨ws, heq | ⟨name, heq⟩⟩ := lineElements_cases line
    · rw [heq, labels_statementOf, List.nil_append]
      exact ⟨hnodup, fun name hname => (hnew name hname).1⟩
    · rw [heq] at hline hnew
      have hlabel : labels (.label name :: statementOf ws) = [name] :=
        congrArg (name :: ·) (labels_statementOf ws)
      have hname : .label name ∉ earlier := fun hmem => by
        cases hvalid : isLabel name with
        | false => exact hline _ (.label hvalid)
        | true => exact hline _ (.duplicate hvalid hmem)
      rw [heq, hlabel, List.singleton_append]
      refine ⟨List.nodup_cons.2 ⟨fun hmem => ?_, hnodup⟩, List.forall_mem_cons.2 ⟨hname, ?_⟩⟩
      · exact (hnew name hmem).2 List.mem_cons_self
      · exact fun name' hname' => (hnew name' hname').1

/-! ## Images -/

/-- Something is wrong with the line `k` of a text, given the lines before it. -/
def WrongLine (source : String) (k : Nat) (reason : Reason) : Prop :=
  WrongAt [] (lines source.toList) k reason

/-- No line of a text is wrong. -/
def Right (source : String) : Prop :=
  ∀ k reason, ¬ WrongLine source k reason

/-- The first reference of a text to a label that it does not define. -/
def firstDangling? (source : String) : Option (Nat × List Char) :=
  dangling? (labels (elements source)) (references 1 (lines source.toList))

/-- Where errors that are found at the end are said to be. -/
def lastLine (source : String) : Nat :=
  max 1 (lines source.toList).length

section

variable {source : String}

theorem knows_nil : Knows [] [] :=
  fun _ => iff_of_false List.not_mem_nil List.not_mem_nil

/-- Assembling ends at the first wrong line. -/
theorem assemble_of_wrongLine {k : Nat} {reason : Reason}
    (hfirst : ∀ j < k, ∀ reason, ¬ WrongLine source j reason) (h : WrongLine source k reason) :
    assemble source = .error ⟨k + 1, reason⟩ := by
  have hread : readLines [] 1 (lines source.toList) = .error ⟨1 + k, reason⟩ :=
    readLines_of_wrongAt knows_nil hfirst h
  simp only [assemble, hread]
  rw [Nat.add_comm]

/-- Lines that are the same are wrong for the same reasons. -/
theorem WrongLine.of_take {source' : String} {j k : Nat} {reason : Reason}
    (h : WrongLine source j reason) (hjk : j ≤ k)
    (htake : (lines source'.toList).take (k + 1) = (lines source.toList).take (k + 1)) :
    WrongLine source' j reason := by
  refine WrongAt.of_take h ?_
  have := congrArg (List.take (j + 1)) htake
  simpa [List.take_take, Nat.min_eq_left (Nat.succ_le_succ hjk)] using this

/-- A text that is right is read, and what is left is to build its image. -/
theorem exists_readLines (h : Right source) :
    ∃ numbered, readLines [] 1 (lines source.toList) = .ok numbered ∧
      assemble source = finish (lastLine source) numbered := by
  obtain ⟨numbered, hread⟩ := exists_readLines_of_right knows_nil h
  refine ⟨numbered, hread, ?_⟩
  simp only [assemble, hread]
  rfl

theorem assemble_of_no_instruction (h : Right source)
    (hcode : ∀ e ∈ elements source, e.isInstruction = false) :
    assemble source = .error ⟨lastLine source, .emptyProgram⟩ := by
  obtain ⟨numbered, hread, hassemble⟩ := exists_readLines h
  have hany : (numbered.map (·.step)).any isEmission = false := by
    rw [any_isEmission_of_reads (readLines_reads hread), List.any_eq_false]
    exact fun e he => Bool.eq_false_iff.1 (hcode e he)
  rw [hassemble, finish, hany]
  rfl

theorem assemble_of_dangling (h : Right source) {number : Nat} {name : List Char}
    (hdangling : firstDangling? source = some (number, name)) :
    assemble source = .error ⟨number, .undefinedLabel (String.ofList name)⟩ := by
  obtain ⟨numbered, hread, hassemble⟩ := exists_readLines h
  have hany : (numbered.map (·.step)).any isEmission = true := by
    obtain ⟨e, he, hreference⟩ := exists_reference_of_mem (List.mem_of_find?_eq_some hdangling)
    rw [any_isEmission_of_reads (readLines_reads hread), List.any_eq_true]
    exact ⟨e, he, isInstruction_of_reference? hreference⟩
  have hundefined := undefined?_of_readLines hread
  rw [← elements, ← firstDangling?, hdangling] at hundefined
  rw [hassemble, finish, hany, hundefined]
  rfl

theorem names_outline (steps : List BuildStep) :
    names (outline steps) = steps.filterMap definition? := by
  rw [names, outline, List.filterMap_map]
  refine List.filterMap_congr fun s _ => ?_
  cases s <;> rfl

/-- All labels of a text that are referred to are bound, if none is dangling. -/
theorem label_mem_of_reads {steps : List BuildStep}
    (hreads : List.Forall₂ Reads (elements source) steps) (hdefined : firstDangling? source = none)
    {i : Instruction} {name : String} (h : .emitTo i name ∈ steps) : .label name ∈ steps := by
  have hmem : name ∈ steps.filterMap reference? := List.mem_filterMap.2 ⟨_, h, rfl⟩
  rw [filterMap_reference?_of_reads hreads, elements, ← map_snd_references 1, List.map_map,
    List.mem_map] at hmem
  obtain ⟨r, hr, rfl⟩ := hmem
  have hlabel : r.2 ∈ labels (elements source) := by
    simpa using List.find?_eq_none.1 hdefined r hr
  rw [← mem_names_outline, names_outline, definitions_of_reads hreads]
  exact List.mem_map_of_mem hlabel

theorem assemble_of_defined (h : Right source) (hcode : ∃ e ∈ elements source, e.isInstruction)
    (hdefined : firstDangling? source = none) :
    ∃ steps, List.Forall₂ Reads (elements source) steps ∧
      assemble source =
        if 2 ^ 32 ≤ (imageOf steps).length then .error ⟨lastLine source, .build .tooLarge⟩
        else .ok (imageOf steps) := by
  obtain ⟨numbered, hread, -⟩ := exists_readLines h
  have hreads := readLines_reads hread
  refine ⟨_, hreads, ?_⟩
  rw [length_imageOf]
  refine assemble_eq hread rfl ?_ ?_ fun i name => label_mem_of_reads hreads hdefined
  · have hany := (any_isEmission_of_reads hreads).trans (List.any_eq_true.2 hcode)
    obtain ⟨s, hs, hemission⟩ := List.any_eq_true.1 hany
    exact ⟨s, hs, isEmission_eq s ▸ hemission⟩
  · rw [names_outline, definitions_of_reads hreads]
    exact (nodup_labels_of_right h).1.map fun _ _ => String.ofList_injective

/-- If any line is wrong, then one is the first. -/
theorem exists_first_wrongLine (h : ∃ k reason, WrongLine source k reason) :
    ∃ k reason, WrongLine source k reason ∧ ∀ j < k, ∀ reason, ¬ WrongLine source j reason := by
  classical
  obtain ⟨reason, hreason⟩ := Nat.find_spec h
  exact ⟨Nat.find h, reason, hreason, fun j hj reason hwrong => Nat.find_min h hj ⟨reason, hwrong⟩⟩

/-- A text that is read is right. -/
theorem right_of_readLines {numbered : List NumberedStep}
    (h : readLines [] 1 (lines source.toList) = .ok numbered) : Right source := by
  intro k reason hwrong
  obtain ⟨k, reason, hk, hfirst⟩ := exists_first_wrongLine ⟨k, reason, hwrong⟩
  rw [readLines_of_wrongAt knows_nil hfirst hk] at h
  cases h

/-- If a text is too large, then nothing else is wrong with it. -/
theorem eq_tooLarge_of_assemble {line : Nat} {err : BuildError}
    (h : assemble source = .error ⟨line, .build err⟩) : err = .tooLarge := by
  by_cases hwrong : ∃ k reason, WrongLine source k reason
  · obtain ⟨k, reason, hk, hfirst⟩ := exists_first_wrongLine hwrong
    rw [assemble_of_wrongLine hfirst hk, Except.error.injEq, AssemblyError.mk.injEq] at h
    obtain ⟨line, -, hwrong⟩ := hk
    exact absurd h.2 (hwrong.ne_build err)
  have hright : Right source := fun k reason hk => hwrong ⟨k, reason, hk⟩
  cases hdangling : firstDangling? source with
  | some r =>
    rw [assemble_of_dangling hright hdangling] at h
    cases h
  | none =>
    by_cases hcode : ∃ e ∈ elements source, e.isInstruction
    · obtain ⟨steps, -, hassemble⟩ := assemble_of_defined hright hcode hdangling
      rw [hassemble] at h
      split at h <;> cases h
      rfl
    · push Not at hcode
      rw [assemble_of_no_instruction hright fun e he => Bool.eq_false_iff.2 (hcode e he)] at h
      cases h

end

/-- What becomes of a text. If a line is wrong, given the lines before it, then assembling ends at
    the first such line, whatever comes after it. Otherwise it ends with an error if there is no
    instruction, or with one for the first reference to a label that the text does not define; this
    is the one found in the table of references, whatever order that has. Otherwise there is an
    image, unless it is too large. Nothing else is found to be wrong when the image is built. -/
theorem assemble_classifies (source : String) :
    ((∃ k reason, WrongLine source k reason) →
      ∃ k reason, WrongLine source k reason ∧
        (∀ j < k, ∀ reason, ¬ WrongLine source j reason) ∧
        ∀ source' : String,
          (lines source'.toList).take (k + 1) = (lines source.toList).take (k + 1) →
            assemble source' = .error ⟨k + 1, reason⟩) ∧
    (Right source →
      ((∀ e ∈ elements source, e.isInstruction = false) →
        assemble source = .error ⟨lastLine source, .emptyProgram⟩) ∧
      (∀ number name, firstDangling? source = some (number, name) →
        assemble source = .error ⟨number, .undefinedLabel (String.ofList name)⟩ ∧
        ∀ table : List (Nat × List Char),
          table.Perm (firstUses (references 1 (lines source.toList))) →
            earliest? (labels (elements source)) table = some (number, name)) ∧
      ((∃ e ∈ elements source, e.isInstruction) → firstDangling? source = none →
        ∃ steps, List.Forall₂ Reads (elements source) steps ∧
          assemble source =
            if 2 ^ 32 ≤ (imageOf steps).length then .error ⟨lastLine source, .build .tooLarge⟩
            else .ok (imageOf steps))) ∧
    ∀ line err, assemble source = .error ⟨line, .build err⟩ → err = .tooLarge := by
  refine ⟨fun hwrong => ?_, fun h => ⟨assemble_of_no_instruction h, ?_, assemble_of_defined h⟩,
    fun line err => eq_tooLarge_of_assemble⟩
  · obtain ⟨k, reason, hk, hfirst⟩ := exists_first_wrongLine hwrong
    refine ⟨k, reason, hk, hfirst, fun source' htake => ?_⟩
    exact assemble_of_wrongLine
      (fun j hj reason h => hfirst j hj reason (h.of_take (Nat.le_of_lt hj) htake.symm))
      (hk.of_take (Nat.le_refl k) htake)
  · exact fun number name hdangling => ⟨assemble_of_dangling h hdangling, fun table htable =>
      (earliest?_of_perm (pairwise_references 1 _) htable).trans hdangling⟩

/-- A text whose third line is wrong. -/
def misspeltSource : String :=
  "start:\n  push.i 1\n  addd\n"

/-- A text that refers to two labels that it does not define, to one of them twice. -/
def danglingSource : String :=
  "loop: jmp done\n  call helper 0 0\n  jmp loop\n  jmp done\n"

theorem assemble_classifies_misspelt_dangling :
    assemble (misspeltSource ++ "start:\n  halt") = .error ⟨3, .unknownMnemonic "addd"⟩ ∧
      assemble danglingSource = .error ⟨1, .undefinedLabel "done"⟩ ∧
      earliest? ["loop".toList] [(2, "helper".toList), (3, "loop".toList), (1, "done".toList)] =
        some (1, "done".toList) := by
  constructor
  · have hmnemonic : WrongStatement "addd".toList [] (.unknownMnemonic "addd") :=
      .mnemonic (by decide) (ofMnemonic?_eq_none_iff.1 (by decide +kernel))
    have hwrong : WrongLine misspeltSource 2 (.unknownMnemonic "addd") :=
      ⟨"  addd".toList, by decide +kernel, .statement hmnemonic⟩
    obtain ⟨k, reason, -, -, hsame⟩ := (assemble_classifies misspeltSource).1 ⟨2, _, hwrong⟩
    have hassemble : assemble misspeltSource = .error ⟨3, .unknownMnemonic "addd"⟩ := by
      decide +kernel
    have hfirst := hassemble.symm.trans (hsame misspeltSource rfl)
    cases hfirst
    exact hsame _ (by decide +kernel)
  · have hread : (readLines [] 1 (lines danglingSource.toList)).isOk = true := by decide +kernel
    have hright : Right danglingSource := by
      cases h : readLines [] 1 (lines danglingSource.toList) with
      | error => rw [h] at hread; cases hread
      | ok numbered => exact right_of_readLines h
    have hdangling : firstDangling? danglingSource = some (1, "done".toList) := by decide +kernel
    obtain ⟨hassemble, htable⟩ :=
      ((assemble_classifies danglingSource).2.1 hright).2.1 1 "done".toList hdangling
    exact ⟨hassemble, htable _ (by decide +kernel)⟩

end Assembly

end StackMachine
