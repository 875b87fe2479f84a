import StackMachine.Proofs.Image.Building

/-!
# What is wrong with the steps of a builder

Steps that emit no instruction, bind a label twice or refer to one that they never bind have no
image. Of these errors the first in this order is reported, and of the labels the one at the first
step with this error. A builder finds it piece by piece: it keeps the first label that was bound
again, overwrites the places of labels, and looks them up when the image is finished.

* `FirstRebound`, `FirstDangling`: the labels that errors are reported for;
* `Builder.rebound_eq_some_iff`: the label that a builder keeps;
* `Builder.resolveAll_eq_error_iff`: the label that is not found;
* `build_classifies`: which steps have which error, and which have an image.
-/

namespace StackMachine

open Outline

/-- The instructions that steps emit, their labels still to be replaced by places. -/
def emissions (steps : List BuildStep) : List Emission :=
  steps.filterMap BuildStep.emission?

/-- `FirstRebound steps name`: the first step that binds a label which is bound already binds
    `name`. -/
def FirstRebound (steps : List BuildStep) (name : String) : Prop :=
  ∃ before after, steps = before ++ .label name :: after ∧ .label name ∈ before ∧
    ∀ other, before.count (.label other) ≤ 1

/-- `FirstReference missing steps name`: the first step that refers to a missing label refers to
    `name`. -/
def FirstReference (missing : String → Prop) (steps : List BuildStep) (name : String) : Prop :=
  ∃ before i after, steps = before ++ .emitTo i name :: after ∧ missing name ∧
    ∀ j other, .emitTo j other ∈ before → ¬missing other

/-- The first step that refers to a label which no step binds, earlier or later, refers to
    `name`. -/
def FirstDangling (steps : List BuildStep) (name : String) : Prop :=
  FirstReference (.label · ∉ steps) steps name

section

variable {steps : List BuildStep} {name : String}

/-! ## Labels that are bound twice -/

theorem count_names_outline (steps : List BuildStep) (name : String) :
    (names (outline steps)).count name = steps.count (.label name) := by
  induction steps with
  | nil => rfl
  | cons s steps ih =>
    cases s with
    | label other =>
      have hnames : names (outline (.label other :: steps)) = other :: names (outline steps) := rfl
      rw [hnames, List.count_cons, List.count_cons, ih]
      simp only [beq_iff_eq, BuildStep.label.injEq]
    | version | constant | line | emit | emitTo =>
      exact ih.trans (List.count_cons_of_ne (by simp)).symm

/-- No label is bound twice. -/
theorem nodup_names_outline_iff :
    (names (outline steps)).Nodup ↔ ∀ name, steps.count (.label name) ≤ 1 := by
  simp only [List.nodup_iff_count_le_one, count_names_outline]

theorem firstRebound_append_singleton {s : BuildStep} :
    FirstRebound (steps ++ [s]) name ↔
      FirstRebound steps name ∨
        (∀ other, steps.count (.label other) ≤ 1) ∧ s = .label name ∧ .label name ∈ steps := by
  constructor
  · rintro ⟨before, after, hsteps, hbound, hdistinct⟩
    -- the label is bound again by the last step or by an earlier one
    rcases List.eq_nil_or_concat after with rfl | ⟨after, last, rfl⟩
    · obtain ⟨rfl, hlast⟩ := List.append_inj' hsteps rfl
      cases hlast
      exact .inr ⟨hdistinct, rfl, hbound⟩
    · have hsteps : steps ++ [s] = (before ++ .label name :: after) ++ [last] := by
        simpa using hsteps
      obtain ⟨rfl, -⟩ := List.append_inj' hsteps rfl
      exact .inl ⟨before, after, rfl, hbound, hdistinct⟩
  · rintro (⟨before, after, rfl, hbound, hdistinct⟩ | ⟨hdistinct, rfl, hbound⟩)
    · exact ⟨before, after ++ [s], by simp, hbound, hdistinct⟩
    · exact ⟨steps, [], rfl, hbound, hdistinct⟩

/-! ## References to missing labels -/

section

variable {missing : String → Prop}

/-- A step that refers to no missing label is passed over. -/
theorem firstReference_cons {s : BuildStep}
    (h : ∀ i other, s = .emitTo i other → ¬missing other) :
    FirstReference missing (s :: steps) = FirstReference missing steps := by
  funext name
  refine propext ⟨?_, ?_⟩
  · rintro ⟨before, i, after, hsteps, hmissing, hearlier⟩
    cases before with
    | nil =>
      cases hsteps
      exact absurd hmissing (h _ _ rfl)
    | cons s' before =>
      cases hsteps
      exact ⟨before, i, after, rfl, hmissing,
        fun j other hmem => hearlier j other (List.mem_cons_of_mem _ hmem)⟩
  · rintro ⟨before, i, after, rfl, hmissing, hearlier⟩
    refine ⟨s :: before, i, after, rfl, hmissing, fun j other hmem => ?_⟩
    rcases List.mem_cons.1 hmem with hs | hmem
    · exact h j other hs.symm
    · exact hearlier j other hmem

theorem firstReference_cons_of_missing {i : Instruction} {other : String} (h : missing other) :
    FirstReference missing (.emitTo i other :: steps) name ↔ name = other := by
  constructor
  · rintro ⟨before, j, after, hsteps, -, hearlier⟩
    cases before with
    | nil =>
      cases hsteps
      rfl
    | cons =>
      cases hsteps
      exact absurd h (hearlier i other List.mem_cons_self)
  · rintro rfl
    exact ⟨[], i, steps, rfl, h, nofun⟩

/-- If any reference is to a missing label, then one is the first. -/
theorem exists_firstReference_iff :
    (∃ name, FirstReference missing steps name) ↔
      ∃ i name, .emitTo i name ∈ steps ∧ missing name := by
  constructor
  · rintro ⟨name, before, i, after, rfl, hmissing, -⟩
    exact ⟨i, name, List.mem_append_right _ List.mem_cons_self, hmissing⟩
  · rintro ⟨i, name, hmem, hmissing⟩
    induction steps with
    | nil => cases hmem
    | cons s steps ih =>
      by_cases hs : ∃ j other, s = .emitTo j other ∧ missing other
      · obtain ⟨j, other, rfl, hother⟩ := hs
        exact ⟨other, (firstReference_cons_of_missing hother).2 rfl⟩
      · have hpass : ∀ j other, s = .emitTo j other → ¬missing other :=
          fun j other hj hother => hs ⟨j, other, hj, hother⟩
        rw [firstReference_cons hpass]
        rcases List.mem_cons.1 hmem with rfl | hmem
        · exact absurd hmissing (hpass i name rfl)
        · exact ih hmem

end

namespace Builder

/-! ## What a builder knows -/

/-- A step changes the label that a builder keeps only if there is none yet and it binds one that is
    bound already. -/
theorem rebound_apply_eq_some_iff {b : Builder} {s : BuildStep} :
    (b.apply s).rebound = some name ↔
      b.rebound = some name ∨
        b.rebound = none ∧ s = .label name ∧ (b.labels.lookup name).isSome := by
  cases s with
  | label other =>
    rw [apply, bind]
    cases b.rebound with
    | some first => simp
    | none =>
      simp only [Option.ite_none_right_eq_some, Option.some.injEq, BuildStep.label.injEq,
        reduceCtorEq, false_or, true_and]
      constructor
      · rintro ⟨hbound, rfl⟩
        exact ⟨rfl, hbound⟩
      · rintro ⟨rfl, hbound⟩
        exact ⟨hbound, rfl⟩
  | version | constant | line | emit | emitTo => simp [apply, Builder.emit]

/-- A builder keeps the first label that was bound again, whatever is bound after it. -/
theorem rebound_eq_some_iff :
    (steps.foldl apply {}).rebound = some name ↔ FirstRebound steps name := by
  induction steps using List.reverseRecOn with
  | nil => exact iff_of_false nofun fun ⟨_, _, h, _⟩ => by simp at h
  | append_singleton steps s ih =>
    have hpositions := (follows_foldl_apply steps).positions
    rw [List.foldl_concat, rebound_apply_eq_some_iff, firstRebound_append_singleton, ih,
      hpositions.rebound, nodup_names_outline_iff, hpositions.lookup_isSome_iff, mem_names_outline]

theorem rebound_eq_none_iff :
    (steps.foldl apply {}).rebound = none ↔ ∀ name, steps.count (.label name) ≤ 1 :=
  (follows_foldl_apply steps).positions.rebound.trans nodup_names_outline_iff

theorem resolveAll_cons_eq_error_iff {labels : List (String × Nat)} {e : Emission}
    {i : Instruction} (h : resolve labels e = .ok i) {emitted : List Emission} {err : BuildError} :
    resolveAll labels (e :: emitted) = .error err ↔ resolveAll labels emitted = .error err := by
  rw [resolveAll, h]
  cases resolveAll labels emitted <;> simp

/-- The first reference to a label without a place is the error. -/
theorem resolveAll_eq_error_iff {labels : List (String × Nat)} {err : BuildError} :
    resolveAll labels (emissions steps) = .error err ↔
      ∃ name, err = .undefinedLabel name ∧
        FirstReference (labels.lookup · = none) steps name := by
  induction steps with
  | nil => exact iff_of_false nofun fun ⟨_, _, _, _, _, h, _⟩ => by simp at h
  | cons s steps ih =>
    cases s with
    | version | constant | label | line =>
      rw [firstReference_cons nofun]
      exact ih
    | emit i =>
      rw [firstReference_cons nofun, ← ih]
      exact resolveAll_cons_eq_error_iff rfl
    | emitTo i other =>
      have hemissions : emissions (.emitTo i other :: steps) =
          ⟨i.withTarget 0, some other⟩ :: emissions steps := rfl
      rw [hemissions]
      cases hlookup : labels.lookup other with
      | none =>
        have hresolve : resolveAll labels (⟨i.withTarget 0, some other⟩ :: emissions steps) =
            .error (.undefinedLabel other) := by
          simp only [resolveAll, resolve, hlookup]
        have hfirst (name : String) : FirstReference (labels.lookup · = none)
            (.emitTo i other :: steps) name ↔ name = other :=
          firstReference_cons_of_missing hlookup
        simp only [hresolve, hfirst, exists_eq_right, Except.error.injEq]
        exact eq_comm
      | some offset =>
        have hresolve : resolve labels ⟨i.withTarget 0, some other⟩ =
            .ok ((i.withTarget 0).withTarget (UInt32.ofNat offset)) := by
          simp only [resolve, hlookup]
        have hpass : ∀ j name, .emitTo i other = BuildStep.emitTo j name →
            ¬labels.lookup name = none := by
          rintro j name ⟨⟩
          simp [hlookup]
        rw [firstReference_cons hpass, ← ih]
        exact resolveAll_cons_eq_error_iff hresolve

/-- The checks of a finished image, one after the other. -/
theorem finish_eq_error_iff {b : Builder} {err : BuildError} :
    b.finish = .error err ↔
      b.isEmpty = true ∧ err = .emptyCode ∨
      b.isEmpty = false ∧ (∃ name, b.rebound = some name ∧ err = .duplicateLabel name) ∨
      b.isEmpty = false ∧ b.rebound = none ∧
        (resolveAll b.labels b.emitted.toList = .error err ∨
          ∃ code, resolveAll b.labels b.emitted.toList = .ok code ∧
            b.encode code = .error err) := by
  rw [finish]
  cases b.isEmpty with
  | true => simp [eq_comm]
  | false =>
    cases b.rebound with
    | some name => simp [eq_comm]
    | none => cases resolveAll b.labels b.emitted.toList <;> simp

end Builder

/-! ## The errors -/

/-- The code has as many bytes as the instructions that are emitted. -/
theorem extent_outline (steps : List BuildStep) :
    extent (outline steps) = ((emissions steps).map (·.instruction.size)).sum := by
  induction steps with
  | nil => rfl
  | cons s steps ih =>
    have hextent : extent (outline (s :: steps)) = s.mark.size + extent (outline steps) := rfl
    rw [hextent, ih]
    cases s with
    | version | constant | label | line => exact Nat.zero_add _
    | emit i => rfl
    | emitTo i name =>
      have hsize : (i.withTarget 0).size = i.size := Instruction.size_withTarget ..
      exact congrArg (· + _) hsize.symm

namespace Builder

variable {b : Builder}

theorem Follows.isEmpty_eq_true_iff (h : b.Follows steps) :
    b.isEmpty = true ↔ emissions steps = [] := by
  rw [isEmpty, ← Array.isEmpty_toList, h.emitted, List.isEmpty_iff]
  rfl

/-- A builder finds a label if any step binds it, earlier or later. -/
theorem Follows.lookup_eq_none_iff (h : b.Follows steps) :
    b.labels.lookup name = none ↔ .label name ∉ steps := by
  rw [← Option.not_isSome_iff_eq_none, h.positions.lookup_isSome_iff, mem_names_outline]

theorem Follows.resolveAll_eq_error_iff (h : b.Follows steps) {err : BuildError} :
    resolveAll b.labels b.emitted.toList = .error err ↔
      ∃ name, err = .undefinedLabel name ∧ FirstDangling steps name := by
  have hmissing : (b.labels.lookup · = none) = (.label · ∉ steps) :=
    funext fun name => propext h.lookup_eq_none_iff
  rw [h.emitted, ← emissions, Builder.resolveAll_eq_error_iff, hmissing]
  rfl

/-- If the image is not too large, then nothing is wrong once all labels have their places. -/
theorem Follows.encode_ne_error (h : b.Follows steps) (hfits : imageSize steps < 2 ^ 32)
    (hrebound : b.rebound = none) {code : List Instruction}
    (hcode : resolveAll b.labels b.emitted.toList = .ok code) (err : BuildError) :
    b.encode code ≠ .error err := by
  obtain ⟨-, rfl⟩ := (h.resolveAll_eq_ok_iff (h.positions.rebound.1 hrebound)).1 hcode
  rw [h.encode_eq, if_neg (Nat.not_le.2 hfits)]
  nofun

end Builder

/-- The errors of steps whose image is not too large. -/
theorem build_eq_error_iff (hfits : imageSize steps < 2 ^ 32) {err : BuildError} :
    build steps = .error err ↔
      emissions steps = [] ∧ err = .emptyCode ∨
      emissions steps ≠ [] ∧ (∃ name, FirstRebound steps name ∧ err = .duplicateLabel name) ∨
      emissions steps ≠ [] ∧ (∀ other, steps.count (.label other) ≤ 1) ∧
        ∃ name, err = .undefinedLabel name ∧ FirstDangling steps name := by
  have h := Builder.follows_foldl_apply steps
  have hencode (hrebound : (steps.foldl Builder.apply {}).rebound = none) :
      ¬∃ code, Builder.resolveAll _ _ = .ok code ∧ Builder.encode _ code = .error err :=
    fun ⟨code, hcode, herr⟩ => h.encode_ne_error hfits hrebound hcode err herr
  rw [build, Builder.finish_eq_error_iff, ← Bool.not_eq_true, h.isEmpty_eq_true_iff,
    h.resolveAll_eq_error_iff, ← Builder.rebound_eq_none_iff]
  simp only [Builder.rebound_eq_some_iff]
  exact or_congr_right (or_congr_right (and_congr_right fun _ =>
    and_congr_right fun hrebound => or_iff_left (hencode hrebound)))

theorem emissions_ne_nil_iff : emissions steps ≠ [] ↔ ∃ s ∈ steps, s.mark.isInstruction := by
  have h := Builder.follows_foldl_apply steps
  rw [← h.isEmpty_eq_false_iff, ← Bool.not_eq_true, h.isEmpty_eq_true_iff]

/-- What becomes of steps whose image has fewer than `2 ^ 32` bytes. There is an error if they
    emit no instruction, otherwise one for the first step that binds a label again, otherwise one
    for the first reference to a label that is never bound, and otherwise there is an image. After
    any of the steps the offset is the number of bytes of the instructions emitted so far, which
    fits in 32 bits. -/
theorem build_classifies (steps : List BuildStep) (hfits : imageSize steps < 2 ^ 32) :
    (build steps = .error .emptyCode ↔ emissions steps = []) ∧
      (∀ name, build steps = .error (.duplicateLabel name) ↔
        emissions steps ≠ [] ∧ FirstRebound steps name) ∧
      (∀ name, build steps = .error (.undefinedLabel name) ↔
        emissions steps ≠ [] ∧ (∀ other, steps.count (.label other) ≤ 1) ∧
          FirstDangling steps name) ∧
      ((∃ image, build steps = .ok image) ↔
        emissions steps ≠ [] ∧ (∀ name, steps.count (.label name) ≤ 1) ∧
          ∀ i name, .emitTo i name ∈ steps → .label name ∈ steps) ∧
      ((∃ name, FirstRebound steps name) ↔ ∃ name, 1 < steps.count (.label name)) ∧
      ((∃ name, FirstDangling steps name) ↔
        ∃ i name, .emitTo i name ∈ steps ∧ .label name ∉ steps) ∧
      ∀ before, before <+: steps →
        (before.foldl Builder.apply {}).offset =
          ((emissions before).map (·.instruction.size)).sum ∧
        (before.foldl Builder.apply {}).offset < 2 ^ 32 := by
  refine ⟨?_, fun name => ?_, fun name => ?_, ?_, ?_, exists_firstReference_iff, ?_⟩
  · simp [build_eq_error_iff hfits]
  · simp [build_eq_error_iff hfits]
  · simp [build_eq_error_iff hfits]
  · simp only [build_eq_ok_iff, exists_and_left, exists_eq, and_true]
    rw [emissions_ne_nil_iff, ← nodup_names_outline_iff]
    exact ⟨fun h => ⟨h.code, h.distinct, h.bound⟩,
      fun ⟨hcode, hdistinct, hbound⟩ => ⟨hcode, hdistinct, hbound, hfits⟩⟩
  · simp only [← Builder.rebound_eq_some_iff, ← Option.ne_none_iff_exists', ne_eq,
      Builder.rebound_eq_none_iff, not_forall, not_le]
  · rintro before hbefore
    have hoffset := (Builder.follows_foldl_apply before).positions.offset
    refine ⟨hoffset.trans (extent_outline before), ?_⟩
    have hprefix : outline before <+: outline steps := hbefore.map BuildStep.mark
    have hle := extent_le_of_prefix hprefix
    rw [imageSize] at hfits
    omega

end

/-- Two labels are bound again, the one that was bound later first, and one is never bound. -/
def reboundSteps : List BuildStep :=
  [.jump "out", .label "a", .label "b", .emit .halt, .label "b", .label "a", .label "b"]

/-- A reference forward, then two to labels that are never bound. -/
def danglingSteps : List BuildStep :=
  [.jump "in", .label "in", .line 3, .jump "out", .call "away" 0 0]

theorem build_classifies_rebound_dangling :
    imageSize reboundSteps < 2 ^ 32 ∧ build reboundSteps = .error (.duplicateLabel "b") ∧
      imageSize danglingSteps < 2 ^ 32 ∧ build danglingSteps = .error (.undefinedLabel "out") := by
  have hrebound : imageSize reboundSteps < 2 ^ 32 := by decide
  have hdangling : imageSize danglingSteps < 2 ^ 32 := by decide
  refine ⟨hrebound, ((build_classifies _ hrebound).2.1 "b").2 ⟨by decide, ?_⟩, hdangling,
    ((build_classifies _ hdangling).2.2.1 "out").2 ⟨by decide, ?_, ?_⟩⟩
  · exact ⟨reboundSteps.take 4, reboundSteps.drop 5, rfl, by decide,
      nodup_names_outline_iff.1 (by decide)⟩
  · exact nodup_names_outline_iff.1 (by decide)
  · refine ⟨danglingSteps.take 3, .jump 0, danglingSteps.drop 4, rfl, by decide, ?_⟩
    intro j other hmem
    simp only [danglingSteps, BuildStep.jump, List.take, List.mem_cons, BuildStep.emitTo.injEq,
      reduceCtorEq, List.not_mem_nil, or_false] at hmem
    obtain ⟨-, rfl⟩ := hmem
    decide

end StackMachine
