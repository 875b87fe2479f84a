import Mathlib.Data.List.Forall2
import StackMachine.Assembly.Assembler
import StackMachine.Proofs.Text.Blank

/-!
# The elements of an assembly text

A text is a sequence of labels and statements, each line having at most one of both, the label
first. If an assembly text is read at all, then each of its elements has become one build step.

* `Assembly.elements`: the labels and statements of a text, whether they are right or not;
* `Assembly.Reads`: the step that an element is read as;
* `readLines_reads`: reading a text reads its elements.
-/

namespace StackMachine

open Text

namespace Assembly

open AssemblyError (Reason)

/-- A label or a statement, this being a directive or an instruction. -/
inductive Element
  | label (name : List Char)
  /-- The first word of a statement and those after it. -/
  | statement (head : List Char) (args : List (List Char))

/-- The statement with the given words, if there are any. -/
def statementOf : List (List Char) → List Element
  | [] => []
  | head :: args => [.statement head args]

/-- The elements of a line: what comes before a colon is a label. -/
def lineElements (line : List Char) : List Element :=
  match cutAt ':' (code line) with
  | (_, none) => statementOf (words (code line))
  | (name, some rest) => .label (trim name) :: statementOf (words rest)

/-- The elements of a text. -/
def elements (source : String) : List Element :=
  (lines source.toList).flatMap lineElements

/-- What the elements are read as. -/
inductive Reads : Element → BuildStep → Prop
  | label (name : List Char) : Reads (.label name) (.label (String.ofList name))
  | const {text : List Char} {v : Value} (h : Value.read? text = some v) :
    Reads (.statement ".const".toList [text]) (.constant v)
  | line {text : List Char} {n : Nat} (h : unsigned? UInt32.size text = some n) :
    Reads (.statement ".line".toList [text]) (.line (UInt32.ofNat n))
  | instruction {head : List Char} {args : List (List Char)} {op : Opcode} {step : BuildStep}
    (hhead : head.head? ≠ some '.') (hop : Opcode.ofMnemonic? (String.ofList head) = some op)
    (h : readInstruction op args = .ok step) : Reads (.statement head args) step

theorem map_eq_ok_iff {ε α β : Type} {f : α → β} {x : Except ε α} {b : β} :
    x.map f = .ok b ↔ ∃ a, x = .ok a ∧ f a = b := by
  cases x <;> simp [Except.map]

theorem readOperand_eq_ok_iff {α : Type} {reader? : List Char → Option α} {text : List Char}
    {a : α} : readOperand reader? text = .ok a ↔ reader? text = some a := by
  rw [readOperand]
  cases reader? text <;> simp

theorem readDirective_reads {head : List Char} {args : List (List Char)} {step : BuildStep}
    (h : readDirective (String.ofList head) args = .ok step) :
    Reads (.statement head args) step := by
  have hhead {name : String} (hname : String.ofList head = name) : head = name.toList := by
    rw [← hname, String.toList_ofList]
  unfold readDirective at h
  split at h
  · rename_i hname
    rw [hhead hname]
    split at h
    · rename_i text
      obtain ⟨v, hv, rfl⟩ := map_eq_ok_iff.1 h
      refine .const ?_
      rw [readLiteral] at hv
      split at hv <;> cases hv
      assumption
    · cases h
  split at h
  · rename_i hname
    rw [hhead hname]
    split at h
    · obtain ⟨n, hn, rfl⟩ := map_eq_ok_iff.1 h
      exact .line (readOperand_eq_ok_iff.1 hn)
    · cases h
  · cases h

/-- Words that are read, if there are any, are a statement that is read. -/
theorem readStatement_reads {ws : List (List Char)} {statement : Option BuildStep}
    (h : readStatement ws = .ok statement) :
    List.Forall₂ Reads (statementOf ws) statement.toList := by
  unfold readStatement at h
  split at h
  · cases h
    exact .nil
  rename_i head args
  simp only at h
  split at h
  · obtain ⟨step, hstep, rfl⟩ := map_eq_ok_iff.1 h
    exact .cons (readDirective_reads hstep) .nil
  rename_i hhead
  split at h
  · cases h
  rename_i op hop
  obtain ⟨step, hstep, rfl⟩ := map_eq_ok_iff.1 h
  exact .cons (.instruction hhead hop hstep) .nil

/-- The label of a line is what comes before a colon. -/
theorem splitLabel_eq_ok {code rest : List Char} {label : Option String}
    (h : splitLabel code = .ok (label, rest)) :
    (∃ name, cutAt ':' code = (name, none) ∧ label = none ∧ rest = code) ∨
      ∃ name after, cutAt ':' code = (name, some after) ∧
        label = some (String.ofList (trim name)) ∧ rest = trim after := by
  rw [splitLabel] at h
  split at h
  · rename_i name hcut
    cases h
    exact .inl ⟨name, hcut, rfl, rfl⟩
  · rename_i name after hcut
    simp only at h
    split at h <;> cases h
    exact .inr ⟨name, after, hcut, rfl, rfl⟩

theorem readLine_reads {defined : List String} {line : List Char} {steps : List BuildStep}
    (h : readLine defined line = .ok steps) : List.Forall₂ Reads (lineElements line) steps := by
  rw [readLine] at h
  split at h
  · cases h
  rename_i label rest hsplit
  split at h
  · cases h
  rename_i definition hdefinition
  split at h <;> cases h
  rename_i statement hstatement
  have hreads := readStatement_reads hstatement
  rw [lineElements]
  rcases splitLabel_eq_ok hsplit with ⟨name, hcut, rfl, rfl⟩ | ⟨name, after, hcut, rfl, rfl⟩
  · cases hdefinition
    rw [hcut]
    exact hreads
  · rw [defineLabel] at hdefinition
    split at hdefinition <;> cases hdefinition
    rw [words_trim] at hreads
    rw [hcut]
    exact .cons (.label _) hreads

/-- Each element of a text that is read has become one step. -/
theorem readLines_reads {defined : List String} {number : Nat} {ls : List (List Char)}
    {numbered : List NumberedStep} (h : readLines defined number ls = .ok numbered) :
    List.Forall₂ Reads (ls.flatMap lineElements) (numbered.map (·.step)) := by
  induction ls generalizing defined number numbered with
  | nil =>
    cases h
    exact .nil
  | cons line ls ih =>
    rw [readLines] at h
    split at h
    · cases h
    rename_i steps hline
    split at h <;> cases h
    rename_i later hlater
    rw [List.flatMap_cons, List.map_append, List.map_map]
    refine List.rel_append ?_ (ih hlater)
    have hmap : steps.map ((·.step) ∘ (⟨number, ·⟩ : BuildStep → NumberedStep)) = steps :=
      List.map_id steps
    rw [hmap]
    exact readLine_reads hline

end Assembly

end StackMachine
