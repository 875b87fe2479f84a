import Mathlib.Algebra.Ring.Nat
import Mathlib.Data.List.DropRight
import Mathlib.Data.List.Induction
import Mathlib.Data.List.TakeWhile
import StackMachine.Image.Program

/-!
# Outlines of programs

Where labels and source lines end up in the code depends only on the opcodes of the instructions
and on the order in which instructions, labels and lines are given. An outline is a list of these
marks. What it says of a place is said by looking at all marks before it, without a running total.

* `Outline.place`: the offset that a label stands for;
* `Outline.waiting`: the source line of the next instruction, if there is one;
* `Outline.recorded`: the source lines of all instructions;
* `pairwise_recorded`: their offsets ascend.
-/

namespace StackMachine

/-- What is given to a builder, as far as places in the code depend on it. -/
inductive Mark
  | instruction (op : Opcode)
  | label (name : String)
  | line (line : UInt32)
  | other
deriving DecidableEq

namespace Mark

/-- The number of bytes in the code. -/
def size : Mark → Nat
  | instruction op => op.size
  | _ => 0

def isInstruction : Mark → Bool
  | instruction _ => true
  | _ => false

def label? : Mark → Option String
  | label name => some name
  | _ => none

def line? : Mark → Option UInt32
  | line n => some n
  | _ => none

theorem size_pos {mark : Mark} (h : mark.isInstruction) : 0 < mark.size := by
  cases mark with
  | instruction op =>
    rw [size, Opcode.size]
    omega
  | label | line | other => cases h

theorem size_eq_zero {mark : Mark} (h : mark.isInstruction = false) : mark.size = 0 := by
  cases mark with
  | instruction => cases h
  | label | line | other => rfl

end Mark

namespace Outline

/-- The number of bytes of all instructions. -/
def extent (marks : List Mark) : Nat :=
  (marks.map Mark.size).sum

/-- The names of all labels. -/
def names (marks : List Mark) : List String :=
  marks.filterMap Mark.label?

/-- The number of bytes of all instructions before a label. -/
def place (marks : List Mark) (name : String) : Nat :=
  extent (marks.takeWhile (· ≠ .label name))

/-- The last source line since the last instruction. -/
def waiting (marks : List Mark) : Option UInt32 :=
  ((marks.rtakeWhile (!·.isInstruction)).filterMap Mark.line?).getLast?

/-- The source line of an instruction that comes after `marks`, if it has one. -/
def lineAfter? (marks : List Mark) : Option LineEntry :=
  (waiting marks).map fun line => ⟨UInt32.ofNat (extent marks), line⟩

/-- The source lines of all instructions that have one. -/
def recorded (marks : List Mark) : List LineEntry :=
  (List.range marks.length).filterMap fun i =>
    if marks[i]?.any Mark.isInstruction then lineAfter? (marks.take i) else none

variable {marks : List Mark} {mark : Mark} {name : String}

@[simp] theorem extent_append (marks marks' : List Mark) :
    extent (marks ++ marks') = extent marks + extent marks' := by
  rw [extent, List.map_append, List.sum_append, extent, extent]

@[simp] theorem extent_singleton (mark : Mark) : extent [mark] = mark.size :=
  Nat.add_zero _

theorem extent_le_of_prefix {marks marks' : List Mark} (h : marks <+: marks') :
    extent marks ≤ extent marks' := by
  obtain ⟨rest, rfl⟩ := h
  rw [extent_append]
  exact Nat.le_add_right _ _

theorem mem_names : name ∈ names marks ↔ .label name ∈ marks := by
  rw [names, List.mem_filterMap]
  constructor
  · rintro ⟨mark, hmark, hname⟩
    cases mark <;> cases hname
    exact hmark
  · exact fun h => ⟨_, h, rfl⟩

@[simp] theorem names_append (marks marks' : List Mark) :
    names (marks ++ marks') = names marks ++ names marks' :=
  List.filterMap_append

theorem place_le_extent (marks : List Mark) (name : String) :
    place marks name ≤ extent marks :=
  extent_le_of_prefix (List.takeWhile_prefix _)

/-- What comes after a label does not change its place. -/
theorem place_append_of_mem (h : name ∈ names marks) (marks' : List Mark) :
    place (marks ++ marks') name = place marks name := by
  have hfound : (marks.takeWhile (· ≠ .label name)).length ≠ marks.length := by
    intro hlen
    have hall := (List.takeWhile_prefix (· ≠ Mark.label name) (l := marks)).eq_of_length hlen
    have := List.takeWhile_eq_self_iff.1 hall _ (mem_names.1 h)
    simp at this
  rw [place, List.takeWhile_append, if_neg hfound, place]

/-- What comes before a label counts for its place. -/
theorem place_append_of_not_mem (h : name ∉ names marks) (marks' : List Mark) :
    place (marks ++ marks') name = extent marks + place marks' name := by
  have hall : marks.takeWhile (· ≠ .label name) = marks := by
    refine List.takeWhile_eq_self_iff.2 fun mark hmark => decide_eq_true ?_
    rintro rfl
    exact h (mem_names.2 hmark)
  rw [place, List.takeWhile_append, if_pos (congrArg List.length hall), extent_append, place]

theorem place_label_cons (name : String) (marks : List Mark) :
    place (.label name :: marks) name = 0 := by
  rw [place, List.takeWhile_cons_of_neg (by simp)]
  rfl

/-- A new label is bound to the end. -/
theorem place_append_label (h : name ∉ names marks) :
    place (marks ++ [.label name]) name = extent marks := by
  rw [place_append_of_not_mem h, place_label_cons, Nat.add_zero]

/-! ## Source lines -/

theorem waiting_append_instruction (marks : List Mark) (h : mark.isInstruction) :
    waiting (marks ++ [mark]) = none := by
  rw [waiting, List.rtakeWhile_concat_neg _ _ _ (by simp [h]), List.filterMap_nil,
    List.getLast?_nil]

theorem waiting_append_of_not (marks : List Mark) (h : mark.isInstruction = false) :
    waiting (marks ++ [mark]) = mark.line?.or (waiting marks) := by
  rw [waiting, List.rtakeWhile_concat_pos _ _ _ (by simp [h]), List.filterMap_append,
    List.getLast?_append, waiting]
  cases mark <;> rfl

@[simp] theorem recorded_append_singleton (marks : List Mark) (mark : Mark) :
    recorded (marks ++ [mark]) =
      recorded marks ++ if mark.isInstruction then (lineAfter? marks).toList else [] := by
  have hbefore : (List.range marks.length).filterMap (fun i =>
      if (marks ++ [mark])[i]?.any Mark.isInstruction then
        lineAfter? ((marks ++ [mark]).take i) else none) = recorded marks := by
    refine List.filterMap_congr fun i hi => ?_
    have hi : i < marks.length := List.mem_range.1 hi
    rw [List.getElem?_append_left hi, List.take_append_of_le_length (Nat.le_of_lt hi)]
  rw [recorded, List.length_append, List.length_singleton, List.range_succ,
    List.filterMap_append, hbefore]
  cases hmark : mark.isInstruction <;> cases hline : lineAfter? marks <;> simp [hmark, hline]

/-- Without source lines there are none to record. -/
theorem recorded_eq_nil (h : ∀ mark ∈ marks, mark.line? = none) : recorded marks = [] := by
  induction marks using List.reverseRecOn with
  | nil => rfl
  | append_singleton marks mark ih =>
    obtain ⟨hmarks, -⟩ := List.forall_mem_append.1 h
    have hwaiting : waiting marks = none := by
      have hnone : (marks.rtakeWhile (!·.isInstruction)).filterMap Mark.line? = [] :=
        List.filterMap_eq_nil_iff.2 fun mark hmark =>
          hmarks mark ((List.rtakeWhile_suffix _ _).subset hmark)
      rw [waiting, hnone, List.getLast?_nil]
    rw [recorded_append_singleton, ih hmarks, lineAfter?, hwaiting]
    cases mark.isInstruction <;> rfl

/-- The offset of a source line is that of an instruction. -/
theorem lt_extent_of_mem_recorded {e : LineEntry} (he : e ∈ recorded marks)
    (hfits : extent marks < 2 ^ 32) : e.offset.toNat < extent marks := by
  induction marks using List.reverseRecOn with
  | nil => cases he
  | append_singleton marks mark ih =>
    rw [extent_append, extent_singleton] at hfits ⊢
    rw [recorded_append_singleton, List.mem_append] at he
    rcases he with he | he
    · exact Nat.lt_add_right _ (ih he (by omega))
    · split at he
      · rename_i hmark
        have hsize := Mark.size_pos hmark
        obtain ⟨line, -, rfl⟩ := Option.map_eq_some_iff.1 (Option.mem_toList.1 he)
        rw [UInt32.toNat_ofNat', Nat.mod_eq_of_lt (by omega)]
        omega
      · cases he

/-- The offsets of the source lines ascend. -/
theorem pairwise_recorded (hfits : extent marks < 2 ^ 32) :
    (recorded marks).Pairwise fun d e => d.offset < e.offset := by
  induction marks using List.reverseRecOn with
  | nil => exact .nil
  | append_singleton marks mark ih =>
    rw [extent_append, extent_singleton] at hfits
    rw [recorded_append_singleton]
    refine List.pairwise_append.2 ⟨ih (by omega), ?_, fun d hd e he => ?_⟩
    · split
      · cases lineAfter? marks <;> simp
      · exact .nil
    · split at he
      · -- a new entry is at the end of the instructions that the others belong to
        obtain ⟨line, -, rfl⟩ := Option.map_eq_some_iff.1 (Option.mem_toList.1 he)
        rw [UInt32.lt_iff_toNat_lt, UInt32.toNat_ofNat', Nat.mod_eq_of_lt (by omega)]
        exact lt_extent_of_mem_recorded hd (by omega)
      · cases he

end Outline

end StackMachine
