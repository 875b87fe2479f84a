import Mathlib.Data.List.Destutter
import Mathlib.Data.List.Sort
import StackMachine.Image.Program
import StackMachine.Proofs.Bytes.Slice
import StackMachine.Proofs.Instruction.Codec

/-!
# Reading code and source lines back

The instructions of a code section are read back from their bytes, each at the offset that the
sizes of those before it add up to, and from no other bytes. Source lines are read back too, if
their offsets ascend.

* `codeSize`, `placeCode`: the number of bytes of instructions, and the instructions with their
  offsets;
* `getElem?_placeCode`, `pairwise_placeCode`, `codeSize_take_lt`: what these offsets are, and that
  they ascend;
* `decodeCode_eq_ok_iff`, `decodeCode_eq_error_iff`: the code section, and where it is none;
* `LineEntry.sort_eq`, `LineEntry.dedup_eq`: the sorting of source lines, and what is dropped then;
* `LineEntry.decodeAll_flatMap_encode`: the debug section.
-/

namespace StackMachine

open Bytes

/-- The number of bytes of instructions that follow each other. -/
def codeSize (code : List Instruction) : Nat :=
  (code.map Instruction.size).sum

/-- Instructions that follow each other, the first one at `offset`. -/
def placeCode (offset : Nat) : List Instruction → List Placed
  | [] => []
  | i :: code => ⟨offset, i⟩ :: placeCode (offset + i.size) code

@[simp] theorem codeSize_cons (i : Instruction) (code : List Instruction) :
    codeSize (i :: code) = i.size + codeSize code := by
  rw [codeSize, List.map_cons, List.sum_cons, codeSize]

@[simp] theorem codeSize_append (code code' : List Instruction) :
    codeSize (code ++ code') = codeSize code + codeSize code' := by
  rw [codeSize, List.map_append, List.sum_append, codeSize, codeSize]

theorem codeSize_replicate (n : Nat) (i : Instruction) :
    codeSize (List.replicate n i) = n * i.size := by
  rw [codeSize, List.map_replicate, List.sum_replicate_nat]

/-- Every instruction has a size, so longer parts of the code are larger. -/
theorem codeSize_take_lt {code : List Instruction} {a b : Nat} (hab : a < b)
    (ha : a < code.length) : codeSize (code.take a) < codeSize (code.take b) := by
  induction code generalizing a b with
  | nil => cases ha
  | cons i code ih =>
    obtain ⟨b, rfl⟩ := Nat.exists_eq_add_one_of_ne_zero (Nat.ne_zero_of_lt hab)
    rw [List.take_succ_cons, codeSize_cons]
    cases a with
    | zero => exact Nat.lt_of_lt_of_le i.size_pos (Nat.le_add_right _ _)
    | succ a =>
      rw [List.take_succ_cons, codeSize_cons]
      exact Nat.add_lt_add_left (ih (Nat.lt_of_succ_lt_succ hab) (Nat.lt_of_succ_lt_succ ha)) _

theorem codeSize_take_succ {code : List Instruction} {i : Nat} (hi : i < code.length) :
    codeSize (code.take (i + 1)) = codeSize (code.take i) + code[i].size := by
  rw [List.take_succ_eq_append_getElem hi, codeSize_append]
  rfl

theorem le_of_codeSize_take_le {code : List Instruction} {a b : Nat} (ha : a ≤ code.length)
    (h : codeSize (code.take a) ≤ codeSize (code.take b)) : a ≤ b :=
  Nat.le_of_not_lt fun hlt =>
    Nat.not_lt_of_le h (codeSize_take_lt hlt (Nat.lt_of_lt_of_le hlt ha))

@[simp] theorem length_flatMap_encode (code : List Instruction) :
    (code.flatMap Instruction.encode).length = codeSize code := by
  induction code with
  | nil => rfl
  | cons i code ih =>
    rw [List.flatMap_cons, List.length_append, Instruction.length_encode, ih, codeSize_cons]

theorem flatMap_encode_ne_nil {code : List Instruction} (h : code ≠ []) :
    code.flatMap Instruction.encode ≠ [] := by
  obtain ⟨i, code, rfl⟩ := List.exists_cons_of_ne_nil h
  rw [List.flatMap_cons, Instruction.encode]
  exact List.cons_ne_nil _ _

/-- What is left of the bytes after some of the instructions. -/
theorem drop_flatMap_encode (code : List Instruction) (k : Nat) :
    (code.flatMap Instruction.encode).drop (codeSize (code.take k)) =
      (code.drop k).flatMap Instruction.encode := by
  have hsplit : code.flatMap Instruction.encode =
      (code.take k).flatMap Instruction.encode ++ (code.drop k).flatMap Instruction.encode := by
    rw [← List.flatMap_append, List.take_append_drop]
  rw [hsplit]
  exact List.drop_left' (length_flatMap_encode _)

@[simp] theorem map_instruction_placeCode (offset : Nat) (code : List Instruction) :
    (placeCode offset code).map (·.instruction) = code := by
  induction code generalizing offset with
  | nil => rfl
  | cons i code ih => rw [placeCode, List.map_cons, ih]

/-- An instruction in front is read, and then those after it. -/
theorem decodeCode_encode_append (offset : Nat) (i : Instruction) (rest : List UInt8) :
    decodeCode offset (i.encode ++ rest) =
      (decodeCode (offset + i.size) rest).map (⟨offset, i⟩ :: ·) := by
  have hdecode := i.decode_encode_append rest
  have hdrop : (i.encode ++ rest).drop i.size = rest := List.drop_left' i.length_encode
  -- there is a first byte, that of the opcode
  rw [Instruction.encode, List.cons_append] at hdecode hdrop ⊢
  rw [decodeCode]
  simp only [hdecode, hdrop]
  cases decodeCode (offset + i.size) rest <;> rfl

/-- The instructions of a code section are read back. -/
theorem decodeCode_flatMap_encode (offset : Nat) (code : List Instruction) :
    decodeCode offset (code.flatMap Instruction.encode) = .ok (placeCode offset code) := by
  induction code generalizing offset with
  | nil =>
    rw [List.flatMap_nil, decodeCode]
    rfl
  | cons i code ih =>
    rw [List.flatMap_cons, decodeCode_encode_append, ih]
    rfl

/-- Code is read only from bytes that are put together from encodings. -/
theorem decodeCode_eq_ok_iff {offset : Nat} {bs : List UInt8} {placed : List Placed} :
    decodeCode offset bs = .ok placed ↔
      ∃ code, code.flatMap Instruction.encode = bs ∧ placed = placeCode offset code := by
  constructor
  · intro h
    fun_induction decodeCode offset bs generalizing placed with
    | case1 offset =>
      cases h
      exact ⟨[], rfl, rfl⟩
    | case2 => cases h
    | case3 => cases h
    | case4 offset b rest i hdecode placed hrest ih =>
      cases h
      obtain ⟨code, hcode, rfl⟩ := ih hrest
      have hstart := List.prefix_iff_eq_append.1 (Instruction.decode_eq_ok_iff.1 hdecode)
      rw [Instruction.length_encode, ← hcode] at hstart
      exact ⟨i :: code, hstart, rfl⟩
  · rintro ⟨code, rfl, rfl⟩
    exact decodeCode_flatMap_encode offset code

/-- Reading stops at the first bytes that are no instruction, after those that are. -/
theorem decodeCode_eq_error_iff {offset : Nat} {bs : List UInt8} {err : LoadError} :
    decodeCode offset bs = .error err ↔
      ∃ code rest reason, bs = code.flatMap Instruction.encode ++ rest ∧ rest ≠ [] ∧
        Instruction.decode rest = .error reason ∧
        err = .malformedCode (offset + codeSize code) reason := by
  constructor
  · intro h
    fun_induction decodeCode offset bs generalizing err with
    | case1 => cases h
    | case2 offset b rest reason hdecode =>
      cases h
      exact ⟨[], b :: rest, reason, rfl, nofun, hdecode, rfl⟩
    | case3 offset b rest i hdecode err hrest ih =>
      cases h
      obtain ⟨code, rest', reason, hcode, hne, hreason, rfl⟩ := ih hrest
      have hstart := List.prefix_iff_eq_append.1 (Instruction.decode_eq_ok_iff.1 hdecode)
      rw [Instruction.length_encode, hcode] at hstart
      refine ⟨i :: code, rest', reason, ?_, hne, hreason, ?_⟩
      · rw [List.flatMap_cons, List.append_assoc, hstart]
      · rw [codeSize_cons, Nat.add_assoc]
    | case4 => cases h
  · rintro ⟨code, rest, reason, rfl, hne, hreason, rfl⟩
    induction code generalizing offset with
    | nil =>
      obtain ⟨b, rest, rfl⟩ := List.exists_cons_of_ne_nil hne
      rw [List.flatMap_nil, List.nil_append, decodeCode]
      simp only [hreason]
      rfl
    | cons i code ih =>
      rw [List.flatMap_cons, List.append_assoc, decodeCode_encode_append, ih, codeSize_cons,
        Nat.add_assoc]
      rfl

/-- The offset of an instruction is the number of bytes of those before it. -/
theorem getElem?_placeCode (offset : Nat) (code : List Instruction) (i : Nat) :
    (placeCode offset code)[i]? = code[i]?.map (⟨offset + codeSize (code.take i), ·⟩) := by
  induction code generalizing offset i with
  | nil => rfl
  | cons j code ih =>
    cases i with
    | zero => rfl
    | succ i =>
      rw [placeCode, List.getElem?_cons_succ, ih, List.getElem?_cons_succ, List.take_succ_cons,
        codeSize_cons, Nat.add_assoc]

theorem bounds_of_mem_placeCode {offset : Nat} {code : List Instruction} {i : Placed}
    (h : i ∈ placeCode offset code) : offset ≤ i.offset ∧ i.offset < offset + codeSize code := by
  induction code generalizing offset with
  | nil => cases h
  | cons j code ih =>
    have hpos := j.size_pos
    rw [codeSize_cons]
    rcases List.mem_cons.1 h with rfl | h
    · exact ⟨Nat.le_refl _, Nat.lt_add_of_pos_right (by omega)⟩
    · have := ih h
      omega

/-- The offsets ascend. -/
theorem pairwise_placeCode (offset : Nat) (code : List Instruction) :
    (placeCode offset code).Pairwise fun i j => i.offset < j.offset := by
  induction code generalizing offset with
  | nil => exact .nil
  | cons j code ih =>
    refine .cons (fun i hi => ?_) (ih _)
    have hpos := j.size_pos
    have := (bounds_of_mem_placeCode hi).1
    dsimp only
    omega

namespace LineEntry

theorem words32_flatMap_encode (lines : List LineEntry) :
    ofWords (words32 (lines.flatMap encode)) = lines := by
  induction lines with
  | nil => rfl
  | cons e lines ih =>
    rw [List.flatMap_cons, encode, List.append_assoc, words32_word_append, words32_word_append,
      ofWords, ih]

/-- The order by offset. -/
def ByOffset (d e : LineEntry) : Prop :=
  d.offset ≤ e.offset

instance : DecidableRel ByOffset := fun d e => inferInstanceAs (Decidable (d.offset ≤ e.offset))

instance : Std.Total ByOffset := ⟨fun _ _ => UInt32.le_total _ _⟩

instance : IsTrans LineEntry ByOffset := ⟨fun _ _ _ => UInt32.le_trans⟩

theorem insert_eq (e : LineEntry) (es : List LineEntry) :
    insert e es = es.orderedInsert ByOffset e := by
  induction es with
  | nil => rfl
  | cons d es ih =>
    rw [insert, List.orderedInsert_cons, ih]
    rfl

theorem sort_eq (es : List LineEntry) : sort es = es.insertionSort ByOffset := by
  induction es with
  | nil => rfl
  | cons e es ih => rw [sort, List.foldr_cons, ← sort, List.insertionSort_cons, ih, insert_eq]

theorem dedupFrom_eq (e : LineEntry) (es : List LineEntry) :
    dedupFrom e es = es.destutter' (·.offset ≠ ·.offset) e := by
  induction es generalizing e with
  | nil => rfl
  | cons d es ih =>
    rw [dedupFrom, List.destutter'_cons, ih, ih, ite_not]
    simp only [eq_comm]

theorem dedup_eq (es : List LineEntry) : dedup es = es.destutter (·.offset ≠ ·.offset) := by
  cases es with
  | nil => rfl
  | cons e es => exact dedupFrom_eq e es

/-- Entries with ascending offsets are left as they are. -/
theorem sort_eq_self {lines : List LineEntry} (h : lines.Pairwise fun d e => d.offset < e.offset) :
    sort lines = lines := by
  rw [sort_eq]
  exact List.Pairwise.insertionSort_eq (h.imp UInt32.le_of_lt)

theorem dedup_eq_self {lines : List LineEntry} (h : lines.Pairwise fun d e => d.offset < e.offset) :
    dedup lines = lines := by
  rw [dedup_eq]
  exact List.destutter_of_isChain _ _ (h.imp UInt32.ne_of_lt).isChain

/-- Source lines are read back if their offsets ascend. -/
theorem decodeAll_flatMap_encode {lines : List LineEntry}
    (h : lines.Pairwise fun d e => d.offset < e.offset) :
    decodeAll (lines.flatMap encode) = lines := by
  rw [decodeAll, words32_flatMap_encode, sort_eq_self h, dedup_eq_self h]

@[simp] theorem length_flatMap_encode (lines : List LineEntry) :
    (lines.flatMap encode).length = 8 * lines.length := by
  induction lines with
  | nil => rfl
  | cons e lines ih =>
    rw [List.flatMap_cons, List.length_append, ih, encode, List.length_append, length_word,
      length_word, List.length_cons]
    omega

end LineEntry

end StackMachine
