import StackMachine.Instruction.Text
import StackMachine.Proofs.Assembly.Elements
import StackMachine.Proofs.Number.Text

/-!
# Instructions read back from their text

The text of an instruction is read as the step that emits it. Where it goes to is written as a
label, and all offsets have labels of their own.

* `labelName_inj`, `isLabel_labelName`: the labels of places;
* `Instruction.step`: the step that emits an instruction;
* `Instruction.readStatement_wordsOf`: the step that its text is read as.
-/

namespace StackMachine

open Text Assembly

/-! ## Labels -/

theorem toList_labelName (offset : Nat) :
    (labelName offset).toList = 'L' :: padLeft 4 '0' (digits offset) := by
  rw [labelName, offsetDigits, String.toList_append, String.toList_ofList, String.toList_ofList]
  rfl

theorem forall_isDigit_offsetDigits (offset : Nat) :
    ∀ c ∈ (offsetDigits offset).toList, c.isDigit = true := by
  rw [offsetDigits, String.toList_ofList, padLeft]
  refine List.forall_mem_append.2 ⟨fun c hc => ?_, forall_isDigit_digits offset⟩
  rw [List.eq_of_mem_replicate hc]
  rfl

/-- Different places have different labels. -/
theorem labelName_inj {m n : Nat} (h : labelName m = labelName n) : m = n := by
  have hdigits := congrArg (digitsValue ∘ List.tail ∘ String.toList) h
  simp only [Function.comp, toList_labelName, List.tail_cons, padLeft,
    digitsValue_replicate_append, digitsValue_digits] at hdigits
  exact hdigits

theorem isWord_labelName (offset : Nat) : IsWord (labelName offset).toList := by
  have hdigits := forall_isDigit_offsetDigits offset
  rw [offsetDigits, String.toList_ofList] at hdigits
  rw [toList_labelName]
  exact ⟨List.cons_ne_nil _ _,
    List.forall_mem_cons.2 ⟨rfl, fun c hc => isPlain_of_isDigit (hdigits c hc)⟩⟩

theorem isLabel_labelName (offset : Nat) : isLabel (labelName offset).toList = true := by
  have hdigits := forall_isDigit_offsetDigits offset
  rw [offsetDigits, String.toList_ofList] at hdigits
  rw [toList_labelName, isLabel, List.all_eq_true.2]
  · rfl
  · intro c hc
    simp [Char.isAlphanum, hdigits c hc]

/-! ## Words -/

/-- A mnemonic is a word, and it is not read as the name of a directive. -/
theorem Opcode.isWord_mnemonic (op : Opcode) :
    IsWord op.mnemonic.toList ∧ op.mnemonic.toList.head? ≠ some '.' := by
  have h : ∀ op ∈ all, IsWord op.mnemonic.toList ∧ op.mnemonic.toList.head? ≠ some '.' := by
    decide
  exact h op op.mem_all

namespace Instruction

/-- The step that emits an instruction: a place that it goes to is given by its label. -/
def step (i : Instruction) : BuildStep :=
  match i.target? with
  | none => .emit i
  | some target => .emitTo (i.withTarget 0) (labelName target.toNat)

theorem isWord_of_mem_operandTexts {i : Instruction} :
    ∀ w ∈ i.operandTexts.map String.toList, IsWord w := by
  have hdecimal (n : Nat) : IsWord (decimal n).toList := by
    rw [decimal, String.toList_ofList]
    exact isWord_digits n
  have hsingle {w : String} (hw : IsWord w.toList) : ∀ w' ∈ [w].map String.toList, IsWord w' :=
    List.forall_mem_singleton.2 hw
  cases i with
  | pushInt n =>
    refine hsingle ?_
    rw [decimalInt, String.toList_ofList]
    exact isWord_integerDigits n.toInt
  | pushFloat x => exact hsingle (Value.isWord_displayFloat x)
  | pushConst index => exact hsingle (hdecimal index.toNat)
  | load slot | store slot => exact hsingle (hdecimal slot.toNat)
  | jump target | jumpIfFalse target | jumpIfTrue target =>
    exact hsingle (isWord_labelName target.toNat)
  | call target argc locals =>
    exact List.forall_mem_cons.2 ⟨isWord_labelName target.toNat,
      List.forall_mem_cons.2 ⟨hdecimal argc.toNat, hsingle (hdecimal locals.toNat)⟩⟩
  | _ => exact List.forall_mem_nil _

/-- All words of the text of an instruction. -/
def wordsOf (i : Instruction) : List (List Char) :=
  i.opcode.mnemonic.toList :: i.operandTexts.map String.toList

theorem toList_display (i : Instruction) : i.display.toList = [' '].intercalate i.wordsOf := by
  rw [display, String.toList_intercalate, List.map_cons]
  rfl

theorem isWord_of_mem_wordsOf (i : Instruction) : ∀ w ∈ i.wordsOf, IsWord w :=
  List.forall_mem_cons.2 ⟨i.opcode.isWord_mnemonic.1, isWord_of_mem_operandTexts⟩

theorem isPlain_or_eq_of_mem_display (i : Instruction) :
    ∀ c ∈ i.display.toList, isPlain c = true ∨ c = ' ' := by
  rw [toList_display]
  exact isPlain_or_eq_of_mem_intercalate i.isWord_of_mem_wordsOf

/-- The text of an instruction holds no marks. -/
theorem not_mem_display (i : Instruction) {c : Char} (hc : isPlain c = false) (hblank : c ≠ ' ') :
    c ∉ i.display.toList := fun hmem => by
  rcases i.isPlain_or_eq_of_mem_display c hmem with h | h
  · rw [h] at hc
    cases hc
  · exact hblank h

theorem words_display (i : Instruction) : words i.display.toList = i.wordsOf := by
  rw [toList_display, words_intercalate_of_isWord i.isWord_of_mem_wordsOf]

theorem readReference_labelName (i : Instruction) (target : UInt32) :
    readReference i (labelName target.toNat).toList =
      .ok (.emitTo i (labelName target.toNat)) := by
  rw [readReference, if_pos (isLabel_labelName _), String.ofList_toList]

/-- The operands of an instruction are read back. -/
theorem readOperands_operandTexts (i : Instruction)
    (hfloat : ∀ x, i = .pushFloat x → x.isNaN = false) :
    readOperands i.opcode (i.operandTexts.map String.toList) = .ok i.step := by
  have hdecimal (bound : Nat) {n : Nat} (h : n < bound) :
      readOperand (unsigned? bound) (decimal n).toList = .ok n := by
    rw [decimal, String.toList_ofList]
    exact readOperand_eq_ok_iff.2 (unsigned?_digits h)
  cases i with
  | pushInt n =>
    refine map_eq_ok_iff.2 ⟨n, ?_, rfl⟩
    rw [decimalInt, String.toList_ofList]
    exact readOperand_eq_ok_iff.2 (signed?_integerDigits n)
  | pushFloat x =>
    have hread := Value.read?_displayFloat (hfloat x rfl)
    exact map_eq_ok_iff.2 ⟨x, readOperand_eq_ok_iff.2 hread, rfl⟩
  | pushConst index =>
    refine map_eq_ok_iff.2 ⟨_, hdecimal _ index.toNat_lt, ?_⟩
    rw [UInt32.ofNat_toNat]
    rfl
  | load slot | store slot =>
    refine map_eq_ok_iff.2 ⟨_, hdecimal _ slot.toNat_lt, ?_⟩
    rw [UInt16.ofNat_toNat]
    rfl
  | jump target | jumpIfFalse target | jumpIfTrue target => exact readReference_labelName _ target
  | call target argc locals =>
    have hargc := hdecimal UInt8.size argc.toNat_lt
    have hlocals := hdecimal UInt16.size locals.toNat_lt
    simp only [operandTexts, opcode, List.map_cons, List.map_nil, readOperands, hargc, hlocals,
      UInt8.ofNat_toNat, UInt16.ofNat_toNat]
    exact readReference_labelName _ target
  | _ => rfl

/-- The text of an instruction is read as the step that emits it. -/
theorem readStatement_wordsOf (i : Instruction)
    (hfloat : ∀ x, i = .pushFloat x → x.isNaN = false) :
    readStatement i.wordsOf = .ok (some i.step) := by
  obtain ⟨-, hhead⟩ := i.opcode.isWord_mnemonic
  have hcount : (i.operandTexts.map String.toList).length = i.opcode.operandCount := by
    cases i <;> rfl
  simp only [wordsOf, readStatement, if_neg hhead, String.ofList_toList,
    Opcode.ofMnemonic?_mnemonic, readInstruction, if_pos hcount, readOperands_operandTexts i hfloat]
  rfl

end Instruction

end StackMachine
