import StackMachine.Instruction.Codec
import StackMachine.Proofs.Bytes.Word

/-!
# Reading instructions back

An instruction is read back from its bytes, whatever comes after them, and from no other bytes. When
nothing is read, the error says whether the opcode or the operands are missing.

* `Instruction.decode_encode_append`, `Instruction.decode_eq_ok_iff`: which bytes are read as an
  instruction;
* `Instruction.decode_eq_unknownOpcode_iff`, `Instruction.decode_eq_truncated_iff`: which bytes are
  not, and why;
* `Instruction.eq_of_encode_prefix`: no encoding starts another one;
* `Instruction.decode_inverts_encode`: all of this.
-/

namespace StackMachine

open Bytes

namespace Instruction

/-- The operands are read back, with the opcode known. -/
theorem decodeOperands?_encodeOperands_append (i : Instruction) (rest : List UInt8) :
    i.opcode.decodeOperands? (i.encodeOperands ++ rest) = some i := by
  have hbyte (b : UInt8) (bs : List UInt8) : takeWord? 1 (b :: bs) = some (b.toNat, bs) := by
    simp [takeWord?, wordValue]
  cases i with
  | call target argc locals =>
    simp [opcode, encodeOperands, Opcode.decodeOperands?, takeWord?_uint32, takeWord?_uint16, hbyte]
  | pushInt n =>
    rw [encodeOperands, opcode, Opcode.decodeOperands?, takeWord?_uint64]
    exact congrArg (fun n => some (pushInt n)) (toInt64_ofNat_toNat n)
  | pushFloat | pushConst | load | store | jump | jumpIfFalse | jumpIfTrue =>
    simp [opcode, encodeOperands, Opcode.decodeOperands?, takeWord?_uint64, takeWord?_uint32,
      takeWord?_uint16]
  | _ => rfl

/-- An instruction is read back from its bytes. -/
theorem decode_encode_append (i : Instruction) (rest : List UInt8) :
    decode (i.encode ++ rest) = .ok i := by
  simp only [encode, List.cons_append, decode, Opcode.ofByte?_byte,
    decodeOperands?_encodeOperands_append]

variable {op : Opcode} {bs : List UInt8}

/-- Operands are read only from bytes that start with them. -/
theorem encodeOperands_of_decodeOperands? {i : Instruction} (h : op.decodeOperands? bs = some i) :
    i.opcode = op ∧ i.encodeOperands <+: bs := by
  cases op with
  | call =>
    simp only [Opcode.decodeOperands?, Option.bind_eq_some_iff, Option.map_eq_some_iff, Prod.exists,
      takeWord?_eq_some_iff, Nat.reducePow] at h
    obtain ⟨target, -, ⟨htarget, rfl⟩, argc, -, ⟨hargc, rfl⟩, locals, rest, ⟨hlocals, rfl⟩, rfl⟩ :=
      h
    -- The number of arguments is a single byte, which is not written as a word.
    have hword : word 1 argc = [UInt8.ofNat argc] := by
      rw [word, Nat.mod_eq_of_lt hargc, word]
    refine ⟨rfl, rest, ?_⟩
    simp [encodeOperands, Nat.mod_eq_of_lt htarget, Nat.mod_eq_of_lt hlocals, hword]
  | pushInt | pushFloat | pushConst | load | store | jump | jumpIfFalse | jumpIfTrue =>
    simp only [Opcode.decodeOperands?, Option.map_eq_some_iff, Prod.exists, takeWord?_eq_some_iff,
      Nat.reducePow] at h
    obtain ⟨n, rest, ⟨hn, rfl⟩, rfl⟩ := h
    exact ⟨rfl, rest, by simp [encodeOperands, Nat.mod_eq_of_lt hn]⟩
  | nop | pushTrue | pushFalse | pushNone | pop | dup | swap | unary | binary | ret | halt =>
    cases h
    exact ⟨rfl, List.nil_prefix⟩

/-- Operands are read if there are enough bytes for them. An opcode that has none is an instruction
    by itself. -/
theorem decodeOperands?_eq_none_iff :
    op.decodeOperands? bs = none ↔ bs.length < op.operandSize := by
  cases op with
  | call =>
    rw [Opcode.decodeOperands?, Opcode.operandSize]
    rcases htarget : takeWord? 4 bs with _ | ⟨target, bs'⟩
    · have := takeWord?_eq_none_iff.1 htarget
      exact iff_of_true rfl (by omega)
    have hlen := length_of_takeWord? htarget
    simp only [Option.bind_some]
    rcases hargc : takeWord? 1 bs' with _ | ⟨argc, bs''⟩
    · have := takeWord?_eq_none_iff.1 hargc
      exact iff_of_true rfl (by omega)
    have hlen' := length_of_takeWord? hargc
    simp only [Option.bind_some, Option.map_eq_none_iff, takeWord?_eq_none_iff]
    omega
  | pushInt | pushFloat | pushConst | load | store | jump | jumpIfFalse | jumpIfTrue =>
    rw [Opcode.decodeOperands?, Option.map_eq_none_iff, takeWord?_eq_none_iff, Opcode.operandSize]
  | nop | pushTrue | pushFalse | pushNone | pop | dup | swap | unary | binary | ret | halt =>
    exact iff_of_false (Option.some_ne_none _) (Nat.not_lt_zero _)

/-- An instruction is read from the bytes that start with its encoding. -/
theorem decode_eq_ok_iff {i : Instruction} : decode bs = .ok i ↔ i.encode <+: bs := by
  constructor
  · intro h
    unfold decode at h
    split at h
    · cases h
    split at h
    · cases h
    rename_i hop
    split at h <;> cases h
    rename_i hoperands
    obtain ⟨rfl, hstart⟩ := encodeOperands_of_decodeOperands? hoperands
    rw [encode, Opcode.byte_of_ofByte? hop]
    exact List.cons_prefix_cons.2 ⟨rfl, hstart⟩
  · rintro ⟨rest, rfl⟩
    exact decode_encode_append i rest

/-- The first byte is not that of an opcode, or it is missing. -/
theorem decode_eq_unknownOpcode_iff {b : UInt8} :
    decode bs = .error (.unknownOpcode b) ↔
      (bs = [] ∧ b = 0) ∨ ∃ rest, bs = b :: rest ∧ ∀ op : Opcode, op.byte ≠ b := by
  cases bs with
  | nil => simp [decode, eq_comm]
  | cons c bs =>
    cases hop : Opcode.ofByte? c with
    | none =>
      have hunknown (op : Opcode) : op.byte ≠ c := by
        rintro rfl
        rw [Opcode.ofByte?_byte] at hop
        cases hop
      simp only [decode, hop]
      constructor
      · rintro ⟨⟩
        exact .inr ⟨bs, rfl, hunknown⟩
      · rintro (⟨⟨⟩, -⟩ | ⟨_, ⟨⟩, -⟩)
        rfl
    | some op =>
      refine iff_of_false (fun h => ?_) ?_
      · simp only [decode, hop] at h
        split at h <;> cases h
      · rintro (⟨⟨⟩, -⟩ | ⟨_, ⟨⟩, hunknown⟩)
        exact hunknown op (Opcode.byte_of_ofByte? hop)

/-- The opcode is there, but not enough bytes for its operands. -/
theorem decode_eq_truncated_iff :
    decode bs = .error (.truncated op) ↔
      ∃ rest, bs = op.byte :: rest ∧ rest.length < op.operandSize := by
  constructor
  · intro h
    unfold decode at h
    split at h
    · cases h
    split at h
    · cases h
    rename_i hop
    split at h <;> cases h
    rename_i hoperands
    exact ⟨_, by rw [Opcode.byte_of_ofByte? hop], decodeOperands?_eq_none_iff.1 hoperands⟩
  · rintro ⟨rest, rfl, hlen⟩
    simp only [decode, Opcode.ofByte?_byte, decodeOperands?_eq_none_iff.2 hlen]

/-- No encoding starts another one. -/
theorem eq_of_encode_prefix {i j : Instruction} (h : i.encode <+: j.encode) : i = j := by
  have hi : decode j.encode = .ok i := decode_eq_ok_iff.2 h
  have hj : decode j.encode = .ok j := decode_eq_ok_iff.2 (List.prefix_refl _)
  rw [hi] at hj
  exact Except.ok.inj hj

/-- Reading inverts writing. An instruction is read back whatever comes after its bytes, and is read
    from no others. Otherwise the first byte is missing or no opcode, or there are too few bytes
    after that of an opcode; if there are enough, then an instruction with this opcode is read. -/
theorem decode_inverts_encode :
    (∀ (i : Instruction) (rest : List UInt8), decode (i.encode ++ rest) = .ok i) ∧
    (∀ i : Instruction, i.encode.length = i.size) ∧
    (∀ (bs : List UInt8) (i : Instruction), decode bs = .ok i →
      i.size ≤ bs.length ∧ i.encode = bs.take i.size) ∧
    (∀ (bs : List UInt8) (b : UInt8), decode bs = .error (.unknownOpcode b) ↔
      (bs = [] ∧ b = 0) ∨ ∃ rest, bs = b :: rest ∧ ∀ op : Opcode, op.byte ≠ b) ∧
    (∀ (bs : List UInt8) (op : Opcode), decode bs = .error (.truncated op) ↔
      ∃ rest, bs = op.byte :: rest ∧ rest.length < op.operandSize) ∧
    (∀ (op : Opcode) (bs : List UInt8), op.operandSize ≤ bs.length →
      ∃ i, op.decodeOperands? bs = some i ∧ i.opcode = op) ∧
    (∀ i j : Instruction, i.encode <+: j.encode → i = j) := by
  refine ⟨decode_encode_append, length_encode, fun bs i h => ?_,
    fun _ _ => decode_eq_unknownOpcode_iff, fun _ _ => decode_eq_truncated_iff,
    fun op bs hlen => ?_, fun _ _ => eq_of_encode_prefix⟩
  · have hstart := decode_eq_ok_iff.1 h
    rw [← length_encode]
    exact ⟨hstart.length_le, List.prefix_iff_eq_take.1 hstart⟩
  · obtain ⟨i, hi⟩ := Option.ne_none_iff_exists'.1
      (mt decodeOperands?_eq_none_iff.1 (Nat.not_lt.2 hlen))
    exact ⟨i, hi, (encodeOperands_of_decodeOperands? hi).1⟩

/-- A call in front of other bytes, and the same call without its last byte. -/
theorem decode_inverts_encode_call :
    decode [0x48, 9, 0, 0, 0, 1, 2, 0, 0x4F] = .ok (.call 9 1 2) ∧
      decode [0x48, 9, 0, 0, 0, 1, 2] = .error (.truncated .call) ∧
      ∃ i, Opcode.decodeOperands? .call [9, 0, 0, 0, 1, 2, 0] = some i ∧ i.opcode = .call := by
  obtain ⟨hread, -, -, -, htruncated, henough, -⟩ := decode_inverts_encode
  exact ⟨hread (.call 9 1 2) [0x4F],
    (htruncated _ .call).2 ⟨[9, 0, 0, 0, 1, 2], rfl, by decide⟩,
    henough .call [9, 0, 0, 0, 1, 2, 0] (by decide)⟩

end Instruction

end StackMachine
