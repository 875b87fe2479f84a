import StackMachine.Bytes.Word
import StackMachine.Instruction.Basic
import StackMachine.Text.Numeral

/-!
# Instructions in bytes

The encoding of an instruction is the byte of its opcode and then its operands, words with
the least significant byte first.

* `Instruction.encode`;
* `Instruction.decode`: the instruction that a list of bytes starts with;
* `Instruction.length_encode`: an instruction takes as many bytes as its size says.
-/

namespace StackMachine

open Bytes

/-- Why bytes do not start with an instruction. -/
inductive CodeError
  /-- The first byte is not that of an opcode. -/
  | unknownOpcode (byte : UInt8)
  /-- There are too few bytes for the operands. -/
  | truncated (op : Opcode)
deriving DecidableEq, Inhabited

/-- The text of a decoding error. -/
def CodeError.message : CodeError → String
  | unknownOpcode byte => "unknown opcode 0x" ++ Text.hexByte byte
  | truncated op => op.mnemonic ++ " operands run past the end of the code section"

namespace Instruction

/-- The bytes of the operands. -/
def encodeOperands : Instruction → List UInt8
  | pushInt n => word 8 n.toUInt64.toNat
  | pushFloat x => word 8 x.bits.toNat
  | pushConst index => word 4 index.toNat
  | load slot => word 2 slot.toNat
  | store slot => word 2 slot.toNat
  | jump target => word 4 target.toNat
  | jumpIfFalse target => word 4 target.toNat
  | jumpIfTrue target => word 4 target.toNat
  | call target argc locals => word 4 target.toNat ++ argc :: word 2 locals.toNat
  | _ => []

/-- The bytes of an instruction. -/
def encode (i : Instruction) : List UInt8 :=
  i.opcode.byte :: i.encodeOperands

theorem length_encodeOperands (i : Instruction) :
    i.encodeOperands.length = i.opcode.operandSize := by
  cases i <;> simp [encodeOperands, opcode, Opcode.operandSize]

/-- An instruction takes as many bytes as its size says. -/
@[simp] theorem length_encode (i : Instruction) : i.encode.length = i.size := by
  simp [encode, length_encodeOperands, size, Opcode.size, Nat.add_comm]

end Instruction

/-- The instruction of an opcode whose operands `bs` starts with. -/
def Opcode.decodeOperands? (op : Opcode) (bs : List UInt8) : Option Instruction :=
  match op with
  | .pushInt => (takeWord? 8 bs).map fun (n, _) => .pushInt (UInt64.ofNat n).toInt64
  | .pushFloat => (takeWord? 8 bs).map fun (n, _) => .pushFloat ⟨UInt64.ofNat n⟩
  | .pushConst => (takeWord? 4 bs).map fun (n, _) => .pushConst (UInt32.ofNat n)
  | .load => (takeWord? 2 bs).map fun (n, _) => .load (UInt16.ofNat n)
  | .store => (takeWord? 2 bs).map fun (n, _) => .store (UInt16.ofNat n)
  | .jump => (takeWord? 4 bs).map fun (n, _) => .jump (UInt32.ofNat n)
  | .jumpIfFalse => (takeWord? 4 bs).map fun (n, _) => .jumpIfFalse (UInt32.ofNat n)
  | .jumpIfTrue => (takeWord? 4 bs).map fun (n, _) => .jumpIfTrue (UInt32.ofNat n)
  | .call =>
    (takeWord? 4 bs).bind fun (target, bs) =>
      (takeWord? 1 bs).bind fun (argc, bs) =>
        (takeWord? 2 bs).map fun (locals, _) =>
          .call (UInt32.ofNat target) (UInt8.ofNat argc) (UInt16.ofNat locals)
  | op => op.simple?

/-- The instruction that `bs` starts with. Without any byte the opcode is as unknown as
    the byte zero would make it. -/
def Instruction.decode : List UInt8 → Except CodeError Instruction
  | [] => .error (.unknownOpcode 0)
  | b :: bs =>
    match Opcode.ofByte? b with
    | none => .error (.unknownOpcode b)
    | some op =>
      match op.decodeOperands? bs with
      | none => .error (.truncated op)
      | some i => .ok i

end StackMachine
