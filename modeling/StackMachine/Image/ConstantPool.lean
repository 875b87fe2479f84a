import StackMachine.Bytes.Word
import StackMachine.Text.Numeral
import StackMachine.Value

/-!
# Constant pools

The constants of a program in bytes: their number, and then for each one the number of its
kind and its payload. No bytes at all are a pool without constants.

* `ConstantPool.encode`, `ConstantPool.decode`;
* `ConstantPoolError`: what may be wrong with a pool, and at which entry.
-/

namespace StackMachine

open Bytes

/-- Why bytes are not a constant pool. -/
inductive ConstantPoolError
  /-- There are fewer bytes than the number of constants takes. -/
  | missingCount
  | truncated (index : Nat)
  | unknownTag (index : Nat) (tag : UInt8)
  /-- The byte of a truth value is neither zero nor one. -/
  | invalidBool (index : Nat) (byte : UInt8)
  | trailingBytes (count : Nat)
deriving DecidableEq, Inhabited

namespace ConstantPoolError

open Text in
/-- The text of a constant pool error. -/
def message : ConstantPoolError → String
  | missingCount => "missing entry count"
  | truncated index => "entry " ++ decimal index ++ " is truncated"
  | unknownTag index tag => "entry " ++ decimal index ++ " has unknown tag " ++ decimal tag.toNat
  | invalidBool index byte =>
    "entry " ++ decimal index ++ " has invalid bool byte " ++ decimal byte.toNat
  | trailingBytes count => decimal count ++ " trailing bytes after the last entry"

end ConstantPoolError

namespace ConstantPool

/-- The bytes of the payload of a value. -/
def encodePayload : Value → List UInt8
  | .none => []
  | .int n => word 8 n.toUInt64.toNat
  | .float x => word 8 x.bits.toNat
  | .bool b => [if b then 1 else 0]
  | .error code => word 8 code.toUInt64.toNat

/-- The bytes of an entry. -/
def encodeEntry (v : Value) : List UInt8 :=
  v.tag.number :: encodePayload v

/-- The bytes of a pool. -/
def encode (values : List Value) : List UInt8 :=
  word 4 values.length ++ values.flatMap encodeEntry

/-- The entry that `bs` starts with, and the bytes after it. -/
def decodeEntry (index : Nat) (bs : List UInt8) :
    Except ConstantPoolError (Value × List UInt8) :=
  match bs with
  | [] => .error (.truncated index)
  | tag :: bs =>
    match Tag.ofNumber? tag with
    | none => .error (.unknownTag index tag)
    | some .none => .ok (.none, bs)
    | some .int =>
      match takeWord? 8 bs with
      | none => .error (.truncated index)
      | some (n, rest) => .ok (.int (UInt64.ofNat n).toInt64, rest)
    | some .float =>
      match takeWord? 8 bs with
      | none => .error (.truncated index)
      | some (n, rest) => .ok (.float ⟨UInt64.ofNat n⟩, rest)
    | some .bool =>
      match bs with
      | [] => .error (.truncated index)
      | b :: rest =>
        if b = 0 then .ok (.bool false, rest)
        else if b = 1 then .ok (.bool true, rest)
        else .error (.invalidBool index b)
    | some .error =>
      match takeWord? 8 bs with
      | none => .error (.truncated index)
      | some (n, rest) => .ok (.error (UInt64.ofNat n).toInt64, rest)

/-- The `count` entries that `bs` starts with, the first one of which is entry `index`, and the
    bytes after them. -/
def decodeEntries : (count index : Nat) → List UInt8 →
    Except ConstantPoolError (List Value × List UInt8)
  | 0, _, bs => .ok ([], bs)
  | count + 1, index, bs =>
    match decodeEntry index bs with
    | .error err => .error err
    | .ok (v, rest) =>
      match decodeEntries count (index + 1) rest with
      | .error err => .error err
      | .ok (values, rest) => .ok (v :: values, rest)

/-- The constants of a pool. -/
def decode (bs : List UInt8) : Except ConstantPoolError (List Value) :=
  if bs.isEmpty then .ok []
  else
    match takeWord? 4 bs with
    | none => .error .missingCount
    | some (count, rest) =>
      match decodeEntries count 0 rest with
      | .error err => .error err
      | .ok (values, []) => .ok values
      | .ok (_, rest) => .error (.trailingBytes rest.length)

end ConstantPool

end StackMachine
