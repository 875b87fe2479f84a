import Mathlib.Algebra.Ring.Nat
import StackMachine.Bytes.Word

/-!
# Numbers in bytes

The number that is read from the bytes of a word is the number written, reduced to the size of
the word.

* `wordValue_word`: reading what was written;
* `wordValue_lt`: the range of the numbers read;
* `takeWord?_uint16`, `takeWord?_uint32`, `takeWord?_uint64`: taking a word that was put in front;
* `takeWord?_eq_some_iff`: only words are taken.
-/

namespace StackMachine.Bytes

/-- A number that fits is read back. -/
theorem wordValue_word (size n : Nat) : wordValue (word size n) = n % 256 ^ size := by
  induction size generalizing n with
  | zero => simp [word, wordValue, Nat.mod_one]
  | succ size ih =>
    have h : (UInt8.ofNat (n % 256)).toNat = n % 256 := by
      simp only [UInt8.toNat_ofNat']
      omega
    rw [word, wordValue, ih, h, Nat.pow_succ', Nat.mod_mul]

theorem wordValue_word_uint32 (x : UInt32) : wordValue (word 4 x.toNat) = x.toNat := by
  rw [wordValue_word]
  exact Nat.mod_eq_of_lt x.toNat_lt

theorem wordValue_lt (bs : List UInt8) : wordValue bs < 256 ^ bs.length := by
  induction bs with
  | nil => simp [wordValue]
  | cons b bs ih =>
    have := b.toNat_lt
    rw [wordValue, List.length_cons, Nat.pow_succ']
    omega

/-- A word in front is taken. -/
theorem takeWord?_word_append (size n : Nat) (rest : List UInt8) :
    takeWord? size (word size n ++ rest) = some (n % 256 ^ size, rest) := by
  simp [takeWord?, wordValue_word]

/-- A word in front that holds its number is taken as that number. -/
theorem takeWord?_word_append_of_lt {size n : Nat} (h : n < 256 ^ size) (rest : List UInt8) :
    takeWord? size (word size n ++ rest) = some (n, rest) := by
  rw [takeWord?_word_append, Nat.mod_eq_of_lt h]

theorem takeWord?_uint16 (x : UInt16) (rest : List UInt8) :
    takeWord? 2 (word 2 x.toNat ++ rest) = some (x.toNat, rest) :=
  takeWord?_word_append_of_lt x.toNat_lt rest

theorem takeWord?_uint32 (x : UInt32) (rest : List UInt8) :
    takeWord? 4 (word 4 x.toNat ++ rest) = some (x.toNat, rest) :=
  takeWord?_word_append_of_lt x.toNat_lt rest

theorem takeWord?_uint64 (x : UInt64) (rest : List UInt8) :
    takeWord? 8 (word 8 x.toNat ++ rest) = some (x.toNat, rest) :=
  takeWord?_word_append_of_lt x.toNat_lt rest

/-- What is taken is a word in front. -/
theorem takeWord?_eq_some_iff {size n : Nat} {bs rest : List UInt8} :
    takeWord? size bs = some (n, rest) ↔ n < 256 ^ size ∧ bs = word size n ++ rest := by
  constructor
  · intro h
    simp only [takeWord?] at h
    split at h <;> cases h
    rename_i hlen
    have hlt := wordValue_lt (bs.take size)
    have hword := word_wordValue (bs.take size)
    rw [hlen] at hlt hword
    rw [hword, List.take_append_drop]
    exact ⟨hlt, rfl⟩
  · rintro ⟨hlt, rfl⟩
    exact takeWord?_word_append_of_lt hlt rest

theorem length_of_takeWord? {size n : Nat} {bs rest : List UInt8}
    (h : takeWord? size bs = some (n, rest)) : bs.length = size + rest.length := by
  obtain ⟨-, rfl⟩ := takeWord?_eq_some_iff.1 h
  rw [List.length_append, length_word]

/-- A signed number is read back from the pattern that it has without its sign. -/
theorem toInt64_ofNat_toNat (n : Int64) : (UInt64.ofNat n.toUInt64.toNat).toInt64 = n := by
  rw [UInt64.ofNat_toNat]
  rfl

end StackMachine.Bytes
