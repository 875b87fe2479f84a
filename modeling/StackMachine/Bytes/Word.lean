/-!
# Words in bytes

A word is a natural number in a fixed number of bytes, the least significant byte
first.

* `word` / `wordValue`: a word as bytes and back (`word_wordValue`);
* `takeWord?`: the word that a list of bytes starts with, and the bytes after it;
* `words32`: all words of four bytes, one after the other;
* `slice`: a range of bytes.
-/

namespace StackMachine.Bytes

/-- The `size` bytes of `n`, reduced to that size. -/
def word : (size : Nat) → (n : Nat) → List UInt8
  | 0, _ => []
  | size + 1, n => UInt8.ofNat (n % 256) :: word size (n / 256)

/-- The number in the given bytes. -/
def wordValue : List UInt8 → Nat
  | [] => 0
  | b :: bs => b.toNat + 256 * wordValue bs

/-- The word of `size` bytes that `bs` starts with, and the bytes after it; `none` if there
    are not that many bytes. -/
def takeWord? (size : Nat) (bs : List UInt8) : Option (Nat × List UInt8) :=
  let bytes := bs.take size
  if bytes.length = size then some (wordValue bytes, bs.drop size) else none

/-- The words of four bytes that `bs` consists of. Up to three bytes at its end that are
    not a word are left out. -/
def words32 : List UInt8 → List UInt32
  | a :: b :: c :: d :: bs => UInt32.ofNat (wordValue [a, b, c, d]) :: words32 bs
  | _ => []

/-- The `len` bytes from `offset` on. -/
def slice (bs : List UInt8) (offset len : Nat) : List UInt8 :=
  (bs.drop offset).take len

@[simp] theorem length_word (size n : Nat) : (word size n).length = size := by
  induction size generalizing n with
  | zero => rfl
  | succ size ih => simp [word, ih]

/-- The bytes of a word are determined by its value. -/
theorem word_wordValue (bs : List UInt8) : word bs.length (wordValue bs) = bs := by
  induction bs with
  | nil => rfl
  | cons b bs ih =>
    have hb := b.toNat_lt
    have h₁ : (b.toNat + 256 * wordValue bs) % 256 = b.toNat := by omega
    have h₂ : (b.toNat + 256 * wordValue bs) / 256 = wordValue bs := by omega
    rw [List.length_cons, wordValue, word, h₁, h₂, ih, UInt8.ofNat_toNat]

/-- A word can be taken exactly from lists that are long enough. -/
theorem takeWord?_eq_none_iff {size : Nat} {bs : List UInt8} :
    takeWord? size bs = none ↔ bs.length < size := by
  simp only [takeWord?, List.length_take, ite_eq_right_iff, reduceCtorEq, imp_false]
  omega

end StackMachine.Bytes
