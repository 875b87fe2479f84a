import StackMachine.Proofs.Bytes.Word

/-!
# Ranges of bytes

A range of a range is a range of the whole, and the words that a range consists of are read at
positions of the whole.

* `slice_slice`, `drop_slice`: ranges in ranges;
* `slice_congr`: a range depends on its bytes only;
* `slice_append_left`, `slice_append_right`: ranges of two lists of bytes put together;
* `wordAt`, `word_wordAt`: the word of four bytes at a position, and its bytes;
* `words32_slice`, `words32_word_append`: the words of a range, and of words put together.
-/

namespace StackMachine.Bytes

variable {bs cs bs' : List UInt8} {offset len : Nat}

/-- The word of four bytes at a position. -/
def wordAt (bs : List UInt8) (offset : Nat) : UInt32 :=
  UInt32.ofNat (wordValue (slice bs offset 4))

theorem length_slice (h : offset + len ≤ bs.length) : (slice bs offset len).length = len := by
  rw [slice, List.length_take, List.length_drop]
  omega

theorem slice_slice {offset' len' : Nat} (h : offset' + len' ≤ len) :
    slice (slice bs offset len) offset' len' = slice bs (offset + offset') len' := by
  rw [slice, slice, slice, List.drop_take, List.drop_drop, List.take_take, Nat.min_eq_left]
  omega

theorem drop_slice (n : Nat) :
    (slice bs offset len).drop n = slice bs (offset + n) (len - n) := by
  rw [slice, slice, List.drop_take, List.drop_drop]

/-- A range depends on its bytes only. -/
theorem slice_congr (h : ∀ n, offset ≤ n → n < offset + len → bs'[n]? = bs[n]?) :
    slice bs' offset len = slice bs offset len := by
  refine List.ext_getElem? fun n => ?_
  rw [slice, slice, List.getElem?_take, List.getElem?_take]
  split
  · rw [List.getElem?_drop, List.getElem?_drop, h _ (Nat.le_add_right _ _) (by omega)]
  · rfl

theorem wordAt_congr (h : ∀ n, offset ≤ n → n < offset + 4 → bs'[n]? = bs[n]?) :
    wordAt bs' offset = wordAt bs offset := by
  rw [wordAt, slice_congr h, wordAt]

theorem slice_append_left (h : offset + len ≤ bs.length) :
    slice (bs ++ cs) offset len = slice bs offset len := by
  rw [slice, slice, List.drop_append_of_le_length (by omega), List.take_append_of_le_length]
  rw [List.length_drop]
  omega

theorem slice_append_right :
    slice (bs ++ cs) (bs.length + offset) len = slice cs offset len := by
  rw [slice, slice, List.drop_append, List.drop_eq_nil_of_le (Nat.le_add_right _ _),
    Nat.add_sub_cancel_left, List.nil_append]

/-- All bytes are a range. -/
theorem slice_self : slice bs 0 bs.length = bs := by
  rw [slice, List.drop_zero, List.take_length]

/-- What is put between other bytes is found where the bytes before it end. -/
theorem slice_between (before body after : List UInt8) :
    slice (before ++ (body ++ after)) before.length body.length = body := by
  have hafter : slice (before ++ (body ++ after)) (before.length + 0) body.length =
      slice (body ++ after) 0 body.length :=
    slice_append_right
  rw [Nat.add_zero] at hafter
  rw [hafter, slice_append_left (by omega), slice_self]

/-- A word is the first one of the bytes that it starts. -/
theorem words32_of_four_le (h : 4 ≤ bs.length) :
    words32 bs = wordAt bs 0 :: words32 (bs.drop 4) := by
  match bs, h with
  | a :: b :: c :: d :: rest, _ => rfl

theorem words32_slice (h : 4 ≤ len) (hlen : offset + len ≤ bs.length) :
    words32 (slice bs offset len) =
      wordAt bs offset :: words32 (slice bs (offset + 4) (len - 4)) := by
  rw [words32_of_four_le (by rwa [length_slice hlen]), drop_slice]
  rw [wordAt, slice_slice (by omega), Nat.add_zero, wordAt]

/-- A word in front is the first one. -/
theorem wordAt_word_append (x : UInt32) : wordAt (word 4 x.toNat ++ bs) 0 = x := by
  have htake : slice (word 4 x.toNat ++ bs) 0 4 = word 4 x.toNat :=
    List.take_left' (length_word 4 _)
  rw [wordAt, htake, wordValue_word_uint32, UInt32.ofNat_toNat]

/-- The bytes of the word at a position. -/
theorem word_wordAt (h : offset + 4 ≤ bs.length) :
    word 4 (wordAt bs offset).toNat = slice bs offset 4 := by
  have hlen := length_slice h
  have hlt := wordValue_lt (slice bs offset 4)
  have hword := word_wordValue (slice bs offset 4)
  rw [hlen] at hlt hword
  have hsize : UInt32.size = 256 ^ 4 := rfl
  rw [wordAt, UInt32.toNat_ofNat_of_lt' (hsize ▸ hlt), hword]

theorem words32_word_append (x : UInt32) :
    words32 (word 4 x.toNat ++ bs) = x :: words32 bs := by
  rw [words32_of_four_le (by simp), wordAt_word_append, List.drop_left' (length_word 4 _)]

end StackMachine.Bytes
