import Mathlib.Algebra.BigOperators.Group.List.Basic
import Mathlib.Data.List.Forall2
import StackMachine.Image.ConstantPool
import StackMachine.Proofs.Bytes.Word

/-!
# Reading constant pools back

The constants of a pool are read back from its bytes, bit for bit, and from no other bytes, but that
no bytes at all are a pool without constants.

* `ConstantPool.decodeEntry_eq_ok_iff`: a single entry;
* `ConstantPool.decodeEntries_eq_ok_iff`: entries that follow each other;
* `ConstantPool.decode_encode`: a pool, if its number of constants fits in four bytes;
* `ConstantPool.decode_accepts_encode`: nothing else is read, and pools are told apart by their
  bytes.
-/

namespace StackMachine

open Bytes

namespace ConstantPool

theorem decodeEntry_encodeEntry_append (index : Nat) (v : Value) (rest : List UInt8) :
    decodeEntry index (encodeEntry v ++ rest) = .ok (v, rest) := by
  cases v with
  | none => rfl
  | bool b => cases b <;> rfl
  | float => simp [decodeEntry, encodeEntry, encodePayload, Value.tag, takeWord?_uint64]
  | int n | error n =>
    simp only [decodeEntry, encodeEntry, encodePayload, Value.tag, List.cons_append,
      Tag.ofNumber?_number, takeWord?_uint64, toInt64_ofNat_toNat]

theorem decodeEntries_flatMap_append (index : Nat) (values : List Value) (rest : List UInt8) :
    decodeEntries values.length index (values.flatMap encodeEntry ++ rest) =
      .ok (values, rest) := by
  induction values generalizing index with
  | nil => rfl
  | cons v values ih =>
    rw [List.flatMap_cons, List.append_assoc, List.length_cons, decodeEntries,
      decodeEntry_encodeEntry_append]
    simp only [ih]

/-- The constants of a pool are read back. -/
theorem decode_encode {values : List Value} (h : values.length < 2 ^ 32) :
    decode (encode values) = .ok values := by
  have hcount : takeWord? 4 (encode values) =
      some (values.length, values.flatMap encodeEntry) :=
    takeWord?_word_append_of_lt h _
  have hne : (encode values).isEmpty = false := rfl
  have hentries := decodeEntries_flatMap_append 0 values []
  rw [List.append_nil] at hentries
  simp only [decode, hne, hcount, hentries, Bool.false_eq_true, if_false]

theorem one_le_length_encodeEntry (v : Value) : 1 ≤ (encodeEntry v).length := by
  rw [encodeEntry, List.length_cons]
  exact Nat.le_add_left 1 _

/-- The number of constants takes four bytes. -/
theorem length_encode (values : List Value) :
    (encode values).length = (values.map fun v => (encodeEntry v).length).sum + 4 := by
  rw [encode, List.length_append, List.length_flatMap, length_word, Nat.add_comm]

/-- A pool has at least as many bytes as constants. -/
theorem length_le_length_encode (values : List Value) :
    values.length ≤ (encode values).length := by
  have hentries := List.length_le_sum_of_one_le (values.map fun v => (encodeEntry v).length)
    (List.forall_mem_map.2 fun v _ => one_le_length_encodeEntry v)
  rw [List.length_map] at hentries
  exact length_encode values ▸ hentries.trans (Nat.le_add_right _ 4)

variable {bs rest : List UInt8} {values : List Value}

/-- An entry is read only from bytes that start with its encoding. -/
theorem decodeEntry_eq_ok_iff {index : Nat} {v : Value} :
    decodeEntry index bs = .ok (v, rest) ↔ bs = encodeEntry v ++ rest := by
  refine ⟨fun h => ?_, fun h => h ▸ decodeEntry_encodeEntry_append index v rest⟩
  cases bs with
  | nil => cases h
  | cons tag bs =>
    cases htag : Tag.ofNumber? tag with
    | none =>
      simp only [decodeEntry, htag, reduceCtorEq] at h
    | some kind =>
      obtain rfl := Tag.number_of_ofNumber? htag
      simp only [decodeEntry, htag] at h
      cases kind with
      | none =>
        cases h
        rfl
      | int | float | error =>
        simp only at h
        split at h <;> cases h
        rename_i n hn
        obtain ⟨hlt, rfl⟩ := takeWord?_eq_some_iff.1 hn
        simp only [Nat.reducePow] at hlt
        simp [encodeEntry, encodePayload, Value.tag, Nat.mod_eq_of_lt hlt]
      | bool =>
        simp only at h
        split at h
        · cases h
        split at h
        · rename_i hzero
          cases h
          rw [hzero]
          rfl
        split at h <;> cases h
        rename_i hone
        rw [hone]
        rfl

theorem decodeEntries_eq_ok_iff {count index : Nat} :
    decodeEntries count index bs = .ok (values, rest) ↔
      values.length = count ∧ bs = values.flatMap encodeEntry ++ rest := by
  constructor
  · intro h
    induction count generalizing index bs values with
    | zero =>
      cases h
      exact ⟨rfl, rfl⟩
    | succ count ih =>
      rw [decodeEntries] at h
      split at h
      · cases h
      rename_i v bs' hentry
      split at h <;> cases h
      rename_i values hentries
      obtain ⟨rfl, rfl⟩ := ih hentries
      rw [decodeEntry_eq_ok_iff.1 hentry, List.flatMap_cons, List.append_assoc]
      exact ⟨rfl, rfl⟩
  · rintro ⟨rfl, rfl⟩
    exact decodeEntries_flatMap_append index values rest

/-- A pool is read only from its encoding, or from no bytes if it has no constants. -/
theorem decode_eq_ok_iff :
    decode bs = .ok values ↔
      (bs = [] ∧ values = []) ∨ (values.length < 2 ^ 32 ∧ bs = encode values) := by
  constructor
  · intro h
    rw [decode] at h
    split at h
    · rename_i hempty
      cases h
      exact .inl ⟨List.isEmpty_iff.1 hempty, rfl⟩
    split at h
    · cases h
    rename_i count rest hcount
    split at h <;> cases h
    rename_i hentries
    obtain ⟨hlt, rfl⟩ := takeWord?_eq_some_iff.1 hcount
    obtain ⟨rfl, rfl⟩ := decodeEntries_eq_ok_iff.1 hentries
    rw [List.append_nil]
    exact .inr ⟨hlt, rfl⟩
  · rintro (⟨rfl, rfl⟩ | ⟨hlt, rfl⟩)
    · rfl
    · exact decode_encode hlt

/-- Constants are determined by the bytes of their pool. -/
theorem encode_inj {values values' : List Value} (h : values.length < 2 ^ 32)
    (h' : values'.length < 2 ^ 32) : encode values = encode values' ↔ values = values' := by
  refine ⟨fun hencode => ?_, congrArg encode⟩
  have hdecode := decode_encode h
  rw [hencode, decode_encode h'] at hdecode
  exact (Except.ok.inj hdecode).symm

theorem forall₂_identical_iff {values values' : List Value} :
    List.Forall₂ (fun v w => v.identical w = true) values values' ↔ values = values' := by
  simp only [Value.identical_iff, List.forall₂_eq_eq_eq]

/-- The decoder accepts the encodings of pools and the pool without bytes, and nothing else. So
    pools of less than `2 ^ 32` constants have the same encoding if and only if they have as many
    constants, the same ones bit for bit. -/
theorem decode_accepts_encode :
    (∀ (bs : List UInt8) (values : List Value), decode bs = .ok values ↔
      (bs = [] ∧ values = []) ∨ (values.length < 2 ^ 32 ∧ bs = encode values)) ∧
    (∀ values values' : List Value, values.length < 2 ^ 32 → values'.length < 2 ^ 32 →
      (encode values = encode values' ↔
        List.Forall₂ (fun v w => v.identical w = true) values values')) :=
  ⟨fun _ _ => decode_eq_ok_iff,
    fun _ _ h h' => (encode_inj h h').trans forall₂_identical_iff.symm⟩

/-- A signalling NaN in front of a truth value is read with its bits, and is not the quiet NaN. -/
theorem decode_accepts_encode_nan :
    decode [2, 0, 0, 0, 2, 1, 0, 0, 0, 0, 0, 0xF0, 0x7F, 3, 1] =
        .ok [.float ⟨0x7FF0000000000001⟩, .bool true] ∧
      encode [.float ⟨0x7FF0000000000001⟩] ≠ encode [.float ⟨0x7FF8000000000000⟩] := by
  obtain ⟨hdecode, hencode⟩ := decode_accepts_encode
  refine ⟨(hdecode _ _).2 (.inr ⟨by decide, rfl⟩), fun h => ?_⟩
  have hidentical := (hencode _ _ (by decide) (by decide)).1 h
  cases hidentical with
  | cons h _ => exact absurd h (by decide)

end ConstantPool

end StackMachine
