import StackMachine.Proofs.Image.Loading
import StackMachine.Proofs.Image.Lookup

/-!
# Source lines

A debug section is a list of pairs of an offset and a line, in any order and with any offset any
number of times. It is sorted when it is loaded, and of pairs with the same offset the first one is
kept, so that the line of an offset is that of the first pair with that offset.

* `LineEntry.find?_sort`, `LineEntry.find?_dedup`: neither changes which pair is the first one;
* `LineEntry.pairwise_decodeAll`, `LineEntry.mem_decodeAll_iff`: the entries that are kept;
* `Program.flatMap_encode_linePairs`: the pairs are what the section consists of;
* `Program.lineFor?_eq`: the line of an offset.
-/

namespace StackMachine

open Bytes

namespace LineEntry

variable {d e : LineEntry} {es : List LineEntry} {offset : Nat}

/-! ## Sorting -/

theorem pairwise_sort (es : List LineEntry) : (sort es).Pairwise ByOffset :=
  sort_eq es ▸ List.pairwise_insertionSort _ _

/-- Entries with the same offset keep their order. -/
theorem filter_sort (offset : Nat) (es : List LineEntry) :
    (sort es).filter (·.offset.toNat = offset) = es.filter (·.offset.toNat = offset) := by
  have hoffset (e : LineEntry) (he : e ∈ es.filter (·.offset.toNat = offset)) :
      e.offset.toNat = offset :=
    of_decide_eq_true (List.mem_filter.1 he).2
  have hordered : (es.filter (·.offset.toNat = offset)).Pairwise ByOffset :=
    List.pairwise_of_forall_mem_list fun d hd e he =>
      UInt32.le_of_eq (UInt32.toNat_inj.1 ((hoffset d hd).trans (hoffset e he).symm))
  -- Sorting is stable, so these entries are among the sorted ones in their order.
  have hsub := (List.sublist_insertionSort hordered List.filter_sublist).filter
    (·.offset.toNat = offset)
  rw [List.filter_eq_self.2 fun e he => decide_eq_true (hoffset e he), ← sort_eq] at hsub
  have hperm : (sort es).Perm es := sort_eq es ▸ List.perm_insertionSort _ _
  exact (hsub.eq_of_length (hperm.filter _).length_eq.symm).symm

theorem find?_sort (es : List LineEntry) :
    (sort es).find? (·.offset.toNat = offset) = es.find? (·.offset.toNat = offset) := by
  rw [← List.head?_filter, filter_sort, List.head?_filter]

/-! ## Dropping repetitions -/

/-- An entry that is dropped comes after one with the same offset. -/
theorem find?_dedupFrom (e : LineEntry) (es : List LineEntry) :
    (dedupFrom e es).find? (·.offset.toNat = offset) =
      (e :: es).find? (·.offset.toNat = offset) := by
  induction es generalizing e with
  | nil => rfl
  | cons d es ih =>
    rw [dedupFrom]
    split
    · rename_i heq
      rw [ih, List.find?_cons, List.find?_cons, List.find?_cons, heq]
      split
      · rfl
      · rfl
    · rw [List.find?_cons, ih]
      rfl

theorem find?_dedup (es : List LineEntry) :
    (dedup es).find? (·.offset.toNat = offset) = es.find? (·.offset.toNat = offset) := by
  cases es with
  | nil => rfl
  | cons e es => exact find?_dedupFrom e es

/-- No offset is left twice, for entries with the same one are neighbours. -/
theorem pairwise_dedup (h : es.Pairwise ByOffset) :
    (dedup es).Pairwise (·.offset < ·.offset) := by
  have hle : (dedup es).IsChain ByOffset := by
    rw [dedup_eq]
    exact (h.sublist (List.destutter_sublist _ es)).isChain
  have hne : (dedup es).IsChain (·.offset ≠ ·.offset) := by
    rw [dedup_eq]
    exact List.isChain_destutter _ es
  have hlt : (dedup es).IsChain (·.offset < ·.offset) :=
    List.isChain_iff_getElem.2 fun i hi =>
      UInt32.lt_of_le_of_ne (List.isChain_iff_getElem.1 hle i hi)
        (List.isChain_iff_getElem.1 hne i hi)
  have htrans : IsTrans LineEntry (·.offset < ·.offset) := ⟨fun _ _ _ => UInt32.lt_trans⟩
  exact hlt.pairwise

/-! ## Debug sections -/

/-- The offsets ascend. -/
theorem pairwise_decodeAll (bs : List UInt8) :
    (decodeAll bs).Pairwise (·.offset < ·.offset) :=
  pairwise_dedup (pairwise_sort _)

/-- Of entries with ascending offsets there is one for an offset at most. -/
theorem find?_eq_some_iff (h : es.Pairwise (·.offset < ·.offset)) :
    es.find? (·.offset.toNat = offset) = some e ↔ e ∈ es ∧ e.offset.toNat = offset := by
  induction h with
  | nil => simp
  | @cons d es hd _ ih =>
    rw [List.find?_cons, List.mem_cons]
    split
    · rename_i hoffset
      have hoffset : d.offset.toNat = offset := of_decide_eq_true hoffset
      refine ⟨fun heq => ?_, ?_⟩
      · cases heq
        exact ⟨.inl rfl, hoffset⟩
      · rintro ⟨rfl | he, heq⟩
        · rfl
        · have hlt := UInt32.lt_iff_toNat_lt.1 (hd e he)
          omega
    · rename_i hoffset
      have hoffset : d.offset.toNat ≠ offset := of_decide_eq_false hoffset
      rw [ih]
      refine and_congr_left fun heq => ⟨.inr, fun he => he.resolve_left ?_⟩
      rintro rfl
      exact hoffset heq

/-- An entry is kept if and only if it is the first one with its offset. -/
theorem mem_decodeAll_iff (bs : List UInt8) : e ∈ decodeAll bs ↔
    (ofWords (words32 bs)).find? (·.offset.toNat = e.offset.toNat) = some e := by
  rw [← find?_sort, ← find?_dedup, ← decodeAll, find?_eq_some_iff (pairwise_decodeAll bs)]
  exact (and_iff_left rfl).symm

/-- Whole entries have the bytes that they are read from. -/
theorem flatMap_encode_ofWords {count : Nat} {bs : List UInt8} (h : bs.length = 8 * count) :
    (ofWords (words32 bs)).flatMap encode = bs := by
  induction count generalizing bs with
  | zero =>
    rw [List.eq_nil_of_length_eq_zero h]
    rfl
  | succ count ih =>
    have hdrop : (bs.drop 4).length = 8 * count + 4 := by
      rw [List.length_drop]
      omega
    have hrest : ((bs.drop 4).drop 4).length = 8 * count := by
      rw [List.length_drop]
      omega
    rw [words32_of_four_le (by omega), words32_of_four_le (by omega), ofWords, List.flatMap_cons,
      ih hrest, encode, word_wordAt (by omega), word_wordAt (by omega), List.append_assoc]
    exact (congrArg (bs.take 4 ++ ·) (List.take_append_drop 4 (bs.drop 4))).trans
      (List.take_append_drop 4 bs)

end LineEntry

namespace Program

/-- The bytes of the debug section. -/
def debugBytes (p : Program) : List UInt8 :=
  match p.sections.find? .debug with
  | none => []
  | some s => s.body p.bytes

/-- The pairs in the debug section, in the order of its bytes. -/
def linePairs (p : Program) : List LineEntry :=
  LineEntry.ofWords (words32 p.debugBytes)

section

variable {p : Program} (h : p.IsLoaded)

include h

theorem lines_eq : p.lines.toList = LineEntry.decodeAll p.debugBytes := by
  rw [← h.lines, loadLines, debugBytes]
  cases p.sections.find? .debug <;> rfl

/-- The debug section consists of whole pairs. -/
theorem flatMap_encode_linePairs : p.linePairs.flatMap LineEntry.encode = p.debugBytes := by
  suffices ∃ count, p.debugBytes.length = 8 * count by
    obtain ⟨count, hlen⟩ := this
    exact LineEntry.flatMap_encode_ofWords hlen
  obtain ⟨hplaced, hkinds, hdefect⟩ := SectionTable.placed_of_parse h.sections
  rw [debugBytes]
  cases hfind : p.sections.find? .debug with
  | none => exact ⟨0, rfl⟩
  | some s =>
    obtain ⟨hs, hkind⟩ := (SectionTable.find?_eq_some_iff hkinds).1 hfind
    obtain ⟨count, hcount⟩ := ((SectionTable.defect?_eq_none_iff hkinds).1 hdefect).2.2 s hs hkind
    exact ⟨count, (length_slice (hplaced s hs).1).trans hcount⟩

theorem pairwise_lines : p.lines.toList.Pairwise (·.offset < ·.offset) :=
  lines_eq h ▸ LineEntry.pairwise_decodeAll _

/-- The entries are the pairs that are the first ones with their offsets. -/
theorem mem_lines_iff {e : LineEntry} : e ∈ p.lines.toList ↔
    p.linePairs.find? (·.offset.toNat = e.offset.toNat) = some e := by
  rw [lines_eq h, LineEntry.mem_decodeAll_iff, linePairs]

/-- The line of an offset is that of the entry with the offset. -/
theorem lineFor?_eq_find? (offset : Nat) :
    p.lineFor? offset = (p.lines.toList.find? (·.offset.toNat = offset)).map (·.line) := by
  have hascending := pairwise_lines h
  have hget (i : Nat) (hi : i < p.lines.size) : p.lines.getD i default = p.lines[i] := by
    rw [Array.getD_eq_getD_getElem?, Array.getElem?_eq_getElem hi, Option.getD_some]
  have hkey (a b : Nat) (hab : a < b) (hb : b < p.lines.size) :
      (p.lines.getD a default).offset.toNat < (p.lines.getD b default).offset.toNat := by
    rw [hget a (by omega), hget b hb]
    exact UInt32.lt_iff_toNat_lt.1 (List.pairwise_iff_getElem.1 hascending a b _ _ hab)
  ext line
  rw [lineFor?, Option.map_eq_some_iff, Option.map_eq_some_iff]
  simp only [bisect?_eq_some_iff hkey, LineEntry.find?_eq_some_iff hascending]
  constructor
  · rintro ⟨i, ⟨hi, hoffset⟩, rfl⟩
    rw [hget i hi] at hoffset ⊢
    exact ⟨_, ⟨Array.getElem_mem_toList hi, hoffset⟩, rfl⟩
  · rintro ⟨e, ⟨he, hoffset⟩, rfl⟩
    obtain ⟨i, hi, rfl⟩ := List.mem_iff_getElem.1 he
    refine ⟨i, ⟨hi, ?_⟩, ?_⟩ <;> rw [hget i hi]
    · exact hoffset
    · rfl

/-- The line of an offset is that of the first pair with the offset. -/
theorem lineFor?_eq (offset : Nat) :
    p.lineFor? offset = (p.linePairs.find? (·.offset.toNat = offset)).map (·.line) := by
  rw [lineFor?_eq_find? h, lines_eq h, LineEntry.decodeAll, LineEntry.find?_dedup,
    LineEntry.find?_sort, linePairs]

end

end Program

end StackMachine
