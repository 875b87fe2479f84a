import Mathlib.Data.List.Induction
import Mathlib.Data.List.TakeWhile
import StackMachine.Text.Blank
import StackMachine.Text.Numeral

/-!
# Words and lines put together

Words with a blank between them are split into these words again, and lines with their ends into
these lines.

* `words_append_cons`, `words_trim`: blanks separate words and are in none;
* `trim_append_of_forall_blank`, `trim_of_forall_blank_append`: blanks around a text are trimmed;
* `words_intercalate`: words with blanks between them;
* `lines_flatMap`: lines with a line feed after each;
* `exists_lines_eq`, `feed_not_mem_of_mem_lines`: which lists of lines are those of a text;
* `cutAt_append_cons`, `cutAt_of_not_mem`: a text cut at a character;
* `IsWord`: a word of plain characters, none of which is a mark.
-/

namespace StackMachine.Text

variable {c d : Char} {cs w : List Char}

/-! ## Words -/

theorem words_append_cons (hc : isBlank c = true) (cs ds : List Char) :
    words (cs ++ c :: ds) = words cs ++ words ds := by
  rw [words, List.splitOnP_append_cons _ _ hc, List.filter_append, words, words]

theorem words_nil : words [] = [] :=
  rfl

theorem words_trimStart (cs : List Char) : words (trimStart cs) = words cs := by
  induction cs with
  | nil => rfl
  | cons c cs ih =>
    cases hc : isBlank c with
    | false => rw [trimStart, List.dropWhile_cons_of_neg (by simp [hc])]
    | true =>
      have hword := words_append_cons hc [] cs
      rw [List.nil_append, words_nil, List.nil_append] at hword
      rw [trimStart, List.dropWhile_cons_of_pos hc, hword]
      exact ih

theorem words_trimEnd (cs : List Char) : words (trimEnd cs) = words cs := by
  induction cs using List.reverseRecOn with
  | nil => rfl
  | append_singleton cs c ih =>
    rw [trimEnd, List.reverse_append, List.reverse_singleton, List.singleton_append]
    cases hc : isBlank c with
    | false =>
      rw [List.dropWhile_cons_of_neg (by simp [hc]), List.reverse_cons, List.reverse_reverse]
    | true =>
      rw [List.dropWhile_cons_of_pos hc, words_append_cons hc, words_nil, List.append_nil]
      exact ih

/-- Blanks around a text are in no word. -/
@[simp] theorem words_trim (cs : List Char) : words (trim cs) = words cs := by
  rw [trim, words_trimEnd, words_trimStart]

/-- Blanks at the end of a text are in no word. -/
theorem words_append_of_forall_blank {blanks : List Char} (h : ∀ c ∈ blanks, isBlank c = true)
    (cs : List Char) : words (cs ++ blanks) = words cs := by
  induction blanks generalizing cs with
  | nil => rw [List.append_nil]
  | cons c blanks ih =>
    obtain ⟨hc, hblanks⟩ := List.forall_mem_cons.1 h
    rw [words_append_cons hc, ← List.nil_append blanks, ih hblanks, words_nil, List.append_nil]

/-- A text without blanks is a word. -/
theorem words_of_forall_not_blank (hne : w ≠ []) (hw : ∀ c ∈ w, isBlank c = false) :
    words w = [w] := by
  rw [words, List.splitOnP_eq_singleton hw]
  simp [hne]

/-- Words with a blank between each two are split again. -/
theorem words_intercalate {ws : List (List Char)}
    (h : ∀ w ∈ ws, w ≠ [] ∧ ∀ c ∈ w, isBlank c = false) : words ([' '].intercalate ws) = ws := by
  induction ws with
  | nil => rfl
  | cons w ws ih =>
    obtain ⟨⟨hne, hw⟩, hws⟩ := List.forall_mem_cons.1 h
    have hword := words_of_forall_not_blank hne hw
    cases ws with
    | nil => rw [List.intercalate_singleton, hword]
    | cons w' ws =>
      rw [List.intercalate_cons_cons, List.append_assoc, List.singleton_append,
        words_append_cons rfl, hword, ih hws, List.singleton_append]

/-- Trimming leaves a text without blanks alone. -/
theorem trim_of_forall_not_blank (h : ∀ c ∈ cs, isBlank c = false) : trim cs = cs := by
  have hkeep {cs : List Char} (h : ∀ c ∈ cs, isBlank c = false) : cs.dropWhile isBlank = cs := by
    cases cs with
    | nil => rfl
    | cons c cs => exact List.dropWhile_cons_of_neg (by simp [h c List.mem_cons_self])
  rw [trim, trimStart, hkeep h, trimEnd, hkeep fun c hc => h c (List.mem_reverse.1 hc),
    List.reverse_reverse]

/-- Blanks in front of a text are trimmed. -/
theorem trim_of_forall_blank_append {blanks : List Char} (h : ∀ c ∈ blanks, isBlank c = true)
    (cs : List Char) : trim (blanks ++ cs) = trim cs := by
  rw [trim, trimStart, List.dropWhile_append_of_pos h, ← trimStart, ← trim]

/-- Blanks behind a text are trimmed. -/
theorem trim_append_of_forall_blank {blanks : List Char} (h : ∀ c ∈ blanks, isBlank c = true)
    (cs : List Char) : trim (cs ++ blanks) = trim cs := by
  have hreverse : ∀ c ∈ blanks.reverse, isBlank c = true := fun c hc => h c (List.mem_reverse.1 hc)
  rw [trim, trim, trimStart, List.dropWhile_append]
  split
  · -- nothing but blanks is left of either text
    rename_i hblank
    rw [List.isEmpty_iff] at hblank
    rw [trimStart, hblank, List.dropWhile_eq_nil_iff.2 h]
  · rw [trimEnd, List.reverse_append, List.dropWhile_append_of_pos hreverse, ← trimEnd, trimStart]

theorem mem_of_mem_trim (h : c ∈ trim cs) : c ∈ cs := by
  rw [trim, trimEnd, List.mem_reverse] at h
  have hstart := (List.dropWhile_suffix isBlank).subset h
  rw [List.mem_reverse] at hstart
  exact (List.dropWhile_suffix isBlank).subset hstart

/-! ## Lines -/

/-- Whether a text holds no control characters, in particular no end of a line. -/
def Printable (cs : List Char) : Prop :=
  ∀ c ∈ cs, ' ' ≤ c

instance (cs : List Char) : Decidable (Printable cs) :=
  decidable_of_iff (cs.all fun c => ' ' ≤ c) (by simp [Printable])

@[simp] theorem printable_nil : Printable [] :=
  List.forall_mem_nil _

@[simp] theorem printable_cons : Printable (c :: cs) ↔ ' ' ≤ c ∧ Printable cs :=
  List.forall_mem_cons

@[simp] theorem printable_append {cs ds : List Char} :
    Printable (cs ++ ds) ↔ Printable cs ∧ Printable ds :=
  List.forall_mem_append

/-- A line without control characters is not changed by dropping a carriage return. -/
theorem dropReturn_of_printable (h : Printable cs) : dropReturn cs = cs := by
  have hlast : cs.getLast? ≠ some '\r' := fun hlast =>
    absurd (h _ (List.mem_of_getLast? hlast)) (by decide)
  rw [dropReturn, if_neg hlast]

theorem dropReturn_append_return (cs : List Char) : dropReturn (cs ++ ['\r']) = cs := by
  rw [dropReturn, if_pos List.getLast?_concat, List.dropLast_concat]

/-- Lines with a line feed after each are split again, except that a carriage return at their ends
    is taken for a part of the line ends. -/
theorem lines_flatMap_feed {ls : List (List Char)} (h : ∀ l ∈ ls, '\n' ∉ l) :
    lines (ls.flatMap (· ++ ['\n'])) = ls.map dropReturn := by
  have hpieces : (ls.flatMap (· ++ ['\n'])).splitOnP (· == '\n') = ls ++ [[]] := by
    induction ls with
    | nil => rfl
    | cons l ls ih =>
      obtain ⟨hl, hls⟩ := List.forall_mem_cons.1 h
      have hfeed : ∀ c ∈ l, (c == '\n') = false := fun c hc => by
        refine beq_false_of_ne ?_
        rintro rfl
        exact hl hc
      rw [List.flatMap_cons, List.append_assoc, List.singleton_append,
        List.splitOnP_append_cons_of_forall_mem hfeed _ rfl, ih hls, List.cons_append]
  rw [lines, hpieces]
  clear hpieces h
  induction ls with
  | nil => rfl
  | cons l ls ih =>
    obtain ⟨l', ls', hcons⟩ := List.exists_cons_of_ne_nil (List.append_ne_nil_of_right_ne_nil ls
      (List.cons_ne_nil ([] : List Char) []))
    rw [hcons] at ih
    rw [List.cons_append, hcons, linesOfPieces, ih, List.map_cons]

/-- Lines without control characters are not changed. -/
theorem lines_flatMap {ls : List (List Char)} (h : ∀ l ∈ ls, Printable l) :
    lines (ls.flatMap (· ++ ['\n'])) = ls := by
  rw [lines_flatMap_feed fun l hl hmem => absurd (h l hl _ hmem) (by decide)]
  exact (List.map_congr_left fun l hl => dropReturn_of_printable (h l hl)).trans (List.map_id ls)

/-- There is a text with any lines that hold no line feeds. -/
theorem exists_lines_eq {ls : List (List Char)} (h : ∀ l ∈ ls, '\n' ∉ l) :
    ∃ cs, lines cs = ls := by
  -- with a carriage return before each line feed, those in the lines are kept
  refine ⟨(ls.map (· ++ ['\r'])).flatMap (· ++ ['\n']), ?_⟩
  rw [lines_flatMap_feed, List.map_map]
  · exact (List.map_congr_left fun l _ => dropReturn_append_return l).trans (List.map_id ls)
  · refine List.forall_mem_map.2 fun l hl => List.not_mem_append (h l hl) (by decide)

theorem eq_false_of_mem_splitOnP {p : Char → Bool} (hl : w ∈ cs.splitOnP p) (hc : c ∈ w) :
    p c = false := by
  induction cs generalizing w with
  | nil =>
    rw [List.splitOnP_nil, List.mem_singleton] at hl
    rw [hl] at hc
    cases hc
  | cons d cs ih =>
    rw [List.splitOnP_cons_eq_if_modifyHead] at hl
    split at hl
    · rcases List.mem_cons.1 hl with rfl | hl
      · cases hc
      · exact ih hl hc
    · rename_i hd
      obtain ⟨piece, pieces, hpieces⟩ := List.exists_cons_of_ne_nil (List.splitOnP_ne_nil p cs)
      rw [hpieces, List.modifyHead_cons] at hl
      rw [hpieces] at ih
      rcases List.mem_cons.1 hl with rfl | hl
      · rcases List.mem_cons.1 hc with rfl | hc
        · exact Bool.eq_false_iff.2 hd
        · exact ih List.mem_cons_self hc
      · exact ih (List.mem_cons_of_mem _ hl) hc

/-- A line is part of a piece between line feeds. -/
theorem exists_piece_of_mem_linesOfPieces {pieces : List (List Char)}
    (h : w ∈ linesOfPieces pieces) : ∃ piece ∈ pieces, w ⊆ piece := by
  fun_induction linesOfPieces pieces with
  | case1 => cases h
  | case2 => cases h
  | case3 last =>
    exact ⟨last, List.mem_cons_self, (List.mem_singleton.1 h) ▸ List.Subset.refl _⟩
  | case4 piece next rest ih =>
    rcases List.mem_cons.1 h with rfl | h
    · refine ⟨piece, List.mem_cons_self, ?_⟩
      rw [dropReturn]
      split
      · exact List.dropLast_subset piece
      · exact List.Subset.refl _
    · obtain ⟨piece', hpiece', hsubset⟩ := ih h
      exact ⟨piece', List.mem_cons_of_mem _ hpiece', hsubset⟩

/-- No line holds a line feed. -/
theorem feed_not_mem_of_mem_lines (h : w ∈ lines cs) : '\n' ∉ w := by
  intro hmem
  obtain ⟨piece, hpiece, hsubset⟩ := exists_piece_of_mem_linesOfPieces h
  cases eq_false_of_mem_splitOnP hpiece (hsubset hmem)

/-! ## Cuts -/

/-- What is cut off in front is the text up to the first of the characters. -/
theorem fst_cutAt (c : Char) (cs : List Char) : (cutAt c cs).1 = cs.takeWhile (· != c) := by
  rw [cutAt]
  split
  · rename_i hnil
    rw [List.takeWhile_eq_self_iff.2 (List.dropWhile_eq_nil_iff.1 hnil)]
  · rfl

theorem cutAt_of_not_mem (h : c ∉ cs) : cutAt c cs = (cs, none) := by
  have hnil : cs.dropWhile (· != c) = [] :=
    List.dropWhile_eq_nil_iff.2 fun d hd => bne_iff_ne.2 fun hdc => h (hdc ▸ hd)
  rw [cutAt, hnil]

/-- A text is cut at the first of the characters. -/
theorem cutAt_append_cons (h : c ∉ cs) (ds : List Char) :
    cutAt c (cs ++ c :: ds) = (cs, some ds) := by
  have hpos : ∀ d ∈ cs, (d != c) = true := fun d hd => bne_iff_ne.2 fun hdc => h (hdc ▸ hd)
  rw [cutAt, List.dropWhile_append_of_pos hpos, List.dropWhile_cons_of_neg (by simp),
    List.takeWhile_append_of_pos hpos, List.takeWhile_cons_of_neg (by simp), List.append_nil]

/-- A text is cut where a property of its characters ends. -/
theorem takeWhile_dropWhile_append {p : Char → Bool} {cs : List Char}
    (hcs : ∀ c ∈ cs, p c = true) (ds : List Char) (hds : ∀ c ∈ ds.head?, p c = false) :
    (cs ++ ds).takeWhile p = cs ∧ (cs ++ ds).dropWhile p = ds := by
  rw [List.takeWhile_append_of_pos hcs, List.dropWhile_append_of_pos hcs]
  cases ds with
  | nil => exact ⟨List.append_nil cs, rfl⟩
  | cons d ds =>
    have hd := hds d rfl
    rw [List.takeWhile_cons_of_neg (by simp [hd]), List.dropWhile_cons_of_neg (by simp [hd])]
    exact ⟨List.append_nil cs, rfl⟩

/-! ## Plain characters -/

/-- The characters of mnemonics, labels and numerals: letters and digits in ASCII, `-` and `.`. -/
def isPlain (c : Char) : Bool :=
  c.isAlphanum || c == '-' || c == '.'

theorem toNat_of_isPlain (h : isPlain c = true) :
    (45 ≤ c.toNat ∧ c.toNat ≤ 57) ∨ (65 ≤ c.toNat ∧ c.toNat ≤ 122) := by
  -- the classes of characters as they are, ranges of numbers
  change ((decide ('A'.val ≤ c.val ∧ c.val ≤ 'Z'.val) ||
    decide ('a'.val ≤ c.val) && decide (c.val ≤ 'z'.val) ||
    decide ('0'.val ≤ c.val) && decide (c.val ≤ '9'.val)) || c == '-' || c == '.') = true at h
  simp only [Bool.or_eq_true, Bool.and_eq_true, decide_eq_true_eq, beq_iff_eq,
    UInt32.le_iff_toNat_le] at h
  rcases h with ((((⟨h, h'⟩ | ⟨h, h'⟩) | ⟨h, h'⟩) | rfl) | rfl)
  · exact .inr ⟨h, Nat.le_trans h' (by decide)⟩
  · exact .inr ⟨Nat.le_trans (by decide) h, h'⟩
  · exact .inl ⟨Nat.le_trans (by decide) h, h'⟩
  · exact .inl (by decide)
  · exact .inl (by decide)

theorem isBlank_of_isPlain (h : isPlain c = true) : isBlank c = false := by
  have hc := toNat_of_isPlain h
  simp only [isBlank, blankRanges, List.any_cons, List.any_nil, Bool.or_false,
    Bool.or_eq_false_iff, Bool.and_eq_false_iff, decide_eq_false_iff_not]
  omega

theorem isPlain_of_isDigit (h : c.isDigit = true) : isPlain c = true := by
  simp [isPlain, Char.isAlphanum, h]

/-- Marks do not stand between plain characters. -/
theorem not_mem_of_forall_isPlain (h : ∀ c ∈ cs, isPlain c = true) (hd : isPlain d = false) :
    d ∉ cs := fun hmem => by
  rw [h d hmem] at hd
  cases hd

theorem le_of_isPlain (h : isPlain c = true) : ' ' ≤ c := by
  have := toNat_of_isPlain h
  refine UInt32.le_iff_toNat_le.2 ?_
  change 32 ≤ c.toNat
  omega

theorem printable_of_forall_isPlain (h : ∀ c ∈ cs, isPlain c = true) : Printable cs :=
  fun c hc => le_of_isPlain (h c hc)

/-- Whether a text is a word of plain characters. -/
structure IsWord (w : List Char) : Prop where
  ne_nil : w ≠ []
  isPlain : ∀ c ∈ w, isPlain c = true

instance (w : List Char) : Decidable (IsWord w) :=
  decidable_of_iff (w ≠ [] ∧ w.all Text.isPlain)
    ⟨fun ⟨hne, h⟩ => ⟨hne, List.all_eq_true.1 h⟩, fun h => ⟨h.ne_nil, List.all_eq_true.2 h.isPlain⟩⟩

/-- Plain words with a blank between each two are split again. -/
theorem words_intercalate_of_isWord {ws : List (List Char)} (h : ∀ w ∈ ws, IsWord w) :
    words ([' '].intercalate ws) = ws :=
  words_intercalate fun w hw =>
    ⟨(h w hw).ne_nil, fun c hc => isBlank_of_isPlain ((h w hw).isPlain c hc)⟩

/-- There are only plain characters and blanks in words with a blank between each two. -/
theorem isPlain_or_eq_of_mem_intercalate {ws : List (List Char)} (h : ∀ w ∈ ws, IsWord w) :
    ∀ c ∈ [' '].intercalate ws, isPlain c = true ∨ c = ' ' := by
  induction ws with
  | nil => exact List.forall_mem_nil _
  | cons w ws ih =>
    obtain ⟨hw, hws⟩ := List.forall_mem_cons.1 h
    have hword : ∀ c ∈ w, Text.isPlain c = true ∨ c = ' ' := fun c hc => .inl (hw.isPlain c hc)
    cases ws with
    | nil =>
      rw [List.intercalate_singleton]
      exact hword
    | cons w' ws =>
      rw [List.intercalate_cons_cons]
      exact List.forall_mem_append.2 ⟨List.forall_mem_append.2
        ⟨hword, List.forall_mem_singleton.2 (.inr rfl)⟩, ih hws⟩

theorem isWord_digits (n : Nat) : IsWord (digits n) where
  ne_nil := digits_ne_nil n
  isPlain c hc := isPlain_of_isDigit (List.all_eq_true.1 (all_isDigit_digits n) c hc)

theorem isWord_integerDigits (i : Int) : IsWord (integerDigits i) := by
  rw [integerDigits]
  split
  · exact ⟨List.cons_ne_nil _ _, List.forall_mem_cons.2 ⟨rfl, (isWord_digits _).isPlain⟩⟩
  · exact isWord_digits _

end StackMachine.Text
