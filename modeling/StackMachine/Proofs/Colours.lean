import StackMachine.Proofs.Trace.Nesting

/-!
# Colours do not change texts

Listings and traces are coloured by escape sequences around some spans of their lines. No text that
is shown has an escape character of its own, and no column is measured with escape sequences in it,
so without them a coloured text is the one without colours.

* `Text.dropEscapes`: a text without its escape sequences;
* `Palette.dropEscapes_render_on`: a coloured line without them;
* `Listing.printable_ofProgram`, `Printer.printable_lines_after`: the lines of listings and traces;
* `eraseEscapes_on`: listings and traces with colours and without.
-/

namespace StackMachine

namespace Text

variable {cs ds : List Char}

/-! ## Texts without control characters -/

theorem escape_not_mem_of_printable (h : Printable cs) : '\x1b' ∉ cs :=
  fun hmem => absurd (h _ hmem) (by decide)

theorem printable_replicate (n : Nat) : Printable (List.replicate n ' ') := by
  intro c hc
  have hblank : ' ' ≤ ' ' := by decide
  exact (List.eq_of_mem_replicate hc).symm ▸ hblank

theorem printable_toList_append {s t : String} (hs : Printable s.toList) (ht : Printable t.toList) :
    Printable (s ++ t).toList := by
  rw [String.toList_append]
  exact printable_append.2 ⟨hs, ht⟩

/-! ## Escape sequences -/

/-- What comes after the escape sequence that a text starts with: an escape character, `[`, digits
    and `m`. -/
def afterEscape? : List Char → Option (List Char)
  | '\x1b' :: '[' :: d :: cs =>
    if d.isDigit then
      match cs.dropWhile Char.isDigit with
      | 'm' :: rest => some rest
      | _ => none
    else none
  | _ => none

theorem length_lt_of_afterEscape? (h : afterEscape? cs = some ds) : ds.length < cs.length := by
  unfold afterEscape? at h
  split at h
  · rename_i d rest
    split at h
    · split at h
      · rename_i hrest
        cases h
        have hle := (List.dropWhile_suffix Char.isDigit (l := rest)).length_le
        rw [hrest, List.length_cons] at hle
        simp only [List.length_cons]
        omega
      · cases h
    · cases h
  · cases h

/-- The characters of a text but for those of its escape sequences. -/
def dropEscapes (cs : List Char) : List Char :=
  match _h : afterEscape? cs with
  | some rest => dropEscapes rest
  | none =>
    match cs with
    | [] => []
    | c :: cs => c :: dropEscapes cs
termination_by cs.length
decreasing_by
  · exact length_lt_of_afterEscape? _h
  · exact Nat.lt_succ_self _

/-- A text without its escape sequences. -/
def eraseEscapes (s : String) : String :=
  String.ofList (dropEscapes s.toList)

theorem dropEscapes_of_some (h : afterEscape? cs = some ds) :
    dropEscapes cs = dropEscapes ds := by
  rw [dropEscapes]
  split
  · rename_i hrest
    cases h.symm.trans hrest
    rfl
  · rename_i hnone
    cases h.symm.trans hnone

theorem dropEscapes_nil : dropEscapes [] = [] := by
  rw [dropEscapes]
  rfl

theorem dropEscapes_cons {c : Char} (hc : c ≠ '\x1b') (cs : List Char) :
    dropEscapes (c :: cs) = c :: dropEscapes cs := by
  have hnone : afterEscape? (c :: cs) = none := by
    unfold afterEscape?
    split
    · rename_i heq
      cases heq
      exact absurd rfl hc
    · rfl
  rw [dropEscapes]
  split
  · rename_i hsome
    cases hnone.symm.trans hsome
  · rfl

/-- A text without escape characters stays as it is. -/
theorem dropEscapes_append (h : '\x1b' ∉ cs) (ds : List Char) :
    dropEscapes (cs ++ ds) = cs ++ dropEscapes ds := by
  induction cs with
  | nil => rfl
  | cons c cs ih =>
    rw [List.mem_cons, not_or] at h
    rw [List.cons_append, dropEscapes_cons (Ne.symm h.1), ih h.2, List.cons_append]

/-- Whether a text is an escape sequence. -/
def IsEscape (cs : List Char) : Prop :=
  ∃ d digits, cs = '\x1b' :: '[' :: d :: (digits ++ ['m']) ∧ (d :: digits).all Char.isDigit = true

theorem IsEscape.dropEscapes_append (h : IsEscape cs) (ds : List Char) :
    dropEscapes (cs ++ ds) = dropEscapes ds := by
  obtain ⟨d, digits, rfl, hdigits⟩ := h
  obtain ⟨hd, hdigits⟩ := List.forall_mem_cons.1 (List.all_eq_true.1 hdigits)
  have hdrop : (digits ++ 'm' :: ds).dropWhile Char.isDigit = 'm' :: ds :=
    (takeWhile_dropWhile_append hdigits ('m' :: ds) (by rintro c ⟨⟩; rfl)).2
  refine dropEscapes_of_some ?_
  simp [afterEscape?, hd, hdrop]

end Text

open Text

namespace Palette

/-! ## Lines -/

theorem isEscape_start_on (style : Style) : IsEscape (on.start style).toList := by
  cases style with
  | blue => exact ⟨'3', ['4'], rfl, rfl⟩
  | green => exact ⟨'3', ['2'], rfl, rfl⟩
  | red => exact ⟨'3', ['1'], rfl, rfl⟩
  | dim => exact ⟨'2', [], rfl, rfl⟩

theorem isEscape_reset_on : IsEscape on.reset.toList :=
  ⟨'0', [], rfl, rfl⟩

/-- Without escape sequences a span is its text, if that has no escape character. -/
theorem dropEscapes_renderSpan_on {s : Span} (h : '\x1b' ∉ s.text.toList) (cs : List Char) :
    dropEscapes ((on.renderSpan s).toList ++ cs) = s.text.toList ++ dropEscapes cs := by
  obtain ⟨style, text⟩ := s
  cases style with
  | none => exact dropEscapes_append h cs
  | some style =>
    rw [renderSpan, String.toList_append, String.toList_append, List.append_assoc,
      List.append_assoc, (isEscape_start_on style).dropEscapes_append, dropEscapes_append h,
      isEscape_reset_on.dropEscapes_append]

/-- Without escape sequences a line is its text. -/
theorem dropEscapes_render_on {line : StyledLine} (h : '\x1b' ∉ Listing.text line)
    (cs : List Char) :
    dropEscapes ((on.render line).toList ++ cs) = Listing.text line ++ dropEscapes cs := by
  induction line with
  | nil => rfl
  | cons s line ih =>
    have hrender : on.render (s :: line) = on.renderSpan s ++ on.render line := by
      rw [render, List.map_cons, String.join_cons]
      rfl
    have htext : Listing.text (s :: line) = s.text.toList ++ Listing.text line := rfl
    rw [htext, List.mem_append, not_or] at h
    rw [hrender, String.toList_append, List.append_assoc, dropEscapes_renderSpan_on h.1, ih h.2,
      htext, List.append_assoc]

theorem eraseEscapes_render_on {line : StyledLine} (h : '\x1b' ∉ Listing.text line) :
    eraseEscapes (on.render line) = off.render line := by
  have hdrop := dropEscapes_render_on h []
  rw [List.append_nil, dropEscapes_nil, List.append_nil] at hdrop
  rw [eraseEscapes, hdrop, ← Listing.toList_render_off, String.ofList_toList]

end Palette

/-! ## Listings -/

/-- Without escape sequences a listing is its lines. -/
theorem eraseEscapes_dump_on {p : Program} (h : p.IsLoaded) :
    eraseEscapes (dump p .on) = dump p .off := by
  have hprintable := Listing.printable_ofProgram h
  have hlines (ls : List StyledLine) (hls : ∀ line ∈ ls, Printable (Listing.text line)) :
      dropEscapes (ls.flatMap fun line => (Palette.on.render line ++ "\n").toList) =
        (ls.map Listing.text).flatMap (· ++ ['\n']) := by
    induction ls with
    | nil => exact dropEscapes_nil
    | cons line ls ih =>
      obtain ⟨hline, hls⟩ := List.forall_mem_cons.1 hls
      have hfeed : "\n".toList = ['\n'] := rfl
      rw [List.flatMap_cons, String.toList_append, List.append_assoc, hfeed,
        Palette.dropEscapes_render_on (escape_not_mem_of_printable hline), List.singleton_append,
        dropEscapes_cons (by decide), ih hls, List.map_cons, List.flatMap_cons, List.append_assoc,
        List.singleton_append]
  rw [eraseEscapes, dump, String.toList_join, List.flatMap_map, hlines _ hprintable,
    ← Listing.toList_dump_off, String.ofList_toList]

/-! ## Traces -/

theorem printable_mnemonic (op : Opcode) : Printable op.mnemonic.toList :=
  Listing.printable_of_isWord op.isWord_mnemonic.1

theorem Tag.printable_name (tag : Tag) : Printable tag.name.toList := by
  cases tag <;> decide

/-- The text of a fault has no control characters. -/
theorem Fault.printable_message (f : Fault) : Printable f.message.toList := by
  -- most texts are a number or a mnemonic between two fixed texts
  have hbetween {front back text : String} (hfront : Printable front.toList)
      (htext : Printable text.toList) (hback : Printable back.toList) :
      Printable (front ++ text ++ back).toList :=
    printable_toList_append (printable_toList_append hfront htext) hback
  cases f with
  | typeMismatch op lhs rhs =>
    have hkinds : Printable (operandKinds lhs rhs).toList := by
      cases rhs with
      | none => exact lhs.printable_name
      | some rhs => exact hbetween lhs.printable_name (by decide) rhs.printable_name
    exact printable_toList_append (hbetween (by decide) (printable_mnemonic op) (by decide)) hkinds
  | stackUnderflow op => exact hbetween (by decide) (printable_mnemonic op) (by decide)
  | divisionByZero op => exact hbetween (by decide) (printable_mnemonic op) (by decide)
  | incompleteProgram => decide
  | invalidJumpTarget target =>
    exact printable_toList_append (by decide) (Listing.printable_decimal _)
  | stackOverflow | budgetExceeded | callDepthExceeded | invalidConstant | invalidLocal =>
    exact hbetween (by decide) (Listing.printable_decimal _) (by decide)

namespace Printer

theorem printable_eventLine (t : Printer) (style : Style) {content : String}
    (h : Printable content.toList) : Printable (Listing.text (t.eventLine style content)) := by
  have htext : Listing.text (t.eventLine style content) =
      List.replicate (6 + 2 * t.depth) ' ' ++ content.toList := by
    simp [eventLine, Listing.text, plain, styled, indent, List.replicate_add, List.replicate_succ]
  rw [htext]
  exact printable_append.2 ⟨printable_replicate _, h⟩

theorem printable_stepLine (t : Printer) (offset : Nat) (i : Instruction) (depth : Nat) :
    Printable (Listing.text (t.stepLine offset i depth)) := by
  rw [stepLine, Listing.text, List.flatMap_append]
  refine printable_append.2 ⟨?_, Listing.printable_lineRemark _⟩
  simp [plain, styled, indent, padRight, printable_replicate]

theorem printable_nextLine (t : Printer) (e : Event) :
    Printable (Listing.text (t.nextLine e)) := by
  cases e with
  | step offset i depth => exact printable_stepLine t offset i depth
  | call target =>
    exact printable_eventLine t .blue (printable_toList_append (by decide)
      (Listing.printable_of_isWord (isWord_labelName _)))
  | ret v =>
    exact printable_eventLine _ .blue (printable_toList_append (by decide)
      (Listing.printable_display v))
  | halt v =>
    exact printable_eventLine t .green (printable_toList_append (by decide)
      (Listing.printable_display v))
  | fault f =>
    exact printable_eventLine t .red (printable_toList_append (by decide) f.printable_message)

/-- No line of a trace has control characters. -/
theorem printable_lines_after (p : Program) (es : List Event) :
    ∀ line ∈ (after p es).lines.toList, Printable (Listing.text line) := by
  induction es using List.reverseRecOn with
  | nil => exact nofun
  | append_singleton es e ih =>
    rw [after_concat, lines_observe, Array.toList_push, List.forall_mem_append]
    exact ⟨ih, List.forall_mem_singleton.2 (printable_nextLine _ e)⟩

end Printer

/-- Colours do not change a text. Without its escape sequences a listing with colours is the one
    without, and so is each line of a trace. -/
theorem eraseEscapes_on {image : List UInt8} {p : Program} (hload : Program.load image = .ok p) :
    eraseEscapes (dump p .on) = dump p .off ∧
      ∀ limits, ((trace p limits).observed.render .on).map eraseEscapes =
        (trace p limits).observed.render .off := by
  obtain ⟨-, h⟩ := Program.load_eq_ok_iff.1 hload
  refine ⟨eraseEscapes_dump_on h, fun limits => ?_⟩
  rw [trace_eq_after, Printer.render, Printer.render, List.map_map]
  refine List.map_congr_left fun line hline => ?_
  have hprintable := Printer.printable_lines_after p _ line hline
  exact Palette.eraseEscapes_render_on (escape_not_mem_of_printable hprintable)

/-- There are colours to erase. -/
theorem eraseEscapes_on_addition :
    dump .addition .on ≠ dump .addition .off ∧
      eraseEscapes (dump .addition .on) = dump .addition .off ∧
      (trace .addition {}).observed.render .on ≠ (trace .addition {}).observed.render .off ∧
      ((trace .addition {}).observed.render .on).map eraseEscapes =
        (trace .addition {}).observed.render .off := by
  obtain ⟨hdump, htrace⟩ := eraseEscapes_on Program.load_addition
  exact ⟨by decide +kernel, hdump, by decide +kernel, htrace {}⟩

end StackMachine
