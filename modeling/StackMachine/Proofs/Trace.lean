import StackMachine.Proofs.Image.Lines
import StackMachine.Proofs.Image.Listing
import StackMachine.Proofs.Machine.Events
import StackMachine.Trace

/-!
# Source lines in traces and listings

A trace has a line for each event of a run, and the line of an instruction ends with a remark on its
source line, as its line in the listing does. The printer of traces looks source lines up in a table
of its own, which says the same as the program.

* `remark?`: the remark in a line;
* `Program.lookup_sourceLines`: the table of the printer;
* `Printer.forall₂_foldl_observe`: the lines of any events;
* `Program.load_lines`: the source line of an offset is that of the first pair with that offset
  in the debug section, and the same one in traces and listings.
-/

namespace StackMachine

open Text

/-! ## Remarks -/

/-- What stands behind the first `;` in a line. -/
def remark? (line : String) : Option String :=
  (cutAt ';' line.toList).2.map String.ofList

/-- The remark on a source line, which ends with the end of its style. -/
def lineRemark? (palette : Palette) (line? : Option UInt32) : Option String :=
  line?.map fun line => " line " ++ decimal line.toNat ++ palette.reset

namespace Palette

theorem semicolon_not_mem_start (enabled : Bool) (style : Style) :
    ';' ∉ ((ofBool enabled).start style).toList := by
  cases enabled <;> cases style <;> decide

theorem semicolon_not_mem_reset (enabled : Bool) : ';' ∉ (ofBool enabled).reset.toList := by
  cases enabled <;> decide

theorem toList_render_append (palette : Palette) (line line' : StyledLine) :
    (palette.render (line ++ line')).toList =
      (palette.render line).toList ++ (palette.render line').toList := by
  rw [render, render, render, List.map_append, String.join_append, String.toList_append]

/-- Styles do not make a text a remark. -/
theorem semicolon_not_mem_render {enabled : Bool} {line : StyledLine}
    (h : ∀ s ∈ line, ';' ∉ s.text.toList) : ';' ∉ ((ofBool enabled).render line).toList := by
  rw [render, String.toList_join, List.flatMap_map, List.mem_flatMap]
  rintro ⟨⟨style, text⟩, hs, hmem⟩
  have htext : ';' ∉ text.toList := h _ hs
  cases style with
  | none => exact htext hmem
  | some style =>
    simp only [renderSpan, String.toList_append, List.mem_append, htext,
      semicolon_not_mem_start, semicolon_not_mem_reset, or_self] at hmem

end Palette

/-- A line without any `;` has the remark that is put behind it. -/
theorem remark?_render_append (enabled : Bool) {line : StyledLine}
    (h : ∀ s ∈ line, ';' ∉ s.text.toList) (line? : Option UInt32) :
    remark? ((Palette.ofBool enabled).render (line ++ Listing.lineRemark line?)) =
      lineRemark? (Palette.ofBool enabled) line? := by
  have hline := @Palette.semicolon_not_mem_render enabled line h
  rw [remark?, Palette.toList_render_append]
  cases line? with
  | none =>
    have hnone : ((Palette.ofBool enabled).render (Listing.lineRemark none)).toList = [] := rfl
    rw [hnone, List.append_nil, cutAt_of_not_mem hline]
    rfl
  | some n =>
    have hsome : ((Palette.ofBool enabled).render (Listing.lineRemark (some n))).toList =
        "  ".toList ++ ((Palette.ofBool enabled).start .dim).toList ++
          ';' :: (" line " ++ decimal n.toNat ++ (Palette.ofBool enabled).reset).toList := by
      simp [Palette.render, Palette.renderSpan, Listing.lineRemark, plain, styled]
    have hfront : ';' ∉ ((Palette.ofBool enabled).render line).toList ++
        ("  ".toList ++ ((Palette.ofBool enabled).start .dim).toList) :=
      List.not_mem_append hline (List.not_mem_append (by decide)
        (Palette.semicolon_not_mem_start enabled .dim))
    rw [hsome, ← List.append_assoc, cutAt_append_cons hfront, Option.map_some, String.ofList_toList]
    rfl

theorem semicolon_not_mem_decimal (n : Nat) : ';' ∉ (decimal n).toList := by
  rw [decimal, String.toList_ofList]
  exact not_mem_of_forall_isPlain (isWord_digits n).isPlain rfl

theorem semicolon_not_mem_offsetDigits (offset : Nat) : ';' ∉ (offsetDigits offset).toList :=
  not_mem_of_forall_isPlain
    (fun c hc => isPlain_of_isDigit (forall_isDigit_offsetDigits offset c hc)) rfl

/-! ## Listings -/

/-- The line of an instruction in a listing has a remark on its source line. -/
theorem Listing.remark?_instructionLine (p : Program) (i : Placed) (enabled : Bool) :
    remark? ((Palette.ofBool enabled).render (instructionLine p i)) =
      lineRemark? (Palette.ofBool enabled) (p.lineFor? i.offset) := by
  have hdisplay : ';' ∉ i.instruction.display.toList :=
    i.instruction.not_mem_display rfl (by decide)
  refine remark?_render_append enabled ?_ _
  simp [plain, styled, semicolon_not_mem_offsetDigits, hdisplay]

/-- The line of an instruction is one of the lines of the listing. -/
theorem exists_dump_eq {p : Program} {i : Placed} (hi : i ∈ p.code.toList) (palette : Palette) :
    ∃ before after, dump p palette =
      before ++ palette.render (Listing.instructionLine p i) ++ "\n" ++ after := by
  have hline : Listing.instructionLine p i ∈ Listing.ofProgram p := by
    rw [Listing.ofProgram_eq]
    exact List.mem_append_right _ (List.mem_cons_of_mem _ (List.mem_flatMap.2
      ⟨i, hi, List.mem_append_right _ List.mem_cons_self⟩))
  obtain ⟨before, after, hlines⟩ := List.append_of_mem hline
  refine ⟨String.join (before.map fun line => palette.render line ++ "\n"),
    String.join (after.map fun line => palette.render line ++ "\n"), ?_⟩
  rw [dump, hlines, List.map_append, List.map_cons, String.join_append, String.join_cons,
    ← String.append_assoc, ← String.append_assoc]

/-! ## Traces -/

namespace Program

variable {p : Program} (h : p.IsLoaded)

include h

/-- The table of the printer says what the program says. -/
theorem lookup_sourceLines (offset : Nat) : p.sourceLines.lookup offset = p.lineFor? offset := by
  have hfind {e : LineEntry} := @LineEntry.find?_eq_some_iff e _ offset (pairwise_lines h)
  have hmem (line : UInt32) : (offset, line) ∈ p.sourceLines ↔
      (p.lines.toList.find? (·.offset.toNat = offset)).map (·.line) = some line := by
    simp only [sourceLines, List.mem_map, List.mem_reverse, Prod.mk.injEq, Option.map_eq_some_iff,
      hfind, and_assoc]
  -- No offset is in the table twice, so it does not matter from which end it is searched.
  rw [lineFor?_eq_find? h]
  cases hlookup : p.sourceLines.lookup offset with
  | none =>
    refine (Option.eq_none_iff_forall_ne_some.2 fun line hline => ?_).symm
    have hne := List.lookup_eq_none_iff.1 hlookup _ ((hmem line).2 hline)
    exact bne_iff_ne.1 hne rfl
  | some line =>
    obtain ⟨before, after, hlines, -⟩ := List.lookup_eq_some_iff.1 hlookup
    refine ((hmem line).1 ?_).symm
    rw [hlines]
    exact List.mem_append_right _ List.mem_cons_self

end Program

namespace Printer

variable {p : Program}

/-- `Shows p palette e line`: the line of an instruction has a remark on its source line. -/
def Shows (p : Program) (palette : Palette) (e : Event) (line : String) : Prop :=
  ∀ offset i depth, e = .step offset i depth →
    remark? line = lineRemark? palette (p.lineFor? offset)

theorem remark?_stepLine {t : Printer}
    (ht : ∀ offset, t.sourceLines.lookup offset = p.lineFor? offset) (enabled : Bool)
    (offset : Nat) (i : Instruction) (depth : Nat) :
    remark? ((Palette.ofBool enabled).render (t.stepLine offset i depth)) =
      lineRemark? (Palette.ofBool enabled) (p.lineFor? offset) := by
  have hdisplay : ';' ∉ i.display.toList := i.not_mem_display rfl (by decide)
  rw [← ht]
  refine remark?_render_append enabled ?_ _
  simp [plain, styled, semicolon_not_mem_offsetDigits, semicolon_not_mem_decimal, hdisplay, indent,
    padRight]

/-- An event adds a line to those before it, and the table does not change. -/
theorem observe_spec {t : Printer}
    (ht : ∀ offset, t.sourceLines.lookup offset = p.lineFor? offset) (enabled : Bool) (e : Event) :
    ∃ line, (t.observe e).lines = t.lines.push line ∧
      (t.observe e).sourceLines = t.sourceLines ∧
      Shows p (.ofBool enabled) e ((Palette.ofBool enabled).render line) := by
  cases e with
  | step offset i depth =>
    refine ⟨_, rfl, rfl, fun _ _ _ he => ?_⟩
    cases he
    exact remark?_stepLine ht enabled offset i depth
  | call | ret | halt | fault => exact ⟨_, rfl, rfl, nofun⟩

/-- The printer has a line for each event. -/
theorem forall₂_foldl_observe (h : p.IsLoaded) (enabled : Bool) (es : List Event) :
    List.Forall₂ (Shows p (.ofBool enabled)) es
      ((es.foldl observe { program := p }).render (.ofBool enabled)) := by
  suffices List.Forall₂ (Shows p (.ofBool enabled)) es
      ((es.foldl observe { program := p }).render (.ofBool enabled)) ∧
      (es.foldl observe { program := p }).sourceLines = p.sourceLines from this.1
  -- by the last event, before which the table is still that of the program
  induction es using List.reverseRecOn with
  | nil => exact ⟨.nil, rfl⟩
  | append_singleton es e ih =>
    obtain ⟨hshows, htable⟩ := ih
    have hlookup (offset : Nat) := htable ▸ Program.lookup_sourceLines h offset
    obtain ⟨line, hline, htable', hlast⟩ := observe_spec hlookup enabled e
    rw [List.foldl_concat, render, hline, Array.toList_push, List.map_append]
    exact ⟨List.rel_append hshows (.cons hlast .nil), htable'.trans htable⟩

end Printer

/-- The printer sees the events of the run. -/
theorem trace_eq_foldl (p : Program) (limits : Limits) :
    (trace p limits).observed =
      (events p limits).observed.toList.foldl Printer.observe { program := p } := by
  obtain ⟨_, _, es, _, last, result, -, -, hrun⟩ := Machine.execute_eq_foldl p limits
  have hevents : (events p limits).observed = (es ++ last ++ [Event.ending result]).toArray := by
    rw [events, hrun]
    exact List.foldl_push_eq_append.trans (by simp)
  rw [trace, hrun, hevents]

/-- A debug section is a list of pairs of an offset and a line. The line of an offset is that of the
    first pair with the offset, and there is none if there is no such pair. The entries of the
    program are these first pairs and no others, with ascending offsets. The line that is shown with
    an instruction in traces and listings is the line of its offset. -/
theorem Program.load_lines {bytes : List UInt8} {p : Program} (hload : load bytes = .ok p) :
    p.linePairs.flatMap LineEntry.encode = p.debugBytes ∧
      (∀ offset, p.lineFor? offset =
        (p.linePairs.find? (·.offset.toNat = offset)).map (·.line)) ∧
      p.lines.toList.Pairwise (·.offset < ·.offset) ∧
      (∀ e, e ∈ p.lines.toList ↔
        p.linePairs.find? (·.offset.toNat = e.offset.toNat) = some e) ∧
      (∀ limits enabled, List.Forall₂ (Printer.Shows p (.ofBool enabled))
        (events p limits).observed.toList
        ((trace p limits).observed.render (.ofBool enabled))) ∧
      (∀ enabled, ∀ i ∈ p.code.toList, ∃ before line after,
        dump p (.ofBool enabled) = before ++ line ++ "\n" ++ after ∧
          line = (Palette.ofBool enabled).render (Listing.instructionLine p i) ∧
          remark? line = lineRemark? (.ofBool enabled) (p.lineFor? i.offset)) := by
  obtain ⟨-, h⟩ := load_eq_ok_iff.1 hload
  refine ⟨flatMap_encode_linePairs h, lineFor?_eq h, pairwise_lines h, fun e => mem_lines_iff h,
    fun limits enabled => ?_, fun enabled i hi => ?_⟩
  · rw [trace_eq_foldl]
    exact Printer.forall₂_foldl_observe h enabled _
  · obtain ⟨before, after, hdump⟩ := exists_dump_eq hi (.ofBool enabled)
    exact ⟨before, _, after, hdump, rfl, Listing.remark?_instructionLine p i enabled⟩

/-- The pairs of the debug section go back and forth, and there are two for each of the offsets `0`
    and `1`. -/
def unsortedImage : List UInt8 :=
  imageMagic ++ [1, 0, 0, 0, 2, 0, 0, 0] ++
    [2, 0, 0, 0, 36, 0, 0, 0, 3, 0, 0, 0] ++ [3, 0, 0, 0, 39, 0, 0, 0, 32, 0, 0, 0] ++
    [0x00, 0x03, 0x4F] ++
    [1, 0, 0, 0, 9, 0, 0, 0] ++ [0, 0, 0, 0, 7, 0, 0, 0] ++ [1, 0, 0, 0, 8, 0, 0, 0] ++
    [0, 0, 0, 0, 6, 0, 0, 0]

theorem Program.load_lines_unsorted :
    ∃ p, load unsortedImage = .ok p ∧ p.lineFor? 0 = some 7 ∧ p.lineFor? 1 = some 9 ∧
      p.lineFor? 2 = none ∧ ⟨1, 8⟩ ∉ p.lines.toList := by
  have hload : load unsortedImage = .ok
      { bytes := unsortedImage, header := { sectionCount := 2 }
        sections := ⟨[⟨.code, 36, 3⟩, ⟨.debug, 39, 32⟩]⟩
        constants := #[], lines := #[⟨0, 7⟩, ⟨1, 9⟩]
        code := #[⟨0, .nop⟩, ⟨1, .pushTrue⟩, ⟨2, .halt⟩] } := by
    decide +kernel
  obtain ⟨-, hline, -, hmem, -⟩ := load_lines hload
  refine ⟨_, hload, (hline 0).trans (by decide), (hline 1).trans (by decide),
    (hline 2).trans (by decide), fun h => ?_⟩
  exact absurd ((hmem _).1 h) (by decide)

end StackMachine
