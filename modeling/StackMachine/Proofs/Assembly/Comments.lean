import StackMachine.Assembly.Assembler
import StackMachine.Proofs.Text.Blank

/-!
# Comments and blanks

How an assembly text is set does not matter. A line may be indented, it may have blanks and a
comment behind it, and it may end in a line feed or in a carriage return and a line feed: what is
left of it without its comment and the blanks around is the same, and nothing else of it is looked
at.

* `Assembly.Dressed`: a line as it may be set in a text;
* `Assembly.code_dressed`: what is left of it;
* `Assembly.assemble_congr`: texts of the same lines, but for comments and blanks, are assembled
  alike;
* `Assembly.assemble_dressed`: in particular, any lines and these lines as they may be set.
-/

namespace StackMachine

open Text

namespace Assembly

/-- Nothing, or a comment. -/
inductive IsRemark : List Char → Prop
  | none : IsRemark []
  | comment {text : List Char} (h : '\n' ∉ text) : IsRemark (';' :: text)

/-- The two ends of lines. -/
inductive IsLineEnd : List Char → Prop
  | feed : IsLineEnd ['\n']
  | returnFeed : IsLineEnd ['\r', '\n']

/-- Whether a text consists of blanks that end no line. -/
def IsSpace (cs : List Char) : Prop :=
  ∀ c ∈ cs, isBlank c = true ∧ c ≠ '\n'

instance (cs : List Char) : Decidable (IsSpace cs) :=
  decidable_of_iff (cs.all fun c => isBlank c && c != '\n') (by simp [IsSpace])

/-- `Dressed line text`: the text is the line with blanks in front, blanks and a comment behind it,
    and an end. -/
inductive Dressed (line : List Char) : List Char → Prop
  | intro {indent blanks remark ending : List Char} (hindent : IsSpace indent)
    (hblanks : IsSpace blanks) (hremark : IsRemark remark) (hending : IsLineEnd ending) :
    Dressed line (indent ++ line ++ blanks ++ remark ++ ending)

section

variable {line indent blanks remark : List Char}

theorem IsSpace.isBlank (h : IsSpace blanks) : ∀ c ∈ blanks, Text.isBlank c = true :=
  fun c hc => (h c hc).1

theorem IsSpace.feed_not_mem (h : IsSpace blanks) : '\n' ∉ blanks :=
  fun hmem => (h _ hmem).2 rfl

theorem IsRemark.feed_not_mem (h : IsRemark remark) : '\n' ∉ remark := by
  cases h with
  | none => exact List.not_mem_nil
  | comment htext => exact List.not_mem_cons_of_ne_of_not_mem (by decide) htext

/-- What is left of a line with blanks around it and a comment. -/
theorem code_append (hindent : IsSpace indent) (hblanks : IsSpace blanks)
    (hremark : IsRemark remark) : code (indent ++ line ++ blanks ++ remark) = code line := by
  have hkeep {cs : List Char} (h : IsSpace cs) : ∀ c ∈ cs, (c != ';') = true := fun c hc => by
    refine bne_iff_ne.2 ?_
    rintro rfl
    cases (h _ hc).1
  have hremark : remark.takeWhile (· != ';') = [] := by
    cases hremark <;> rfl
  rw [code, code, fst_cutAt, fst_cutAt, List.append_assoc, List.append_assoc,
    List.takeWhile_append_of_pos (hkeep hindent), trim_of_forall_blank_append hindent.isBlank]
  by_cases hline : ∀ c ∈ line, (c != ';') = true
  · rw [List.takeWhile_append_of_pos hline, List.takeWhile_append_of_pos (hkeep hblanks), hremark,
      List.append_nil, trim_append_of_forall_blank hblanks.isBlank,
      List.takeWhile_eq_self_iff.2 hline]
  · -- the line has a comment already, and all that is behind it becomes a part of that
    rw [List.takeWhile_append, if_neg]
    intro hlen
    have hself := (List.takeWhile_prefix (p := (· != ';')) (l := line)).eq_of_length hlen
    exact hline (List.takeWhile_eq_self_iff.1 hself)

/-- A carriage return at its end does not matter. -/
theorem code_dropReturn (line : List Char) : code (dropReturn line) = code line := by
  rw [dropReturn]
  split
  · rename_i hlast
    obtain ⟨cs, rfl⟩ := List.getLast?_eq_some_iff.1 hlast
    have hcode := @code_append cs [] ['\r'] [] (by decide) (by decide) .none
    rw [List.nil_append, List.append_nil] at hcode
    rw [List.dropLast_concat, hcode]
  · rfl

end

/-! ## Texts -/

/-- Only what is left of a line is looked at. -/
theorem readLine_congr {line line' : List Char} (h : code line = code line')
    (defined : List String) : readLine defined line = readLine defined line' := by
  rw [readLine, h, readLine]

theorem readLines_congr {ls ls' : List (List Char)} (h : ls.map code = ls'.map code)
    (defined : List String) (number : Nat) :
    readLines defined number ls = readLines defined number ls' := by
  induction ls generalizing ls' defined number with
  | nil => rw [List.map_eq_nil_iff.1 h.symm]
  | cons line ls ih =>
    obtain ⟨line', ls', rfl, hline, hls⟩ := List.map_eq_cons_iff.1 h.symm
    simp only [readLines, readLine_congr hline.symm, ih hls.symm]

/-- Texts with the same lines, but for comments and blanks, have the same image or the same
    error. -/
theorem assemble_congr {source source' : String}
    (h : (lines source.toList).map code = (lines source'.toList).map code) :
    assemble source = assemble source' := by
  have hlen : (lines source.toList).length = (lines source'.toList).length := by
    rw [← List.length_map code, h, List.length_map]
  simp only [assemble, readLines_congr h, hlen]

/-- A line as it may be set is one line, and the same is left of it. -/
theorem exists_body_of_dressed {line text : List Char} (hline : '\n' ∉ line)
    (h : Dressed line text) : ∃ body, text = body ++ ['\n'] ∧ '\n' ∉ body ∧
      code (dropReturn body) = code line := by
  obtain ⟨hindent, hblanks, hremark, hending⟩ := h
  rename_i indent blanks remark ending
  have hcode := @code_append line _ _ _ hindent hblanks hremark
  have hbody : '\n' ∉ indent ++ line ++ blanks ++ remark :=
    List.not_mem_append (List.not_mem_append
      (List.not_mem_append hindent.feed_not_mem hline) hblanks.feed_not_mem) hremark.feed_not_mem
  cases hending with
  | feed => exact ⟨_, rfl, hbody, (code_dropReturn _).trans hcode⟩
  | returnFeed =>
    refine ⟨indent ++ line ++ blanks ++ remark ++ ['\r'],
      (List.append_assoc _ ['\r'] ['\n']).symm, List.not_mem_append hbody (by decide), ?_⟩
    rw [dropReturn_append_return, hcode]

theorem exists_bodies_of_dressed {ls texts : List (List Char)} (hls : ∀ l ∈ ls, '\n' ∉ l)
    (h : List.Forall₂ Dressed ls texts) : ∃ bodies : List (List Char),
      texts.flatten = bodies.flatMap (· ++ ['\n']) ∧ (∀ body ∈ bodies, '\n' ∉ body) ∧
      bodies.map (code ∘ dropReturn) = ls.map code := by
  induction h with
  | nil => exact ⟨[], rfl, List.forall_mem_nil _, rfl⟩
  | cons hline _ ih =>
    obtain ⟨hfeed, hls⟩ := List.forall_mem_cons.1 hls
    obtain ⟨body, rfl, hbody, hcode⟩ := exists_body_of_dressed hfeed hline
    obtain ⟨bodies, htexts, hbodies, hcodes⟩ := ih hls
    refine ⟨body :: bodies, ?_, List.forall_mem_cons.2 ⟨hbody, hbodies⟩, ?_⟩
    · rw [List.flatten_cons, htexts, List.flatMap_cons]
    · rw [List.map_cons, hcodes, List.map_cons, Function.comp_apply, hcode]

/-- A text of lines with a line feed after each, and the same lines with any blanks before them,
    blanks and comments behind them and either of the line ends, have the same image, or else the
    same error in the same line. -/
theorem assemble_dressed {ls texts : List (List Char)} (hls : ∀ l ∈ ls, '\n' ∉ l)
    (h : List.Forall₂ Dressed ls texts) :
    assemble (String.ofList texts.flatten) =
      assemble (String.ofList (ls.flatMap (· ++ ['\n']))) := by
  obtain ⟨bodies, htexts, hbodies, hcodes⟩ := exists_bodies_of_dressed hls h
  refine assemble_congr ?_
  rw [String.toList_ofList, String.toList_ofList, htexts, lines_flatMap_feed hbodies,
    lines_flatMap_feed hls, List.map_map, hcodes, List.map_map]
  exact List.map_congr_left fun line _ => (code_dropReturn line).symm

/-- A program of three lines, the last one of which is misspelt, and how it may be set as well. -/
theorem assemble_dressed_misspelt :
    assemble "\tstart: nop ; .const 1\r\njmp start ; back;a: \u2003\n\u2003push.q 2 \r\n" =
      assemble "start: nop\njmp start ; back\npush.q 2\n" ∧
    assemble "start: nop\njmp start ; back\npush.q 2\n" =
      .error ⟨3, .unknownMnemonic "push.q"⟩ := by
  have hfirst : Dressed "start: nop".toList "\tstart: nop ; .const 1\r\n".toList :=
    @Dressed.intro _ "\t".toList " ".toList "; .const 1".toList _ (by decide) (by decide)
      (.comment (by decide)) .returnFeed
  have hsecond : Dressed "jmp start ; back".toList "jmp start ; back;a: \u2003\n".toList :=
    @Dressed.intro _ [] [] ";a: \u2003".toList _ (by decide) (by decide) (.comment (by decide))
      .feed
  have hthird : Dressed "push.q 2".toList "\u2003push.q 2 \r\n".toList :=
    @Dressed.intro _ "\u2003".toList " ".toList _ _ (by decide) (by decide) .none .returnFeed
  exact ⟨assemble_dressed (by decide) (.cons hfirst (.cons hsecond (.cons hthird .nil))),
    by decide +kernel⟩

end Assembly

end StackMachine
