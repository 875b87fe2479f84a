import StackMachine.Proofs.Trace

/-!
# Nesting in traces

The printer of traces does not see the call stack. It takes the number of active calls from the
events of calls and counts it down at returns, with the line of an event written before or after
that. Still the lines are indented as the calls are nested: what the printer counts is the number of
callers that are suspended.

* `Event.Balanced`, `Event.exists_call_eq`: what lies between a call and the return from it, and
  that every return has its call;
* `Machine.Announced`: the state in which an instruction is announced;
* `Printer.depth_after`: what the printer counts;
* `trace_nested`: the indentation of the lines of a trace.
-/

namespace StackMachine

open Text Event

namespace Event

/-! ## Calls and returns -/

/-- Every call is left again, and nothing else is. -/
structure Balanced (es : List Event) : Prop where
  count_eq : es.countP isRet = es.countP isCall
  le_of_prefix {pre : List Event} : pre <+: es → pre.countP isRet ≤ pre.countP isCall

/-- If more calls were entered than left, then there is a last one that was not left. -/
theorem exists_call_eq {es : List Event} (h : es.countP isRet < es.countP isCall) :
    ∃ before target depth mid, es = before ++ .call target depth :: mid ∧ Balanced mid := by
  suffices (∃ before target depth mid, es = before ++ .call target depth :: mid ∧ Balanced mid) ∨
      ∀ post, post <:+ es → post.countP isCall ≤ post.countP isRet by
    rcases this with hcall | hnone
    · exact hcall
    · exact absurd (hnone es List.suffix_rfl) (Nat.not_le.2 h)
  clear h
  induction es with
  | nil => exact .inr fun post hpost => by rw [List.suffix_nil.1 hpost]; exact Nat.le_refl _
  | cons e es ih =>
    rcases ih with ⟨before, target, depth, mid, rfl, hmid⟩ | hnone
    · exact .inl ⟨e :: before, target, depth, mid, rfl, hmid⟩
    · by_cases hle : (e :: es).countP isCall ≤ (e :: es).countP isRet
      · refine .inr fun post hpost => ?_
        rcases List.suffix_cons_iff.1 hpost with rfl | hpost
        · exact hle
        · exact hnone post hpost
      · -- the call is the one, as nothing after it is open
        have hes := hnone es List.suffix_rfl
        cases e with
        | call target depth =>
          simp only [List.countP_cons, isCall, isRet, if_true, Bool.false_eq_true, if_false] at hle
          refine .inl ⟨[], target, depth, es, rfl, by omega, ?_⟩
          rintro pre ⟨post, rfl⟩
          have hpost := hnone post (List.suffix_append pre post)
          simp only [List.countP_append] at hle hes
          omega
        | step | ret | halt | fault =>
          simp only [List.countP_cons, isCall, isRet, if_true, Bool.false_eq_true, if_false] at hle
          omega

end Event

namespace Machine

variable {p : Program} {limits : Limits}

/-! ## Announcements -/

/-- `Announced es e`: if the event `e` announces an instruction, then it is announced in the state
    that the run has got to after the events `es`. -/
def Announced (p : Program) (limits : Limits) (es : List Event) (e : Event) : Prop :=
  ∀ offset i depth, e = .step offset i depth →
    ∃ n m, Emitted p limits n m es ∧ p.fetch? m.pc = some ⟨offset, i⟩

theorem announced_of_emitted {n : Nat} {m : Machine} {es : List Event} {i : Placed}
    (h : Emitted p limits n m es) (hi : p.fetch? m.pc = some i) (depth : Nat) :
    Announced p limits es (.step i.offset i.instruction depth) := by
  rintro offset i depth ⟨⟩
  exact ⟨n, m, h, hi⟩

theorem announced_of_isStep_eq_false {es : List Event} {e : Event} (h : e.isStep = false) :
    Announced p limits es e := by
  rintro offset i depth rfl
  cases h

theorem Emitted.ordered_announced {n : Nat} {m : Machine} {es : List Event}
    (h : Emitted p limits n m es) : Ordered (Announced p limits) es := by
  induction h with
  | start => exact .nil
  | @step n m m' es i τ hm hi _ _ hm' ih =>
    rw [List.append_cons]
    have hordered := ih.concat (announced_of_emitted hm hi m.depth)
    cases τ with
    | next => rwa [Transition.events, List.append_nil]
    | called | returned => exact hordered.concat (announced_of_isStep_eq_false rfl)
    | halted => cases hm'

theorem Closes.ordered_announced {n steps : Nat} {m : Machine} {es last : List Event}
    {result : Except Fault Value} (h : Emitted p limits n m es)
    (hend : Closes p limits n m steps last result) :
    Ordered (Announced p limits) (es ++ last ++ [ending result]) := by
  have hlast : Ordered (Announced p limits) (es ++ last) := by
    cases hend with
    | incomplete | exhausted => rw [List.append_nil]; exact h.ordered_announced
    | fault hi | halted hi => exact h.ordered_announced.concat (announced_of_emitted h hi m.depth)
  refine hlast.concat (announced_of_isStep_eq_false ?_)
  cases result <;> rfl

/-- The events of a whole run: which may follow which, and in which states instructions are
    announced. -/
theorem ordered_events (p : Program) (limits : Limits) :
    Ordered (Follows p limits) (events p limits).observed.toList ∧
      Ordered (Announced p limits) (events p limits).observed.toList := by
  obtain ⟨n, m, es, steps, last, result, hm, hend, hrun⟩ := execute_eq_foldl p limits
  have hevents : (events p limits).observed.toList = es ++ last ++ [ending result] := by
    rw [events, hrun]
    simp
  rw [hevents]
  exact ⟨(hm.account.close hend).2.2, hend.ordered_announced hm⟩

end Machine

open Machine

namespace Printer

variable {p : Program} {limits : Limits}

/-! ## Lines -/

/-- A printer of traces of `p` that has seen the events `es`. -/
def after (p : Program) (es : List Event) : Printer :=
  es.foldl observe { program := p }

/-- The line that an event adds. -/
def nextLine (t : Printer) : Event → StyledLine
  | .step offset i depth => t.stepLine offset i depth
  | .call target _ => t.eventLine .blue ("-> " ++ labelName target.toNat)
  | .ret v => { t with depth := t.depth - 1 }.eventLine .blue ("<- " ++ v.display)
  | .halt v => t.eventLine .green ("=> " ++ v.display)
  | .fault f => t.eventLine .red ("!! " ++ f.message)

theorem after_concat (p : Program) (es : List Event) (e : Event) :
    after p (es ++ [e]) = (after p es).observe e :=
  List.foldl_concat ..

theorem lines_observe (t : Printer) (e : Event) :
    (t.observe e).lines = t.lines.push (t.nextLine e) := by
  cases e <;> rfl

/-- Every event adds one line. -/
theorem size_lines_after (p : Program) (es : List Event) : (after p es).lines.size = es.length := by
  induction es using List.reverseRecOn with
  | nil => rfl
  | append_singleton es e ih =>
    rw [after_concat, lines_observe, Array.size_push, ih, List.length_append, List.length_singleton]

/-- The line of an event is written when the event is seen, and stays. -/
theorem lines_after_getElem? (p : Program) (pre : List Event) (e : Event) (post : List Event) :
    (after p (pre ++ e :: post)).lines[pre.length]? = some ((after p pre).nextLine e) := by
  induction post using List.reverseRecOn with
  | nil => rw [after_concat, lines_observe, ← size_lines_after p pre, Array.getElem?_push_size]
  | append_singleton post e' ih =>
    have hsize := size_lines_after p (pre ++ e :: post)
    have hne : pre.length ≠ (after p (pre ++ e :: post)).lines.size := by
      rw [hsize, List.length_append, List.length_cons]
      omega
    rw [← List.cons_append, ← List.append_assoc, after_concat, lines_observe, Array.getElem?_push,
      if_neg hne, ih]

/-- What a printer counts are the calls that were entered and not left. -/
theorem depth_after {es : List Event} (h : Ordered (Follows p limits) es) :
    (after p es).depth + es.countP isRet = es.countP isCall := by
  induction es using List.reverseRecOn with
  | nil => rfl
  | append_singleton es e ih =>
    obtain ⟨hes, he⟩ := h.of_concat
    have hdepth := ih hes
    rw [after_concat, List.countP_append, List.countP_append]
    cases he with
    | step | halt | fault => exact hdepth
    | call _ hcall => exact hcall
    | ret _ hlt =>
      have hcount : (after p es).depth - 1 + (es.countP isRet + 1) = es.countP isCall := by omega
      exact hcount

/-- A printer counts the callers that are suspended. -/
theorem depth_after_eq {n : Nat} {m : Machine} {es : List Event} (h : Emitted p limits n m es) :
    (after p es).depth = m.callers.depth := by
  have hdepth := depth_after h.account.ordered
  have hcount := h.account.callCount_eq
  omega

/-! ## Indentation -/

/-- Two blanks for each active call. -/
def indentation (calls : Nat) : String :=
  String.ofList (List.replicate (2 * calls) ' ')

theorem render_eventLine (t : Printer) (palette : Palette) (style : Style) (text : String) :
    palette.render (t.eventLine style text) =
      "      " ++ indentation t.depth ++ palette.start style ++ text ++ palette.reset := by
  simp [eventLine, Palette.render, Palette.renderSpan, plain, styled, indent, indentation,
    String.append_assoc]

/-- What comes after the column of instructions does not matter here. -/
theorem exists_render_stepLine (t : Printer) (palette : Palette) (offset : Nat) (i : Instruction)
    (depth : Nat) :
    ∃ columns, palette.render (t.stepLine offset i depth) =
      palette.start .dim ++ offsetDigits offset ++ palette.reset ++ "  " ++ indentation t.depth ++
        i.display ++ columns := by
  let text := t.indent ++ i.display
  let padding := String.ofList (List.replicate (instructionWidth - text.toList.length) ' ')
  refine ⟨padding ++ " " ++ palette.start .dim ++ "[" ++ decimal depth ++ "]" ++ palette.reset ++
    palette.render (Listing.lineRemark (t.sourceLines.lookup offset)), ?_⟩
  simp [text, padding, stepLine, Palette.render, Palette.renderSpan, plain, styled, indent,
    indentation, padRight, String.append_assoc]

/-- How the trace `t` of the events `es` shows the calls that are active. -/
structure ShowsNesting (p : Program) (limits : Limits) (es : List Event) (t : Printer) : Prop where
  /-- The printer has seen the events and nothing else. -/
  eq_after : t = after p es
  size_lines : t.lines.size = es.length
  /-- A line is written for every event when it is seen. -/
  line {pre post : List Event} {e : Event} : es = pre ++ e :: post →
    ∃ line, (after p (pre ++ [e])).lines = (after p pre).lines.push line ∧
      t.lines[pre.length]? = some line
  /-- The line of an instruction is indented by the number of suspended callers, which is what the
      printer counts when it sees the instruction announced. -/
  step {pre post : List Event} {offset depth : Nat} {i : Instruction} :
    es = pre ++ .step offset i depth :: post →
      ∃ m, Reached p limits (pre.countP isStep) m ∧ p.fetch? m.pc = some ⟨offset, i⟩ ∧
        (after p pre).depth = m.callers.depth ∧
        ∀ palette, ∃ columns, (t.render palette)[pre.length]? =
          some (palette.start .dim ++ offsetDigits offset ++ palette.reset ++ "  " ++
            indentation m.callers.depth ++ i.display ++ columns)
  /-- The lines of a call and of the return from it have the indentation of the caller. -/
  call {pre post : List Event} {target : UInt32} {depth : Nat} :
    es = pre ++ .call target depth :: post →
      ∃ before offset argc locals operands m,
        pre = before ++ [.step offset (.call target argc locals) operands] ∧
        Reached p limits (before.countP isStep) m ∧
        p.fetch? m.pc = some ⟨offset, .call target argc locals⟩ ∧
        ∀ palette,
          (t.render palette)[pre.length]? =
            some ("      " ++ indentation m.callers.depth ++ palette.start .blue ++
              ("-> " ++ labelName target.toNat) ++ palette.reset) ∧
          ∀ mid v rest, post = mid ++ .ret v :: rest → Balanced mid →
            (t.render palette)[pre.length + 1 + mid.length]? =
              some ("      " ++ indentation m.callers.depth ++ palette.start .blue ++
                ("<- " ++ v.display) ++ palette.reset)
  /-- Every return is the one from some call, so there is a call to count down. -/
  ret {pre post : List Event} {v : Value} : es = pre ++ .ret v :: post →
    0 < (after p pre).depth ∧
      ∃ before target depth mid, pre = before ++ .call target depth :: mid ∧ Balanced mid

end Printer

open Printer

theorem trace_eq_after (p : Program) (limits : Limits) :
    (trace p limits).observed = after p (events p limits).observed.toList :=
  trace_eq_foldl p limits

section

variable {p : Program} {limits : Limits} {es pre post : List Event} {e : Event}

theorem Printer.render_getElem? (p : Program) (palette : Palette) (h : es = pre ++ e :: post) :
    ((after p es).render palette)[pre.length]? =
      some (palette.render ((after p pre).nextLine e)) := by
  rw [render, List.getElem?_map, Array.getElem?_toList, h, lines_after_getElem?, Option.map_some]

end

/-- A return is counted down to what was counted before the call. -/
theorem Printer.depth_after_balanced {mid : List Event} {target : UInt32} {depth : Nat} {v : Value}
    (h : Ordered (Follows p limits) (pre ++ .call target depth :: mid ++ .ret v :: post))
    (hmid : Balanced mid) :
    (after p (pre ++ .call target depth :: mid)).depth - 1 = (after p pre).depth := by
  have hbefore := depth_after (p := p) h.of_append.of_append
  have hreturn := depth_after (p := p) h.of_append
  have hcount := hmid.count_eq
  simp only [List.countP_append, List.countP_cons, isCall, isRet, if_true, Bool.false_eq_true,
    if_false] at hreturn
  omega

/-- A trace shows how calls are nested. It has one line for each event, in their order. What the
    printer counts is the number of suspended callers at every instruction, so the lines of
    instructions are indented by that. The lines of a call and of the return from it have the
    indentation of the caller, and there is a call to count down for every return. -/
theorem trace_nested (p : Program) (limits : Limits) :
    ShowsNesting p limits (events p limits).observed.toList (trace p limits).observed := by
  obtain ⟨hfollows, hannounced⟩ := ordered_events p limits
  rw [trace_eq_after]
  refine
    { eq_after := rfl
      size_lines := size_lines_after p _
      line := ?_
      step := ?_
      call := ?_
      ret := ?_ }
  · rintro pre post e hes
    refine ⟨(after p pre).nextLine e, ?_, ?_⟩
    · rw [after_concat, lines_observe]
    · rw [hes, lines_after_getElem?]
  · rintro pre post offset depth i hes
    obtain ⟨n, m, hm, hi⟩ := hannounced _ _ _ hes _ _ _ rfl
    have hdepth := depth_after_eq hm
    refine ⟨m, hm.account.stepCount_eq ▸ hm.account.reached, hi, hdepth, fun palette => ?_⟩
    obtain ⟨columns, hline⟩ := exists_render_stepLine (after p pre) palette offset i depth
    refine ⟨columns, ?_⟩
    rw [render_getElem? p palette hes, nextLine, hline, hdepth]
  · rintro pre post target depth hes
    cases hfollows _ _ _ hes with
    | @call _ argc locals offset operands _ hlast _ =>
      obtain ⟨before, rfl⟩ := List.getLast?_eq_some_iff.1 hlast
      obtain ⟨n, m, hm, hi⟩ := hannounced _ _ _ (hes.trans (List.append_cons ..).symm) _ _ _ rfl
      -- the announcement of the call does not count
      have hdepth : (after p (before ++ [.step offset (.call target argc locals) operands])).depth =
          m.callers.depth := by
        rw [after_concat, ← depth_after_eq hm]
        rfl
      refine ⟨before, offset, argc, locals, operands, m, rfl,
        hm.account.stepCount_eq ▸ hm.account.reached, hi, fun palette => ⟨?_, ?_⟩⟩
      · rw [render_getElem? p palette hes, nextLine, render_eventLine, hdepth]
      · rintro mid v rest rfl hmid
        have hes := hes.trans
          (List.append_assoc _ (.call target depth :: mid) (.ret v :: rest)).symm
        have hreturn := (depth_after_balanced (hes ▸ hfollows) hmid).trans hdepth
        have hline := render_getElem? p palette hes
        rw [List.length_append, List.length_cons, Nat.add_comm mid.length, ← Nat.add_assoc] at hline
        rw [hline, nextLine, render_eventLine, hreturn]
  · rintro pre post v hes
    cases hfollows _ _ _ hes with
    | ret _ hlt =>
      have hdepth := depth_after (p := p) (hes ▸ hfollows).of_append
      exact ⟨by omega, exists_call_eq hlt⟩

-- A call, the function that it calls, and the return to the top level.
example : ((trace .addition {}).observed.render .off).drop 2 =
    ["0018  call L0027 2 3         [2]",
     "      -> L0027",
     "0027    load 0               [0]",
     "0030    load 1               [1]",
     "0033    add                  [2]",
     "0034    ret                  [1]",
     "      <- 42",
     "0026  halt                   [1]",
     "      => 42"] := by
  decide +kernel

end StackMachine
