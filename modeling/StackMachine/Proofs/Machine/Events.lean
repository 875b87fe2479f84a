import Mathlib.Data.List.Induction
import StackMachine.Proofs.Image.Loading
import StackMachine.Proofs.Machine.Activations
import StackMachine.Proofs.Machine.CallFrame
import StackMachine.Proofs.Machine.Fuel

/-!
# The events of a run

What is observed of a run. The events do not depend on the observer, who sees them one after the
other (`execute_eq_foldl`), and they tell what the run did: an instruction is announced before it is
executed, what it leads to is told right after it, and the end of the run is the last event.

* `Machine.Emitted`: the events until a state of a run;
* `Machine.Closes`: the events at its end;
* `Machine.Follows`: which event may come after those before it;
* `Emitted.account`: the events of a run keep to that, and count its calls;
* `events_wellOrdered`: what this says of the events of a whole run.
-/

namespace StackMachine

namespace Instruction

/-- Whether the instruction makes or ends a call, or ends the run. -/
def isTransfer : Instruction → Bool
  | call .. => true
  | ret => true
  | halt => true
  | _ => false

end Instruction

namespace Event

def isStep : Event → Bool
  | step .. => true
  | _ => false

def isCall : Event → Bool
  | call .. => true
  | _ => false

def isRet : Event → Bool
  | ret _ => true
  | _ => false

/-- Whether the event is the end of a run. -/
def isEnd : Event → Bool
  | halt _ => true
  | fault _ => true
  | _ => false

/-- Whether the event announces an instruction after which there is more to tell. -/
def isPending : Event → Bool
  | step _ i _ => i.isTransfer
  | _ => false

/-- The end of a run with a given result. -/
def ending : Except Fault Value → Event
  | .ok v => halt v
  | .error f => fault f

/-- Every event of `es` is related to the list of those before it. -/
def Ordered (P : List Event → Event → Prop) (es : List Event) : Prop :=
  ∀ pre e post, es = pre ++ e :: post → P pre e

theorem countP_concat_of_true {f : Event → Bool} {e : Event} (h : f e = true) (es : List Event) :
    (es ++ [e]).countP f = es.countP f + 1 := by
  rw [List.countP_append, List.countP_singleton, if_pos h]

theorem countP_concat_of_false {f : Event → Bool} {e : Event} (h : f e = false)
    (es : List Event) : (es ++ [e]).countP f = es.countP f := by
  rw [List.countP_append, List.countP_singleton, h]
  rfl

namespace Ordered

variable {P : List Event → Event → Prop} {es es' : List Event} {e : Event}

theorem nil : Ordered P [] := by
  intro pre e post h
  simp at h

theorem concat (h : Ordered P es) (he : P es e) : Ordered P (es ++ [e]) := by
  intro pre e' post heq
  rcases List.eq_nil_or_concat post with rfl | ⟨post, x, rfl⟩
  · obtain ⟨rfl, hlast⟩ := List.append_inj' heq rfl
    cases hlast
    exact he
  · have heq : es ++ [e] = (pre ++ e' :: post) ++ [x] := by simpa using heq
    exact h pre e' post (List.append_inj' heq rfl).1

theorem of_concat (h : Ordered P (es ++ [e])) : Ordered P es ∧ P es e :=
  ⟨fun pre e' post heq => h pre e' (post ++ [e]) (by simp [heq]), h es e [] rfl⟩

theorem of_append (h : Ordered P (es ++ es')) : Ordered P es :=
  fun pre e post heq => h pre e (post ++ es') (by simp [heq])

end Ordered

end Event

open Event

namespace Machine

variable (p : Program) (limits : Limits)

/-! ## The events of a run -/

/-- The events until the state `m` of a run, which it gets to after `n` instructions. -/
inductive Emitted : (n : Nat) → (m : Machine) → List Event → Prop
  | start : Emitted 0 .start []
  | step {n : Nat} {m m' : Machine} {es : List Event} {i : Placed} {τ : Transition Machine} :
      Emitted n m es → p.fetch? m.pc = some i → n ≠ limits.fuel →
      advance p limits m = .ok τ → τ.state? = some m' →
      Emitted (n + 1) m' (es ++ .step i.offset i.instruction m.depth :: τ.events)

/-- `Closes n m steps last result`: a run that got to the state `m` after `n` instructions ends
    there or with the next instruction, and `last` are the events since then, but for the end of
    the run. -/
inductive Closes (n : Nat) (m : Machine) :
    (steps : Nat) → (last : List Event) → Except Fault Value → Prop
  | incomplete : p.fetch? m.pc = none → Closes n m n [] (.error .incompleteProgram)
  | exhausted {i : Placed} : p.fetch? m.pc = some i → n = limits.fuel →
      Closes n m n [] (.error (.budgetExceeded limits.fuel))
  | fault {i : Placed} {f : Fault} : p.fetch? m.pc = some i → n ≠ limits.fuel →
      advance p limits m = .error f →
      Closes n m (n + 1) [.step i.offset i.instruction m.depth] (.error f)
  | halted {i : Placed} {v : Value} {m' : Machine} : p.fetch? m.pc = some i → n ≠ limits.fuel →
      advance p limits m = .ok (.halted v m') →
      Closes n m (n + 1) [.step i.offset i.instruction m.depth] (.ok v)

variable {p limits}

/-- The rest of a run, as any observer sees it. -/
theorem executeFrom_eq_foldl {n fuel : Nat} {m : Machine} {es : List Event}
    (hm : Emitted p limits n m es) (hfuel : n + fuel = limits.fuel) :
    ∃ n' m' es' steps last result left, Emitted p limits n' m' (es ++ es') ∧
      Closes p limits n' m' steps last result ∧ steps + left = limits.fuel ∧
      ∀ {σ : Type} (observe : σ → Event → σ) (s : σ), ∃ s',
        executeFrom p limits observe fuel m s = (result, left, s') ∧
        observeEnd observe result s' = (es' ++ last ++ [ending result]).foldl observe s := by
  have hm' : Emitted p limits n m (es ++ []) := by rwa [List.append_nil]
  induction fuel generalizing n m es with
  | zero =>
    rcases advance_cases p limits m with hi | ⟨i, hi, -⟩
    · exact ⟨n, m, [], n, [], _, 0, hm', .incomplete hi, hfuel,
        fun _ s => ⟨s, executeFrom_incomplete s hi 0, rfl⟩⟩
    · exact ⟨n, m, [], n, [], _, 0, hm', .exhausted hi hfuel, hfuel,
        fun _ s => ⟨s, executeFrom_exhausted s hi, rfl⟩⟩
  | succ fuel ih =>
    have hne : n ≠ limits.fuel := by omega
    have hleft : n + 1 + fuel = limits.fuel := by omega
    rcases advance_cases p limits m with hi | ⟨i, hi, ⟨f, hf⟩ | ⟨v, _, hv⟩ | ⟨τ, m₁, hτ, hm₁⟩⟩
    · exact ⟨n, m, [], n, [], _, fuel + 1, hm', .incomplete hi, hfuel,
        fun _ s => ⟨s, executeFrom_incomplete s hi (fuel + 1), rfl⟩⟩
    · exact ⟨n, m, [], n + 1, _, _, fuel, hm', .fault hi hne hf, hleft,
        fun _ s => ⟨_, executeFrom_fault s hi hf fuel, rfl⟩⟩
    · exact ⟨n, m, [], n + 1, _, _, fuel, hm', .halted hi hne hv, hleft,
        fun _ s => ⟨_, executeFrom_halted s hi hv fuel, rfl⟩⟩
    · -- the events of the instruction come before those of the rest
      have hstep := Emitted.step hm hi hne hτ hm₁
      obtain ⟨n', m', es', steps, last, result, left, hemitted, hcloses, hsteps, hrest⟩ :=
        ih hstep hleft (by rwa [List.append_nil])
      refine ⟨n', m', .step i.offset i.instruction m.depth :: (τ.events ++ es'), steps, last,
        result, left, by simpa using hemitted, hcloses, hsteps, fun observe s => ?_⟩
      obtain ⟨s', hrun, hend⟩ := hrest observe
        (τ.events.foldl observe (observe s (.step i.offset i.instruction m.depth)))
      refine ⟨s', (executeFrom_state s hi hτ hm₁ fuel).trans hrun, hend.trans ?_⟩
      simp only [List.cons_append, List.append_assoc, List.foldl_cons, List.foldl_append]

/-- Every observer sees the same events, one after the other. -/
theorem execute_eq_foldl (p : Program) (limits : Limits) :
    ∃ n m es steps last result, Emitted p limits n m es ∧ Closes p limits n m steps last result ∧
      ∀ {σ : Type} (observe : σ → Event → σ) (s : σ), execute p limits observe s =
        ⟨result, steps, (es ++ last ++ [ending result]).foldl observe s⟩ := by
  have hstart : Emitted p limits 0 .start [] := .start
  obtain ⟨n, m, es, steps, last, result, left, hm, hend, hsteps, hrun⟩ :=
    executeFrom_eq_foldl hstart (Nat.zero_add limits.fuel)
  refine ⟨n, m, es, steps, last, result, hm, hend, fun observe s => ?_⟩
  obtain ⟨s', hrun, hobserved⟩ := hrun observe s
  rw [execute_eq hrun, hobserved, ← hsteps, Nat.add_sub_cancel]

/-! ## What may follow -/

/-- `Follows es e`: after the events `es` of a run the event `e` may come. -/
inductive Follows (p : Program) (limits : Limits) (es : List Event) : Event → Prop
  | step {m : Machine} {i : Placed} : Reached p limits (es.countP isStep) m →
      p.fetch? m.pc = some i → (∀ e ∈ es.getLast?, e.isPending = false) →
      Follows p limits es (.step i.offset i.instruction m.depth)
  | call {target : UInt32} {argc : UInt8} {locals : UInt16} {offset operands depth : Nat} :
      es.getLast? = some (.step offset (.call target argc locals) operands) →
      depth + es.countP isRet = es.countP isCall + 1 → Follows p limits es (.call target depth)
  | ret {offset operands : Nat} {v : Value} : es.getLast? = some (.step offset .ret operands) →
      es.countP isRet < es.countP isCall → Follows p limits es (.ret v)
  | halt {i : Instruction} {offset operands : Nat} {v : Value} :
      es.getLast? = some (.step offset i operands) →
      i = .halt ∨ i = .ret ∧ es.countP isRet = es.countP isCall → Follows p limits es (.halt v)
  | fault {f : Fault} :
      (∀ offset operands, es.getLast? = some (.step offset .ret operands) →
        operands = 0 ∧ f = .stackUnderflow .ret) → Follows p limits es (.fault f)

section

variable {n : Nat} {m m' : Machine} {i : Placed} {es : List Event} {τ : Transition Machine}

theorem length_frames (m : Machine) : m.frames.length = m.callers.depth + 1 := by
  rw [frames, List.length_cons, CallStack.length_toList]

/-- What the instruction `i`, executed in `m`, was if it led to a transition, and how many calls
    are active then. -/
inductive Led (i : Instruction) (m : Machine) : Transition Machine → Prop
  | next {m' : Machine} : i.isTransfer = false → m'.callers.depth = m.callers.depth →
      Led i m (.next m')
  | called {target : UInt32} {argc : UInt8} {locals : UInt16} {m' : Machine} :
      i = .call target argc locals → m'.callers.depth = m.callers.depth + 1 →
      Led i m (.called target m')
  | returned {v : Value} {m' : Machine} : i = .ret → m.callers.depth = m'.callers.depth + 1 →
      Led i m (.returned v m')
  | halted {v : Value} {m' : Machine} : i = .halt ∨ i = .ret ∧ m.callers.depth = 0 →
      Led i m (.halted v m')

/-- A call, a return or the end of the run is not followed by the next state of the same call. -/
theorem isTransfer_eq_false {i : Instruction} (h : step p limits i m = .ok (.next m')) :
    i.isTransfer = false := by
  cases i with
  | call =>
    obtain ⟨_, -, hτ⟩ := bind_eq_ok.1 h
    cases hτ
  | ret => rcases leave_ok h with ⟨_, _, -, ⟨-, hτ⟩ | ⟨_, _, _, -, -, hτ⟩⟩ <;> cases hτ
  | halt =>
    obtain ⟨_, -, hτ⟩ := bind_eq_ok.1 h
    cases hτ
  | _ => rfl

theorem depth_of_leave {pc : Nat} {v : Value}
    (h : { m with pc }.leave limits = .ok (.halted v m')) : m.callers.depth = 0 := by
  rcases leave_ok h with ⟨_, _, hpop, ⟨hnone, -⟩ | ⟨_, _, _, -, -, hτ⟩⟩
  · obtain ⟨-, -, rfl⟩ := pop_ok hpop
    rw [← CallStack.length_toList, CallStack.toList_of_pop?_none hnone, List.length_nil]
  · cases hτ

theorem Sound.led_of_advance (h : Sound p limits m) (hi : p.fetch? m.pc = some i)
    (hτ : Machine.advance p limits m = .ok τ) : Led i.instruction m τ := by
  have hstep := advance_eq hi ▸ hτ
  cases τ with
  | next m' =>
    refine .next (isTransfer_eq_false hstep) ?_
    rw [(h.sameCall_of_advance hτ).callers]
  | called target m' =>
    obtain ⟨j, argc, locals, hj, hcall, hentered⟩ := entered_of_advance hτ
    cases hi.symm.trans hj
    have hlen := congrArg List.length hentered.frames_eq
    rw [List.length_cons, length_frames, length_frames] at hlen
    exact .called hcall (Nat.succ.inj hlen)
  | returned v m' =>
    have hlen := congrArg List.length (left_of_advance hτ).frames_eq
    rw [List.length_cons, length_frames, length_frames] at hlen
    rcases Storage.step_cases hstep with ⟨_, hτ⟩ | ⟨_, _, _, _, _, _, hτ⟩ | ⟨hret, -⟩ |
      ⟨_, _, _, _, hτ⟩
    · cases hτ
    · cases hτ
    · exact .returned hret (Nat.succ.inj hlen)
    · cases hτ
  | halted v m' =>
    rcases Storage.step_cases hstep with ⟨_, hτ⟩ | ⟨_, _, _, _, _, _, hτ⟩ | ⟨hret, hleave⟩ |
      ⟨_, _, hhalt, _, _⟩
    · cases hτ
    · cases hτ
    · exact .halted (.inr ⟨hret, depth_of_leave hleave⟩)
    · exact .halted (.inl hhalt)

/-- A return fails only for want of an operand: the caller has room for the value. -/
theorem Sound.fault_of_return (h : Sound p limits m) {f : Fault} (hi : p.fetch? m.pc = some i)
    (hret : i.instruction = .ret) (hf : Machine.advance p limits m = .error f) :
    m.depth = 0 ∧ f = .stackUnderflow .ret := by
  have hgo : Sound p limits { m with pc := m.pc + 1 } := h.goTo (Program.lt_of_fetch? hi)
  rw [advance_eq hi, hret] at hf
  rcases bind_eq_error.1 hf with hpop | ⟨⟨v, m₁⟩, hpop, hleave⟩
  · obtain ⟨hdepth, rfl⟩ := pop_error hpop
    exact ⟨hdepth, rfl⟩
  · simp only at hleave
    split at hleave
    · cases hleave
    · rw [hgo.push_closeFrame hpop] at hleave
      cases hleave

/-! ## The account of a run -/

/-- What the events until a state of a run tell about it. -/
structure Account (p : Program) (limits : Limits) (n : Nat) (m : Machine) (es : List Event) :
    Prop where
  reached : Reached p limits n m
  stepCount_eq : es.countP isStep = n
  /-- The calls that were not left are the active ones. -/
  callCount_eq : es.countP isCall = es.countP isRet + m.callers.depth
  endCount_eq : es.countP isEnd = 0
  /-- All that there is to tell about the last instruction has been told. -/
  settled : ∀ e ∈ es.getLast?, e.isPending = false
  ordered : Ordered (Follows p limits) es

theorem Account.announce (h : Account p limits n m es) (hi : p.fetch? m.pc = some i) :
    Ordered (Follows p limits) (es ++ [.step i.offset i.instruction m.depth]) :=
  h.ordered.concat (.step (h.stepCount_eq ▸ h.reached) hi h.settled)

/-- An instruction that the run goes on after is accounted for with what it leads to. -/
theorem Account.step (h : Account p limits n m es) (hi : p.fetch? m.pc = some i)
    (hn : n ≠ limits.fuel) (hτ : advance p limits m = .ok τ) (hm' : τ.state? = some m') :
    Account p limits (n + 1) m' (es ++ .step i.offset i.instruction m.depth :: τ.events) := by
  have hreached : Reached p limits (n + 1) m' := .step h.reached hn hτ hm'
  have hled := h.reached.sound.led_of_advance hi hτ
  have hordered := h.announce hi
  rw [List.append_cons]
  -- first the announcement, which leaves the calls alone
  obtain ⟨announced, hannounced⟩ : ∃ es', es' = es ++ [.step i.offset i.instruction m.depth] :=
    ⟨_, rfl⟩
  have hlast : announced.getLast? = some (.step i.offset i.instruction m.depth) := by
    rw [hannounced, List.getLast?_concat]
  have hsteps : announced.countP isStep = n + 1 := by
    rw [hannounced, countP_concat_of_true rfl, h.stepCount_eq]
  have hcalls : announced.countP isCall = announced.countP isRet + m.callers.depth := by
    rw [hannounced, countP_concat_of_false rfl, countP_concat_of_false rfl, h.callCount_eq]
  have hends : announced.countP isEnd = 0 := by
    rw [hannounced, countP_concat_of_false rfl, h.endCount_eq]
  rw [← hannounced] at hordered ⊢
  cases hled with
  | next htransfer hdepth =>
    cases hm'
    rw [Transition.events, List.append_nil]
    refine ⟨hreached, hsteps, hdepth ▸ hcalls, hends, fun e he => ?_, hordered⟩
    cases hlast.symm.trans he
    exact htransfer
  | called hcall hdepth =>
    cases hm'
    rw [hcall] at hlast
    rw [Transition.events]
    refine ⟨hreached, (countP_concat_of_false rfl _).trans hsteps, ?_,
      (countP_concat_of_false rfl _).trans hends, by simp [isPending],
      hordered.concat (.call hlast (by omega))⟩
    rw [countP_concat_of_true rfl, countP_concat_of_false rfl]
    omega
  | returned hret hdepth =>
    cases hm'
    rw [hret] at hlast
    rw [Transition.events]
    refine ⟨hreached, (countP_concat_of_false rfl _).trans hsteps, ?_,
      (countP_concat_of_false rfl _).trans hends, by simp [isPending],
      hordered.concat (.ret hlast (by omega))⟩
    rw [countP_concat_of_false rfl, countP_concat_of_true rfl]
    omega
  | halted => cases hm'

theorem Emitted.account (h : Emitted p limits n m es) : Account p limits n m es := by
  induction h with
  | start =>
    exact ⟨.start, rfl, rfl, rfl, nofun, .nil⟩
  | step _ hi hn hτ hm' ih => exact ih.step hi hn hτ hm'

/-- The end of a run is accounted for with the last instruction. -/
theorem Account.close (h : Account p limits n m es) {steps : Nat} {last : List Event}
    {result : Except Fault Value} (hend : Closes p limits n m steps last result) :
    (es ++ last).countP isStep = steps ∧ (es ++ last).countP isEnd = 0 ∧
      Ordered (Follows p limits) (es ++ last ++ [ending result]) := by
  cases hend with
  | incomplete =>
    rw [List.append_nil]
    refine ⟨h.stepCount_eq, h.endCount_eq, h.ordered.concat (.fault fun _ _ hlast => ?_)⟩
    cases h.settled _ hlast
  | exhausted =>
    rw [List.append_nil]
    refine ⟨h.stepCount_eq, h.endCount_eq, h.ordered.concat (.fault fun _ _ hlast => ?_)⟩
    cases h.settled _ hlast
  | fault hi _ hf =>
    refine ⟨by rw [countP_concat_of_true rfl, h.stepCount_eq],
      by rw [countP_concat_of_false rfl, h.endCount_eq],
      (h.announce hi).concat (.fault fun offset operands hlast => ?_)⟩
    simp only [List.getLast?_concat, Option.some.injEq, Event.step.injEq] at hlast
    obtain ⟨-, hret, rfl⟩ := hlast
    exact h.reached.sound.fault_of_return hi hret hf
  | halted hi _ hv =>
    refine ⟨by rw [countP_concat_of_true rfl, h.stepCount_eq],
      by rw [countP_concat_of_false rfl, h.endCount_eq], (h.announce hi).concat ?_⟩
    cases h.reached.sound.led_of_advance hi hv with
    | halted hled =>
      refine .halt List.getLast?_concat (hled.imp_right fun ⟨hret, hdepth⟩ => ⟨hret, ?_⟩)
      simp [isCall, isRet, h.callCount_eq, hdepth]

/-- Nobody returns from a call that was not entered. -/
theorem countP_isRet_le (h : Ordered (Follows p limits) es) :
    es.countP isRet ≤ es.countP isCall := by
  induction es using List.reverseRecOn with
  | nil => exact Nat.le_refl _
  | append_singleton es e ih =>
    obtain ⟨hes, he⟩ := h.of_concat
    have hle := ih hes
    rw [List.countP_append, List.countP_append]
    cases he with
    | ret _ hlt => exact Nat.succ_le_of_lt hlt
    | call => exact Nat.le_succ_of_le hle
    | step | halt | fault => exact hle

end

/-! ## Whole runs -/

/-- What the events `es` of a run with a given result say. -/
structure WellOrdered (p : Program) (limits : Limits) (result : Except Fault Value)
    (es : List Event) : Prop where
  /-- An instruction is announced before it is executed. It is the one that is decoded at its
      offset, and `depth` values lie in the window of the active call then. -/
  step {pre post : List Event} {offset depth : Nat} {i : Instruction} :
    es = pre ++ .step offset i depth :: post →
      Instruction.decode (p.codeBytes.drop offset) = .ok i ∧
      ∃ m, Reached p limits (pre.countP isStep) m ∧ p.fetch? m.pc = some ⟨offset, i⟩ ∧
        m.stack.size = m.frame.stackBase + depth
  /-- A call is entered by the instruction just announced. -/
  call {pre post : List Event} {target : UInt32} {depth : Nat} :
    es = pre ++ .call target depth :: post →
      (∃ before offset argc locals operands,
        pre = before ++ [.step offset (.call target argc locals) operands]) ∧
      depth + pre.countP isRet = pre.countP isCall + 1
  /-- A call is left by the instruction just announced. -/
  ret {pre post : List Event} {v : Value} : es = pre ++ .ret v :: post →
    ∃ before offset operands, pre = before ++ [.step offset .ret operands]
  balance {pre : List Event} : pre <+: es → pre.countP isRet ≤ pre.countP isCall
  /-- A return that was announced does not fail any more if there is a value to return. -/
  ret_fault {pre post : List Event} {offset operands : Nat} {f : Fault} :
    es = pre ++ .step offset .ret operands :: .fault f :: post →
      operands = 0 ∧ f = .stackUnderflow .ret
  last : es.getLast? = some (ending result)
  /-- The run ends once. -/
  once : es.countP isEnd = 1

theorem wellOrdered_of_ordered {image : List UInt8} {p : Program}
    (hload : Program.load image = .ok p) {limits : Limits} {result : Except Fault Value}
    {es : List Event} (h : Ordered (Follows p limits) (es ++ [ending result]))
    (hrunning : es.countP isEnd = 0) : WellOrdered p limits result (es ++ [ending result]) where
  step heq := by
    obtain ⟨-, hloaded⟩ := Program.load_eq_ok_iff.1 hload
    cases h _ _ _ heq with
    | @step m i hm hi =>
      have hbase := hm.sound.stackBase_le
      refine ⟨hloaded.decode_of_fetch? hi, m, hm, hi, ?_⟩
      rw [depth, Nat.add_sub_of_le hbase]
  call heq := by
    cases h _ _ _ heq with
    | call hlast hdepth =>
      obtain ⟨before, hpre⟩ := List.getLast?_eq_some_iff.1 hlast
      exact ⟨⟨before, _, _, _, _, hpre⟩, hdepth⟩
  ret heq := by
    cases h _ _ _ heq with
    | ret hlast =>
      obtain ⟨before, hpre⟩ := List.getLast?_eq_some_iff.1 hlast
      exact ⟨before, _, _, hpre⟩
  balance := by
    rintro pre ⟨post, hpost⟩
    exact countP_isRet_le (hpost ▸ h).of_append
  ret_fault heq := by
    cases h _ _ _ (heq.trans (List.append_cons _ _ _)) with
    | fault hret => exact hret _ _ List.getLast?_concat
  last := List.getLast?_concat
  once := by
    rw [List.countP_append, hrunning]
    cases result <;> rfl

end Machine

/-- The events of a run are the same for all observers, and well ordered. There are as many
    announcements as instructions executed, and the last event is the end of the run, with its
    result. -/
theorem events_wellOrdered {image : List UInt8} {p : Program} (hload : Program.load image = .ok p)
    (limits : Limits) :
    ∃ es, Machine.WellOrdered p limits (run p limits).result es ∧
      (∀ v, es.getLast? = some (.halt v) ↔ (run p limits).result = .ok v) ∧
      (∀ f, es.getLast? = some (.fault f) ↔ (run p limits).result = .error f) ∧
      ∀ {σ : Type} (observe : σ → Event → σ) (s : σ), execute p limits observe s =
        ⟨(run p limits).result, es.countP isStep, es.foldl observe s⟩ := by
  obtain ⟨n, m, es, steps, last, result, hm, hend, hrun⟩ := Machine.execute_eq_foldl p limits
  obtain ⟨hsteps, hrunning, hordered⟩ := hm.account.close hend
  have hwell := Machine.wellOrdered_of_ordered hload hordered hrunning
  have hresult : (run p limits).result = result := by rw [run, hrun]
  refine ⟨es ++ last ++ [ending result], hresult ▸ hwell, fun v => ?_, fun f => ?_, fun _ _ => ?_⟩
  · rw [hwell.last, hresult]
    cases result <;> simp [ending]
  · rw [hwell.last, hresult]
    cases result <;> simp [ending]
  · rw [hrun, hresult, List.countP_append, hsteps]
    cases result <;> rfl

set_option maxRecDepth 4096 in
theorem events_wellOrdered_addition :
    ∃ es, Machine.WellOrdered .addition {} (.ok (.int 42)) es ∧
      es.getLast? = some (.halt (.int 42)) ∧ es.countP isStep = 8 := by
  have hresult : (run .addition {}).result = .ok (.int 42) := rfl
  have hsteps : (run .addition {}).steps = 8 := rfl
  obtain ⟨es, hwell, hhalt, -, hrun⟩ := events_wellOrdered Program.load_addition {}
  refine ⟨es, hresult ▸ hwell, (hhalt _).2 hresult, ?_⟩
  rw [← hsteps, run, hrun]

end StackMachine
