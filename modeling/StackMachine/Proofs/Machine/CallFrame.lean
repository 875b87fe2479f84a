import StackMachine.Proofs.Machine.Windows

/-!
# Calls and returns

A call hands a part of the two stacks to its callee and takes the rest out of its reach. When it
returns, the caller finds everything as it was, but for one operand in place of the arguments.

* `Machine.SameCall`, `Machine.Entered`, `Machine.Left`: what an instruction changes if it stays in
  the same call, enters another one, or leaves the call;
* `Machine.Within`: the states of a run between a call and its return, calls in between
  included;
* `Within.frames`: the suspended frames and all that lies below the window of the callee stay;
* `Reached.within`: a run is between the call and its return until it returns.
-/

namespace StackMachine

namespace Machine

variable {p : Program} {limits : Limits} {m m' m₀ : Machine}

/-- The operands below `base` and the local slots below `slots` are the same. -/
structure SameBelow (base slots : Nat) (m m' : Machine) : Prop where
  stack : m'.stack.take base = m.stack.take base
  locals : m'.locals.take slots = m.locals.take slots

namespace SameBelow

variable {base base' slots slots' : Nat} {m₁ m₂ m₃ : Machine}

theorem refl (base slots : Nat) (m : Machine) : SameBelow base slots m m :=
  ⟨rfl, rfl⟩

theorem trans (h : SameBelow base slots m₁ m₂) (h' : SameBelow base slots m₂ m₃) :
    SameBelow base slots m₁ m₃ :=
  ⟨h'.stack.trans h.stack, h'.locals.trans h.locals⟩

theorem mono (h : SameBelow base slots m₁ m₂) (hbase : base' ≤ base) (hslots : slots' ≤ slots) :
    SameBelow base' slots' m₁ m₂ :=
  ⟨take_congr h.stack hbase, take_congr h.locals hslots⟩

end SameBelow

/-- The two states differ at most in the window of the active call, which is the same call. -/
structure SameCall (m m' : Machine) : Prop where
  frame : m'.frame = m.frame
  callers : m'.callers = m.callers
  below : SameBelow m.frame.stackBase m.frame.localsBase m m'

namespace SameCall

theorem refl (m : Machine) : SameCall m m :=
  ⟨rfl, rfl, .refl _ _ m⟩

theorem trans (h : SameCall m₀ m) (h' : SameCall m m') : SameCall m₀ m' :=
  ⟨h'.frame.trans h.frame, h'.callers.trans h.callers, h.below.trans (h.frame ▸ h'.below)⟩

end SameCall

/-! ## The operations inside a call -/

theorem Sound.push_sameCall (h : Sound p limits m) {v : Value} (hm : m.push limits v = .ok m') :
    SameCall m m' := by
  obtain ⟨-, rfl⟩ := push_ok hm
  exact ⟨rfl, rfl, Array.extract_push_of_le h.stackBase_le, rfl⟩

theorem pop_sameCall {op : Opcode} {v : Value} (hm : m.pop op = .ok (v, m')) : SameCall m m' := by
  obtain ⟨hdepth, -, rfl⟩ := pop_ok hm
  exact ⟨rfl, rfl, take_pop (Nat.lt_of_sub_pos hdepth), rfl⟩

theorem store_sameCall {slot : UInt16} (hm : m.store slot = .ok m') : SameCall m m' := by
  obtain ⟨index, v, m₁, hindex, hpop, rfl⟩ := store_ok hm
  obtain ⟨-, rfl⟩ := localIndex_ok hindex
  have hsame := pop_sameCall hpop
  refine hsame.trans ⟨rfl, rfl, rfl, ?_⟩
  rw [hsame.frame]
  exact take_setIfInBounds (Nat.le_add_right _ _)

/-- An instruction that goes on in the same call keeps everything outside its window. -/
theorem sameCall_simulation (p : Program) (limits : Limits) (m₀ : Machine) :
    Simulation p (storage p limits) (storage p limits) Eq
      (fun m n => m = n ∧ Sound p limits m ∧ SameCall m₀ m)
      (fun τ _ => ∀ m, τ = .next m → SameCall m₀ m) where
  fault _ _ := rfl
  goTo := fun hpc ⟨hmn, h, hm₀⟩ =>
    ⟨hmn ▸ rfl, h.goTo hpc, hm₀.trans ⟨rfl, rfl, rfl, rfl⟩⟩
  push := fun _ ⟨hmn, h, hm₀⟩ =>
    hmn ▸ .refl (fun _ hm => ⟨rfl, h.push hm, hm₀.trans (h.push_sameCall hm)⟩) fun _ _ => rfl
  pop := fun _ ⟨hmn, h, hm₀⟩ =>
    hmn ▸ .refl (fun _ hm => ⟨rfl, rfl, h.pop hm, hm₀.trans (pop_sameCall hm)⟩) fun _ _ => rfl
  load := fun _ ⟨hmn, _⟩ => hmn ▸ .refl (fun _ _ => rfl) fun _ _ => rfl
  store := fun _ ⟨hmn, h, hm₀⟩ =>
    hmn ▸ .refl (fun _ hm => ⟨rfl, h.store hm, hm₀.trans (store_sameCall hm)⟩) fun _ _ => rfl
  enter := fun _ _ _ ⟨hmn, _⟩ => hmn ▸ .refl (fun _ _ _ hτ => nomatch hτ) fun _ _ => rfl
  leave := by
    rintro m _ ⟨rfl, -⟩
    refine .refl (fun τ hm => ?_) fun _ _ => rfl
    intro m' hτ
    rcases leave_ok hm with ⟨_, _, _, ⟨_, rfl⟩ | ⟨_, _, _, _, _, rfl⟩⟩ <;> cases hτ
  next := fun ⟨_, _, hm₀⟩ _ hτ => by cases hτ; exact hm₀
  halted _ _ _ hτ := nomatch hτ

/-! ## The frames after an instruction -/

theorem advance_ok {τ : Transition Machine} (hm : advance p limits m = .ok τ) :
    ∃ i, p.fetch? m.pc = some i ∧
      step p limits i.instruction { m with pc := m.pc + 1 } = .ok τ := by
  rcases advance_cases p limits m with hi | ⟨i, hi, -⟩
  · simp [advance, Storage.advance, show p.fetch? ((storage p limits).pc m) = none from hi] at hm
  · exact ⟨i, hi, advance_eq hi ▸ hm⟩

/-- A call with `argc` arguments leads from `m` to `m'`. -/
structure Entered (argc : Nat) (m m' : Machine) : Prop where
  argc_le : argc ≤ m.depth
  frames_eq : m'.frames = m'.frame :: m.frames
  stackBase_eq : m'.frame.stackBase = m.stack.size - argc
  localsBase_eq : m'.frame.localsBase = m.locals.size
  returnIndex_eq : m'.frame.returnIndex = m.pc + 1
  below : SameBelow (m.stack.size - argc) m.locals.size m m'

/-- A return of the value `v` leads from `m` to `m'`. -/
structure Left (v : Value) (m m' : Machine) : Prop where
  value_eq : m.stack.back? = some v
  frames_eq : m.frames = m.frame :: m'.frames
  stack_eq : m'.stack = (m.stack.take m.frame.stackBase).push v
  locals_eq : m'.locals = m.locals.take m.frame.localsBase
  pc_eq : m'.pc = m.frame.returnIndex

theorem entered_openFrame {entry argc localsLen : Nat} (hargc : argc ≤ m.depth) :
    Entered argc m ({ m with pc := m.pc + 1 }.openFrame entry argc localsLen) where
  argc_le := hargc
  frames_eq := by
    simp only [openFrame, frames, CallStack.toList_push]
  stackBase_eq := rfl
  localsBase_eq := rfl
  returnIndex_eq := rfl
  below :=
    { stack := by simp [openFrame]
      locals := by simp [openFrame, Array.extract_append] }

theorem left_of_leave {pc : Nat} {v : Value}
    (hm : { m with pc }.leave limits = .ok (.returned v m')) : Left v m m' := by
  rcases leave_ok hm with ⟨w, m₁, hpop, ⟨-, hτ⟩ | ⟨caller, callers, m₂, hcallers, hpush, hτ⟩⟩
  · cases hτ
  cases hτ
  obtain ⟨hdepth, hv, rfl⟩ := pop_ok hpop
  obtain ⟨-, rfl⟩ := push_ok hpush
  refine ⟨hv, ?_, ?_, Array.shrink_eq_take, rfl⟩
  · simp only [closeFrame, frames]
    rw [← CallStack.toList_of_pop? hcallers]
  · -- The operand that was popped is in the window that is dropped.
    simp only [closeFrame, Array.shrink_eq_take]
    rw [take_pop (Nat.lt_of_sub_pos hdepth)]

/-- Only the call instruction enters a call. -/
theorem entered_of_advance {target : UInt32} (hm : advance p limits m = .ok (.called target m')) :
    ∃ i argc locals, p.fetch? m.pc = some i ∧ i.instruction = .call target argc locals ∧
      Entered argc.toNat m m' := by
  obtain ⟨i, hi, hstep⟩ := advance_ok hm
  rcases Storage.step_cases hstep with ⟨_, hτ⟩ | ⟨_, argc, locals, _, hcall, henter, hτ⟩ |
    ⟨-, hleave⟩ | ⟨_, _, _, _, hτ⟩
  · cases hτ
  · cases hτ
    obtain ⟨-, hargc, entry, -, -, rfl⟩ := enter_ok henter
    exact ⟨i, argc, locals, hi, hcall, entered_openFrame hargc⟩
  · -- A return ends the run or leads to the caller.
    rcases leave_ok hleave with ⟨_, _, _, ⟨_, hτ⟩ | ⟨_, _, _, _, _, hτ⟩⟩ <;> cases hτ
  · cases hτ

theorem left_of_advance {v : Value} (hm : advance p limits m = .ok (.returned v m')) :
    Left v m m' := by
  obtain ⟨i, -, hstep⟩ := advance_ok hm
  rcases Storage.step_cases hstep with ⟨_, hτ⟩ | ⟨_, _, _, _, _, _, hτ⟩ | ⟨-, hleave⟩ |
    ⟨_, _, _, _, hτ⟩
  · cases hτ
  · cases hτ
  · exact left_of_leave hleave
  · cases hτ

theorem Sound.sameCall_of_advance (h : Sound p limits m)
    (hm : Machine.advance p limits m = .ok (.next m')) : SameCall m m' := by
  obtain ⟨i, hi, hstep⟩ := advance_ok hm
  -- the program counter is in no window
  have hsame : SameCall m { m with pc := m.pc + 1 } := ⟨rfl, rfl, rfl, rfl⟩
  have hgo : Sound p limits { m with pc := m.pc + 1 } := h.goTo (Program.lt_of_fetch? hi)
  have hagree := (sameCall_simulation p limits m).step i.instruction ⟨rfl, hgo, hsame⟩
  rw [show (storage p limits).step p i.instruction _ = _ from hstep] at hagree
  obtain ⟨_, -, hnext⟩ := hagree.ok_left
  exact hnext m' rfl

theorem SameCall.frames_eq (h : SameCall m m') : m'.frames = m.frames := by
  rw [frames, h.frame, h.callers, frames]

theorem Entered.below_active {argc : Nat} (h : Entered argc m m') (hsound : Sound p limits m) :
    SameBelow m.frame.stackBase m.frame.localsBase m m' := by
  have hargc := h.argc_le
  have hbase := hsound.stackBase_le
  have hslots := hsound.locals_eq
  simp only [depth] at hargc
  exact h.below.mono (by omega) (by omega)

theorem Left.below_active {v : Value} (h : Left v m m') (hsound : Sound p limits m) :
    SameBelow m.frame.stackBase m.frame.localsBase m m' := by
  constructor
  · rw [h.stack_eq, Array.take, Array.extract_push_of_le (by simp [hsound.stackBase_le])]
    simp
  · simp [h.locals_eq]

theorem SameBelow.locals_eq {base : Nat} (h : SameBelow base m.locals.size m m') :
    m'.locals.take m.locals.size = m.locals := by
  rw [h.locals, Array.take, Array.extract_size]

/-- If a call leaves its frame and all that lies below its window alone, then the return undoes the
    call, up to the value returned. -/
theorem Entered.left_eq {argc : Nat} {s entry s' : Machine} {v : Value}
    (hcalled : Entered argc s entry) (hframes : m.frames = entry.frames)
    (hbelow : SameBelow (s.stack.size - argc) s.locals.size s m) (hleft : Left v m s') :
    s' = { s with stack := (s.stack.take (s.stack.size - argc)).push v, pc := s.pc + 1 } := by
  obtain ⟨hframe, -⟩ := List.cons.inj hframes
  have hstack : s'.stack = (s.stack.take (s.stack.size - argc)).push v := by
    rw [hleft.stack_eq, hframe, hcalled.stackBase_eq, hbelow.stack]
  have hlocals : s'.locals = s.locals := by
    rw [hleft.locals_eq, hframe, hcalled.localsBase_eq, hbelow.locals_eq]
  have hpc : s'.pc = s.pc + 1 := by
    rw [hleft.pc_eq, hframe, hcalled.returnIndex_eq]
  -- The return takes the frame off that the call has put on those of `s`.
  have hrest : m.frame :: s'.frames = entry.frame :: s.frames := by
    rw [← hleft.frames_eq, hframes, hcalled.frames_eq]
  obtain ⟨hframe', hcallers⟩ := List.cons.inj (List.cons.inj hrest).2
  rw [← hstack, ← hlocals, ← hpc, ← hframe', ← CallStack.toList_injective hcallers]

/-! ## Between a call and its return -/

/-- `Within entry d m`: a run that was in the state `entry` gets to the state `m` without leaving
    the call that was active then, and `d` of the calls that were entered since are active. -/
inductive Within (p : Program) (limits : Limits) (entry : Machine) : Nat → Machine → Prop
  | entry : Within p limits entry 0 entry
  | next {d : Nat} {m m' : Machine} : Within p limits entry d m →
      advance p limits m = .ok (.next m') → Within p limits entry d m'
  | called {d : Nat} {m m' : Machine} {target : UInt32} : Within p limits entry d m →
      advance p limits m = .ok (.called target m') → Within p limits entry (d + 1) m'
  | returned {d : Nat} {m m' : Machine} {v : Value} : Within p limits entry (d + 1) m →
      advance p limits m = .ok (.returned v m') → Within p limits entry d m'

theorem Within.sound {entry : Machine} {d : Nat} (hentry : Sound p limits entry)
    (h : Within p limits entry d m) : Sound p limits m := by
  induction h with
  | entry => exact hentry
  | next _ hm ih | called _ hm ih | returned _ hm ih => exact ih.advance hm rfl

/-- Below its callees, the call stays as it is, and so does all that lies below its window. -/
theorem Within.frames {entry : Machine} {d : Nat} (hentry : Sound p limits entry)
    (h : Within p limits entry d m) :
    (∃ inner, inner.length = d ∧ m.frames = inner ++ entry.frames) ∧
      SameBelow entry.frame.stackBase entry.frame.localsBase entry m := by
  -- Instructions keep what lies below the window of the active call, which lies above that of
  -- the call that `entry` is in.
  have hkeep {d : Nat} {m m' : Machine} (h : Within p limits entry d m) {inner : List Frame}
      (hinner : m.frames = inner ++ entry.frames)
      (hbelow : SameBelow entry.frame.stackBase entry.frame.localsBase entry m)
      (hm : SameBelow m.frame.stackBase m.frame.localsBase m m') :
      SameBelow entry.frame.stackBase entry.frame.localsBase entry m' := by
    have hmem : entry.frame ∈ m.frames := by
      rw [hinner]
      exact List.mem_append_right _ List.mem_cons_self
    obtain ⟨hbase, hslots⟩ := (h.sound hentry).tiled.bases_le hmem
    exact hbelow.trans (hm.mono hbase hslots)
  induction h with
  | entry => exact ⟨⟨[], rfl, rfl⟩, .refl _ _ _⟩
  | next hd hm ih =>
    obtain ⟨⟨inner, hlen, hinner⟩, hbelow⟩ := ih
    have hsame := (hd.sound hentry).sameCall_of_advance hm
    exact ⟨⟨inner, hlen, hsame.frames_eq.trans hinner⟩, hkeep hd hinner hbelow hsame.below⟩
  | @called d m m' _ hd hm ih =>
    obtain ⟨⟨inner, hlen, hinner⟩, hbelow⟩ := ih
    obtain ⟨-, _, _, -, -, hm⟩ := entered_of_advance hm
    refine ⟨⟨m'.frame :: inner, congrArg Nat.succ hlen, ?_⟩,
      hkeep hd hinner hbelow (hm.below_active (hd.sound hentry))⟩
    rw [hm.frames_eq, hinner, List.cons_append]
  | returned hd hm ih =>
    obtain ⟨⟨inner, hlen, hinner⟩, hbelow⟩ := ih
    have hm := left_of_advance hm
    refine ⟨?_, hkeep hd hinner hbelow (hm.below_active (hd.sound hentry))⟩
    -- The frame that is dropped is that of a callee, since one is active.
    obtain ⟨f, inner, rfl⟩ := List.exists_cons_of_length_eq_add_one hlen
    rw [hm.frames_eq, List.cons_append] at hinner
    exact ⟨inner, Nat.succ.inj hlen, (List.cons.inj hinner).2⟩

/-- After a call the states of a run are between the call and its return, until it returns. -/
theorem Reached.within {n k : Nat} {s entry : Machine} {target : UInt32}
    (hs : Reached p limits n s) (hentry : advance p limits s = .ok (.called target entry))
    (hm : Reached p limits k m) (hk : n < k) :
    (∃ d, Within p limits entry d m) ∨
      ∃ m' v s', Within p limits entry 0 m' ∧ advance p limits m' = .ok (.returned v s') := by
  induction hm with
  | start => exact absurd hk (Nat.not_lt_zero n)
  | @step k s' m τ hs' _ hτ hm ih =>
    rcases Nat.eq_or_lt_of_le (Nat.le_of_lt_succ hk) with rfl | hlt
    · -- The call itself.
      cases hs.unique hs'
      cases hentry.symm.trans hτ
      cases hm
      exact .inl ⟨0, .entry⟩
    rcases ih hlt with ⟨d, hd⟩ | hreturned
    · cases τ with
      | next _ => cases hm; exact .inl ⟨d, hd.next hτ⟩
      | called _ _ => cases hm; exact .inl ⟨d + 1, hd.called hτ⟩
      | returned v _ =>
        -- It is the call itself that returns, or one of its callees.
        cases d with
        | zero => exact .inr ⟨s', v, _, hd, hτ⟩
        | succ d => cases hm; exact .inl ⟨d, hd.returned hτ⟩
      | halted _ _ => cases hm
    · exact .inr hreturned

/-- A call that succeeds in a state `s` of a run takes its arguments off the stack. As long as it
    is active it has everything below its window unchanged, and more calls are active than in `s`.
    When it returns, the state is `s` again, but for the value returned in place of the arguments,
    and the program counter, which is past the call. -/
theorem call_restores {n d : Nat} {s entry m : Machine} {i : Placed} {target : UInt32}
    {argc : UInt8} {locals : UInt16} (hs : Reached p limits n s) (hi : p.fetch? s.pc = some i)
    (hcall : i.instruction = .call target argc locals)
    (hentry : advance p limits s = .ok (.called target entry))
    (hm : Within p limits entry d m) :
    (argc.toNat ≤ s.depth ∧ entry.frame.stackBase = s.stack.size - argc.toNat ∧
        entry.frame.localsBase = s.locals.size) ∧
      m.callers.depth = s.callers.depth + (d + 1) ∧
      m.stack.take entry.frame.stackBase = s.stack.take entry.frame.stackBase ∧
      m.locals.take entry.frame.localsBase = s.locals ∧
      ∀ v s', d = 0 → advance p limits m = .ok (.returned v s') →
        m.stack.back? = some v ∧
          s' = { s with
            stack := (s.stack.take (s.stack.size - argc.toNat)).push v
            pc := s.pc + 1 } := by
  obtain ⟨j, argc', locals', hj, hcall', hcalled⟩ := entered_of_advance hentry
  cases hi.symm.trans hj
  cases hcall.symm.trans hcall'
  obtain ⟨⟨inner, hlen, hinner⟩, hkept⟩ := hm.frames (hs.sound.advance hentry rfl)
  rw [hcalled.stackBase_eq, hcalled.localsBase_eq] at hkept ⊢
  have hbelow := hcalled.below.trans hkept
  refine ⟨⟨hcalled.argc_le, rfl, rfl⟩, ?_, hbelow.stack, hbelow.locals_eq, ?_⟩
  · have hdepth := congrArg List.length (hinner.trans (congrArg _ hcalled.frames_eq))
    simp only [frames, List.length_cons, List.length_append, CallStack.length_toList] at hdepth
    omega
  · rintro v s' rfl hreturn
    have hleft := left_of_advance hreturn
    cases List.length_eq_zero_iff.1 hlen
    exact ⟨hleft.value_eq, hcalled.left_eq hinner hbelow hleft⟩

set_option maxRecDepth 4096 in
/-- The function of `Program.addition` leaves its sum in place of the numbers added. -/
theorem call_restores_addition :
    ∃ m s', Within .addition {} inAddition 0 m ∧
      advance .addition {} m = .ok (.returned (.int 42) s') ∧
      m.locals.take inAddition.frame.localsBase = beforeAddition.locals ∧
      s' = { beforeAddition with stack := #[.int 42], pc := 3 } := by
  have hm : Within .addition {} inAddition 0 { inAddition with stack := #[.int 42], pc := 7 } :=
    .next (.next (.next .entry rfl) rfl) rfl
  have hreturn : advance .addition {} { inAddition with stack := #[.int 42], pc := 7 } =
      .ok (.returned (.int 42) { beforeAddition with stack := #[.int 42], pc := 3 }) :=
    rfl
  obtain ⟨-, -, -, hlocals, hrestored⟩ :=
    call_restores reached_beforeAddition rfl rfl advance_beforeAddition hm
  exact ⟨_, _, hm, hreturn, hlocals, (hrestored _ _ rfl hreturn).2⟩

end Machine

end StackMachine
