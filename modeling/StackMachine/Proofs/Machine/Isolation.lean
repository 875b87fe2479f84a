import StackMachine.Proofs.Machine.Activations

/-!
# Calls see only their arguments

Two calls of the same function with the same arguments return the same value after the same number
of instructions, whatever else is on the stacks and whatever the limits are. The two calls may be
made in one run or in two runs, in different places and at different depths.

The activations of the two calls and of their callees are the same. Those below are not looked at by
any instruction, so the two runs go on in step until the calls return.

* `Alike`, `Nested.Alike`: activations that differ at most below a call;
* `joint_simulation`: instructions that raise no fault keep them alike, until the call returns;
* `Reached.alike`: so do runs;
* `Returns`: when a call returns, and what;
* `returns_eq_of_args_eq`: this is determined by the arguments.
-/

namespace StackMachine

/-- Activations that are active since a call was made are the same in both states, where the
    suspended callers of this call are `outer` in the one and `outer'` in the other. The call itself
    may have been made at different places. -/
inductive Alike (outer outer' : List Activation) :
    Activation → List Activation → Activation → List Activation → Prop
  | callee {a b : Activation} : a.operands = b.operands → a.locals = b.locals →
      Alike outer outer' a outer b outer'
  | inner {a b : Activation} {as bs : List Activation} (c : Activation) :
      Alike outer outer' a as b bs → Alike outer outer' c (a :: as) c (b :: bs)

namespace Alike

variable {outer outer' as bs : List Activation} {a b : Activation}

theorem operands_eq (h : Alike outer outer' a as b bs) : a.operands = b.operands := by
  cases h with
  | callee hoperands => exact hoperands
  | inner => rfl

theorem locals_eq (h : Alike outer outer' a as b bs) : a.locals = b.locals := by
  cases h with
  | callee _ hlocals => exact hlocals
  | inner => rfl

theorem withOperands (h : Alike outer outer' a as b bs) (operands : List Value) :
    Alike outer outer' { a with operands } as { b with operands } bs := by
  cases h with
  | callee _ hlocals => exact .callee rfl hlocals
  | inner _ h => exact .inner _ h

theorem withLocals (h : Alike outer outer' a as b bs) (locals : Array Value) :
    Alike outer outer' { a with locals } as { b with locals } bs := by
  cases h with
  | callee hoperands => exact .callee hoperands rfl
  | inner _ h => exact .inner _ h

/-- As many calls are active since. -/
theorem length_eq (h : Alike outer outer' a as b bs) :
    ∃ d, as.length = outer.length + d ∧ bs.length = outer'.length + d := by
  induction h with
  | callee => exact ⟨0, rfl, rfl⟩
  | inner c _ ih =>
    obtain ⟨d, has, hbs⟩ := ih
    exact ⟨d + 1, congrArg Nat.succ has, congrArg Nat.succ hbs⟩

end Alike

namespace Nested

variable {p : Program} {limits limits' : Limits} {outer outer' : List Activation}
  {n n' m m' : Nested}

/-- The two machines are in the same place of the same call. -/
structure Alike (outer outer' : List Activation) (n n' : Nested) : Prop where
  pc : n.pc = n'.pc
  activations : StackMachine.Alike outer outer' n.active n.callers n'.active n'.callers

/-- What instructions of the two machines lead to. -/
inductive Together (outer outer' : List Activation) : Transition Nested → Transition Nested → Prop
  | next {n n' : Nested} : Alike outer outer' n n' → Together outer outer' (.next n) (.next n')
  | called {n n' : Nested} (target : UInt32) : Alike outer outer' n n' →
      Together outer outer' (.called target n) (.called target n')
  | returned {n n' : Nested} (v : Value) : Alike outer outer' n n' →
      Together outer outer' (.returned v n) (.returned v n')
  /-- Both calls have returned. -/
  | left {n n' : Nested} (v : Value) : n.callers.length + 1 = outer.length →
      n'.callers.length + 1 = outer'.length →
      Together outer outer' (.returned v n) (.returned v n')
  | halted {n n' : Nested} (v : Value) : Alike outer outer' n n' →
      Together outer outer' (.halted v n) (.halted v n')

theorem Alike.push (h : Alike outer outer' n n') {v : Value} (hm : n.push limits v = .ok m)
    (hm' : n'.push limits' v = .ok m') : Alike outer outer' m m' := by
  rw [Nested.push] at hm hm'
  split at hm <;> cases hm
  split at hm' <;> cases hm'
  rw [← h.activations.operands_eq]
  exact ⟨h.pc, h.activations.withOperands _⟩

theorem Alike.pop (h : Alike outer outer' n n') {op : Opcode} {v v' : Value}
    (hm : n.pop op = .ok (v, m)) (hm' : n'.pop op = .ok (v', m')) :
    v = v' ∧ Alike outer outer' m m' := by
  rw [Nested.pop] at hm hm'
  rw [← h.activations.operands_eq] at hm'
  split at hm <;> cases hm
  rename_i operands hoperands
  rw [hoperands] at hm'
  cases hm'
  exact ⟨rfl, h.pc, h.activations.withOperands operands⟩

theorem Alike.load_eq (h : Alike outer outer' n n') (slot : UInt16) :
    n.load slot = n'.load slot := by
  rw [Nested.load, Nested.load, h.activations.locals_eq]

theorem Alike.store (h : Alike outer outer' n n') {slot : UInt16} (hm : n.store slot = .ok m)
    (hm' : n'.store slot = .ok m') : Alike outer outer' m m' := by
  rw [Nested.store] at hm hm'
  split at hm
  · split at hm'
    · obtain ⟨⟨v, m₁⟩, hpop, hm⟩ := bind_eq_ok.1 hm
      obtain ⟨⟨v', m₁'⟩, hpop', hm'⟩ := bind_eq_ok.1 hm'
      cases hm
      cases hm'
      obtain ⟨rfl, halike⟩ := h.pop hpop hpop'
      rw [setLocal, setLocal, ← halike.activations.locals_eq]
      exact ⟨halike.pc, halike.activations.withLocals _⟩
    · cases hm'
  · cases hm

theorem enter_ok {target : UInt32} {argc : UInt8} {locals : UInt16}
    (hm : n.enter p limits target argc locals = .ok m) :
    ∃ entry, p.indexOf? target.toNat = some entry ∧
      m = n.openCall entry argc.toNat (max argc.toNat locals.toNat) := by
  rw [Nested.enter] at hm
  split at hm
  · cases hm
  split at hm
  · cases hm
  split at hm
  · cases hm
  rename_i entry hentry
  simp only at hm
  split at hm <;> cases hm
  exact ⟨entry, hentry, rfl⟩

theorem Alike.enter (h : Alike outer outer' n n') {target : UInt32} {argc : UInt8}
    {locals : UInt16} (hm : n.enter p limits target argc locals = .ok m)
    (hm' : n'.enter p limits' target argc locals = .ok m') : Alike outer outer' m m' := by
  obtain ⟨entry, hentry, rfl⟩ := enter_ok hm
  obtain ⟨entry', hentry', rfl⟩ := enter_ok hm'
  cases hentry.symm.trans hentry'
  refine ⟨rfl, ?_⟩
  -- the callers lose the arguments, and the callees have the same ones
  have hcallers := h.activations.withOperands (n.active.operands.drop argc.toNat)
  simp only [openCall, ← h.activations.operands_eq, ← h.pc]
  exact .inner _ hcallers

theorem leave_ok {τ : Transition Nested} (hm : n.leave = .ok τ) :
    ∃ v m, n.pop .ret = .ok (v, m) ∧
      ((m.callers = [] ∧ τ = .halted v m) ∨
        ∃ caller callers, m.callers = caller :: callers ∧ τ = .returned v
          { active := { caller with operands := v :: caller.operands }
            callers
            pc := m.active.returnIndex }) := by
  obtain ⟨⟨v, m⟩, hpop, hm⟩ := bind_eq_ok.1 hm
  refine ⟨v, m, hpop, ?_⟩
  simp only at hm
  split at hm <;> cases hm
  · exact .inl ⟨by assumption, rfl⟩
  · exact .inr ⟨_, _, by assumption, rfl⟩

theorem Alike.leave (h : Alike outer outer' n n') (houter : outer ≠ []) (houter' : outer' ≠ [])
    {τ τ' : Transition Nested} (hm : n.leave = .ok τ) (hm' : n'.leave = .ok τ') :
    Together outer outer' τ τ' := by
  obtain ⟨v, ⟨active, callers, pc⟩, hpop, hτ⟩ := leave_ok hm
  obtain ⟨v', ⟨active', callers', pc'⟩, hpop', hτ'⟩ := leave_ok hm'
  obtain ⟨rfl, -, hactivations⟩ := h.pop hpop hpop'
  simp only at hτ hτ' hactivations
  cases hactivations with
  | callee =>
    -- it is the call itself that returns
    rcases hτ with ⟨hnil, -⟩ | ⟨caller, callers, hcallers, rfl⟩
    · exact absurd hnil houter
    rcases hτ' with ⟨hnil, -⟩ | ⟨caller', callers', hcallers', rfl⟩
    · exact absurd hnil houter'
    exact .left v (by rw [hcallers]; rfl) (by rw [hcallers']; rfl)
  | inner c halike =>
    rcases hτ with ⟨hnil, -⟩ | ⟨caller, callers, hcallers, rfl⟩
    · cases hnil
    rcases hτ' with ⟨hnil, -⟩ | ⟨caller', callers', hcallers', rfl⟩
    · cases hnil
    cases hcallers
    cases hcallers'
    rw [← halike.operands_eq]
    exact .returned v ⟨rfl, halike.withOperands _⟩

/-- Instructions that raise no fault keep what is active since the calls alike. -/
theorem joint_simulation (p : Program) (limits limits' : Limits) (houter : outer ≠ [])
    (houter' : outer' ≠ []) :
    Comparison.joint.Simulation p (storage p limits) (storage p limits') (Alike outer outer')
      (Together outer outer') where
  fault _ _ _ _ h := nomatch h
  goTo _ h := ⟨rfl, h.activations⟩
  push _ h _ _ hm hm' := h.push hm hm'
  pop _ h _ _ hm hm' := h.pop hm hm'
  load slot h v v' hm hm' := by
    have heq := (h.load_eq slot).symm.trans hm
    exact Except.ok.inj (heq.symm.trans hm')
  store _ h _ _ hm hm' := h.store hm hm'
  enter target _ _ h _ _ hm hm' := .called target (h.enter hm hm')
  leave h _ _ hm hm' := h.leave houter houter' hm hm'
  next h := .next h
  halted v h := .halted v h

/-- The states after instructions that are executed together. -/
theorem Together.state {τ τ' : Transition Nested} (h : Together outer outer' τ τ')
    (hn : τ.state? = some n) (hn' : τ'.state? = some n') :
    Alike outer outer' n n' ∨
      n.callers.length + 1 = outer.length ∧ n'.callers.length + 1 = outer'.length := by
  cases h with
  | next halike | called _ halike | returned _ halike =>
    cases hn
    cases hn'
    exact .inl halike
  | left _ hlen hlen' =>
    cases hn
    cases hn'
    exact .inr ⟨hlen, hlen'⟩
  | halted => cases hn

end Nested

namespace Machine

variable {p : Program} {limits limits' : Limits} {outer outer' : List Activation}

theorem Sound.together {m m' : Machine} (h : Sound p limits m) (h' : Sound p limits' m')
    (houter : outer ≠ []) (houter' : outer' ≠ []) (halike : Nested.Alike outer outer' m.cut m'.cut)
    {τ τ' : Transition Machine} (hm : Machine.advance p limits m = .ok τ)
    (hm' : Machine.advance p limits' m' = .ok τ') :
    Nested.Together outer outer' (τ.map cut) (τ'.map cut) := by
  have hjoint := (Nested.joint_simulation p limits limits' houter houter').advance
    (fun _ _ hst => hst.pc) nofun halike
  refine hjoint _ _ ?_ ?_
  · rw [h.advance_cut, hm]
    rfl
  · rw [h'.advance_cut, hm']
    rfl

/-! ## Runs -/

/-- The call that is made in the state `s`, after `n` instructions, comes to an end with the
    instruction that is next after `k` instructions, and this returns `v`: it is the first one
    after the call that leads to as few active calls as there are in `s`. -/
structure Returns (p : Program) (limits : Limits) (n : Nat) (s : Machine) (k : Nat) (v : Value) :
    Prop where
  lt : n < k
  ret : ∃ m s', Reached p limits k m ∧ advance p limits m = .ok (.returned v s') ∧
    s'.callers.depth = s.callers.depth
  inside : ∀ j m, n < j → j ≤ k → Reached p limits j m → s.callers.depth < m.callers.depth

/-- It is enough to look at one state for each number of instructions. -/
theorem Returns.of_states {n k : Nat} {s m s' : Machine} {v : Value} (hlt : n < k)
    (hm : Reached p limits k m) (hret : advance p limits m = .ok (.returned v s'))
    (hdepth : s'.callers.depth = s.callers.depth)
    (hinside : ∀ j, n < j → j ≤ k → ∃ x, Reached p limits j x ∧ s.callers.depth < x.callers.depth) :
    Returns p limits n s k v where
  lt := hlt
  ret := ⟨m, s', hm, hret, hdepth⟩
  inside j x hj hjk hx := by
    obtain ⟨y, hy, hlt⟩ := hinside j hj hjk
    rwa [hx.unique hy]

/-- The activation of a callee has no operands yet, and its first local slots are the arguments. -/
theorem cut_openFrame_active (m : Machine) (entry : Nat) {argc localsLen : Nat}
    (hargc : argc ≤ m.stack.size) (hlen : argc ≤ localsLen) :
    (m.openFrame entry argc localsLen).cut.active =
      { operands := []
        locals := m.stack.extract (m.stack.size - argc) m.stack.size ++
          Array.replicate (localsLen - argc) .none
        returnIndex := m.pc } := by
  have hargs : (m.stack.extract (m.stack.size - argc) m.stack.size).size = argc := by
    rw [Array.size_extract]
    omega
  have hslots : (m.openFrame entry argc localsLen).locals.extract m.locals.size
      (m.locals.size + localsLen) = m.stack.extract (m.stack.size - argc) m.stack.size ++
        Array.replicate (localsLen - argc) .none := by
    rw [openFrame, Array.append_assoc, Array.extract_append_right, Array.extract_eq_self_of_le]
    rw [Array.size_append, hargs, Array.size_replicate]
    omega
  have hoperands : (m.openFrame entry argc localsLen).stack.extract (m.stack.size - argc)
      (m.openFrame entry argc localsLen).stack.size = #[] := by
    simp [openFrame]
  have hbase : (m.openFrame entry argc localsLen).frame.stackBase = m.stack.size - argc := rfl
  simp only [cut, Frame.window, hbase, hoperands]
  exact congrArg (fun locals => (⟨[], locals, m.pc⟩ : Activation)) hslots

/-- A call that succeeds opens a frame. -/
theorem openFrame_of_advance {s : Machine} {i : Placed} {target : UInt32} {argc : UInt8}
    {locals : UInt16} {τ : Transition Machine} (hi : p.fetch? s.pc = some i)
    (hcall : i.instruction = .call target argc locals) (hτ : advance p limits s = .ok τ) :
    argc.toNat ≤ s.depth ∧ ∃ entry, p.indexOf? target.toNat = some entry ∧
      τ = .called target ({ s with pc := s.pc + 1 }.openFrame entry argc.toNat
        (max argc.toNat locals.toNat)) := by
  rw [advance_eq hi, hcall] at hτ
  obtain ⟨s', henter, hτ⟩ := bind_eq_ok.1 hτ
  cases hτ
  obtain ⟨-, hargc, entry, hentry, -, rfl⟩ := enter_ok henter
  exact ⟨hargc, entry, hentry, rfl⟩

/-- Two calls with the same arguments start alike. -/
theorem alike_of_args_eq {s s' e e' : Machine} {i i' : Placed} {target : UInt32} {argc : UInt8}
    {locals : UInt16} {τ τ' : Transition Machine} (hi : p.fetch? s.pc = some i)
    (hi' : p.fetch? s'.pc = some i') (hcall : i.instruction = .call target argc locals)
    (hcall' : i'.instruction = .call target argc locals)
    (hargs : s.stack.extract (s.stack.size - argc.toNat) s.stack.size =
      s'.stack.extract (s'.stack.size - argc.toNat) s'.stack.size)
    (hτ : advance p limits s = .ok τ) (hτ' : advance p limits' s' = .ok τ')
    (he : τ.state? = some e) (he' : τ'.state? = some e') :
    Nested.Alike e.cut.callers e'.cut.callers e.cut e'.cut ∧
      e.cut.callers.length = s.callers.depth + 1 ∧
      e'.cut.callers.length = s'.callers.depth + 1 := by
  obtain ⟨hdepth, entry, hentry, rfl⟩ := openFrame_of_advance hi hcall hτ
  obtain ⟨hdepth', entry', hentry', rfl⟩ := openFrame_of_advance hi' hcall' hτ'
  cases hentry.symm.trans hentry'
  cases he
  cases he'
  rw [depth] at hdepth hdepth'
  have hlen := Nat.le_max_left argc.toNat locals.toNat
  have hactive := cut_openFrame_active { s with pc := s.pc + 1 } entry (by simp only; omega) hlen
  have hactive' :=
    cut_openFrame_active { s' with pc := s'.pc + 1 } entry (by simp only; omega) hlen
  refine ⟨⟨rfl, .callee ?_ ?_⟩, ?_, ?_⟩
  · rw [hactive, hactive']
  · rw [hactive, hactive', hargs]
  · rw [cut_depth]
    simp [openFrame, CallStack.push, CallStack.depth]
  · rw [cut_depth]
    simp [openFrame, CallStack.push, CallStack.depth]

/-- As long as the first call has not returned, the two runs go on in step. -/
theorem Reached.alike {n n' : Nat} {e e' : Machine}
    (halike : Nested.Alike outer outer' e.cut e'.cut) (houter : outer ≠ []) (houter' : outer' ≠ [])
    (he : Reached p limits n e) (he' : Reached p limits' n' e') {j : Nat} {m m' : Machine}
    (hm : Reached p limits (n + j) m) (hm' : Reached p limits' (n' + j) m')
    (hinside : ∀ i x, i ≤ j → Reached p limits (n + i) x → outer.length ≤ x.callers.depth) :
    Nested.Alike outer outer' m.cut m'.cut := by
  induction j generalizing m m' with
  | zero =>
    cases he.unique hm
    cases he'.unique hm'
    exact halike
  | succ j ih =>
    obtain ⟨m₀, τ, hm₀, hτ, hstate⟩ := hm.pred
    obtain ⟨m₀', τ', hm₀', hτ', hstate'⟩ := hm'.pred
    have halike₀ := ih hm₀ hm₀' fun i x hi hx => hinside i x (Nat.le_succ_of_le hi) hx
    have htogether := hm₀.sound.together hm₀'.sound houter houter' halike₀ hτ hτ'
    have hdepth := hinside (j + 1) m (Nat.le_refl _) hm
    rcases htogether.state (Transition.state?_map hstate) (Transition.state?_map hstate') with
      halike | ⟨hlen, -⟩
    · exact halike
    · -- the call would have returned
      rw [cut_depth] at hlen
      omega

/-- Of two calls with the same arguments, the one that takes no more instructions returns the same
    value as the other one, after as many instructions. -/
theorem Returns.eq_of_le {n n' k k' : Nat} {s s' : Machine} {i i' : Placed} {target : UInt32}
    {argc : UInt8} {locals : UInt16} {v v' : Value} (hreturns : Returns p limits n s k v)
    (hs : Reached p limits n s) (hs' : Reached p limits' n' s') (hi : p.fetch? s.pc = some i)
    (hi' : p.fetch? s'.pc = some i') (hcall : i.instruction = .call target argc locals)
    (hcall' : i'.instruction = .call target argc locals)
    (hargs : s.stack.extract (s.stack.size - argc.toNat) s.stack.size =
      s'.stack.extract (s'.stack.size - argc.toNat) s'.stack.size)
    (hreturns' : Returns p limits' n' s' k' v')
    (hle : k - n ≤ k' - n') : v = v' ∧ k - n = k' - n' := by
  obtain ⟨hlt, ⟨m, t, hm, hret, hdepth⟩, hinside⟩ := hreturns
  obtain ⟨hlt', ⟨m', t', hm', hret', hdepth'⟩, hinside'⟩ := hreturns'
  obtain ⟨τ, e, hτ, hstate, he⟩ := hs.succ hm hlt
  obtain ⟨τ', e', hτ', hstate', he'⟩ := hs'.succ hm' hlt'
  obtain ⟨halike, hlen, hlen'⟩ :=
    alike_of_args_eq hi hi' hcall hcall' hargs hτ hτ' hstate hstate'
  have houter : e.cut.callers ≠ [] := List.ne_nil_of_length_eq_add_one hlen
  have houter' : e'.cut.callers ≠ [] := List.ne_nil_of_length_eq_add_one hlen'
  -- the other run after as many instructions
  obtain ⟨j, rfl⟩ : ∃ j, k = n + 1 + j := ⟨k - (n + 1), by omega⟩
  obtain ⟨x', hx'⟩ := hm'.of_le (show n' + 1 + j ≤ k' by omega)
  have halike := he.alike halike houter houter' he' hm hx' fun i x hi hx => by
    have := hinside (n + 1 + i) x (by omega) (by omega) hx
    omega
  rcases Nat.eq_or_lt_of_le (show n' + 1 + j ≤ k' by omega) with rfl | hlt
  · -- both return
    cases hx'.unique hm'
    have htogether : Nested.Together _ _ (.returned v t.cut) (.returned v' t'.cut) :=
      hm.sound.together hm'.sound houter houter' halike hret hret'
    refine ⟨?_, by omega⟩
    cases htogether <;> rfl
  · -- one returns, so the other cannot be inside of its call any more
    obtain ⟨υ, y, hυ, hstate, hy⟩ := hx'.succ hm' hlt
    have htogether : Nested.Together _ _ (.returned v t.cut) (υ.map cut) :=
      hm.sound.together hx'.sound houter houter' halike hret hυ
    have hin := hinside' _ y (by omega) (by omega) hy
    rcases htogether.state rfl (Transition.state?_map hstate) with halike | ⟨-, hleft⟩
    · obtain ⟨d, hcallers, -⟩ := halike.activations.length_eq
      rw [cut_depth] at hcallers
      omega
    · rw [cut_depth] at hleft
      omega

/-- A call is a function of its arguments. Two calls of the same code with the same arguments, in
    one run or in runs with any limits, return the same value after the same number of
    instructions, if they both return. -/
theorem returns_eq_of_args_eq {n n' k k' : Nat} {s s' : Machine} {i i' : Placed} {target : UInt32}
    {argc : UInt8} {locals : UInt16} {v v' : Value} (hs : Reached p limits n s)
    (hs' : Reached p limits' n' s') (hi : p.fetch? s.pc = some i) (hi' : p.fetch? s'.pc = some i')
    (hcall : i.instruction = .call target argc locals)
    (hcall' : i'.instruction = .call target argc locals)
    (hargs : s.stack.extract (s.stack.size - argc.toNat) s.stack.size =
      s'.stack.extract (s'.stack.size - argc.toNat) s'.stack.size)
    (hreturns : Returns p limits n s k v) (hreturns' : Returns p limits' n' s' k' v') :
    v = v' ∧ k - n = k' - n' := by
  rcases Nat.le_total (k - n) (k' - n') with hle | hle
  · exact hreturns.eq_of_le hs hs' hi hi' hcall hcall' hargs hreturns' hle
  · obtain ⟨hv, hk⟩ := hreturns'.eq_of_le hs' hs hi' hi hcall' hcall hargs.symm hreturns hle
    exact ⟨hv.symm, hk.symm⟩

end Machine

/-! ## An example -/

/-- A program that calls a function with `5` and then, through another function, with the same
    argument again. -/
def Program.callTwice : Program where
  bytes :=
    [86, 69, 76, 65, 1, 0, 0, 0, 2, 0, 0, 0,
      1, 0, 0, 0, 36, 0, 0, 0, 4, 0, 0, 0, 2, 0, 0, 0, 40, 0, 0, 0, 42, 0, 0, 0,
      0, 0, 0, 0,
      1, 5, 0, 0, 0, 0, 0, 0, 0, 72, 26, 0, 0, 0, 1, 0, 0, 72, 30, 0, 0, 0, 1, 0, 0, 79,
      16, 0, 0, 73, 16, 0, 0, 72, 26, 0, 0, 0, 1, 0, 0, 73]
  header := { sectionCount := 2 }
  sections := ⟨[⟨.constants, 36, 4⟩, ⟨.code, 40, 42⟩]⟩
  constants := #[]
  code :=
    #[⟨0, .pushInt 5⟩, ⟨9, .call 26 1 0⟩, ⟨17, .call 30 1 0⟩, ⟨25, .halt⟩,
      ⟨26, .load 0⟩, ⟨29, .ret⟩,
      ⟨30, .load 0⟩, ⟨33, .call 26 1 0⟩, ⟨41, .ret⟩]
  lines := #[]

example : Program.load Program.callTwice.bytes = .ok .callTwice := by cbv

namespace Machine

/-- The state before the first call. -/
def beforeFirst : Machine :=
  { start with stack := #[.int 5], pc := 1 }

/-- The state in the first call. -/
def inFirst : Machine :=
  { beforeFirst with pc := 2 }.openFrame 4 1 1

/-- The state before the call that is made in another one. -/
def beforeSecond : Machine :=
  { { beforeFirst with pc := 3 }.openFrame 6 1 1 with stack := #[.int 5], pc := 7 }

/-- The state in this call. -/
def inSecond : Machine :=
  { beforeSecond with pc := 8 }.openFrame 4 1 1

section

set_option maxRecDepth 4096

theorem reached_beforeFirst : Reached .callTwice {} 1 beforeFirst :=
  .step .start (by decide) rfl rfl

theorem reached_inFirst : Reached .callTwice {} 2 inFirst :=
  .step reached_beforeFirst (by decide) rfl rfl

theorem reached_endFirst :
    Reached .callTwice {} 3 { inFirst with stack := #[.int 5], pc := 5 } :=
  .step reached_inFirst (by decide) rfl rfl

theorem advance_endFirst :
    advance .callTwice {} { inFirst with stack := #[.int 5], pc := 5 } =
      .ok (.returned (.int 5) { beforeFirst with pc := 2 }) :=
  rfl

theorem reached_beforeSecond : Reached .callTwice {} 6 beforeSecond := by
  have h₄ : Reached .callTwice {} 4 { beforeFirst with pc := 2 } :=
    .step reached_endFirst (by decide) advance_endFirst rfl
  have h₅ : Reached .callTwice {} 5 ({ beforeFirst with pc := 3 }.openFrame 6 1 1) :=
    .step h₄ (by decide) rfl rfl
  exact .step h₅ (by decide) rfl rfl

theorem reached_inSecond : Reached .callTwice {} 7 inSecond :=
  .step reached_beforeSecond (by decide) rfl rfl

theorem reached_endSecond :
    Reached .callTwice {} 8 { inSecond with stack := #[.int 5], pc := 5 } :=
  .step reached_inSecond (by decide) rfl rfl

theorem advance_endSecond :
    advance .callTwice {} { inSecond with stack := #[.int 5], pc := 5 } =
      .ok (.returned (.int 5) { beforeSecond with pc := 8 }) :=
  rfl

/-- The two calls are made at different depths and after different numbers of instructions. -/
theorem returns_eq_of_args_eq_callTwice : ∃ v v',
    Returns .callTwice {} 1 beforeFirst 3 v ∧ Returns .callTwice {} 6 beforeSecond 8 v' ∧
      beforeFirst.callers.depth = 0 ∧ beforeSecond.callers.depth = 1 ∧ v = v' := by
  have hfirst : Returns .callTwice {} 1 beforeFirst 3 (.int 5) := by
    refine .of_states (by decide) reached_endFirst advance_endFirst rfl fun j hj hjk => ?_
    obtain rfl | rfl : j = 2 ∨ j = 3 := by omega
    · exact ⟨_, reached_inFirst, by decide⟩
    · exact ⟨_, reached_endFirst, by decide⟩
  have hsecond : Returns .callTwice {} 6 beforeSecond 8 (.int 5) := by
    refine .of_states (by decide) reached_endSecond advance_endSecond rfl fun j hj hjk => ?_
    obtain rfl | rfl : j = 7 ∨ j = 8 := by omega
    · exact ⟨_, reached_inSecond, by decide⟩
    · exact ⟨_, reached_endSecond, by decide⟩
  have hi : Program.callTwice.fetch? beforeFirst.pc = some ⟨9, .call 26 1 0⟩ := rfl
  have hi' : Program.callTwice.fetch? beforeSecond.pc = some ⟨33, .call 26 1 0⟩ := rfl
  obtain ⟨hv, -⟩ := returns_eq_of_args_eq reached_beforeFirst reached_beforeSecond hi hi' rfl rfl
    rfl hfirst hsecond
  exact ⟨_, _, hfirst, hsecond, rfl, rfl, hv⟩

end

end Machine

end StackMachine
