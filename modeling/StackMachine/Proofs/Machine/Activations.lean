import Mathlib.Algebra.Ring.Nat
import StackMachine.Proofs.Machine.Windows

/-!
# Activations

A machine without shared stacks: every call has operands and local slots of its own, its
*activation*. It says what calls and returns mean. A call moves its arguments into the slots of a
fresh activation, a return drops the activation, and nothing else reaches beyond the active one.

The machine that runs programs refines it. Cutting its two stacks at the positions in the frames
(`Machine.cut`) gives the activations, and every instruction does the same before and after
cutting.

* `Activation`, `Nested`, `Nested.storage`: the machine of activations;
* `Machine.cut`: the activations of a machine with shared stacks;
* `Machine.cut_simulation`: the operations agree, and with them all instructions and runs.
-/

namespace StackMachine

/-- The part of the state that belongs to one call, and to no other. -/
structure Activation where
  /-- The operands, the last one first. -/
  operands : List Value
  /-- The local slots. -/
  locals : Array Value
  /-- The position of the instruction to resume at in the caller. -/
  returnIndex : Nat
deriving DecidableEq

/-- The state of a machine of activations. -/
structure Nested where
  /-- The activation of the active call. -/
  active : Activation
  /-- The activations of the suspended callers, the innermost first. -/
  callers : List Activation
  /-- The position of the next instruction. -/
  pc : Nat
deriving DecidableEq

namespace Nested

/-- The state before the first instruction. -/
def start : Nested where
  active := ⟨[], Array.replicate topLocals .none, 0⟩
  callers := []
  pc := 0

/-- All activations, the innermost first and the top level last. -/
def activations (n : Nested) : List Activation :=
  n.active :: n.callers

/-- The number of operands, and of local slots but those of the top level. -/
def used (n : Nested) : Nat :=
  (n.activations.map (·.operands.length)).sum +
    (n.activations.dropLast.map (·.locals.size)).sum

/-- The state with other operands of the active call. -/
def withOperands (n : Nested) (operands : List Value) : Nested :=
  { n with active := { n.active with operands } }

/-- The state with an operand more, unless the limit is reached. -/
def push (n : Nested) (limits : Limits) (v : Value) : Except Fault Nested :=
  if limits.stackLimit ≤ n.used then .error (.stackOverflow limits.stackLimit)
  else .ok (n.withOperands (v :: n.active.operands))

/-- The last operand and the state without it. -/
def pop (n : Nested) (op : Opcode) : Except Fault (Value × Nested) :=
  match n.active.operands with
  | [] => .error (.stackUnderflow op)
  | v :: operands => .ok (v, n.withOperands operands)

/-- The value in a local slot. -/
def load (n : Nested) (slot : UInt16) : Except Fault Value :=
  match n.active.locals[slot.toNat]? with
  | none => .error (.invalidLocal slot)
  | some v => .ok v

/-- The state in which a local slot has the value `v`. -/
def setLocal (n : Nested) (slot : Nat) (v : Value) : Nested :=
  { n with active := { n.active with locals := n.active.locals.setIfInBounds slot v } }

/-- The state in which the last operand has moved to a local slot. -/
def store (n : Nested) (slot : UInt16) : Except Fault Nested :=
  if slot.toNat < n.active.locals.size then do
    let (v, n) ← n.pop .store
    return n.setLocal slot.toNat v
  else .error (.invalidLocal slot)

/-- The state in a callee whose first instruction has the position `entry`. The last `argc`
    operands of the caller become the first slots of a fresh activation, in the order in which
    they were pushed. -/
def openCall (n : Nested) (entry argc localsLen : Nat) : Nested where
  active :=
    { operands := []
      locals := (n.active.operands.take argc).reverse.toArray ++
        Array.replicate (localsLen - argc) .none
      returnIndex := n.pc }
  callers := { n.active with operands := n.active.operands.drop argc } :: n.callers
  pc := entry

/-- A call. -/
def enter (n : Nested) (p : Program) (limits : Limits) (target : UInt32) (argc : UInt8)
    (locals : UInt16) : Except Fault Nested :=
  if limits.callDepth ≤ n.callers.length then .error (.callDepthExceeded limits.callDepth)
  else if n.active.operands.length < argc.toNat then .error (.stackUnderflow .call)
  else
    match p.indexOf? target.toNat with
    | none => .error (.invalidJumpTarget target)
    | some entry =>
      let localsLen := max argc.toNat locals.toNat
      if limits.stackLimit < n.used + (localsLen - argc.toNat) then
        .error (.stackOverflow limits.stackLimit)
      else .ok (n.openCall entry argc.toNat localsLen)

/-- A return: the activation is dropped, and the caller gets an operand more. At the top level it
    ends the run. -/
def leave (n : Nested) : Except Fault (Transition Nested) := do
  let (v, n) ← n.pop .ret
  match n.callers with
  | [] => return .halted v n
  | caller :: callers =>
    return .returned v
      { active := { caller with operands := v :: caller.operands }
        callers
        pc := n.active.returnIndex }

/-- The operations of the machine of activations that executes `p`. -/
def storage (p : Program) (limits : Limits) : Storage Fault Nested where
  fault f _ := f
  pc := pc
  goTo pc n := { n with pc }
  push v n := n.push limits v
  pop op n := n.pop op
  load slot n := n.load slot
  store slot n := n.store slot
  enter target argc locals n := n.enter p limits target argc locals
  leave := leave

end Nested

/-! ## Cutting -/

/-- The activation whose window is that of the frame `f`, if the operands end at `top`. -/
def Frame.window (stack locals : Array Value) (top : Nat) (f : Frame) : Activation where
  operands := (stack.extract f.stackBase top).toList.reverse
  locals := locals.extract f.localsBase (f.localsBase + f.localsLen)
  returnIndex := f.returnIndex

/-- The activations whose windows are those of the frames `fs`, the innermost first. The operands
    of a call end where those of its callee begin. -/
def windows (stack locals : Array Value) : (top : Nat) → List Frame → List Activation
  | _, [] => []
  | top, f :: fs => f.window stack locals top :: windows stack locals f.stackBase fs

namespace Machine

/-- The activations that the two stacks are made of. -/
def cut (m : Machine) : Nested where
  active := m.frame.window m.stack m.locals m.stack.size
  callers := windows m.stack m.locals m.frame.stackBase m.callers.toList
  pc := m.pc

end Machine

section

variable {stack stack' locals locals' : Array Value} {f g : Frame} {fs : List Frame}
  {top slots : Nat}

@[simp] theorem length_windows : (windows stack locals top fs).length = fs.length := by
  induction fs generalizing top with
  | nil => rfl
  | cons f fs ih => rw [windows, List.length_cons, ih, List.length_cons]

/-- What lies above the windows does not matter. -/
theorem windows_congr (h : Tiled fs top slots) (hstack : stack.take top = stack'.take top)
    (hlocals : locals.take slots = locals'.take slots) :
    windows stack locals top fs = windows stack' locals' top fs := by
  -- The windows of the callers lie below that of the active call, so what is assumed holds for
  -- them too.
  induction h with
  | top =>
    simp only [windows, Frame.window, Frame.top]
    rw [extract_congr hstack (Nat.le_refl _), extract_congr hlocals (Nat.le_of_eq (Nat.zero_add _))]
  | call hf _ ih =>
    simp only [windows, Frame.window]
    rw [extract_congr hstack (Nat.le_refl _), extract_congr hlocals (Nat.le_refl _),
      ih (take_congr hstack hf) (take_congr hlocals (Nat.le_add_right _ _))]

variable (stack locals)

/-- The windows of the operands make up the whole stack. -/
theorem flatten_operands (h : Tiled fs top slots) :
    ((windows stack locals top fs).reverse.map (·.operands.reverse)).flatten =
      (stack.take top).toList := by
  induction h with
  | top => simp [windows, Frame.window, Frame.top]
  | @call f _ height hf _ ih =>
    simp only [windows, List.reverse_cons, List.map_append, List.flatten_append, ih]
    simp only [Frame.window, List.map_cons, List.map_nil, List.flatten_cons, List.flatten_nil,
      List.append_nil, List.reverse_reverse, ← Array.toList_append, Array.take,
      Array.extract_append_extract]
    rw [Nat.zero_min, Nat.max_eq_right hf]

/-- The windows of the local slots make up the whole stack of slots. -/
theorem flatten_locals (h : Tiled fs top slots) :
    ((windows stack locals top fs).reverse.map (·.locals.toList)).flatten =
      (locals.take slots).toList := by
  induction h with
  | top => simp [windows, Frame.window, Frame.top]
  | @call f _ _ _ _ ih =>
    simp only [windows, List.reverse_cons, List.map_append, List.flatten_append, ih]
    simp only [Frame.window, List.map_cons, List.map_nil, List.flatten_cons, List.flatten_nil,
      List.append_nil, ← Array.toList_append, Array.take, Array.extract_append_extract]
    rw [Nat.zero_min, Nat.max_eq_right (Nat.le_add_right _ _)]

theorem sum_operands (h : Tiled fs top slots) (htop : top ≤ stack.size) :
    ((windows stack locals top fs).map (·.operands.length)).sum = top := by
  have hlen := congrArg List.length (flatten_operands stack locals h)
  simpa [Function.comp_def, List.length_flatten, Nat.min_eq_left htop] using hlen

theorem sum_locals (h : Tiled fs top slots) (hslots : slots ≤ locals.size) :
    ((windows stack locals top fs).dropLast.map (·.locals.size)).sum + topLocals = slots := by
  induction h with
  | top => simp [windows]
  | @call f fs _ _ hfs ih =>
    have hne : windows stack locals f.stackBase fs ≠ [] := by
      rw [← List.length_pos_iff, length_windows]
      exact hfs.length_pos
    have hsize : (f.window stack locals top).locals.size = f.localsLen := by
      simp only [Frame.window, Array.size_extract]
      omega
    have := ih (by omega)
    rw [windows, List.dropLast_cons_of_ne_nil hne, List.map_cons, List.sum_cons]
    simp only [Frame.window, Array.size_extract] at this ⊢
    omega

end

namespace Machine

variable {p : Program} {limits : Limits} {m : Machine}

theorem cut_activations : m.cut.activations = windows m.stack m.locals m.stack.size m.frames :=
  rfl

theorem cut_start : start.cut = .start := by
  simp [cut, Frame.window, start, Frame.top, Nested.start, windows, CallStack.toList]

/-- Both machines charge the same. -/
theorem Sound.cut_used (h : Sound p limits m) : m.cut.used = m.used := by
  have hstack := sum_operands m.stack m.locals h.tiled (Nat.le_refl _)
  have hlocals := sum_locals m.stack m.locals h.tiled (Nat.le_refl _)
  rw [Nested.used, cut_activations, used]
  omega

theorem cut_depth : m.cut.callers.length = m.callers.depth := by
  rw [cut, length_windows, CallStack.length_toList]

theorem length_cut_operands : m.cut.active.operands.length = m.depth := by
  simp [cut, Frame.window, depth]

/-- The activations of the callers are the same in all states that agree below the window of the
    active call. -/
theorem Sound.windows_callers (h : Sound p limits m) {stack locals : Array Value}
    (hstack : stack.take m.frame.stackBase = m.stack.take m.frame.stackBase)
    (hlocals : locals.take m.frame.localsBase = m.locals.take m.frame.localsBase) :
    windows stack locals m.frame.stackBase m.callers.toList =
      windows m.stack m.locals m.frame.stackBase m.callers.toList := by
  have htiled := h.tiled
  rw [frames] at htiled
  generalize m.callers.toList = fs at htiled ⊢
  cases fs with
  | nil => rfl
  | cons g fs => exact windows_congr htiled.tail hstack hlocals

theorem Sound.cut_push (h : Sound p limits m) (v : Value) :
    { m with stack := m.stack.push v }.cut = m.cut.withOperands (v :: m.cut.active.operands) := by
  have hbase := h.stackBase_le
  have hcallers := h.windows_callers (Array.extract_push_of_le (b := v) hbase) rfl
  have hpush : (m.stack.push v).extract m.frame.stackBase (m.stack.size + 1) =
      (m.stack.extract m.frame.stackBase m.stack.size).push v := by
    rw [Array.extract_push, if_neg (Nat.not_succ_le_self _), if_pos hbase]
  simp only [cut, Nested.withOperands, hcallers, Frame.window, Array.size_push, hpush,
    Array.toList_push, List.reverse_append, List.reverse_singleton, List.singleton_append]

theorem Sound.cut_setLocal (h : Sound p limits m) (slot : Nat) (v : Value) :
    { m with locals := m.locals.setIfInBounds (m.frame.localsBase + slot) v }.cut =
      m.cut.setLocal slot v := by
  have hcallers : windows m.stack (m.locals.setIfInBounds (m.frame.localsBase + slot) v)
      m.frame.stackBase m.callers.toList = m.cut.callers :=
    h.windows_callers rfl (take_setIfInBounds (Nat.le_add_right _ _))
  simp only [cut, Nested.setLocal, hcallers, Frame.window, extract_setIfInBounds]

theorem Sound.cut_openFrame (h : Sound p limits m) {entry argc localsLen : Nat}
    (hargc : argc ≤ m.depth) (hlen : argc ≤ localsLen) :
    (m.openFrame entry argc localsLen).cut = m.cut.openCall entry argc localsLen := by
  have hbase := h.stackBase_le
  have hslots := h.locals_eq
  have hoperands := reverse_extract hbase hargc
  simp only [depth] at hargc
  have hlength : (m.stack.extract (m.stack.size - argc) m.stack.size).toList.reverse.length =
      argc := by
    simp
    omega
  -- what the callers see is below the arguments, and below the slots of the callee
  have hstack : (m.stack.shrink (m.stack.size - argc)).take (m.stack.size - argc) =
      m.stack.take (m.stack.size - argc) := by
    simp
  have hlocals : (m.openFrame entry argc localsLen).locals.take m.locals.size =
      m.locals.take m.locals.size := by
    simp [Machine.openFrame, Array.extract_append]
  have hcallers := h.windows_callers (take_congr hstack (Nat.le_sub_of_add_le (by omega)))
    (take_congr hlocals (by omega))
  have hcaller : m.frame.window (m.stack.shrink (m.stack.size - argc))
      (m.openFrame entry argc localsLen).locals (m.stack.size - argc) =
        { m.cut.active with operands := m.cut.active.operands.drop argc } := by
    simp only [Frame.window, extract_congr hstack (Nat.le_refl _),
      extract_congr hlocals (Nat.le_of_eq hslots), cut, hoperands, List.drop_left' hlength]
  -- the slots of the callee are the arguments and the padding
  have hcallee : (m.openFrame entry argc localsLen).locals.extract m.locals.size
      (m.locals.size + localsLen) =
        (m.cut.active.operands.take argc).reverse.toArray ++
          Array.replicate (localsLen - argc) .none := by
    simp only [cut, Frame.window, hoperands, List.take_left' hlength, List.reverse_reverse,
      Array.toArray_toList, Machine.openFrame]
    rw [Array.append_assoc, Array.extract_append_right, Array.extract_eq_self_of_le]
    simp only [Array.size_append, Array.size_extract, Array.size_replicate]
    omega
  rw [Nested.openCall]
  rw [← hcaller, ← hcallee, show m.cut.callers = _ from hcallers.symm]
  simp [cut, Machine.openFrame, windows, Frame.window]

/-- The activations of the callers, once the active call is over. -/
theorem Sound.cut_closeFrame (h : Sound p limits m) {caller : Frame} {callers : CallStack}
    (hpop : m.callers.pop? = some (caller, callers)) :
    m.cut.callers = (m.closeFrame caller callers).cut.active ::
      (m.closeFrame caller callers).cut.callers := by
  have hbase := h.stackBase_le
  have hstack : (m.stack.shrink m.frame.stackBase).take m.frame.stackBase =
      m.stack.take m.frame.stackBase := by
    simp
  have hlocals : (m.locals.shrink m.frame.localsBase).take m.frame.localsBase =
      m.locals.take m.frame.localsBase := by
    simp
  have hsize : (m.stack.shrink m.frame.stackBase).size = m.frame.stackBase := by
    simp [hbase]
  rw [show m.cut.callers = _ from (h.windows_callers hstack hlocals).symm,
    CallStack.toList_of_pop? hpop]
  simp only [cut, Machine.closeFrame, windows, hsize]

/-! ## The operations before and after cutting -/

theorem Sound.push_cut (h : Sound p limits m) (v : Value) :
    m.cut.push limits v = (m.push limits v).map cut := by
  rw [Nested.push, h.cut_used]
  cases hm : m.push limits v with
  | ok m' =>
    obtain ⟨hroom, rfl⟩ := push_ok hm
    rw [if_neg (Nat.not_le_of_lt hroom), ← h.cut_push v]
    rfl
  | error f =>
    obtain ⟨hfull, rfl⟩ := push_error hm
    rw [if_pos hfull]
    rfl

theorem Sound.pop_cut (h : Sound p limits m) (op : Opcode) :
    m.cut.pop op = (m.pop op).map fun (v, m) => (v, m.cut) := by
  cases hm : m.pop op with
  | ok x =>
    obtain ⟨v, m'⟩ := x
    obtain ⟨-, hv, rfl⟩ := pop_ok hm
    -- The state before is the state after with the operand pushed again.
    obtain ⟨stack, hstack⟩ := Array.back?_eq_some_iff.1 hv
    have hcut := (h.pop hm).cut_push v
    simp only [hstack, Array.pop_push] at hcut ⊢
    rw [← hstack] at hcut
    rw [show m.cut = _ from hcut]
    rfl
  | error f =>
    obtain ⟨hdepth, rfl⟩ := pop_error hm
    have hnil : m.cut.active.operands = [] :=
      List.eq_nil_of_length_eq_zero (length_cut_operands.trans hdepth)
    rw [Nested.pop, hnil]
    rfl

theorem Sound.load_cut (h : Sound p limits m) (slot : UInt16) :
    m.cut.load slot = m.load slot := by
  have hslots := h.locals_eq
  rw [Machine.load, Nested.load, localIndex]
  by_cases hslot : slot.toNat < m.frame.localsLen
  · have hlt : m.frame.localsBase + slot.toNat < m.locals.size := by omega
    have hget : m.cut.active.locals[slot.toNat]? =
        some m.locals[m.frame.localsBase + slot.toNat] := by
      simp only [cut, Frame.window]
      rw [Array.getElem?_extract_of_lt (by omega)]
    rw [if_pos hslot, hget]
    exact congrArg Except.ok (Array.getElem_eq_getD _)
  · have hget : m.cut.active.locals[slot.toNat]? = none := by
      simp only [cut, Frame.window]
      rw [Array.getElem?_eq_none (by simp only [Array.size_extract]; omega)]
    rw [if_neg hslot, hget]
    rfl

theorem Sound.store_cut (h : Sound p limits m) (slot : UInt16) :
    m.cut.store slot = (m.store slot).map cut := by
  have hslots := h.locals_eq
  have hsize : m.cut.active.locals.size = m.frame.localsLen := by
    simp only [cut, Frame.window, Array.size_extract]
    omega
  rw [Machine.store, Nested.store, localIndex]
  rw [hsize, h.pop_cut]
  split
  · cases hm : m.pop .store with
    | ok x =>
      obtain ⟨v, m'⟩ := x
      have hset := (h.pop hm).cut_setLocal slot.toNat v
      obtain ⟨-, -, rfl⟩ := pop_ok hm
      exact congrArg Except.ok hset.symm
    | error f => rfl
  · rfl

theorem Sound.enter_cut (h : Sound p limits m) (target : UInt32) (argc : UInt8)
    (locals : UInt16) :
    m.cut.enter p limits target argc locals = (m.enter p limits target argc locals).map cut := by
  rw [Nested.enter, Machine.enter]
  rw [cut_depth, length_cut_operands, h.cut_used]
  -- The checks are the same on both sides, one after the other.
  by_cases hdepth : limits.callDepth ≤ m.callers.depth
  · rw [if_pos hdepth, if_pos hdepth]
    rfl
  rw [if_neg hdepth, if_neg hdepth]
  by_cases hargc : m.depth < argc.toNat
  · rw [if_pos hargc, if_pos hargc]
    rfl
  rw [if_neg hargc, if_neg hargc]
  cases p.indexOf? target.toNat with
  | none => rfl
  | some entry =>
    simp only
    split
    · rfl
    · rw [← h.cut_openFrame (Nat.le_of_not_lt hargc) (Nat.le_max_left _ _)]
      rfl

/-- A return cannot exceed the limit: the caller gets back fewer operands than it loses. -/
theorem Sound.push_closeFrame (h : Sound p limits m) {v w : Value} {m' : Machine}
    (hm : m.pop .ret = .ok (v, m')) {caller : Frame} {callers : CallStack} :
    (m'.closeFrame caller callers).push limits w =
      .ok { m'.closeFrame caller callers with
        stack := (m'.closeFrame caller callers).stack.push w } := by
  have hbase := h.stackBase_le
  have hslots := h.locals_eq
  have hused := h.used_le
  obtain ⟨hdepth, -, rfl⟩ := pop_ok hm
  rw [Machine.push, if_neg]
  simp only [depth, used, Machine.closeFrame, Array.size_shrink, Array.size_pop] at hdepth hused ⊢
  have := h.topLocals_le
  omega

theorem Sound.leave_cut (h : Sound p limits m) :
    m.cut.leave = (m.leave limits).map (Transition.map cut) := by
  rw [Nested.leave, Machine.leave]
  rw [h.pop_cut]
  cases hm : m.pop .ret with
  | error f => rfl
  | ok x =>
    obtain ⟨v, m'⟩ := x
    have h' := h.pop hm
    cases hpop : m'.callers.pop? with
    | none =>
      -- At the top level there is no other activation.
      have hcallers : m'.cut.callers = [] := by
        simp only [cut, CallStack.toList_of_pop?_none hpop, windows]
      simp only [Except.map, bind, Except.bind, hcallers, hpop]
      rfl
    | some x =>
      -- The caller finds its activation as it left it, and gets one operand more.
      obtain ⟨caller, callers⟩ := x
      have hcut := (h'.closeFrame hpop).cut_push v
      simp only [Except.map, bind, Except.bind, h'.cut_closeFrame hpop, hpop, h.push_closeFrame hm]
      refine congrArg Except.ok (congrArg (Transition.returned v) ?_)
      rw [hcut]
      rfl

/-! ## The instructions before and after cutting -/

/-- Cutting relates the states of a run to those of the machine of activations. -/
def CutTo (p : Program) (limits : Limits) (m : Machine) (n : Nested) : Prop :=
  Sound p limits m ∧ m.cut = n

/-- The operations of the two machines agree. -/
theorem cut_simulation (p : Program) (limits : Limits) :
    Simulation p (storage p limits) (Nested.storage p limits) Eq (CutTo p limits)
      (Transition.Related (CutTo p limits)) where
  fault _ _ := rfl
  goTo := by
    rintro m _ pc hpc ⟨h, rfl⟩
    exact ⟨h.goTo hpc, rfl⟩
  push := by
    rintro m _ v ⟨h, rfl⟩
    change Agree _ _ (m.push limits v) (m.cut.push limits v)
    rw [h.push_cut]
    exact .map fun _ hm => ⟨h.push hm, rfl⟩
  pop := by
    rintro m _ op ⟨h, rfl⟩
    change Agree _ _ (m.pop op) (m.cut.pop op)
    rw [h.pop_cut]
    exact .map fun _ hm => ⟨rfl, h.pop hm, rfl⟩
  load := by
    rintro m _ slot ⟨h, rfl⟩
    change Agree _ _ (m.load slot) (m.cut.load slot)
    rw [h.load_cut]
    exact .refl (fun _ _ => rfl) fun _ _ => rfl
  store := by
    rintro m _ slot ⟨h, rfl⟩
    change Agree _ _ (m.store slot) (m.cut.store slot)
    rw [h.store_cut]
    exact .map fun _ hm => ⟨h.store hm, rfl⟩
  enter := by
    rintro m _ target argc locals ⟨h, rfl⟩
    change Agree _ _ (m.enter p limits target argc locals)
      (m.cut.enter p limits target argc locals)
    rw [h.enter_cut]
    exact .map fun _ hm => .called ⟨h.enter hm, rfl⟩
  leave := by
    rintro m _ ⟨h, rfl⟩
    change Agree _ _ (m.leave limits) m.cut.leave
    rw [h.leave_cut]
    refine .map fun τ hm => ?_
    cases h.leave hm with
    | next hτ => exact .next ⟨hτ.2, rfl⟩
    | called hτ => exact .called ⟨hτ.2, rfl⟩
    | returned hτ => exact .returned ⟨hτ.2, rfl⟩
    | halted hτ => exact .halted ⟨hτ.2, rfl⟩
  next h := .next h
  halted _ h := .halted h

/-- The next instruction does the same before and after cutting. -/
theorem Sound.advance_cut {m : Machine} (h : Sound p limits m) :
    (Nested.storage p limits).advance p m.cut =
      (Machine.advance p limits m).map (Transition.map cut) := by
  have hagree := (cut_simulation p limits).advance (fun _ _ hst => hst.2 ▸ rfl) rfl
    (⟨h, rfl⟩ : CutTo p limits m m.cut)
  exact (hagree.map_eq fun _ _ hτ => hτ.map_eq fun _ _ hst => hst.2).symm

/-- In every state of a run the two stacks can be cut into activations, and nothing of them is left
    over. The machine of activations gets to these activations too, after as many instructions, and
    from there on every instruction does the same in both machines: it ends both runs with the
    same value or the same fault, or leads to states that are related by cutting again. -/
theorem cut_refines {n : Nat} (hm : Reached p limits n m) :
    (Nested.storage p limits).Reached p limits.fuel .start n m.cut ∧
      (m.cut.activations.reverse.map (·.operands.reverse)).flatten = m.stack.toList ∧
      (m.cut.activations.reverse.map (·.locals.toList)).flatten = m.locals.toList ∧
      (Nested.storage p limits).advance p m.cut =
        (advance p limits m).map (Transition.map cut) ∧
      ∀ i, m.pc < p.code.size →
        (Nested.storage p limits).step p i { m.cut with pc := m.pc + 1 } =
          (step p limits i { m with pc := m.pc + 1 }).map (Transition.map cut) := by
  have hsound := hm.sound
  have hsame (s : Machine) (t : Nested) (hst : CutTo p limits s t) : s.cut = t := hst.2
  have hpc (s : Machine) (t : Nested) (hst : CutTo p limits s t) : s.pc = t.pc := hst.2 ▸ rfl
  refine ⟨?_, ?_, ?_, ?_, ?_⟩
  · have hstart : CutTo p limits .start .start := ⟨.start, cut_start⟩
    obtain ⟨t, ht, -, rfl⟩ := (cut_simulation p limits).reached hpc rfl hstart hm
    exact ht
  · rw [cut_activations, flatten_operands _ _ hsound.tiled, Array.take, Array.extract_size]
  · rw [cut_activations, flatten_locals _ _ hsound.tiled, Array.take, Array.extract_size]
  · have hagree := (cut_simulation p limits).advance hpc rfl ⟨hsound, rfl⟩
    exact (hagree.map_eq fun _ _ hτ => hτ.map_eq hsame).symm
  · intro i hlt
    have hagree := (cut_simulation p limits).step i (s := { m with pc := m.pc + 1 })
      ⟨hsound.goTo hlt, rfl⟩
    exact (hagree.map_eq fun _ _ hτ => hτ.map_eq hsame).symm

set_option maxRecDepth 4096 in
/-- In the function of `Program.addition`, the arguments are the first slots of its activation. -/
theorem cut_refines_inAddition :
    inAddition.cut.active = ⟨[], #[.int 20, .int 22, .none], 3⟩ ∧
      (Nested.storage .addition {}).Reached .addition 1000000 .start 3 inAddition.cut ∧
      (Nested.storage .addition {}).step .addition (.load 0) { inAddition.cut with pc := 5 } =
        (step .addition {} (.load 0) { inAddition with pc := 5 }).map (Transition.map cut) := by
  obtain ⟨hreached, -, -, -, hstep⟩ := cut_refines reached_inAddition
  exact ⟨rfl, hreached, hstep (.load 0) (by decide)⟩

end Machine

end StackMachine
