import StackMachine.Proofs.Image.Loading
import StackMachine.Proofs.Machine.Activations

/-!
# When an instruction raises a fault

An instruction makes its checks in an order, and the first one that fails decides the fault. What
is said here of every fault is the exact condition in a state of a run: the checks before it have
been passed, and its own fails. There is no other fault, so an instruction for which no condition
holds is executed.

* `Instruction.operands`: the number of operands that an instruction takes;
* `UnaryOp.Takes`, `BinaryOp.Takes`: the kinds of operands that an operator takes;
* `Machine.Raises`: the condition of each fault;
* `Sound.step_eq_error_iff`: the faults of instructions in sound states;
* `Machine.advance_eq_error_iff`: the faults of instructions in a run;
* `Machine.exists_target_of_execute`: the jumps that end runs.
-/

namespace StackMachine

/-! ## Operators -/

/-- The kinds of numbers. -/
def Tag.IsNumber (kind : Tag) : Prop :=
  kind = .int ∨ kind = .float

/-- The kinds of operands that a unary operator takes. -/
def UnaryOp.Takes : UnaryOp → Tag → Prop
  | .not, kind => kind = .bool
  | _, kind => kind.IsNumber

/-- The kinds of operands that a binary operator takes. -/
def BinaryOp.Takes : BinaryOp → (lhs rhs : Tag) → Prop
  | .eq, _, _ => True
  | .ne, _, _ => True
  | .arithmetic _, lhs, rhs => lhs.IsNumber ∧ rhs.IsNumber
  | .order _, lhs, rhs => lhs.IsNumber ∧ rhs.IsNumber
  | .and, lhs, rhs => lhs = .bool ∧ rhs = .bool
  | .or, lhs, rhs => lhs = .bool ∧ rhs = .bool

theorem UnaryOp.apply_eq_error_iff {op : UnaryOp} {v : Value} {f : Fault} :
    op.apply v = .error f ↔ ¬ op.Takes v.tag ∧ f = .typeMismatch (.unary op) v.tag none := by
  cases op <;> cases v <;> simp [apply, Takes, Tag.IsNumber, Value.tag, eq_comm]

/-- Whether an operator divides integers, which not all integers can be divided by. -/
def BinaryOp.Divides : BinaryOp → Prop
  | .arithmetic .div => True
  | .arithmetic .rem => True
  | _ => False

theorem ArithmeticOp.onInts_eq_error_iff {op : ArithmeticOp} {a b : Int64} {f : Fault} :
    op.onInts a b = .error f ↔ BinaryOp.Divides (.arithmetic op) ∧ b = 0 ∧
      f = .divisionByZero (.binary (.arithmetic op)) := by
  by_cases hb : b = 0 <;> cases op <;> simp [onInts, BinaryOp.Divides, hb, eq_comm]

theorem ArithmeticOp.apply_eq_error_iff {op : ArithmeticOp} {v w : Value} {f : Fault} :
    op.apply v w = .error f ↔
      (¬ (v.tag.IsNumber ∧ w.tag.IsNumber) ∧
        f = .typeMismatch (.binary (.arithmetic op)) v.tag (some w.tag)) ∨
      (BinaryOp.Divides (.arithmetic op) ∧ (∃ a, v = .int a) ∧ w = .int 0 ∧
        f = .divisionByZero (.binary (.arithmetic op))) := by
  have hints (a b : Int64) : (op.onInts a b).map Value.int = .error f ↔
      op.onInts a b = .error f := by
    cases op.onInts a b <;> simp [Except.map]
  cases v <;> cases w <;>
    simp [apply, hints, onInts_eq_error_iff, Value.toNumber?, Tag.IsNumber, Value.tag,
      eq_comm (b := f)]

theorem BinaryOp.apply_eq_error_iff {op : BinaryOp} {v w : Value} {f : Fault} :
    op.apply v w = .error f ↔
      (¬ op.Takes v.tag w.tag ∧ f = .typeMismatch (.binary op) v.tag (some w.tag)) ∨
        (op.Divides ∧ (∃ a, v = .int a) ∧ w = .int 0 ∧ f = .divisionByZero (.binary op)) := by
  cases op with
  | arithmetic op => exact ArithmeticOp.apply_eq_error_iff
  | eq | ne => simp [apply, Takes, Divides]
  | and | or =>
    cases v <;> cases w <;> simp [apply, onBools, Takes, Divides, Value.tag, eq_comm]
  | order op =>
    cases v <;> cases w <;>
      simp [apply, OrderOp.apply, Value.toNumber?, Takes, Divides, Tag.IsNumber, Value.tag, eq_comm]

/-! ## Offsets -/

namespace Program.IsLoaded

variable {p : Program} {offset : Nat}

/-- The offsets of the instructions are those at which one is found. -/
theorem mem_offsets_iff (h : p.IsLoaded) : offset ∈ p.offsets ↔ ∃ k, p.indexOf? offset = some k := by
  obtain ⟨-, hplaced⟩ := h.code_eq
  simp only [indexOf?_eq_some_iff hplaced, offsets, hplaced, List.mem_iff_getElem?,
    List.getElem?_map, getElem?_placeCode, Option.map_map]
  simp [Option.map_eq_some_iff, List.getElem?_eq_some_iff]

theorem indexOf?_eq_none_iff (h : p.IsLoaded) : p.indexOf? offset = none ↔ offset ∉ p.offsets := by
  rw [h.mem_offsets_iff, Option.eq_none_iff_forall_ne_some, not_exists]

end Program.IsLoaded

/-! ## Conditions -/

namespace Instruction

/-- The number of operands that an instruction takes. -/
@[simp] def operands : Instruction → Nat
  | nop | pushInt _ | pushFloat _ | pushTrue | pushFalse | pushNone | pushConst _ => 0
  | load _ | jump _ => 0
  | pop | dup | store _ | unary _ | jumpIfFalse _ | jumpIfTrue _ | ret | halt => 1
  | swap | binary _ => 2
  | call _ argc _ => argc.toNat

/-- The instruction does not take the operands `vs`, the last one first, because of their kinds,
    which are `lhs` and `rhs`. -/
@[simp] def Mismatches : Instruction → (vs : List Value) → (lhs : Tag) → (rhs : Option Tag) → Prop
  | unary op, v :: _, lhs, rhs => ¬ op.Takes v.tag ∧ lhs = v.tag ∧ rhs = none
  | binary op, w :: v :: _, lhs, rhs => ¬ op.Takes v.tag w.tag ∧ lhs = v.tag ∧ rhs = some w.tag
  | jumpIfFalse _, v :: _, lhs, rhs => v.tag ≠ .bool ∧ lhs = v.tag ∧ rhs = none
  | jumpIfTrue _, v :: _, lhs, rhs => v.tag ≠ .bool ∧ lhs = v.tag ∧ rhs = none
  | _, _, _, _ => False

/-- The instruction is a branch to `target` that is taken, the operands being `vs`. -/
@[simp] def Branches (target : UInt32) : Instruction → (vs : List Value) → Prop
  | jump t, _ => t = target
  | jumpIfFalse t, .bool b :: _ => b = false ∧ t = target
  | jumpIfTrue t, .bool b :: _ => b = true ∧ t = target
  | _, _ => False

end Instruction

namespace Machine

variable {p : Program} {limits : Limits} {m m' : Machine}

/-- The operands of the active call, the last one first. -/
def operands (m : Machine) : List Value :=
  m.cut.active.operands

/-- The checks that an instruction makes before it looks for its operands. -/
@[simp] def Admits (m : Machine) (limits : Limits) : Instruction → Prop
  | .store slot => slot.toNat < m.frame.localsLen
  | .call .. => m.callers.depth < limits.callDepth
  | _ => True

/-- The checks of an instruction that adds an operand, but for the room for it. -/
@[simp] def Adds (m : Machine) (p : Program) : Instruction → Prop
  | .pushInt _ | .pushFloat _ | .pushTrue | .pushFalse | .pushNone => True
  | .pushConst index => index.toNat < p.constants.size
  | .load slot => slot.toNat < m.frame.localsLen
  | .dup => 0 < m.depth
  | .nop | .pop | .swap | .store _ | .unary _ | .binary _ => False
  | .jump _ | .jumpIfFalse _ | .jumpIfTrue _ | .call .. | .ret | .halt => False

/-- The checks of a call of `target` before it looks for the instruction there. -/
@[simp] def Calls (m : Machine) (limits : Limits) (target : UInt32) (argc : UInt8) (locals : UInt16)
    (i : Instruction) : Prop :=
  i = .call target argc locals ∧ m.callers.depth < limits.callDepth ∧ argc.toNat ≤ m.depth

/-- The condition under which an instruction raises a fault. -/
@[simp] def Raises (m : Machine) (p : Program) (limits : Limits) (i : Instruction) : Fault → Prop
  | .stackUnderflow op => op = i.opcode ∧ m.depth < i.operands ∧ m.Admits limits i
  | .stackOverflow limit => limit = limits.stackLimit ∧
      ((m.Adds p i ∧ limits.stackLimit < m.used + 1) ∨
        ∃ target argc locals, m.Calls limits target argc locals i ∧ target.toNat ∈ p.offsets ∧
          limits.stackLimit < m.used + (max argc.toNat locals.toNat - argc.toNat))
  | .callDepthExceeded limit => limit = limits.callDepth ∧ m.callers.depth = limits.callDepth ∧
      ∃ target argc locals, i = .call target argc locals
  | .invalidJumpTarget target => target.toNat ∉ p.offsets ∧
      (i.Branches target m.operands ∨ ∃ argc locals, m.Calls limits target argc locals i)
  | .invalidConstant index => i = .pushConst index ∧ p.constants.size ≤ index.toNat
  | .invalidLocal slot => (i = .load slot ∨ i = .store slot) ∧ m.frame.localsLen ≤ slot.toNat
  | .typeMismatch op lhs rhs => op = i.opcode ∧ i.Mismatches m.operands lhs rhs
  | .divisionByZero op => op = i.opcode ∧ ∃ operator, i = .binary operator ∧ operator.Divides ∧
      ∃ n vs, m.operands = .int 0 :: .int n :: vs
  | .budgetExceeded _ => False
  | .incompleteProgram => False

/-! ## Operations -/

@[simp] theorem length_operands (m : Machine) : m.operands.length = m.depth :=
  length_cut_operands

theorem push_eq_error_iff {v : Value} {f : Fault} :
    m.push limits v = .error f ↔
      limits.stackLimit < m.used + 1 ∧ f = .stackOverflow limits.stackLimit := by
  rw [push, Nat.lt_succ_iff]
  split <;> simp [*, eq_comm]

/-- There is no operand, or the last one can be taken. -/
theorem Sound.pop_cases (h : Sound p limits m) (op : Opcode) :
    (m.operands = [] ∧ m.pop op = .error (.stackUnderflow op)) ∨
      ∃ v m', m.pop op = .ok (v, m') ∧ m.operands = v :: m'.operands ∧
        m'.used + 1 = m.used ∧ Sound p limits m' := by
  have hcut := h.pop_cut op
  cases hm : m.pop op with
  | error f =>
    obtain ⟨hdepth, rfl⟩ := pop_error hm
    exact .inl ⟨List.eq_nil_of_length_eq_zero (m.length_operands.trans hdepth), rfl⟩
  | ok x =>
    obtain ⟨v, m'⟩ := x
    refine .inr ⟨v, m', rfl, ?_, ?_, h.pop hm⟩
    · rw [hm, Nested.pop] at hcut
      split at hcut
      · cases hcut
      rename_i hoperands
      obtain ⟨rfl, hrest⟩ := Prod.mk.inj (Except.ok.inj hcut)
      rw [operands, operands, hoperands, ← hrest]
      rfl
    · have hslots := h.topLocals_le
      obtain ⟨hdepth, -, rfl⟩ := pop_ok hm
      simp only [depth, used, Array.size_pop] at hdepth ⊢
      omega

/-- There is room to put back what was taken. -/
theorem Sound.push_of_used_lt (h : Sound p limits m) (h' : Sound p limits m')
    (hused : m'.used < m.used) (v : Value) :
    ∃ m'', m'.push limits v = .ok m'' ∧ m''.used = m'.used + 1 ∧ Sound p limits m'' := by
  have hroom : m'.used < limits.stackLimit := Nat.lt_of_lt_of_le hused h.used_le
  have hslots := h'.topLocals_le
  have hpush : m'.push limits v = .ok { m' with stack := m'.stack.push v } :=
    if_neg (Nat.not_le_of_lt hroom)
  refine ⟨_, hpush, ?_, h'.push hpush⟩
  simp only [used, Array.size_push]
  omega

/-- The result of an operator is what it computes. -/
theorem compute_eq {α : Type} (p : Program) (limits : Limits) (r : Except Fault α) (m : Machine) :
    (storage p limits).compute r m = r := by
  cases r <;> rfl

theorem enter_eq_error_iff {target : UInt32} {argc : UInt8} {locals : UInt16} {f : Fault} :
    m.enter p limits target argc locals = .error f ↔
      (limits.callDepth ≤ m.callers.depth ∧ f = .callDepthExceeded limits.callDepth) ∨
      (m.callers.depth < limits.callDepth ∧ m.depth < argc.toNat ∧ f = .stackUnderflow .call) ∨
      (m.callers.depth < limits.callDepth ∧ argc.toNat ≤ m.depth ∧
        p.indexOf? target.toNat = none ∧ f = .invalidJumpTarget target) ∨
      (m.callers.depth < limits.callDepth ∧ argc.toNat ≤ m.depth ∧
        p.indexOf? target.toNat ≠ none ∧
        limits.stackLimit < m.used + (max argc.toNat locals.toNat - argc.toNat) ∧
        f = .stackOverflow limits.stackLimit) := by
  rw [enter]
  by_cases hdepth : limits.callDepth ≤ m.callers.depth
  · simp [hdepth, eq_comm]
  by_cases hargc : m.depth < argc.toNat
  · simp [hdepth, hargc, Nat.lt_of_not_le hdepth, eq_comm]
  cases hentry : p.indexOf? target.toNat with
  | none => simp [hdepth, hargc, Nat.lt_of_not_le hdepth, Nat.le_of_not_lt hargc, eq_comm]
  | some entry =>
    by_cases hroom :
        limits.stackLimit < m.used + (max argc.toNat locals.toNat - argc.toNat)
    · simp [hdepth, hargc, hroom, Nat.lt_of_not_le hdepth, Nat.le_of_not_lt hargc, eq_comm]
    · simp [hdepth, hargc, hroom]

/-- A return raises no fault but for want of an operand: the room for its value is there, as it
    takes more than it puts back. -/
theorem Sound.leave_eq_error_iff (h : Sound p limits m) {f : Fault} :
    m.leave limits = .error f ↔ m.depth = 0 ∧ f = .stackUnderflow .ret := by
  rw [Machine.leave]
  rcases h.pop_cases .ret with ⟨hnil, hpop⟩ | ⟨v, m', hpop, hcons, hused, h'⟩
  · simp [hpop, bind, Except.bind, ← length_operands, hnil, eq_comm]
  · have hdepth : m.depth ≠ 0 := by simp [← length_operands, hcons]
    cases hcallers : m'.callers.pop? with
    | none => simp [hpop, hcallers, hdepth, bind, Except.bind, pure, Except.pure]
    | some x =>
      obtain ⟨caller, callers⟩ := x
      simp [hpop, hcallers, hdepth, h.push_closeFrame hpop, bind, Except.bind, pure, Except.pure]

/-! ## Instructions -/

variable {i : Instruction} {f : Fault} {n : Nat}

/-- An instruction that is admitted but misses operands raises one fault only. -/
theorem raises_iff_of_missing (hmissing : m.operands.length < i.operands)
    (hadmits : m.Admits limits i) : m.Raises p limits i f ↔ f = .stackUnderflow i.opcode := by
  have hlen := m.length_operands
  cases i with
  | nop | pushInt | pushFloat | pushTrue | pushFalse | pushNone | pushConst | load | jump =>
    exact absurd hmissing (Nat.not_lt_zero _)
  | pop | dup | unary | jumpIfFalse | jumpIfTrue | ret | halt =>
    have hnil : m.operands = [] := List.length_eq_zero_iff.1 (Nat.lt_one_iff.1 hmissing)
    rw [hnil] at hlen
    cases f <;> simp [← hlen, hnil, Instruction.opcode]
  | store slot =>
    have hdepth : m.depth = 0 := Nat.lt_one_iff.1 (hlen ▸ hmissing)
    have hslot : slot.toNat < m.frame.localsLen := hadmits
    cases f <;> simp [hdepth, hslot, Instruction.opcode]
    exact fun h => h ▸ hslot
  | swap | binary =>
    have hlt : m.depth < 2 := hlen ▸ hmissing
    obtain hnil | ⟨v, hone⟩ : m.operands = [] ∨ ∃ v, m.operands = [v] := by
      rw [← List.length_eq_zero_iff, ← List.length_eq_one_iff]
      omega
    · cases f <;> simp [hlt, hnil, Instruction.opcode]
    · cases f <;> simp [hlt, hone, Instruction.opcode]
  | call target argc locals =>
    have hlt : m.depth < argc.toNat := hlen ▸ hmissing
    have hdepth : m.callers.depth < limits.callDepth := hadmits
    cases f <;> simp [hlt, hdepth, Nat.not_le_of_lt, Nat.ne_of_lt, Instruction.opcode]

/-- An instruction that looks for a local slot which is not there raises one fault only. -/
theorem raises_iff_of_no_local {slot : UInt16} (hi : i = .load slot ∨ i = .store slot)
    (hslot : ¬ slot.toNat < m.frame.localsLen) :
    m.Raises p limits i f ↔ f = .invalidLocal slot := by
  have hle := Nat.le_of_not_lt hslot
  rcases hi with rfl | rfl
  all_goals
    cases f <;> simp [hslot, eq_comm (b := slot)]
    exact fun h => h ▸ hle

/-- An instruction that has an operand to add raises a fault only for want of room. -/
theorem raises_iff_of_adds (hadds : m.Adds p i) :
    m.Raises p limits i f ↔
      limits.stackLimit < m.used + 1 ∧ f = .stackOverflow limits.stackLimit := by
  cases i with
  | pushInt | pushFloat | pushTrue | pushFalse | pushNone => cases f <;> simp [and_comm]
  | pushConst index =>
    have hindex : index.toNat < p.constants.size := hadds
    cases f <;> simp [hindex, and_comm]
    exact fun h => h ▸ hindex
  | load slot =>
    have hslot : slot.toNat < m.frame.localsLen := hadds
    cases f <;> simp [hslot, and_comm]
    exact fun h => h ▸ hslot
  | dup =>
    have hdepth : m.depth ≠ 0 := Nat.ne_of_gt hadds
    cases f <;> simp [hdepth, Nat.pos_of_ne_zero, and_comm]
  | _ => exact hadds.elim

/-- What comes last in an instruction raises its fault. -/
theorem next_eq_error_iff {r : Except Fault Machine} :
    (do return .next (← r) : Except Fault (Transition Machine)) = .error f ↔ r = .error f := by
  cases r <;> simp [bind, Except.bind, pure, Except.pure]

theorem push_next_eq_error_iff (hadds : m.Adds p i) {v : Value} :
    (do return .next (← m.push limits v) : Except Fault (Transition Machine)) = .error f ↔
      m.Raises p limits i f :=
  next_eq_error_iff.trans (push_eq_error_iff.trans (raises_iff_of_adds hadds).symm)

theorem pushConst_eq_error_iff {index : UInt32} :
    step p limits (.pushConst index) m = .error f ↔ m.Raises p limits (.pushConst index) f := by
  rw [step, Storage.step]
  cases hv : p.constant? index.toNat with
  | none =>
    have hindex : p.constants.size ≤ index.toNat := Array.getElem?_eq_none_iff.1 hv
    cases f <;> simp [throw, throwThe, MonadExceptOf.throw, storage, hindex]
    exact fun h => h ▸ hindex
  | some v =>
    exact push_next_eq_error_iff (i := .pushConst index) (Array.getElem?_eq_some_iff.1 hv).1

theorem load_eq_error_iff {slot : UInt16} :
    step p limits (.load slot) m = .error f ↔ m.Raises p limits (.load slot) f := by
  rw [step, Storage.step]
  simp only [storage, Machine.load]
  by_cases hslot : slot.toNat < m.frame.localsLen
  · rw [show m.localIndex slot = .ok _ from if_pos hslot]
    exact push_next_eq_error_iff (i := .load slot) hslot
  · rw [raises_iff_of_no_local (.inl rfl) hslot,
      show m.localIndex slot = .error _ from if_neg hslot, eq_comm (a := f)]
    exact Iff.of_eq (Except.error.injEq _ _)

section

variable (h : Sound p limits m)

include h

/-- An operator puts its result where its operand was. -/
theorem Sound.push_result_eq_error_iff (h' : Sound p limits m') (hused : m'.used < m.used)
    {r : Except Fault Value} :
    (do return .next (← m'.push limits (← r)) : Except Fault (Transition Machine)) = .error f ↔
      r = .error f := by
  cases r with
  | error e => simp [bind, Except.bind]
  | ok v =>
    obtain ⟨m'', hpush, -⟩ := h.push_of_used_lt h' hused v
    simp [bind, Except.bind, hpush, pure, Except.pure]

/-- The first operand is taken before anything else is checked. -/
theorem Sound.pop_bind_eq_error_iff (hpos : 0 < i.operands) (hadmits : m.Admits limits i)
    {α : Type} {g : Value × Machine → Except Fault α}
    (hg : ∀ v m', m.operands = v :: m'.operands → m'.used + 1 = m.used → Sound p limits m' →
      (g (v, m') = .error f ↔ m.Raises p limits i f)) :
    (m.pop i.opcode >>= g) = .error f ↔ m.Raises p limits i f := by
  rcases h.pop_cases i.opcode with ⟨hnil, hpop⟩ | ⟨v, m', hpop, hcons, hused, h'⟩
  · rw [raises_iff_of_missing (hnil ▸ hpos) hadmits, hpop, eq_comm (a := f)]
    exact Iff.of_eq (Except.error.injEq _ _)
  · rw [hpop]
    exact hg v m' hcons hused h'

/-- Both operands are taken before anything else is checked. -/
theorem Sound.pop2_bind_eq_error_iff (htwo : i.operands = 2) (hadmits : m.Admits limits i)
    {α : Type} {g : Value × Machine → Value × Machine → Except Fault α}
    (hg : ∀ w m₁ v m₂, m.operands = w :: v :: m₂.operands → m₂.used + 2 = m.used →
      Sound p limits m₂ → (g (w, m₁) (v, m₂) = .error f ↔ m.Raises p limits i f)) :
    (m.pop i.opcode >>= fun x => x.2.pop i.opcode >>= g x) = .error f ↔
      m.Raises p limits i f := by
  refine h.pop_bind_eq_error_iff (htwo ▸ Nat.two_pos) hadmits fun w m₁ hcons hused h₁ => ?_
  dsimp only
  rcases h₁.pop_cases i.opcode with ⟨hnil, hpop⟩ | ⟨v, m₂, hpop, hcons', hused', h₂⟩
  · have hmissing : m.operands.length < i.operands := by
      rw [hcons, hnil, htwo]
      exact Nat.one_lt_two
    rw [raises_iff_of_missing hmissing hadmits, eq_comm (a := f), hpop]
    exact Iff.of_eq (Except.error.injEq _ _)
  · rw [hpop]
    exact hg w m₁ v m₂ (hcons' ▸ hcons) (by omega) h₂

/-- Once the operand is there, nothing else can be wrong. -/
theorem Sound.pop_eq_error_iff : step p limits .pop m = .error f ↔ m.Raises p limits .pop f :=
  h.pop_bind_eq_error_iff (i := .pop) Nat.one_pos trivial fun v m' hcons _ _ => by
    have hlen := hcons ▸ m.length_operands
    cases f <;> simp [pure, Except.pure, ← hlen]

theorem Sound.halt_eq_error_iff : step p limits .halt m = .error f ↔ m.Raises p limits .halt f :=
  h.pop_bind_eq_error_iff (i := .halt) Nat.one_pos trivial fun v m' hcons _ _ => by
    have hlen := hcons ▸ m.length_operands
    cases f <;> simp [pure, Except.pure, ← hlen]

/-- The operand is put back, so only its copy may have no room. -/
theorem Sound.dup_eq_error_iff : step p limits .dup m = .error f ↔ m.Raises p limits .dup f := by
  refine h.pop_bind_eq_error_iff (i := .dup) Nat.one_pos trivial fun v m' hcons hused h' => ?_
  obtain ⟨m'', hpush, hused', -⟩ := h.push_of_used_lt h' (Nat.lt_of_succ_le hused.le) v
  have hadds : m.Adds p .dup := by simp [← length_operands, hcons]
  rw [raises_iff_of_adds hadds, ← hused, ← hused', ← push_eq_error_iff (v := v)]
  simp only [storage, hpush, bind, Except.bind]
  exact next_eq_error_iff

theorem Sound.swap_eq_error_iff : step p limits .swap m = .error f ↔ m.Raises p limits .swap f :=
  h.pop2_bind_eq_error_iff (i := .swap) rfl trivial fun w _ v m' hcons hused h' => by
    obtain ⟨m₁, hpush, hused₁, h₁⟩ := h.push_of_used_lt h' (by omega) w
    obtain ⟨m₂, hpush', -⟩ := h.push_of_used_lt h₁ (by omega) v
    have hlen := hcons ▸ m.length_operands
    simp only [storage, hpush, hpush', bind, Except.bind, pure, Except.pure]
    cases f <;> simp [← hlen]

theorem Sound.unary_eq_error_iff {op : UnaryOp} :
    step p limits (.unary op) m = .error f ↔ m.Raises p limits (.unary op) f := by
  rw [step, Storage.step]
  simp only [compute_eq]
  refine h.pop_bind_eq_error_iff (i := .unary op) Nat.one_pos trivial fun v m' hcons hused h' => ?_
  have hlen := hcons ▸ m.length_operands
  refine (h.push_result_eq_error_iff h' (by omega)).trans (UnaryOp.apply_eq_error_iff.trans ?_)
  cases f <;> simp [Instruction.opcode, ← hlen, hcons, and_left_comm]

theorem Sound.binary_eq_error_iff {op : BinaryOp} :
    step p limits (.binary op) m = .error f ↔ m.Raises p limits (.binary op) f := by
  rw [step, Storage.step]
  simp only [compute_eq]
  refine h.pop2_bind_eq_error_iff (i := .binary op) rfl trivial
    fun w _ v m' hcons hused h' => ?_
  have hlen := hcons ▸ m.length_operands
  refine (h.push_result_eq_error_iff h' (by omega)).trans (BinaryOp.apply_eq_error_iff.trans ?_)
  cases f <;> simp [Instruction.opcode, ← hlen, hcons, and_assoc, and_left_comm, and_comm]

theorem Sound.ret_eq_error_iff : step p limits .ret m = .error f ↔ m.Raises p limits .ret f := by
  refine h.leave_eq_error_iff.trans ?_
  cases f <;> simp [Instruction.opcode, and_comm]

theorem Sound.store_eq_error_iff {slot : UInt16} :
    step p limits (.store slot) m = .error f ↔ m.Raises p limits (.store slot) f := by
  refine next_eq_error_iff.trans ?_
  change m.store slot = .error f ↔ _
  rw [Machine.store]
  by_cases hslot : slot.toNat < m.frame.localsLen
  · rw [show m.localIndex slot = .ok _ from if_pos hslot]
    refine h.pop_bind_eq_error_iff (i := .store slot) Nat.one_pos hslot fun v m' hcons _ _ => ?_
    have hlen := hcons ▸ m.length_operands
    cases f <;> simp [pure, Except.pure, ← hlen, hslot]
    exact fun h => h ▸ hslot
  · rw [raises_iff_of_no_local (.inr rfl) hslot,
      show m.localIndex slot = .error _ from if_neg hslot, eq_comm (a := f)]
    exact Iff.of_eq (Except.error.injEq _ _)

end

section

variable (hp : p.IsLoaded)

include hp

theorem jump_eq_error_iff {target : UInt32} :
    (storage p limits).jump p target m = .error f ↔
      target.toNat ∉ p.offsets ∧ f = .invalidJumpTarget target := by
  rw [← hp.indexOf?_eq_none_iff, Storage.jump]
  split <;> simp [storage, eq_comm, *]

/-- A branch looks at its operand first, and at its target only if it is taken. -/
theorem Sound.branch_eq_error_iff (h : Sound p limits m) {op : Opcode} {taken : Bool}
    {target : UInt32} :
    (storage p limits).branch p op taken target m = .error f ↔
      (m.operands = [] ∧ f = .stackUnderflow op) ∨
      (∃ v vs, m.operands = v :: vs ∧ v.tag ≠ .bool ∧ f = .typeMismatch op v.tag none) ∨
      (∃ vs, m.operands = .bool taken :: vs ∧ target.toNat ∉ p.offsets ∧
        f = .invalidJumpTarget target) := by
  rw [Storage.branch]
  rcases h.pop_cases op with ⟨hnil, hpop⟩ | ⟨v, m', hpop, hcons, -⟩
  · simp [storage, hpop, hnil, bind, Except.bind, eq_comm (b := f)]
  simp only [storage, hpop, bind, Except.bind, hcons]
  cases v with
  | bool b =>
    -- the target is looked for only if the branch is taken
    by_cases hb : b = taken
    · dsimp only
      rw [if_pos hb]
      refine Iff.trans (jump_eq_error_iff hp) ?_
      simp [hb, Value.tag]
    · simp [hb, pure, Except.pure, Value.tag]
  | _ => simp [throw, throwThe, MonadExceptOf.throw, Value.tag, eq_comm (b := f)]

theorem Sound.jumpIf_eq_error_iff (h : Sound p limits m) {target : UInt32}
    (hi : i = .jumpIfFalse target ∨ i = .jumpIfTrue target) :
    step p limits i m = .error f ↔ m.Raises p limits i f := by
  have hlen := m.length_operands
  rcases hi with rfl | rfl
  all_goals
    refine next_eq_error_iff.trans ((h.branch_eq_error_iff hp).trans ?_)
    cases hoperands : m.operands with
    | nil =>
      rw [hoperands] at hlen
      cases f <;> simp [← hlen, hoperands, Instruction.opcode]
    | cons v vs =>
      rw [hoperands] at hlen
      cases v <;> cases f <;> simp [← hlen, hoperands, Instruction.opcode, Value.tag]
      grind

theorem Sound.call_eq_error_iff (h : Sound p limits m) {target : UInt32} {argc : UInt8}
    {locals : UInt16} :
    step p limits (.call target argc locals) m = .error f ↔
      m.Raises p limits (.call target argc locals) f := by
  have hcalled {r : Except Fault Machine} :
      (do return .called target (← r) : Except Fault (Transition Machine)) = .error f ↔
        r = .error f := by
    cases r <;> simp [bind, Except.bind, pure, Except.pure]
  have hdepth := h.depth_le
  refine hcalled.trans (enter_eq_error_iff.trans ?_)
  cases f <;> simp [Instruction.opcode, hp.indexOf?_eq_none_iff] <;> grind

/-- In a sound state an instruction raises a fault exactly under the condition of that fault. -/
theorem Sound.step_eq_error_iff (h : Sound p limits m) :
    step p limits i m = .error f ↔ m.Raises p limits i f := by
  cases i with
  | nop => cases f <;> simp [step, Storage.step, pure, Except.pure]
  | pushInt | pushFloat | pushTrue | pushFalse | pushNone => exact push_next_eq_error_iff (by trivial)
  | pushConst index => exact pushConst_eq_error_iff
  | load slot => exact load_eq_error_iff
  | pop => exact h.pop_eq_error_iff
  | dup => exact h.dup_eq_error_iff
  | swap => exact h.swap_eq_error_iff
  | store slot => exact h.store_eq_error_iff
  | unary op => exact h.unary_eq_error_iff
  | binary op => exact h.binary_eq_error_iff
  | jump target =>
    refine next_eq_error_iff.trans ((jump_eq_error_iff hp).trans ?_)
    cases f <;> simp
    grind
  | jumpIfFalse target => exact h.jumpIf_eq_error_iff hp (.inl rfl)
  | jumpIfTrue target => exact h.jumpIf_eq_error_iff hp (.inr rfl)
  | call target argc locals => exact h.call_eq_error_iff hp
  | ret => exact h.ret_eq_error_iff
  | halt => exact h.halt_eq_error_iff

end

/-- The states of runs are sound, so the next instruction raises a fault exactly under its
    condition. -/
theorem Reached.raises_iff (hm : Reached p limits n m) (hp : p.IsLoaded) {placed : Placed}
    (hi : p.fetch? m.pc = some placed) :
    advance p limits m = .error f ↔ m.Raises p limits placed.instruction f := by
  -- the instruction is executed after the counter has gone past it
  have hsound : Sound p limits { m with pc := m.pc + 1 } :=
    hm.sound.goTo (Program.lt_of_fetch? hi)
  rw [advance_eq hi]
  exact hsound.step_eq_error_iff hp

/-- In every state of a run, the next instruction raises a fault exactly under the condition of
    that fault. -/
theorem advance_eq_error_iff {bytes : List UInt8} {placed : Placed}
    (hload : Program.load bytes = .ok p) (hm : Reached p limits n m)
    (hi : p.fetch? m.pc = some placed) :
    advance p limits m = .error f ↔ m.Raises p limits placed.instruction f :=
  hm.raises_iff (Program.load_eq_ok_iff.1 hload).2 hi

set_option maxRecDepth 4096 in
/-- The two arguments of a call fill the stack, and its third local slot has no room. -/
theorem advance_eq_error_iff_noRoom :
    advance .addition { stackLimit := 2 } beforeAddition = .error (.stackOverflow 2) ∧
      ∀ limit, beforeAddition.Raises .addition { stackLimit := 2 } (.call 27 2 3)
        (.stackOverflow limit) ↔ limit = 2 := by
  have hreached : Reached .addition { stackLimit := 2 } 2 beforeAddition :=
    .step (.step .start (by decide) rfl rfl) (by decide) rfl rfl
  have hadvance : advance .addition { stackLimit := 2 } beforeAddition =
      .error (.stackOverflow 2) := rfl
  refine ⟨hadvance, fun limit => ?_⟩
  rw [← advance_eq_error_iff Program.load_addition hreached
    (show Program.fetch? _ _ = some ⟨18, .call 27 2 3⟩ from rfl), hadvance]
  simp [eq_comm]

/-! ## Jumps -/

theorem target?_of_branches {target : UInt32} {vs : List Value} (h : i.Branches target vs) :
    i.target? = some target := by
  unfold Instruction.Branches at h
  split at h
  · exact congrArg some h
  · exact congrArg some h.2
  · exact congrArg some h.2
  · exact h.elim

/-- A jump that is invalid is the jump of an instruction. -/
theorem target?_of_raises {target : UInt32}
    (h : m.Raises p limits i (.invalidJumpTarget target)) :
    target.toNat ∉ p.offsets ∧ i.target? = some target := by
  obtain ⟨htarget, hbranches | ⟨_, _, rfl, -⟩⟩ := h
  · exact ⟨htarget, target?_of_branches hbranches⟩
  · exact ⟨htarget, rfl⟩

/-- A run that ends with an invalid jump was at an instruction that goes there. -/
theorem exists_target_of_execute (hp : p.IsLoaded) {σ : Type} {observe : σ → Event → σ} {s : σ}
    {target : UInt32} (h : (execute p limits observe s).result = .error (.invalidJumpTarget target)) :
    target.toNat ∉ p.offsets ∧
      ∃ k placed, p.fetch? k = some placed ∧ placed.instruction.target? = some target := by
  obtain ⟨n, m, hm, hend⟩ := execute_ends p limits observe s
  rw [h] at hend
  generalize (execute p limits observe s).steps = steps at hend
  cases hend with
  | fault hi _ hf =>
    obtain ⟨htarget, hgoes⟩ := target?_of_raises ((hm.raises_iff hp hi).1 hf)
    exact ⟨htarget, _, _, hi, hgoes⟩

end Machine

end StackMachine
