import StackMachine.Proofs.Machine.Faults
import StackMachine.Proofs.Number.Order

/-!
# Comparisons

Two values are compared by six instructions. Equality is decided apart from the order, but the two
take the same ways: two integers are compared as they are, and two other numbers as floats, by
what these denote, an integer among them being rounded. So the six instructions agree on how two
numbers compare, which is not at all if one of them is a NaN. Other values are equal or not, and
have no order.

* `Value.compare?`: how two numbers compare;
* `Value.Compared`: what the comparisons are of two values that compare in a given way;
* `Value.exists_promoted`: equality and order promote the same numbers;
* `Machine.Sound.binary_of_operands`: what an instruction with two operands leaves of them;
* `comparisons_agree`: the comparisons of numbers, of integers and of other values.
-/

namespace StackMachine

namespace Value

/-- How two numbers compare: integers exactly, and others as floats. -/
def compare? (v w : Value) : Option Ordering :=
  match v, w with
  | int a, int b => some (cmp a.toInt b.toInt)
  | v, w =>
    match v.toNumber?, w.toNumber? with
    | some x, some y => x.compare? y
    | _, _ => Option.none

/-- What the six comparisons are of two values that compare as `o`. At most one of `lt`, `eq` and
    `gt` holds, and the others are put together from these. -/
structure Compared (v w : Value) (o : Option Ordering) : Prop where
  eq : BinaryOp.apply .eq v w = .ok (bool (o = some .eq))
  ne : BinaryOp.apply .ne v w = .ok (bool (¬ o = some .eq))
  lt : BinaryOp.apply (.order .lt) v w = .ok (bool (o = some .lt))
  le : BinaryOp.apply (.order .le) v w = .ok (bool (o = some .lt ∨ o = some .eq))
  gt : BinaryOp.apply (.order .gt) v w = .ok (bool (o = some .gt))
  ge : BinaryOp.apply (.order .ge) v w = .ok (bool (o = some .gt ∨ o = some .eq))

variable {v w : Value} {x y : Binary64}

/-! ## Numbers -/

/-- Integers compare exactly. -/
theorem compared_int (a b : Int64) :
    Compared (int a) (int b) (some (cmp a.toInt b.toInt)) := by
  have hlt := cmp_eq_lt_iff a.toInt b.toInt
  have heq := cmp_eq_eq_iff a.toInt b.toInt
  have hgt := cmp_eq_gt_iff a.toInt b.toInt
  rw [← Int64.lt_iff_toInt_lt] at hlt hgt
  rw [Int64.toInt_inj] at heq
  generalize cmp a.toInt b.toInt = o at *
  exact
    { eq := by simp [BinaryOp.apply, equal, heq, beq_eq_decide]
      ne := by simp [BinaryOp.apply, equal, heq, beq_eq_decide]
      lt := by simp [BinaryOp.apply, OrderOp.apply, OrderOp.onInts, hlt]
      le := by
        simp [BinaryOp.apply, OrderOp.apply, OrderOp.onInts, hlt, heq, Int64.le_iff_lt_or_eq]
      gt := by simp [BinaryOp.apply, OrderOp.apply, OrderOp.onInts, hgt]
      ge := by
        simp [BinaryOp.apply, OrderOp.apply, OrderOp.onInts, hgt, heq, Int64.le_iff_lt_or_eq,
          eq_comm (a := b)] }

/-- `Promoted v w x y`: both equality and order compare `v` and `w` as the floats `x` and `y`. -/
structure Promoted (v w : Value) (x y : Binary64) : Prop where
  equal : equal v w = x.same y
  order : ∀ op : OrderOp, op.apply v w = .ok (bool (op.onFloats x y))
  compare : v.compare? w = x.compare? y
  compare_swap : w.compare? v = y.compare? x
  nan_left : v.isNaN = x.isNaN
  nan_right : w.isNaN = y.isNaN

theorem exists_of_isNumber (h : v.tag.IsNumber) : (∃ a, v = int a) ∨ ∃ x, v = float x := by
  rcases h with h | h <;> cases v <;> cases h
  · exact .inl ⟨_, rfl⟩
  · exact .inr ⟨_, rfl⟩

/-- Two numbers are integers, or both equality and order promote them. -/
theorem exists_promoted (hv : v.tag.IsNumber) (hw : w.tag.IsNumber) :
    (∃ a b, v = int a ∧ w = int b) ∨ ∃ x y, Promoted v w x y := by
  rcases exists_of_isNumber hv with ⟨a, rfl⟩ | ⟨x, rfl⟩ <;>
    rcases exists_of_isNumber hw with ⟨b, rfl⟩ | ⟨y, rfl⟩
  · exact .inl ⟨a, b, rfl, rfl⟩
  · exact .inr ⟨_, y, rfl, fun _ => rfl, rfl, rfl, (Binary64.isNaN_ofInt _).symm, rfl⟩
  · exact .inr ⟨x, _, rfl, fun _ => rfl, rfl, rfl, rfl, (Binary64.isNaN_ofInt _).symm⟩
  · exact .inr ⟨x, y, rfl, fun _ => rfl, rfl, rfl, rfl, rfl⟩

/-- Numbers that are promoted compare as the floats do. -/
theorem Promoted.compared (h : Promoted v w x y) : Compared v w (x.compare? y) where
  eq := by rw [BinaryOp.apply, h.equal, Binary64.same_eq]
  ne := by rw [BinaryOp.apply, h.equal, Binary64.same_eq, decide_not]
  lt := by rw [BinaryOp.apply, h.order, OrderOp.onFloats, Binary64.lt_eq]
  le := by rw [BinaryOp.apply, h.order, OrderOp.onFloats, Binary64.le_eq]
  gt := by rw [BinaryOp.apply, h.order, OrderOp.onFloats, Binary64.gt_eq]
  ge := by rw [BinaryOp.apply, h.order, OrderOp.onFloats, Binary64.ge_eq]

theorem compared (hv : v.tag.IsNumber) (hw : w.tag.IsNumber) : Compared v w (v.compare? w) := by
  rcases exists_promoted hv hw with ⟨a, b, rfl, rfl⟩ | ⟨x, y, h⟩
  · exact compared_int a b
  · exact h.compare ▸ h.compared

theorem compare?_swap (hv : v.tag.IsNumber) (hw : w.tag.IsNumber) :
    w.compare? v = (v.compare? w).map .swap := by
  rcases exists_promoted hv hw with ⟨a, b, rfl, rfl⟩ | ⟨x, y, h⟩
  · exact congrArg some (cmp_swap _ _).symm
  · rw [h.compare, h.compare_swap, Binary64.compare?_swap]

/-- Exchanging two numbers exchanges `lt` and `gt`, and `le` and `ge`. -/
theorem apply_swap (hv : v.tag.IsNumber) (hw : w.tag.IsNumber) :
    BinaryOp.apply .eq v w = BinaryOp.apply .eq w v ∧
      BinaryOp.apply (.order .lt) v w = BinaryOp.apply (.order .gt) w v ∧
      BinaryOp.apply (.order .le) v w = BinaryOp.apply (.order .ge) w v := by
  have h := compared hv hw
  have hswap := compared hw hv
  rw [compare?_swap hv hw] at hswap
  rw [h.eq, hswap.eq, h.lt, hswap.gt, h.le, hswap.ge]
  rcases v.compare? w with _ | _ | _ | _ <;> exact ⟨rfl, rfl, rfl⟩

/-- Only a NaN does not compare. -/
theorem compare?_eq_none_iff (hv : v.tag.IsNumber) (hw : w.tag.IsNumber) :
    v.compare? w = Option.none ↔ v.isNaN = true ∨ w.isNaN = true := by
  rcases exists_promoted hv hw with ⟨a, b, rfl, rfl⟩ | ⟨x, y, h⟩
  · exact ⟨nofun, nofun⟩
  · rw [h.compare, h.nan_left, h.nan_right, Binary64.compare?_eq_none_iff]

/-! ## Other values -/

/-- Values that are not both numbers are equal only if they are identical. -/
theorem equal_of_not_isNumber (h : ¬ (v.tag.IsNumber ∧ w.tag.IsNumber)) :
    equal v w = decide (v = w) := by
  cases v <;> cases w <;> simp_all [equal, toNumber?, same, tag, Tag.IsNumber]

end Value

/-! ## Instructions -/

namespace Machine

variable {p : Program} {limits : Limits} {m m' : Machine}

theorem Sound.operands_of_push (h : Sound p limits m) {v : Value}
    (hm : m.push limits v = .ok m') : m'.operands = v :: m.operands := by
  obtain ⟨-, rfl⟩ := push_ok hm
  rw [operands, h.cut_push]
  rfl

/-- An operand that is there is taken. -/
theorem Sound.pop_of_operands (h : Sound p limits m) (op : Opcode) {v : Value} {vs : List Value}
    (hm : m.operands = v :: vs) :
    ∃ m', m.pop op = .ok (v, m') ∧ m'.operands = vs ∧ m'.used + 1 = m.used ∧
      Sound p limits m' := by
  obtain ⟨hnil, -⟩ | ⟨v', m', hpop, hcons, hused, h'⟩ := h.pop_cases op
  · cases hm.symm.trans hnil
  · obtain ⟨rfl, hrest⟩ := List.cons.inj (hcons.symm.trans hm)
    exact ⟨m', hpop, hrest, hused, h'⟩

/-- An operator takes its two operands, the one that was pushed last as the second, and puts its
    result in their place. There is room for it, so the operator alone raises faults. -/
theorem Sound.binary_of_operands (h : Sound p limits m) {op : BinaryOp} {v w : Value}
    {vs : List Value} (hm : m.operands = w :: v :: vs) :
    (∀ r, op.apply v w = .ok r →
      ∃ m', step p limits (.binary op) m = .ok (.next m') ∧ m'.operands = r :: vs) ∧
    ∀ f, op.apply v w = .error f → step p limits (.binary op) m = .error f := by
  obtain ⟨m₁, hpop₁, hm₁, hused₁, h₁⟩ := h.pop_of_operands (.binary op) hm
  obtain ⟨m₂, hpop₂, hm₂, hused₂, h₂⟩ := h₁.pop_of_operands (.binary op) hm₁
  refine ⟨fun r hr => ?_, fun f hf => ?_⟩
  · obtain ⟨m₃, hpush, -⟩ := h.push_of_used_lt h₂ (by omega) r
    refine ⟨m₃, ?_, by rw [h₂.operands_of_push hpush, hm₂]⟩
    simp only [step, Storage.step, compute_eq]
    simp [storage, hpop₁, hpop₂, hr, hpush, bind, Except.bind, pure, Except.pure]
  · simp only [step, Storage.step, compute_eq]
    simp [storage, hpop₁, hpop₂, hf, bind, Except.bind]

theorem Reached.binary_of_operands {n : Nat} (hm : Reached p limits n m) {offset : Nat}
    {op : BinaryOp} (hi : p.fetch? m.pc = some ⟨offset, .binary op⟩) {v w : Value}
    {vs : List Value} (hoperands : m.operands = w :: v :: vs) :
    (∀ r, op.apply v w = .ok r →
      ∃ m', advance p limits m = .ok (.next m') ∧ m'.operands = r :: vs) ∧
    ∀ f, op.apply v w = .error f → advance p limits m = .error f := by
  rw [advance_eq hi]
  exact (hm.sound.goTo (Program.lt_of_fetch? hi)).binary_of_operands hoperands

end Machine

/-- The six comparisons of two numbers follow from how the numbers compare, which is not at all
    if one of them is a NaN, and in one of three ways otherwise. Exchanging the numbers exchanges
    the ways. Two integers compare exactly. Other values are equal only if they are identical, and
    to order them is a fault. The instructions of a run do what is said here with the last two
    operands, and raise no other fault. -/
theorem comparisons_agree :
    (∀ v w : Value, v.tag.IsNumber → w.tag.IsNumber →
      v.Compared w (v.compare? w) ∧
      (v.compare? w = none ↔ v.isNaN = true ∨ w.isNaN = true) ∧
      BinaryOp.apply .eq v w = BinaryOp.apply .eq w v ∧
      BinaryOp.apply (.order .lt) v w = BinaryOp.apply (.order .gt) w v ∧
      BinaryOp.apply (.order .le) v w = BinaryOp.apply (.order .ge) w v) ∧
    (∀ a b : Int64, Value.Compared (.int a) (.int b) (some (cmp a.toInt b.toInt))) ∧
    (∀ v w : Value, ¬ (v.tag.IsNumber ∧ w.tag.IsNumber) →
      BinaryOp.apply .eq v w = .ok (.bool (v = w)) ∧
      BinaryOp.apply .ne v w = .ok (.bool (v ≠ w)) ∧
      ∀ op, BinaryOp.apply (.order op) v w =
        .error (.typeMismatch (.binary (.order op)) v.tag (some w.tag))) ∧
    (∀ (p : Program) (limits : Limits) (n : Nat) (m : Machine) (offset : Nat) (op : BinaryOp)
      (v w : Value) (vs : List Value), Machine.Reached p limits n m →
      p.fetch? m.pc = some ⟨offset, .binary op⟩ → m.operands = w :: v :: vs →
      (∀ r, op.apply v w = .ok r →
        ∃ m', Machine.advance p limits m = .ok (.next m') ∧ m'.operands = r :: vs) ∧
      ∀ f, op.apply v w = .error f → Machine.advance p limits m = .error f) := by
  refine ⟨fun v w hv hw => ⟨Value.compared hv hw, Value.compare?_eq_none_iff hv hw,
      Value.apply_swap hv hw⟩, Value.compared_int, fun v w h => ⟨?_, ?_, fun op => ?_⟩,
    fun p limits n m offset op v w vs hm hi hoperands => hm.binary_of_operands hi hoperands⟩
  · rw [BinaryOp.apply, Value.equal_of_not_isNumber h]
  · rw [BinaryOp.apply, Value.equal_of_not_isNumber h, decide_not]
  · exact BinaryOp.apply_eq_error_iff.2 (.inl ⟨h, rfl⟩)

/-- A program that asks whether the largest integer is less than `2 ^ 63`. -/
def Program.rounding : Program where
  bytes := []
  header := {}
  sections := ⟨[]⟩
  constants := #[]
  code :=
    #[⟨0, .pushInt Int64.maxValue⟩, ⟨9, .pushFloat ⟨0x43E0000000000000⟩⟩,
      ⟨18, .binary (.order .lt)⟩, ⟨19, .halt⟩]
  lines := #[]

/-- The state of `Program.rounding` before its comparison. -/
def Machine.beforeRounding : Machine :=
  { start with stack := #[.int Int64.maxValue, .float ⟨0x43E0000000000000⟩], pc := 2 }

set_option maxRecDepth 4096 in
theorem Machine.reached_beforeRounding : Reached .rounding {} 2 beforeRounding :=
  .step (.step .start (by decide) rfl rfl) (by decide) rfl rfl

/-- The largest integer is rounded to `2 ^ 63`, so it is equal to that, and not less. -/
theorem comparisons_agree_rounded :
    Value.compare? (.int Int64.maxValue) (.float ⟨0x43E0000000000000⟩) = some .eq ∧
      BinaryOp.apply .eq (.int Int64.maxValue) (.float ⟨0x43E0000000000000⟩) =
        .ok (.bool true) ∧
      (∃ m, Machine.advance .rounding {} .beforeRounding = .ok (.next m) ∧
        m.operands = [.bool false]) ∧
      BinaryOp.apply .ne (.int 0) (.float (.nan false)) = .ok (.bool true) ∧
      BinaryOp.apply (.order .le) (.bool false) (.int 1) =
        .error (.typeMismatch (.binary (.order .le)) .bool (some .int)) := by
  obtain ⟨hnumbers, -, hother, hinstruction⟩ := comparisons_agree
  have hrounded : Value.compare? (.int Int64.maxValue) (.float ⟨0x43E0000000000000⟩) =
      some .eq :=
    (Binary64.compare?_eq _ _).trans (by decide +kernel)
  obtain ⟨hcompared, -⟩ := hnumbers (.int Int64.maxValue) (.float ⟨0x43E0000000000000⟩)
    (.inl rfl) (.inr rfl)
  rw [hrounded] at hcompared
  obtain ⟨hnan, hnone, -⟩ := hnumbers (.int 0) (.float (.nan false)) (.inl rfl) (.inr rfl)
  rw [hnone.2 (.inr rfl)] at hnan
  refine ⟨hrounded, hcompared.eq, ?_, hnan.ne, (hother _ _ ?_).2.2 .le⟩
  · exact (hinstruction _ _ _ _ _ _ _ _ _ Machine.reached_beforeRounding rfl rfl).1 _
      hcompared.lt
  · rintro ⟨hbool | hbool, -⟩ <;> cases hbool

end StackMachine
