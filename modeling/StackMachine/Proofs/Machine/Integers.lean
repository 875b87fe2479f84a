import Mathlib.Algebra.Order.Floor.Ring
import Mathlib.Data.Int.ModEq
import Mathlib.Data.Rat.Floor
import Mathlib.Tactic.FieldSimp
import StackMachine.Proofs.Machine.Faults

/-!
# Integer arithmetic

Two integers are added, subtracted and multiplied modulo `2 ^ 64`. They are divided with a quotient
that is rounded toward zero, which fits in 64 bits but for one, and a remainder with the sign of the
dividend.

* `truncate`: a number rounded toward zero;
* `truncate_div`: the quotient of division by truncation is the exact one rounded toward zero;
* `div_mul_add_rem`: what was divided is put together again, whatever the quotient;
* `ArithmeticOp.int_laws`: the laws of the instructions.
-/

namespace StackMachine

/-! ## Rounding toward zero -/

/-- A number rounded toward zero to an integer. -/
def truncate (x : ℚ) : ℤ :=
  if 0 ≤ x then ⌊x⌋ else ⌈x⌉

section

variable {a b : ℤ}

theorem tmod_nonpos (h : a ≤ 0) (b : ℤ) : a.tmod b ≤ 0 := by
  have hneg := Int.tmod_nonneg b (Int.neg_nonneg_of_nonpos h)
  rw [Int.neg_tmod] at hneg
  exact Int.neg_nonneg.1 hneg

/-- A remainder is smaller than the divisor. -/
theorem abs_tmod_lt (a : ℤ) (hb : b ≠ 0) : |a.tmod b| < |b| := by
  have hlt : a.natAbs % b.natAbs < b.natAbs := Nat.mod_lt _ (Int.natAbs_pos.2 hb)
  rw [Int.abs_eq_natAbs, Int.abs_eq_natAbs, Int.natAbs_tmod]
  exact Int.ofNat_lt.2 hlt

/-- The exact quotient is the truncated one and a fraction. -/
theorem div_eq_tdiv_add (a : ℤ) (hb : b ≠ 0) : (a : ℚ) / b = a.tdiv b + (a.tmod b : ℚ) / b := by
  have hb' : (b : ℚ) ≠ 0 := Int.cast_ne_zero.2 hb
  have hsum : (b : ℚ) * a.tdiv b + a.tmod b = a := by
    exact_mod_cast Int.mul_tdiv_add_tmod a b
  rw [div_eq_iff hb', add_mul, div_mul_cancel₀ _ hb', mul_comm, hsum]

theorem abs_tmod_div_lt_one (a : ℤ) (hb : b ≠ 0) : |(a.tmod b : ℚ) / b| < 1 := by
  have hpos : 0 < |(b : ℚ)| := abs_pos.2 (Int.cast_ne_zero.2 hb)
  rw [abs_div, div_lt_one hpos]
  exact_mod_cast abs_tmod_lt a hb

/-- Division by truncation rounds toward zero. -/
theorem truncate_div (a : ℤ) (hb : b ≠ 0) : truncate ((a : ℚ) / b) = a.tdiv b := by
  have hsum := div_eq_tdiv_add a hb
  obtain ⟨hlower, hupper⟩ := abs_lt.1 (abs_tmod_div_lt_one a hb)
  rw [truncate]
  -- the fraction has the sign of the quotient
  split
  · rename_i hx
    have hfraction : 0 ≤ (a.tmod b : ℚ) / b := by
      rcases div_nonneg_iff.1 hx with ⟨ha, hb⟩ | ⟨ha, hb⟩
      · exact div_nonneg (by exact_mod_cast Int.tmod_nonneg b (by exact_mod_cast ha)) hb
      · exact div_nonneg_of_nonpos (by exact_mod_cast tmod_nonpos (by exact_mod_cast ha) b) hb
    rw [Int.floor_eq_iff, hsum]
    constructor <;> linarith
  · rename_i hx
    have hfraction : (a.tmod b : ℚ) / b ≤ 0 := by
      rcases div_neg_iff.1 (not_le.1 hx) with ⟨ha, hb⟩ | ⟨ha, hb⟩
      · exact div_nonpos_of_nonneg_of_nonpos
          (by exact_mod_cast Int.tmod_nonneg b (by exact_mod_cast ha.le)) hb.le
      · exact div_nonpos_of_nonpos_of_nonneg
          (by exact_mod_cast tmod_nonpos (by exact_mod_cast ha.le) b) hb.le
    rw [Int.ceil_eq_iff, hsum]
    constructor <;> linarith

end

/-! ## 64 bits -/

/-- `Wraps x n`: the integer `n` of 64 bits is `x` modulo `2 ^ 64`. -/
def Wraps (x : ℤ) (n : Int64) : Prop :=
  -2 ^ 63 ≤ n.toInt ∧ n.toInt < 2 ^ 63 ∧ n.toInt ≡ x [ZMOD 2 ^ 64]

theorem wraps_of_toInt_eq {x : ℤ} {n : Int64} (h : n.toInt = x.bmod (2 ^ 64)) : Wraps x n := by
  refine ⟨n.le_toInt, n.toInt_lt, ?_⟩
  rw [h]
  exact Int.bmod_emod

/-- What was divided is put together again, although the quotient may have overflowed. -/
theorem div_mul_add_rem (a b : Int64) : a / b * b + a % b = a := by
  refine Int64.toInt_inj.1 ?_
  have hsum : a.toInt.tdiv b.toInt * b.toInt + a.toInt.tmod b.toInt = a.toInt := by
    rw [mul_comm]
    exact Int.mul_tdiv_add_tmod _ _
  rw [Int64.toInt_add, Int64.toInt_mul, Int64.toInt_div, Int64.toInt_mod, Int.bmod_mul_bmod,
    Int.bmod_add_bmod, hsum]
  exact a.toInt_bmod_size

/-- Only one quotient does not fit in 64 bits. -/
theorem toInt_div_eq {a b : Int64} (h : ¬(a = Int64.minValue ∧ b = -1)) :
    (a / b).toInt = a.toInt.tdiv b.toInt := by
  by_cases ha : a = Int64.minValue
  · exact Int64.toInt_div_of_ne_right a b fun hb => h ⟨ha, hb⟩
  · exact Int64.toInt_div_of_ne_left a b ha

/-- A remainder is zero or has the sign of the dividend. -/
theorem rem_eq_zero_or_sign_eq (a b : Int64) : a % b = 0 ∨ (a % b).toInt.sign = a.toInt.sign := by
  rw [← Int64.toInt_inj, Int64.toInt_mod, Int64.toInt_zero, Int.sign_tmod]
  split
  · rename_i hdvd
    exact .inl (Int.tmod_eq_zero_of_dvd hdvd)
  · exact .inr rfl

theorem toInt_ne_zero {b : Int64} (hb : b ≠ 0) : b.toInt ≠ 0 :=
  fun h => hb (Int64.toInt_inj.1 h)

namespace ArithmeticOp

theorem apply_int (op : ArithmeticOp) (a b : Int64) :
    op.apply (.int a) (.int b) = (op.onInts a b).map .int :=
  rfl

theorem apply_div_int {b : Int64} (hb : b ≠ 0) (a : Int64) :
    apply div (.int a) (.int b) = .ok (.int (a / b)) := by
  rw [apply_int, onInts, if_neg hb]
  rfl

theorem apply_rem_int {b : Int64} (hb : b ≠ 0) (a : Int64) :
    apply rem (.int a) (.int b) = .ok (.int (a % b)) := by
  rw [apply_int, onInts, if_neg hb]
  rfl

/-- Two integers make an integer. -/
theorem exists_int_of_apply {op : ArithmeticOp} {a b : Int64} {v : Value}
    (h : op.apply (.int a) (.int b) = .ok v) : ∃ n, v = .int n := by
  rw [apply_int] at h
  cases hn : op.onInts a b with
  | error =>
    rw [hn] at h
    cases h
  | ok n =>
    rw [hn] at h
    cases h
    exact ⟨n, rfl⟩

theorem divides_iff {op : ArithmeticOp} :
    BinaryOp.Divides (.arithmetic op) ↔ op = div ∨ op = rem := by
  cases op <;> simp [BinaryOp.Divides]

/-- Only a division by zero is a fault. -/
theorem apply_int_eq_error_iff {op : ArithmeticOp} {a b : Int64} {f : Fault} :
    op.apply (.int a) (.int b) = .error f ↔
      (op = div ∨ op = rem) ∧ b = 0 ∧ f = .divisionByZero (.binary (.arithmetic op)) := by
  rw [apply_eq_error_iff, divides_iff]
  simp [Tag.IsNumber, Value.tag]

/-- The laws of integer arithmetic. Two integers make an integer, unless they are divided and the
    divisor is zero. Otherwise the quotient times the divisor and the remainder make the dividend
    again; the remainder is smaller than the divisor, and has the sign of the dividend if it is not
    zero; the quotient is the exact one rounded toward zero, but for the one that does not fit.
    Sums, differences, products and negatives are the exact ones modulo `2 ^ 64`. -/
theorem int_laws (a b : Int64) :
    (∀ op v, apply op (.int a) (.int b) = .ok v → ∃ n, v = .int n) ∧
      (∀ op f, apply op (.int a) (.int b) = .error f ↔
        (op = div ∨ op = rem) ∧ b = 0 ∧ f = .divisionByZero (.binary (.arithmetic op))) ∧
      (b ≠ 0 → ∃ q r, apply div (.int a) (.int b) = .ok (.int q) ∧
        apply rem (.int a) (.int b) = .ok (.int r) ∧
        (apply mul (.int q) (.int b) >>= fun v => apply add v (.int r)) = .ok (.int a) ∧
        |r.toInt| < |b.toInt| ∧ (r = 0 ∨ r.toInt.sign = a.toInt.sign) ∧
        (¬(a = Int64.minValue ∧ b = -1) → q.toInt = truncate ((a.toInt : ℚ) / b.toInt)) ∧
        (a = Int64.minValue ∧ b = -1 → q = Int64.minValue ∧ r = 0)) ∧
      (∃ n, apply add (.int a) (.int b) = .ok (.int n) ∧ Wraps (a.toInt + b.toInt) n) ∧
      (∃ n, apply sub (.int a) (.int b) = .ok (.int n) ∧ Wraps (a.toInt - b.toInt) n) ∧
      (∃ n, apply mul (.int a) (.int b) = .ok (.int n) ∧ Wraps (a.toInt * b.toInt) n) ∧
      ∃ n, UnaryOp.apply .neg (.int a) = .ok (.int n) ∧ Wraps (-a.toInt) n := by
  refine ⟨fun _ _ => exists_int_of_apply, fun _ _ => apply_int_eq_error_iff, fun hb => ?_,
    ?_, ?_, ?_, ?_⟩
  · have hb' := toInt_ne_zero hb
    refine ⟨a / b, a % b, apply_div_int hb a, apply_rem_int hb a, ?_, ?_,
      rem_eq_zero_or_sign_eq a b, fun h => ?_, ?_⟩
    · exact congrArg (fun n => Except.ok (Value.int n)) (div_mul_add_rem a b)
    · rw [Int64.toInt_mod]
      exact abs_tmod_lt _ hb'
    · rw [truncate_div _ hb', toInt_div_eq h]
    · rintro ⟨rfl, rfl⟩
      decide
  · exact ⟨a + b, rfl, wraps_of_toInt_eq (Int64.toInt_add a b)⟩
  · exact ⟨a - b, rfl, wraps_of_toInt_eq (Int64.toInt_sub a b)⟩
  · exact ⟨a * b, rfl, wraps_of_toInt_eq (Int64.toInt_mul a b)⟩
  · exact ⟨-a, rfl, wraps_of_toInt_eq (Int64.toInt_neg a)⟩

/-- The quotient that does not fit is the dividend again. -/
theorem int_laws_minValue :
    apply div (.int Int64.minValue) (.int (-1)) = .ok (.int Int64.minValue) ∧
      apply rem (.int Int64.minValue) (.int (-1)) = .ok (.int 0) := by
  obtain ⟨q, r, hdiv, hrem, -, -, -, -, hoverflow⟩ :=
    (int_laws Int64.minValue (-1)).2.2.1 (by decide)
  obtain ⟨rfl, rfl⟩ := hoverflow ⟨rfl, rfl⟩
  exact ⟨hdiv, hrem⟩

end ArithmeticOp

end StackMachine
