import Mathlib.Order.Compare
import Mathlib.Order.WithBot
import StackMachine.Proofs.Number.Rounding

/-!
# The order of floating-point numbers

Floating-point numbers are compared by the places of their patterns. That is to compare what they
denote, which is a rational number or one of the two infinities. A NaN denotes nothing, so it is
not less than any number, nor equal to it, nor greater.

* `denoted?`, `compare?`: what a number denotes, and how two of them compare;
* `absRat_lt_absRat`, `toRat_lt_toRat`: the order of the patterns is that of the rational numbers;
* `compare?_eq`: numbers compare as the places of their patterns do;
* `same_eq`, `lt_eq`, `le_eq`, `gt_eq`, `ge_eq`: the comparisons of numbers, read off `compare?`;
* `isNaN_ofInt`: no integer is rounded to a NaN.
-/

namespace StackMachine

namespace Binary64

variable {x y : Binary64}

/-! ## What is denoted -/

/-- A finite number, its sign aside. -/
def absRat (x : Binary64) : ℚ :=
  x.significand * 2 ^ x.exponent

/-- The rational number that a finite number is. -/
def toRat (x : Binary64) : ℚ :=
  if x.isNegative then -x.absRat else x.absRat

/-- What a number that is not NaN denotes, between the two infinities. -/
def denoted (x : Binary64) : WithBot (WithTop ℚ) :=
  if x.isInfinite then
    if x.isNegative then ⊥ else ⊤
  else (x.toRat : WithTop ℚ)

/-- What a number denotes. A NaN denotes nothing. -/
def denoted? (x : Binary64) : Option (WithBot (WithTop ℚ)) :=
  if x.isNaN then none else some x.denoted

/-- How what `x` denotes compares to what `y` denotes; nothing compares to a NaN. -/
def compare? (x y : Binary64) : Option Ordering :=
  Option.map₂ cmp x.denoted? y.denoted?

/-! ## Rational numbers -/

theorem exponent_le_exponent (h : x.magnitude ≤ y.magnitude) : x.exponent ≤ y.exponent := by
  have hdiv := Nat.div_le_div_right (c := leadingBit) h
  simp only [exponent]
  unfold leadingBit at *
  split_ifs <;> omega

theorem absRat_congr (h : x.magnitude = y.magnitude) : x.absRat = y.absRat := by
  simp only [absRat, significand, exponent, h]

/-- A pattern of larger magnitude is a larger number. -/
theorem absRat_lt_absRat (h : x.magnitude < y.magnitude) : x.absRat < y.absRat := by
  have hx := x.exponent_mul_add_significand
  have hy := y.exponent_mul_add_significand
  rcases (exponent_le_exponent h.le).lt_or_eq with hlt | heq
  · -- the leading bit at the larger exponent outweighs every significand at the smaller one
    have hlead : leadingBit ≤ y.significand :=
      y.exponent_eq_or_leadingBit_le.resolve_left (x.least_le_exponent.trans_lt hlt).ne'
    calc x.absRat < (2 * leadingBit : Nat) * 2 ^ x.exponent :=
          mul_lt_mul_of_pos_right (Nat.cast_lt.2 x.significand_lt) (by positivity)
      _ = leadingBit * 2 ^ (x.exponent + 1) := by
          rw [zpow_add_one₀ two_ne_zero]
          push_cast
          ring
      _ ≤ y.significand * 2 ^ y.exponent :=
          mul_le_mul (Nat.cast_le.2 hlead) (zpow_le_zpow_right₀ one_le_two hlt) (by positivity)
            (Nat.cast_nonneg _)
  · rw [heq] at hx
    have hsignificand : x.significand < y.significand := by omega
    rw [absRat, absRat, heq]
    exact mul_lt_mul_of_pos_right (Nat.cast_lt.2 hsignificand) (by positivity)

theorem absRat_nonneg (x : Binary64) : 0 ≤ x.absRat :=
  mul_nonneg (Nat.cast_nonneg _) (zpow_nonneg zero_le_two _)

theorem absRat_eq_zero (h : x.magnitude = 0) : x.absRat = 0 := by
  have hsignificand := x.exponent_mul_add_significand
  rw [absRat, show x.significand = 0 by omega, Nat.cast_zero, zero_mul]

theorem absRat_pos (h : 0 < x.magnitude) : 0 < x.absRat := by
  have hlt := absRat_lt_absRat (x := zero false) (y := x) h
  rwa [absRat_eq_zero rfl] at hlt

/-- The place of a number and its rational number have its sign. -/
theorem key_toRat (x : Binary64) :
    x.isNegative = true ∧ x.key = -x.magnitude ∧ x.toRat = -x.absRat ∨
      x.isNegative = false ∧ x.key = x.magnitude ∧ x.toRat = x.absRat := by
  cases hneg : x.isNegative
  · exact .inr ⟨rfl, by simp [key, hneg], by simp [toRat, hneg]⟩
  · exact .inl ⟨rfl, by simp [key, hneg], by simp [toRat, hneg]⟩

/-- The rational numbers have the order of the places. -/
theorem toRat_lt_toRat (h : x.key < y.key) : x.toRat < y.toRat := by
  rcases x.key_toRat with ⟨-, hx, hx'⟩ | ⟨-, hx, hx'⟩ <;>
    rcases y.key_toRat with ⟨-, hy, hy'⟩ | ⟨-, hy, hy'⟩ <;> rw [hx, hy] at h <;> rw [hx', hy']
  · exact neg_lt_neg (absRat_lt_absRat (by omega))
  · -- the two numbers are not both zero
    rcases Nat.eq_zero_or_pos x.magnitude with hzero | hpos
    · rw [absRat_eq_zero hzero, neg_zero]
      exact absRat_pos (by omega)
    · exact (neg_neg_of_pos (absRat_pos hpos)).trans_le y.absRat_nonneg
  · omega
  · exact absRat_lt_absRat (by omega)

/-- Only the two zeros share a place, and they are the same rational number. -/
theorem toRat_congr (h : x.key = y.key) : x.toRat = y.toRat := by
  rcases x.key_toRat with ⟨-, hx, hx'⟩ | ⟨-, hx, hx'⟩ <;>
    rcases y.key_toRat with ⟨-, hy, hy'⟩ | ⟨-, hy, hy'⟩ <;> rw [hx, hy] at h <;> rw [hx', hy']
  · rw [absRat_congr (x := x) (y := y) (by omega)]
  · rw [absRat_eq_zero (x := x) (by omega), absRat_eq_zero (x := y) (by omega), neg_zero]
  · rw [absRat_eq_zero (x := x) (by omega), absRat_eq_zero (x := y) (by omega), neg_zero]
  · exact absRat_congr (by omega)

/-! ## Infinities -/

/-- The infinities have the two places at the ends, and rational numbers those between them. -/
theorem key_denoted (hx : x.isNaN = false) :
    x.key = -infinityMagnitude ∧ x.denoted = ⊥ ∨
      x.key = infinityMagnitude ∧ x.denoted = ⊤ ∨
      -infinityMagnitude < x.key ∧ x.key < infinityMagnitude ∧
        x.denoted = (x.toRat : WithTop ℚ) := by
  have hle : x.magnitude ≤ infinityMagnitude := by simpa [isNaN] using hx
  have hinfinite : x.isInfinite = true ↔ x.magnitude = infinityMagnitude := beq_iff_eq
  rcases hle.eq_or_lt with heq | hlt
  · rcases x.key_toRat with ⟨hneg, hkey, -⟩ | ⟨hneg, hkey, -⟩
    · exact .inl ⟨by rw [hkey, heq], by rw [denoted, if_pos (hinfinite.2 heq), if_pos hneg]⟩
    · refine .inr (.inl ⟨by rw [hkey, heq], ?_⟩)
      rw [denoted, if_pos (hinfinite.2 heq), hneg]
      rfl
  · refine .inr (.inr ⟨?_, ?_, if_neg (mt hinfinite.1 hlt.ne)⟩) <;>
      rcases x.key_toRat with ⟨-, hkey, -⟩ | ⟨-, hkey, -⟩ <;> omega

/-- What is denoted has the order of the places. -/
theorem denoted_lt_denoted (hx : x.isNaN = false) (hy : y.isNaN = false) (h : x.key < y.key) :
    x.denoted < y.denoted := by
  rcases key_denoted hx with ⟨hxkey, hx⟩ | ⟨hxkey, hx⟩ | ⟨hxlow, hxhigh, hx⟩ <;>
    rcases key_denoted hy with ⟨hykey, hy⟩ | ⟨hykey, hy⟩ | ⟨hylow, hyhigh, hy⟩ <;> rw [hx, hy]
  case inr.inr.inr.inr => exact WithBot.coe_lt_coe.2 (WithTop.coe_lt_coe.2 (toRat_lt_toRat h))
  case inl.inr.inl => exact bot_lt_top
  case inl.inr.inr => exact WithBot.bot_lt_coe _
  case inr.inr.inr.inl => exact WithBot.coe_lt_coe.2 (WithTop.coe_lt_top _)
  all_goals omega

theorem denoted_congr (hx : x.isNaN = false) (hy : y.isNaN = false) (h : x.key = y.key) :
    x.denoted = y.denoted := by
  rcases key_denoted hx with ⟨hxkey, hx⟩ | ⟨hxkey, hx⟩ | ⟨hxlow, hxhigh, hx⟩ <;>
    rcases key_denoted hy with ⟨hykey, hy⟩ | ⟨hykey, hy⟩ | ⟨hylow, hyhigh, hy⟩ <;> rw [hx, hy]
  case inr.inr.inr.inr => rw [toRat_congr h]
  all_goals
    unfold infinityMagnitude at *
    omega

/-! ## Comparison -/

/-- Numbers compare as their places do. -/
theorem compare?_eq (x y : Binary64) :
    compare? x y = if x.isNaN || y.isNaN then none else some (cmp x.key y.key) := by
  cases hx : x.isNaN <;> cases hy : y.isNaN <;> rw [compare?, denoted?, denoted?, hx, hy]
  case false.false =>
    refine congrArg some ?_
    rcases lt_trichotomy x.key y.key with h | h | h
    · rw [(cmp_eq_lt_iff _ _).2 h, (cmp_eq_lt_iff _ _).2 (denoted_lt_denoted hx hy h)]
    · rw [(cmp_eq_eq_iff _ _).2 h, (cmp_eq_eq_iff _ _).2 (denoted_congr hx hy h)]
    · rw [(cmp_eq_gt_iff _ _).2 h, (cmp_eq_gt_iff _ _).2 (denoted_lt_denoted hy hx h)]
  all_goals rfl

theorem compare?_eq_some_iff {o : Ordering} :
    compare? x y = some o ↔ x.isNaN = false ∧ y.isNaN = false ∧ cmp x.key y.key = o := by
  rw [compare?_eq]
  generalize cmp x.key y.key = c
  cases x.isNaN <;> cases y.isNaN <;> simp

/-- Only a NaN does not compare. -/
theorem compare?_eq_none_iff : compare? x y = none ↔ x.isNaN = true ∨ y.isNaN = true := by
  rw [compare?_eq]
  generalize cmp x.key y.key = c
  cases x.isNaN <;> cases y.isNaN <;> simp

theorem compare?_swap (x y : Binary64) : compare? y x = (compare? x y).map .swap := by
  rw [compare?_eq, compare?_eq, Bool.or_comm, ← cmp_swap]
  generalize cmp x.key y.key = c
  cases x.isNaN || y.isNaN <;> rfl

theorem same_eq (x y : Binary64) : x.same y = decide (compare? x y = some .eq) := by
  rw [Bool.eq_iff_iff, decide_eq_true_iff, compare?_eq_some_iff, cmp_eq_eq_iff, same]
  simp [and_assoc]

theorem lt_eq (x y : Binary64) : x.lt y = decide (compare? x y = some .lt) := by
  rw [Bool.eq_iff_iff, decide_eq_true_iff, compare?_eq_some_iff, cmp_eq_lt_iff, lt]
  simp [and_assoc]

theorem le_eq (x y : Binary64) :
    x.le y = decide (compare? x y = some .lt ∨ compare? x y = some .eq) := by
  rw [Bool.eq_iff_iff, decide_eq_true_iff, compare?_eq_some_iff, compare?_eq_some_iff,
    cmp_eq_lt_iff, cmp_eq_eq_iff, ← and_or_left, ← and_or_left, ← le_iff_lt_or_eq, le]
  simp [and_assoc]

theorem gt_eq (x y : Binary64) : y.lt x = decide (compare? x y = some .gt) := by
  rw [lt_eq, compare?_swap]
  rcases compare? x y with _ | _ | _ | _ <;> rfl

theorem ge_eq (x y : Binary64) :
    y.le x = decide (compare? x y = some .gt ∨ compare? x y = some .eq) := by
  rw [le_eq, compare?_swap]
  rcases compare? x y with _ | _ | _ | _ <;> rfl

/-! ## Integers -/

theorem magnitude_ofMagnitude {negative : Bool} {m : Nat} (hm : m < signBit) :
    (ofMagnitude negative m).magnitude = m := by
  unfold ofMagnitude magnitude
  rw [UInt64.toNat_ofNat']
  unfold signBit at *
  cases negative <;> simp <;> omega

/-- Nothing is rounded to a NaN. -/
theorem isNaN_nearest (negative : Bool) (num den : Nat) :
    (nearest negative num den).isNaN = false := by
  rw [nearest]
  split
  · cases negative <;> rfl
  · refine decide_eq_false (Nat.not_lt.2 ?_)
    have hmin := Nat.min_le_left infinityMagnitude
    rw [magnitude_ofMagnitude ((hmin _).trans_lt (by decide))]
    exact hmin _

theorem isNaN_ofInt (i : ℤ) : (ofInt i).isNaN = false :=
  isNaN_nearest _ _ _

end Binary64

end StackMachine
