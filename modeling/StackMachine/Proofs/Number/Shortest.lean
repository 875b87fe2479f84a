import StackMachine.Proofs.Number.Rounding

/-!
# The shortest decimals lie in the intervals

Every decimal that the search finds lies in the interval around the number, so that it is
rounded to that number. On the last grid this has not been tested: its points are so
dense that the one nearest to the number is always near enough.

* `Decimal.value`: what a decimal denotes;
* `Interval.contains_iff`: the test is membership in the interval;
* `Interval.two_mul_abs_nearer_sub_le`: the nearer point of a grid is at most half a unit away;
* `Interval.ten_pow_leadingExponent_le`: the grids begin at the first digit;
* `Interval.contains_shortest`: the shortest decimal lies in the interval.
-/

namespace StackMachine

namespace Decimal

/-- The number that a decimal denotes. -/
def value (d : Decimal) : ℚ :=
  d.coefficient * 10 ^ d.exponent

theorem value_normalize (d : Decimal) : d.normalize.value = d.value := by
  induction d using normalize.induct with
  | case1 d h ih =>
    have hten : (d.coefficient : ℚ) = 10 * (d.coefficient / 10 : Nat) := by
      exact_mod_cast (Nat.mul_div_cancel' (Nat.dvd_of_mod_eq_zero h.2)).symm
    rw [normalize, dif_pos h, ih, value, value, hten, zpow_add_one₀ (by norm_num)]
    ring
  | case2 d h => rw [normalize, dif_neg h]

end Decimal

namespace Interval

open Binary64

variable {f : Interval} {tie : Tie} {k : ℤ} {a c n : Nat} {x : Binary64} {v : ℚ}

/-- The number that an interval lies around. -/
def center (f : Interval) : ℚ :=
  f.middle * 2 ^ f.exponent

/-! ## Points of a grid -/

/-- Both units are multiples of a common one. -/
theorem exists_scale (f : Interval) (k : ℤ) : ∃ s : ℚ, 0 < s ∧
    ((f.units k).1 : ℚ) = s * 10 ^ k ∧ ((f.units k).2 : ℚ) = s * 2 ^ f.exponent := by
  have hu : (0 : ℚ) < (f.units k).2 := by
    change (0 : ℚ) < (10 ^ (-k).toNat <<< f.exponent.toNat : Nat)
    rw [Nat.shiftLeft_eq]
    positivity
  have hratio : ((f.units k).1 : ℚ) / (f.units k).2 = 10 ^ k * 2 ^ (-f.exponent) := by
    have hscale :=
      shiftLeft_toNat_div_shiftLeft_toNat (10 ^ k.toNat) (10 ^ (-k).toNat) (-f.exponent)
    rw [neg_neg] at hscale
    refine hscale.trans ?_
    push_cast
    rw [pow_toNat_div_pow_toNat (by norm_num)]
  refine ⟨(f.units k).2 * 2 ^ (-f.exponent), by positivity, ?_, ?_⟩
  · rw [(div_eq_iff hu.ne').1 hratio]
    ring
  · rw [mul_assoc, ← zpow_add₀ two_ne_zero, neg_add_cancel, zpow_zero, mul_one]

theorem mul_le_mul_units_iff :
    a * (f.units k).2 ≤ c * (f.units k).1 ↔ (a : ℚ) * 2 ^ f.exponent ≤ c * 10 ^ k := by
  obtain ⟨s, hs, hg, hu⟩ := f.exists_scale k
  rw [← Nat.cast_le (α := ℚ), Nat.cast_mul, Nat.cast_mul, hg, hu, mul_left_comm, mul_left_comm _ s,
    mul_le_mul_iff_right₀ hs]

theorem units_mul_le_mul_iff :
    c * (f.units k).1 ≤ a * (f.units k).2 ↔ (c : ℚ) * 10 ^ k ≤ a * 2 ^ f.exponent := by
  obtain ⟨s, hs, hg, hu⟩ := f.exists_scale k
  rw [← Nat.cast_le (α := ℚ), Nat.cast_mul, Nat.cast_mul, hg, hu, mul_left_comm, mul_left_comm _ s,
    mul_le_mul_iff_right₀ hs]

theorem contains_iff : f.contains k c = true ↔ f.Contains (c * 10 ^ k) := by
  have hlow := mul_le_mul_units_iff (f := f) (k := k) (a := f.low) (c := c)
  have hhigh := units_mul_le_mul_iff (f := f) (k := k) (a := f.high) (c := c)
  have hlow' := not_congr (units_mul_le_mul_iff (f := f) (k := k) (a := f.low) (c := c))
  have hhigh' := not_congr (mul_le_mul_units_iff (f := f) (k := k) (a := f.high) (c := c))
  rw [not_le, not_le] at hlow' hhigh'
  simp only [contains]
  split
  · rename_i hclosed
    simp only [Bool.and_eq_true, decide_eq_true_eq, hlow, hhigh]
    exact ⟨fun ⟨h, h'⟩ => ⟨h, h', fun hopen => by rw [hclosed] at hopen; cases hopen⟩,
      fun h => ⟨h.low_le, h.le_high⟩⟩
  · rename_i hopen
    simp only [Bool.and_eq_true, decide_eq_true_eq, hlow', hhigh']
    exact ⟨fun ⟨h, h'⟩ => ⟨h.le, h'.le, fun _ => ⟨h, h'⟩⟩,
      fun h => h.inner (Bool.eq_false_of_not_eq_true hopen)⟩

/-- The nearer point is one of the two around the middle. -/
theorem nearer_eq_or (f : Interval) (tie : Tie) (k : ℤ) :
    f.nearer tie k = f.below k ∨ f.nearer tie k = f.below k + 1 := by
  have hparity := Nat.mod_two_eq_zero_or_one (f.below k)
  simp only [nearer]
  split
  · exact .inl rfl
  · exact .inr rfl
  · exact .inr rfl
  · rcases hparity with h | h <;> rw [h]
    · exact .inl rfl
    · exact .inr rfl

/-- The nearer point is at most half a unit away from the middle. -/
theorem nearer_bounds (f : Interval) (tie : Tie) (k : ℤ) :
    2 * (f.nearer tie k * (f.units k).1) ≤ 2 * (f.middle * (f.units k).2) + (f.units k).1 ∧
      2 * (f.middle * (f.units k).2) ≤ 2 * (f.nearer tie k * (f.units k).1) + (f.units k).1 := by
  have hg : 0 < (f.units k).1 := by
    obtain ⟨s, hs, hg, -⟩ := f.exists_scale k
    have : (0 : ℚ) < (f.units k).1 := by
      rw [hg]
      positivity
    exact_mod_cast this
  have hdiv := Nat.div_add_mod (f.middle * (f.units k).2) (f.units k).1
  have hmod := Nat.mod_lt (f.middle * (f.units k).2) hg
  rw [show f.middle * (f.units k).2 / (f.units k).1 = f.below k from rfl, Nat.mul_comm] at hdiv
  have hparity := Nat.mod_two_eq_zero_or_one (f.below k)
  simp only [nearer]
  generalize f.below k = c at *
  generalize (f.units k).1 = g at *
  rw [Nat.mul_assoc, show (2 * c + 1) * g = 2 * (c * g) + g by ring]
  have hsucc : (c + 1) * g = c * g + g := Nat.succ_mul c g
  split
  · rename_i hlt
    have := Nat.compare_eq_lt.1 hlt
    omega
  · rename_i hgt
    have := Nat.compare_eq_gt.1 hgt
    omega
  · rename_i heq
    have := Nat.compare_eq_eq.1 heq
    omega
  · rename_i heq
    have := Nat.compare_eq_eq.1 heq
    rcases hparity with h | h <;> rw [h]
    · rw [Nat.add_zero]
      omega
    · omega

theorem two_mul_abs_nearer_sub_le (f : Interval) (tie : Tie) (k : ℤ) :
    2 * |f.nearer tie k * 10 ^ k - f.center| ≤ 10 ^ k := by
  obtain ⟨s, hs, hg, hu⟩ := f.exists_scale k
  obtain ⟨hlow, hhigh⟩ := f.nearer_bounds tie k
  have hlow : s * (2 * (f.nearer tie k * 10 ^ k)) ≤ s * (2 * f.center + 10 ^ k) := by
    have : (2 : ℚ) * (f.nearer tie k * (f.units k).1) ≤
        2 * (f.middle * (f.units k).2) + (f.units k).1 := by exact_mod_cast hlow
    rw [hg, hu] at this
    rw [center]
    linarith
  have hhigh : s * (2 * f.center) ≤ s * (2 * (f.nearer tie k * 10 ^ k) + 10 ^ k) := by
    have : (2 : ℚ) * (f.middle * (f.units k).2) ≤
        2 * (f.nearer tie k * (f.units k).1) + (f.units k).1 := by exact_mod_cast hhigh
    rw [hg, hu] at this
    rw [center]
    linarith
  rw [mul_le_mul_iff_right₀ hs] at hlow hhigh
  rw [← abs_two, ← abs_mul, abs_le]
  constructor <;> linarith

/-! ## The search -/

theorem contains_of_hit? (h : f.hit? tie k = some c) : f.Contains (c * 10 ^ k) := by
  rw [← contains_iff]
  simp only [hit?] at h
  split at h
  · rename_i hbelow habove
    cases h
    rcases f.nearer_eq_or tie k with hc | hc <;> rw [hc]
    · exact hbelow
    · exact habove
  · rename_i hbelow _
    cases h
    exact hbelow
  · rename_i _ habove
    cases h
    exact habove
  · cases h

/-- What the search finds lies in the interval if the nearer point of the last grid does. -/
theorem contains_search (h : f.Contains (f.nearer tie (k - n) * 10 ^ (k - n))) :
    f.Contains (f.search tie n k).value := by
  -- The last grid is `k - n` at every step of the search.
  induction n generalizing k with
  | zero =>
    rw [Nat.cast_zero, sub_zero] at h
    exact h
  | succ n ih =>
    rw [search]
    split
    · rename_i c hhit
      exact contains_of_hit? hhit
    · refine ih ?_
      rw [Nat.cast_succ, add_comm, ← sub_sub] at h
      exact h

/-! ## The first digit -/

/-- A power of ten is at most a power of two if the exponents are in the ratio of the estimate,
    here for all exponents of two that are `1100` less than some `i`. -/
theorem pow_ten_mul_pow_two_le : ∀ i < 2200,
    10 ^ (((i : ℕ) - 1100 : ℤ) * 30103 / 100000).toNat * 2 ^ (-((i : ℕ) - 1100 : ℤ)).toNat ≤
      2 ^ ((i : ℕ) - 1100 : ℤ).toNat * 10 ^ (-(((i : ℕ) - 1100 : ℤ) * 30103 / 100000)).toNat := by
  decide +kernel

theorem zpow_ten_le_zpow_two {b : ℤ} (hlow : -1100 ≤ b) (hhigh : b < 1100) :
    (10 : ℚ) ^ (b * 30103 / 100000) ≤ 2 ^ b := by
  have hnat := pow_ten_mul_pow_two_le (b + 1100).toNat (by omega)
  rw [show ((b + 1100).toNat : ℤ) - 1100 = b by omega] at hnat
  rw [← pow_toNat_div_pow_toNat (by norm_num) (b * 30103 / 100000),
    ← pow_toNat_div_pow_toNat two_ne_zero b, div_le_div_iff₀ (by positivity) (by positivity)]
  exact_mod_cast hnat

/-- The grid of the first digit is not coarser than the number. -/
theorem ten_pow_leadingExponent_le (hmiddle : f.middle ≠ 0)
    (hlow : -1100 ≤ (f.middle.log2 : ℤ) + f.exponent)
    (hhigh : (f.middle.log2 : ℤ) + f.exponent < 1100) :
    (10 : ℚ) ^ f.leadingExponent ≤ f.center := by
  simp only [leadingExponent]
  split
  · rename_i hle
    have hle := units_mul_le_mul_iff (c := 1).1 ((Nat.one_mul _).trans_le hle)
    rwa [Nat.cast_one, one_mul] at hle
  · refine (zpow_ten_le_zpow_two hlow hhigh).trans ?_
    rw [zpow_add₀ two_ne_zero, zpow_natCast]
    exact mul_le_mul_of_nonneg_right (pow_log2_bounds hmiddle).1 (by positivity)

/-! ## The shortest decimal -/

theorem center_ofNumber (x : Binary64) :
    (ofNumber x).center = x.significand * 2 ^ x.exponent := by
  rw [center, quarters_mul, ofNumber]
  push_cast
  ring

/-- What is at most a half of `10 ^ -16` of a number away from it lies in its interval. -/
theorem contains_of_near (hpos : 0 < x.significand)
    (hv : 2 * |v - (ofNumber x).center| * 10 ^ 16 ≤ (ofNumber x).center) :
    (ofNumber x).Contains v := by
  have htwo : (0 : ℚ) < 2 ^ x.exponent := by positivity
  rw [center_ofNumber] at hv
  obtain ⟨hge, hle⟩ := abs_le.1 (le_refl |v - x.significand * 2 ^ x.exponent|)
  have hlt : (x.significand : ℚ) * 2 ^ x.exponent ≤ 2 ^ 53 * 2 ^ x.exponent := by
    refine mul_le_mul_of_nonneg_right ?_ htwo.le
    exact_mod_cast x.significand_lt.le
  -- The lower half of the interval is at least a quarter of a unit wide, and the number has less
  -- than `2 ^ 53` units, in the narrow case `2 ^ 52`.
  have hlow : (ofNumber x).low * 2 ^ (ofNumber x).exponent < v := by
    by_cases hm : x.significand = leadingBit ∧ -1074 < x.exponent
    · have hpow : (x.significand : ℚ) = 2 ^ 52 := by
        rw [hm.1]
        norm_num [leadingBit]
      rw [low_ofNumber_of_eq hm.1 hm.2, hpow]
      rw [hpow] at hv hge
      linarith
    · rw [low_ofNumber_of_not hpos hm]
      linarith
  have hhigh : v < (ofNumber x).high * 2 ^ (ofNumber x).exponent := by
    rw [high_ofNumber]
    linarith
  exact ⟨hlow.le, hhigh.le, fun _ => ⟨hlow, hhigh⟩⟩

/-- Seventeen digits are enough. -/
theorem contains_nearer (hpos : 0 < x.significand) (tie : Tie) :
    (ofNumber x).Contains ((ofNumber x).nearer tie ((ofNumber x).leadingExponent - 16) *
      10 ^ ((ofNumber x).leadingExponent - 16)) := by
  refine contains_of_near hpos ?_
  have hnear := two_mul_abs_nearer_sub_le (ofNumber x) tie ((ofNumber x).leadingExponent - 16)
  have hlog : (4 * x.significand).log2 < 55 := by
    have hlt := x.significand_lt
    unfold leadingBit at hlt
    exact (Nat.log2_lt (by omega)).2 (by omega)
  have hlead : (10 : ℚ) ^ (ofNumber x).leadingExponent ≤ (ofNumber x).center := by
    have := x.least_le_exponent
    have := x.exponent_le
    refine ten_pow_leadingExponent_le ?_ ?_ ?_ <;> simp only [ofNumber] <;> omega
  calc 2 * |_| * 10 ^ 16 ≤ (10 : ℚ) ^ ((ofNumber x).leadingExponent - 16) * 10 ^ 16 :=
        mul_le_mul_of_nonneg_right hnear (by norm_num)
    _ = 10 ^ (ofNumber x).leadingExponent := by
        rw [← zpow_natCast, ← zpow_add₀ (by norm_num)]
        congr 1
        omega
    _ ≤ (ofNumber x).center := hlead

/-- The shortest decimal of a number lies in its interval. -/
theorem contains_shortest (hzero : x.isZero = false) (tie : Tie) :
    (ofNumber x).Contains (x.shortest tie).value := by
  rw [shortest, Decimal.value_normalize]
  exact contains_search (contains_nearer (significand_pos hzero) tie)

end Interval

end StackMachine
