import Mathlib.Algebra.Order.Field.Power
import Mathlib.Tactic.FieldSimp
import Mathlib.Tactic.Linarith
import Mathlib.Tactic.NormNum
import Mathlib.Tactic.Ring
import StackMachine.Number.Shortest

/-!
# The numbers that round to a given one

Around each finite number lies an interval, up to the midpoints to its two neighbours, and every
quotient of natural numbers in it is rounded to that number.

* `IsUnitExponent`: the exponent of the last of 53 bits; there is only one
  (`IsUnitExponent.unique`), and `unitExponent` computes it;
* `roundHalfEven_eq`: what lies around a natural number is rounded to it;
* `Interval.Contains`: the interval as a set of rational numbers;
* `nearest_of_contains`: all that an interval contains is rounded to its number.
-/

namespace StackMachine

/-- A power with an integer exponent, as a quotient of powers with natural ones. -/
theorem pow_toNat_div_pow_toNat {b : ℚ} (hb : b ≠ 0) (e : ℤ) :
    b ^ e.toNat / b ^ (-e).toNat = b ^ e := by
  rw [← zpow_natCast, ← zpow_natCast, ← zpow_sub₀ hb]
  congr 1
  omega

/-- Scaling by powers of two only multiplies. -/
theorem shiftLeft_toNat_div_shiftLeft_toNat (n d : Nat) (e : ℤ) :
    ((n <<< e.toNat : Nat) : ℚ) / (d <<< (-e).toNat : Nat) = n / d * 2 ^ e := by
  rw [Nat.shiftLeft_eq, Nat.shiftLeft_eq, ← pow_toNat_div_pow_toNat two_ne_zero e]
  push_cast
  rw [mul_div_mul_comm]

namespace Binary64

variable {v : ℚ} {e e' : ℤ} {n d m : Nat} {x : Binary64}

/-! ## The exponent of the last bit -/

/-- What the last bit of the numbers around `v` is worth: `v` has 53 bits before the point in
    units of `2 ^ e`, or less if `e` is the least exponent. -/
structure IsUnitExponent (v : ℚ) (e : ℤ) : Prop where
  least_le : -1074 ≤ e
  lt_pow : v < 2 ^ (e + 53)
  eq_or_pow_le : e = -1074 ∨ 2 ^ (e + 52) ≤ v

theorem IsUnitExponent.le (h : IsUnitExponent v e) (h' : IsUnitExponent v e') : e' ≤ e := by
  rcases h'.eq_or_pow_le with heq | hpow
  · rw [heq]
    exact h.least_le
  · have hlt : e' + 52 < e + 53 := (zpow_lt_zpow_iff_right₀ one_lt_two).1 (hpow.trans_lt h.lt_pow)
    omega

theorem IsUnitExponent.unique (h : IsUnitExponent v e) (h' : IsUnitExponent v e') : e = e' :=
  le_antisymm (h'.le h) (h.le h')

theorem descale_div (n d : Nat) (e : ℤ) :
    ((descale n d e).1 : ℚ) / (descale n d e).2 = n / d / 2 ^ e := by
  have hscale := shiftLeft_toNat_div_shiftLeft_toNat n d (-e)
  rw [neg_neg, zpow_neg, ← div_eq_mul_inv] at hscale
  exact hscale

theorem descale_snd_pos (hd : 0 < d) : 0 < (descale n d e).2 := by
  change 0 < d <<< e.toNat
  rw [Nat.shiftLeft_eq]
  positivity

theorem lt_mul_descale_iff (hd : 0 < d) :
    (descale n d e).1 < leadingBit * (descale n d e).2 ↔ (n : ℚ) / d < 2 ^ (e + 52) := by
  have hpos : (0 : ℚ) < (descale n d e).2 := by exact_mod_cast descale_snd_pos hd
  have htwo : (0 : ℚ) < 2 ^ e := by positivity
  rw [add_comm, zpow_add₀ two_ne_zero, ← div_lt_iff₀ htwo, ← descale_div, div_lt_iff₀ hpos]
  norm_cast

theorem pow_log2_bounds (hn : n ≠ 0) : (2 : ℚ) ^ n.log2 ≤ n ∧ (n : ℚ) < 2 ^ (n.log2 + 1) :=
  ⟨by exact_mod_cast Nat.log2_self_le hn, by exact_mod_cast Nat.lt_log2_self⟩

/-- A quotient lies between the powers of two that the numbers of bits suggest. -/
theorem pow_log2_sub_bounds (hn : n ≠ 0) (hd : d ≠ 0) :
    (2 : ℚ) ^ ((n.log2 : ℤ) - d.log2 - 1) ≤ n / d ∧
      (n : ℚ) / d < 2 ^ ((n.log2 : ℤ) - d.log2 + 1) := by
  obtain ⟨hnlow, hnhigh⟩ := pow_log2_bounds hn
  obtain ⟨hdlow, hdhigh⟩ := pow_log2_bounds hd
  have hdpos : (0 : ℚ) < d := by positivity
  constructor
  · calc (2 : ℚ) ^ ((n.log2 : ℤ) - d.log2 - 1) = 2 ^ n.log2 / 2 ^ (d.log2 + 1) := by
          rw [← zpow_natCast, ← zpow_natCast, ← zpow_sub₀ two_ne_zero]
          congr 1
          omega
      _ ≤ n / d := div_le_div₀ (by positivity) hnlow hdpos hdhigh.le
  · calc (n : ℚ) / d < 2 ^ (n.log2 + 1) / 2 ^ d.log2 :=
          div_lt_div₀ hnhigh hdlow (by positivity) (by positivity)
      _ = 2 ^ ((n.log2 : ℤ) - d.log2 + 1) := by
          rw [← zpow_natCast, ← zpow_natCast, ← zpow_sub₀ two_ne_zero]
          congr 1
          omega

theorem isUnitExponent_unitExponent (hn : n ≠ 0) (hd : d ≠ 0) :
    IsUnitExponent (n / d) (unitExponent n d) := by
  obtain ⟨hlow, hhigh⟩ := pow_log2_sub_bounds hn hd
  have hmono {i j : ℤ} (hij : i ≤ j) : (2 : ℚ) ^ i ≤ 2 ^ j := zpow_le_zpow_right₀ one_le_two hij
  simp only [unitExponent]
  generalize hguess : max (-1074) ((n.log2 : ℤ) - d.log2 - 52) = e
  rw [if_congr (lt_mul_descale_iff (Nat.pos_of_ne_zero hd)) rfl rfl]
  -- The guess from the numbers of bits is right or one too large.
  split
  · rename_i hlt
    refine ⟨by omega, hlt.trans_le (hmono (by omega)), ?_⟩
    rcases le_or_gt e (-1074) with hle | hgt
    · exact .inl (by omega)
    · exact .inr ((hmono (by omega)).trans hlow)
  · rename_i hle
    exact ⟨by omega, hhigh.trans_le (hmono (by omega)), .inr (not_lt.1 hle)⟩

/-! ## Rounding to a natural number -/

/-- What is at most a half away from `m` is rounded to `m`, a half itself if `m` is even. -/
theorem roundHalfEven_eq (hd : 0 < d) (hlow : (m : ℚ) - 1 / 2 ≤ n / d)
    (hhigh : (n : ℚ) / d ≤ m + 1 / 2)
    (hodd : m % 2 = 1 → (m : ℚ) - 1 / 2 < n / d ∧ (n : ℚ) / d < m + 1 / 2) :
    roundHalfEven n d = m := by
  have hdpos : (0 : ℚ) < d := by exact_mod_cast hd
  -- Multiplied by `2 * d`, the bounds are about natural numbers.
  rw [le_div_iff₀ hdpos] at hlow
  rw [div_le_iff₀ hdpos] at hhigh
  rw [lt_div_iff₀ hdpos, div_lt_iff₀ hdpos] at hodd
  have hlow : 2 * (d * m) ≤ 2 * n + d := by
    have : 2 * ((d : ℚ) * m) ≤ 2 * n + d := by linarith
    exact_mod_cast this
  have hhigh : 2 * n ≤ 2 * (d * m) + d := by
    have : 2 * (n : ℚ) ≤ 2 * (d * m) + d := by linarith
    exact_mod_cast this
  have hodd (h : m % 2 = 1) : 2 * (d * m) < 2 * n + d ∧ 2 * n < 2 * (d * m) + d := by
    obtain ⟨hlow, hhigh⟩ := hodd h
    have hlow : 2 * ((d : ℚ) * m) < 2 * n + d := by linarith
    have hhigh : 2 * (n : ℚ) < 2 * (d * m) + d := by linarith
    exact ⟨by exact_mod_cast hlow, by exact_mod_cast hhigh⟩
  have hdiv := Nat.div_add_mod n d
  have hmod := Nat.mod_lt n hd
  have hq : n / d ≤ m := Nat.lt_succ_iff.1 (Nat.lt_of_mul_lt_mul_left (a := d) (by
    rw [Nat.mul_succ]
    omega))
  have hm : m ≤ n / d + 1 := Nat.lt_succ_iff.1 (Nat.lt_of_mul_lt_mul_left (a := d) (by
    rw [Nat.mul_succ, Nat.mul_succ]
    omega))
  simp only [roundHalfEven]
  generalize n / d = q at *
  -- The quotient is `m` or the number before it.
  rcases Nat.lt_or_ge q m with hlt | hge
  · obtain rfl : m = q + 1 := by omega
    rw [Nat.mul_succ] at hlow hhigh hodd
    split_ifs <;> omega
  · obtain rfl : m = q := by omega
    split_ifs <;> omega

/-! ## The parts of a number -/

theorem ofMagnitude_magnitude (x : Binary64) : ofMagnitude x.isNegative x.magnitude = x := by
  have hlt := x.bits.toNat_lt
  rw [← bits_inj, ← UInt64.toNat_inj, ofMagnitude, UInt64.toNat_ofNat']
  by_cases hneg : signBit ≤ x.bits.toNat
  · rw [isNegative, decide_eq_true hneg, if_pos rfl, magnitude]
    unfold signBit at *
    omega
  · rw [isNegative, decide_eq_false hneg, if_neg Bool.false_ne_true, magnitude]
    unfold signBit at *
    omega

/-- Exponent and significand, for the least exponent and for the others. -/
theorem exponent_significand (x : Binary64) :
    x.magnitude < leadingBit ∧ x.exponent = -1074 ∧ x.significand = x.magnitude ∨
      leadingBit ≤ x.magnitude ∧ x.exponent = (x.magnitude / leadingBit : Nat) - 1075 ∧
        x.significand = leadingBit + x.magnitude % leadingBit := by
  rcases Nat.lt_or_ge x.magnitude leadingBit with h | h
  · exact .inl ⟨h, if_pos h, if_pos h⟩
  · exact .inr ⟨h, if_neg (Nat.not_lt.2 h), if_neg (Nat.not_lt.2 h)⟩

theorem least_le_exponent (x : Binary64) : -1074 ≤ x.exponent := by
  rcases x.exponent_significand with ⟨-, he, -⟩ | ⟨hx, he, -⟩
  · omega
  · unfold leadingBit at hx he
    omega

theorem exponent_le (x : Binary64) : x.exponent ≤ 972 := by
  have hlt : x.magnitude < signBit := Nat.mod_lt _ (by decide)
  rcases x.exponent_significand with ⟨-, he, -⟩ | ⟨-, he, -⟩
  · omega
  · unfold leadingBit at he
    unfold signBit at hlt
    omega

theorem exponent_eq_or_leadingBit_le (x : Binary64) :
    x.exponent = -1074 ∨ leadingBit ≤ x.significand := by
  rcases x.exponent_significand with ⟨-, he, -⟩ | ⟨-, -, hm⟩
  · exact .inl he
  · exact .inr (by omega)

theorem significand_lt (x : Binary64) : x.significand < 2 * leadingBit := by
  rcases x.exponent_significand with ⟨hx, -, hm⟩ | ⟨-, -, hm⟩ <;> unfold leadingBit at * <;> omega

theorem significand_pos (h : x.isZero = false) : 0 < x.significand := by
  have hx : x.magnitude ≠ 0 := by simpa [isZero] using h
  rcases x.exponent_significand with ⟨-, -, hm⟩ | ⟨-, -, hm⟩ <;> unfold leadingBit at * <;> omega

/-- The leading bit of the significand counts in the exponent that a pattern holds. -/
theorem exponent_mul_add_significand (x : Binary64) :
    (x.exponent + 1074).toNat * leadingBit + x.significand = x.magnitude := by
  rcases x.exponent_significand with ⟨hx, he, hm⟩ | ⟨hx, he, hm⟩ <;> rw [he, hm] <;>
    unfold leadingBit at * <;> omega

/-! ## Rounding to a number -/

/-- A quotient is rounded to `x` if it is rounded to the pattern of `x` in the unit that its
    own size gives it. -/
theorem nearest_of_isUnitExponent (hx : x.isNaN = false) (hn : n ≠ 0) (hd : 0 < d)
    (he : IsUnitExponent (n / d) e)
    (hm : (e + 1074).toNat * leadingBit + m = x.magnitude)
    (hlow : ((m : ℚ) - 1 / 2) * 2 ^ e ≤ n / d) (hhigh : (n : ℚ) / d ≤ (m + 1 / 2) * 2 ^ e)
    (hodd : m % 2 = 1 → ((m : ℚ) - 1 / 2) * 2 ^ e < n / d ∧ (n : ℚ) / d < (m + 1 / 2) * 2 ^ e) :
    nearest x.isNegative n d = x := by
  have htwo : (0 : ℚ) < 2 ^ e := by positivity
  have hround : roundHalfEven (descale n d e).1 (descale n d e).2 = m := by
    refine roundHalfEven_eq (descale_snd_pos hd) ?_ ?_ fun h => ?_ <;> rw [descale_div]
    · exact (le_div_iff₀ htwo).2 hlow
    · exact (div_le_iff₀ htwo).2 hhigh
    · exact ⟨(lt_div_iff₀ htwo).2 (hodd h).1, (div_lt_iff₀ htwo).2 (hodd h).2⟩
  have hfinite : x.magnitude ≤ infinityMagnitude := by simpa [isNaN] using hx
  rw [nearest, if_neg hn, (isUnitExponent_unitExponent hn hd.ne').unique he]
  simp only [hround, hm, Nat.min_eq_right hfinite]
  exact ofMagnitude_magnitude x

end Binary64

namespace Interval

open Binary64

variable {v : ℚ} {n d : Nat} {x : Binary64}

/-- Whether a rational number lies in an interval. -/
structure Contains (f : Interval) (v : ℚ) : Prop where
  low_le : f.low * 2 ^ f.exponent ≤ v
  le_high : v ≤ f.high * 2 ^ f.exponent
  inner : f.closed = false → f.low * 2 ^ f.exponent < v ∧ v < f.high * 2 ^ f.exponent

theorem quarters_mul (x : Binary64) (q : ℚ) :
    q * 2 ^ (ofNumber x).exponent = q / 4 * 2 ^ x.exponent := by
  rw [ofNumber, zpow_sub₀ two_ne_zero]
  norm_num
  ring

theorem high_ofNumber (x : Binary64) :
    ((ofNumber x).high : ℚ) * 2 ^ (ofNumber x).exponent =
      (x.significand + 1 / 2) * 2 ^ x.exponent := by
  rw [quarters_mul, ofNumber]
  push_cast
  ring

/-- Below a power of two the numbers are twice as dense. -/
theorem low_ofNumber_of_eq (hm : x.significand = leadingBit) (he : -1074 < x.exponent) :
    ((ofNumber x).low : ℚ) * 2 ^ (ofNumber x).exponent =
      (x.significand - 1 / 4) * 2 ^ x.exponent := by
  rw [quarters_mul, ofNumber]
  simp only [if_pos (And.intro hm he)]
  rw [hm, leadingBit]
  norm_num

theorem low_ofNumber_of_not (hpos : 0 < x.significand)
    (hm : ¬(x.significand = leadingBit ∧ -1074 < x.exponent)) :
    ((ofNumber x).low : ℚ) * 2 ^ (ofNumber x).exponent =
      (x.significand - 1 / 2) * 2 ^ x.exponent := by
  rw [quarters_mul, ofNumber]
  simp only [if_neg hm]
  rw [Nat.cast_sub (by omega)]
  push_cast
  ring

theorem half_le_low (hpos : 0 < x.significand) :
    ((x.significand : ℚ) - 1 / 2) * 2 ^ x.exponent ≤
      (ofNumber x).low * 2 ^ (ofNumber x).exponent := by
  have htwo : (0 : ℚ) < 2 ^ x.exponent := by positivity
  by_cases hm : x.significand = leadingBit ∧ -1074 < x.exponent
  · rw [low_ofNumber_of_eq hm.1 hm.2]
    exact mul_le_mul_of_nonneg_right (by linarith) htwo.le
  · rw [low_ofNumber_of_not hpos hm]

theorem isUnitExponent_of_contains (hpos : 0 < x.significand) (h : (ofNumber x).Contains v)
    (hv : x.significand = leadingBit → -1074 < x.exponent → 2 ^ (x.exponent + 52) ≤ v) :
    IsUnitExponent v x.exponent := by
  have htwo : (0 : ℚ) < 2 ^ x.exponent := by positivity
  have hlow := (half_le_low hpos).trans h.low_le
  have hhigh := h.le_high
  rw [high_ofNumber] at hhigh
  have hlt : (x.significand : ℚ) + 1 ≤ 2 ^ 53 := by exact_mod_cast x.significand_lt
  refine ⟨x.least_le_exponent, ?_, ?_⟩
  · rw [add_comm, zpow_add₀ two_ne_zero]
    refine hhigh.trans_lt (mul_lt_mul_of_pos_right ?_ htwo)
    norm_num at hlt ⊢
    linarith
  · rcases x.exponent_eq_or_leadingBit_le with he | hle
    · exact .inl he
    rcases x.least_le_exponent.eq_or_lt with he | he
    · exact .inl he.symm
    rcases hle.eq_or_lt with heq | hgt
    · exact .inr (hv heq.symm he)
    · refine .inr (le_trans ?_ hlow)
      have hgt : (2 : ℚ) ^ 52 + 1 ≤ x.significand := by exact_mod_cast hgt
      rw [add_comm, zpow_add₀ two_ne_zero]
      refine mul_le_mul_of_nonneg_right ?_ htwo.le
      norm_num
      linarith

/-- Below a power of two the unit is half as large, and the quotient is rounded up to the power,
    whose leading bit is then carried. -/
theorem nearest_of_lt_pow (hx : x.isNaN = false) (hn : n ≠ 0) (hd : 0 < d)
    (hm : x.significand = leadingBit) (he : -1074 < x.exponent)
    (hlow : ((leadingBit : ℚ) - 1 / 4) * 2 ^ x.exponent ≤ n / d)
    (hlt : (n : ℚ) / d < 2 ^ (x.exponent + 52)) : nearest x.isNegative n d = x := by
  have hhalf : (0 : ℚ) < 2 ^ (x.exponent - 1) := by positivity
  have hlow : ((2 * leadingBit : Nat) - 1 / 2 : ℚ) * 2 ^ (x.exponent - 1) ≤ n / d := by
    refine le_trans (le_of_eq ?_) hlow
    rw [zpow_sub_one₀ two_ne_zero]
    push_cast
    ring
  have hhigh : (n : ℚ) / d < (2 * leadingBit : Nat) * 2 ^ (x.exponent - 1) := by
    refine hlt.trans_eq ?_
    rw [add_comm, zpow_add₀ two_ne_zero, zpow_sub_one₀ two_ne_zero, leadingBit]
    norm_num
    ring
  have hunit : IsUnitExponent ((n : ℚ) / d) (x.exponent - 1) := by
    refine ⟨by omega, ?_, .inr (le_trans ?_ hlow)⟩
    · rwa [show x.exponent - 1 + 53 = x.exponent + 52 by ring]
    · rw [add_comm, zpow_add₀ two_ne_zero]
      refine mul_le_mul_of_nonneg_right ?_ hhalf.le
      norm_num [leadingBit]
  refine nearest_of_isUnitExponent (m := 2 * leadingBit) hx hn hd hunit ?_ hlow ?_
    fun hodd => by omega
  · have hcarry : (x.exponent + 1074).toNat = (x.exponent - 1 + 1074).toNat + 1 := by omega
    rw [← exponent_mul_add_significand, hm, hcarry]
    ring
  · refine hhigh.le.trans (mul_le_mul_of_nonneg_right ?_ hhalf.le)
    exact le_add_of_nonneg_right (by norm_num)

/-- All that an interval contains is rounded to its number. -/
theorem nearest_of_contains (hx : x.isNaN = false) (hzero : x.isZero = false) (hd : 0 < d)
    (h : (ofNumber x).Contains (n / d)) : nearest x.isNegative n d = x := by
  have hpos := significand_pos hzero
  have hlow := (half_le_low hpos).trans h.low_le
  have hn : n ≠ 0 := by
    rintro rfl
    have hm : (1 : ℚ) ≤ x.significand := by exact_mod_cast hpos
    have htwo : (0 : ℚ) < 2 ^ x.exponent := by positivity
    have := mul_pos (sub_pos.2 (lt_of_lt_of_le (by norm_num : (1 / 2 : ℚ) < 1) hm)) htwo
    rw [Nat.cast_zero, zero_div] at hlow
    linarith
  -- The unit is that of the number itself, except just below a power of two.
  by_cases hcarry : x.significand = leadingBit ∧ -1074 < x.exponent ∧
      (n : ℚ) / d < 2 ^ (x.exponent + 52)
  · obtain ⟨hm, he, hlt⟩ := hcarry
    have hlow := h.low_le
    rw [low_ofNumber_of_eq hm he, hm] at hlow
    exact nearest_of_lt_pow hx hn hd hm he hlow hlt
  · have he := isUnitExponent_of_contains hpos h fun hm he => not_lt.1 fun hlt =>
      hcarry ⟨hm, he, hlt⟩
    have hhigh := h.le_high
    rw [high_ofNumber] at hhigh
    refine nearest_of_isUnitExponent hx hn hd he x.exponent_mul_add_significand hlow hhigh
      fun hodd => ?_
    -- An odd significand is no power of two, and the interval of its number is open.
    have hm : ¬(x.significand = leadingBit ∧ -1074 < x.exponent) := by
      rintro ⟨hm, -⟩
      rw [hm] at hodd
      cases hodd
    have hinner := h.inner (decide_eq_false (by omega))
    rwa [low_ofNumber_of_not hpos hm, high_ofNumber] at hinner

end Interval

end StackMachine
