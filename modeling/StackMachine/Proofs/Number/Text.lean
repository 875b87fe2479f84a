import StackMachine.Proofs.Number.Shortest
import StackMachine.Proofs.Text.Numeral
import StackMachine.Value.Text

/-!
# Floating-point numbers read back

A number that is written with its shortest decimal is read back, bit by bit. However the
digits are laid out, what is read is a decimal of the same value, and it lies in the interval of
the number.

* `readDecimal?_of_parts`: the reader on digits, point and exponent;
* `ofDecimal_of_contains`: a decimal in an interval is read as its number;
* `FloatFormat.isWord_write`, `FloatFormat.read?_write`: what a format writes is a word, and it is
  read back;
* `Value.isWord_displayFloat`, `Value.read?_displayFloat`: in particular, so is the text of a float.
-/

namespace StackMachine

open Text

namespace Binary64

variable {x : Binary64} {v : ℚ} {n : Nat} {e : ℤ} {c : Char}
  {cs whole fraction significand : List Char}

/-! ## Decimals -/

/-- A power of ten with a negative exponent is at most the power of eight. -/
theorem mul_zpow_ten_lt (hn : n ≠ 0) (he : e ≤ 0) :
    (n : ℚ) * 10 ^ e < 2 ^ ((n.log2 : ℤ) + 1 + 3 * e) := by
  obtain ⟨k, rfl⟩ : ∃ k : ℕ, e = -k := ⟨e.natAbs, by omega⟩
  have hten : (10 : ℚ) ^ (-k : ℤ) ≤ 2 ^ (3 * -k : ℤ) := by
    rw [zpow_mul, zpow_neg, zpow_neg, zpow_natCast, zpow_natCast]
    exact inv_anti₀ (by positivity) (pow_le_pow_left₀ (by norm_num) (by norm_num) k)
  calc (n : ℚ) * 10 ^ (-k : ℤ) < 2 ^ (n.log2 + 1) * 10 ^ (-k : ℤ) :=
        mul_lt_mul_of_pos_right (pow_log2_bounds hn).2 (by positivity)
    _ ≤ 2 ^ (n.log2 + 1) * 2 ^ (3 * -k : ℤ) := mul_le_mul_of_nonneg_left hten (by positivity)
    _ = 2 ^ ((n.log2 : ℤ) + 1 + 3 * -k) := by
        rw [← zpow_natCast, ← zpow_add₀ two_ne_zero]
        rfl

/-- The ends of the range of all numbers but zero. -/
theorem bounds_of_contains (hpos : 0 < x.significand) (h : (Interval.ofNumber x).Contains v) :
    2 ^ (-1075 : ℤ) ≤ v ∧ v < 2 ^ (1025 : ℤ) := by
  have htwo : (0 : ℚ) < 2 ^ x.exponent := by positivity
  constructor
  · calc (2 : ℚ) ^ (-1075 : ℤ) = 1 / 2 * 2 ^ (-1074 : ℤ) := by
          rw [show (-1075 : ℤ) = -1074 - 1 by norm_num, zpow_sub_one₀ two_ne_zero]
          ring
      _ ≤ (x.significand - 1 / 2) * 2 ^ x.exponent := by
          have hone : (1 : ℚ) ≤ x.significand := by exact_mod_cast hpos
          refine mul_le_mul (by linarith) ?_ (by positivity) (by linarith)
          exact zpow_le_zpow_right₀ one_le_two x.least_le_exponent
      _ ≤ v := (Interval.half_le_low hpos).trans h.low_le
  · calc v ≤ (x.significand + 1 / 2) * 2 ^ x.exponent := by
          rw [← Interval.high_ofNumber]
          exact h.le_high
      _ < 2 ^ (53 : ℤ) * 2 ^ x.exponent := by
          have hlt : (x.significand : ℚ) + 1 ≤ 2 ^ (53 : ℤ) := by exact_mod_cast x.significand_lt
          exact mul_lt_mul_of_pos_right (by linarith) htwo
      _ ≤ 2 ^ (1025 : ℤ) := by
          rw [← zpow_add₀ two_ne_zero]
          exact zpow_le_zpow_right₀ one_le_two (by linarith [x.exponent_le])

/-- All decimals in an interval are read as its number. -/
theorem ofDecimal_of_contains (hx : x.isNaN = false) (hzero : x.isZero = false)
    (h : (Interval.ofNumber x).Contains (n * 10 ^ e)) : ofDecimal x.isNegative n e = x := by
  obtain ⟨hlow, hhigh⟩ := bounds_of_contains (significand_pos hzero) h
  have hn : n ≠ 0 := by
    rintro rfl
    rw [Nat.cast_zero, zero_mul] at hlow
    exact absurd hlow (not_le.2 (by positivity))
  -- No decimal in the interval is so large or so small that it is not computed.
  have hlarge : ¬400 < e := fun he => by
    have hone : (1 : ℚ) ≤ n := by exact_mod_cast Nat.pos_of_ne_zero hn
    have hten : (10 : ℚ) ^ (400 : ℤ) ≤ n * 10 ^ e :=
      (zpow_le_zpow_right₀ (by norm_num) he.le).trans (le_mul_of_one_le_left (by positivity) hone)
    have htwo : (2 : ℚ) ^ (1025 : ℤ) ≤ 10 ^ (400 : ℤ) :=
      calc (2 : ℚ) ^ (1025 : ℤ) ≤ 2 ^ (3 * 400 : ℤ) := zpow_le_zpow_right₀ one_le_two (by norm_num)
        _ = (2 ^ (3 : ℤ)) ^ (400 : ℤ) := zpow_mul ..
        _ ≤ 10 ^ (400 : ℤ) := zpow_le_zpow_left₀ (by norm_num) (by norm_num) (by norm_num)
    exact absurd (hten.trans_lt hhigh) (not_lt.2 htwo)
  have hsmall : ¬3 * e + n.log2 < -1080 := fun he => by
    have hlt := mul_zpow_ten_lt hn (by omega : e ≤ 0)
    have hpow : (2 : ℚ) ^ ((n.log2 : ℤ) + 1 + 3 * e) ≤ 2 ^ (-1075 : ℤ) :=
      zpow_le_zpow_right₀ one_le_two (by omega)
    exact absurd (hlow.trans_lt hlt) (not_lt.2 hpow)
  rw [ofDecimal, if_neg hn, if_neg hlarge, if_neg hsmall]
  refine Interval.nearest_of_contains hx hzero (Nat.pow_pos (by decide)) ?_
  have hvalue : ((n * 10 ^ e.toNat : ℕ) : ℚ) / (10 ^ (-e).toNat : ℕ) = n * 10 ^ e := by
    push_cast
    rw [mul_div_assoc, pow_toNat_div_pow_toNat (by norm_num)]
  exact hvalue ▸ h

/-! ## Texts -/

theorem ne_of_isDigit {d : Char} (h : c.isDigit = true) (hd : d.isDigit = false) : c ≠ d := by
  rintro rfl
  rw [h] at hd
  cases hd

/-- The reader on digits before and after the point and on an exponent. Without digits after it,
    the point may be missing, and the exponent with its mark if it is zero. -/
theorem readDecimal?_of_parts (negative : Bool) {point mark : List Char}
    (hwhole : ∀ c ∈ whole, c.isDigit = true) (hfraction : ∀ c ∈ fraction, c.isDigit = true)
    (hne : whole ≠ []) (hpoint : point = '.' :: fraction ∨ point = [] ∧ fraction = [])
    (hmark : mark = [] ∧ e = 0 ∨ ∃ text, mark = 'e' :: text ∧ integer? text = some e) :
    readDecimal? negative (whole ++ point ++ mark) =
      some (ofDecimal negative (digitsValue (whole ++ fraction)) (e - fraction.length)) := by
  have hsignificand : ∀ c ∈ whole ++ point, (!(c == 'e' || c == 'E')) = true := by
    have hdigit (c : Char) (hc : c.isDigit = true) : (!(c == 'e' || c == 'E')) = true := by
      simp [ne_of_isDigit hc]
    refine List.forall_mem_append.2 ⟨fun c hc => hdigit c (hwhole c hc), ?_⟩
    rcases hpoint with rfl | ⟨rfl, -⟩
    · exact List.forall_mem_cons.2 ⟨rfl, fun c hc => hdigit c (hfraction c hc)⟩
    · exact List.forall_mem_nil _
  obtain ⟨hsignificand, htail⟩ := takeWhile_dropWhile_append hsignificand mark (by
    rcases hmark with ⟨rfl, -⟩ | ⟨text, rfl, -⟩ <;> simp)
  obtain ⟨hbefore, hafter⟩ := takeWhile_dropWhile_append (p := (· != '.'))
    (fun c hc => bne_iff_ne.2 (ne_of_isDigit (hwhole c hc) rfl)) point (by
      rcases hpoint with rfl | ⟨rfl, -⟩ <;> simp)
  have hdrop : point.drop 1 = fraction := by
    rcases hpoint with rfl | ⟨rfl, rfl⟩ <;> rfl
  have hnatural := natural?_of_forall_isDigit (List.append_ne_nil_of_left_ne_nil hne fraction)
    (List.forall_mem_append.2 ⟨hwhole, hfraction⟩)
  simp only [readDecimal?, hsignificand, htail, hbefore, hafter, hdrop, hnatural]
  rcases hmark with ⟨rfl, rfl⟩ | ⟨text, rfl, htext⟩
  · rfl
  · simp only [htext]

/-- A text that begins with a digit has no sign and is no word. -/
theorem readUnsigned?_of_isDigit (negative : Bool) (hc : c.isDigit = true) :
    readUnsigned? negative (c :: cs) = readDecimal? negative (c :: cs) := by
  have hlower : c.toLower = c := by
    simp only [Char.isDigit, Bool.and_eq_true, decide_eq_true_eq] at hc
    refine dif_neg fun h => ?_
    exact absurd (UInt32.le_trans h.1 hc.2) (by decide)
  have hword {d : Char} {ds : List Char} (hd : d.isDigit = false) :
      String.ofList ((c :: cs).map Char.toLower) ≠ String.ofList (d :: ds) := fun h => by
    rw [String.ofList_inj, List.map_cons, hlower, List.cons.injEq] at h
    exact ne_of_isDigit hc hd h.1
  rw [readUnsigned?, if_neg (not_or.2 ⟨hword rfl, hword rfl⟩), if_neg (hword rfl)]

theorem read?_of_isDigit (hc : c.isDigit = true) :
    read? (c :: cs) = readDecimal? false (c :: cs) := by
  have hminus : c ≠ '-' := ne_of_isDigit hc rfl
  have hplus : c ≠ '+' := ne_of_isDigit hc rfl
  rw [← readUnsigned?_of_isDigit false hc, read?]
  · simp [hminus]
  · simp [hplus]

end Binary64

namespace FloatFormat

open Binary64

variable {f : FloatFormat} {x : Binary64} {ds : List Char}

theorem readDecimal?_positional (negative : Bool) (hds : ∀ c ∈ ds, c.isDigit = true)
    (hne : ds ≠ []) (e : ℤ) : ∃ n e', readDecimal? negative (positional ds e) =
      some (ofDecimal negative n e') ∧
        (n : ℚ) * 10 ^ e' = digitsValue ds * 10 ^ (e + 1 - ds.length) := by
  have hlen : 0 < ds.length := List.length_pos_of_ne_nil hne
  have hzeros (k : Nat) : ∀ c ∈ List.replicate k '0', c.isDigit = true := fun c hc => by
    rw [List.eq_of_mem_replicate hc]
    rfl
  have hparts (whole fraction : List Char) (hwhole : ∀ c ∈ whole, c.isDigit = true)
      (hfraction : ∀ c ∈ fraction, c.isDigit = true) (hne : whole ≠ []) :
      readDecimal? negative (whole ++ '.' :: fraction) =
        some (ofDecimal negative (digitsValue (whole ++ fraction)) (0 - fraction.length)) := by
    rw [← List.append_nil (whole ++ '.' :: fraction)]
    exact readDecimal?_of_parts negative hwhole hfraction hne (.inl rfl) (.inl ⟨rfl, rfl⟩)
  -- The zeros in front of the digits or behind them change the value by a power of ten at most.
  simp only [positional]
  split
  · refine ⟨_, _, hparts ['0'] _ (hzeros 1) (List.forall_mem_append.2 ⟨hzeros _, hds⟩)
      (List.cons_ne_nil _ _), ?_⟩
    have hvalue := digitsValue_replicate_append ((-e - 1).toNat + 1) ds
    rw [List.replicate_succ, List.cons_append] at hvalue
    rw [List.singleton_append, hvalue, List.length_append, List.length_replicate]
    congr 2
    omega
  split
  · refine ⟨_, _, hparts _ ['0'] (List.forall_mem_append.2 ⟨hds, hzeros _⟩)
      (hzeros 1) (List.append_ne_nil_of_left_ne_nil hne _), ?_⟩
    have hvalue := digitsValue_append_replicate ds ((e + 1).toNat - ds.length + 1)
    rw [List.replicate_succ', ← List.append_assoc] at hvalue
    rw [hvalue]
    push_cast
    rw [mul_assoc, ← zpow_natCast, ← zpow_add₀ (by norm_num)]
    congr 2
    simp only [List.length_singleton]
    omega
  · have hsplit := List.take_append_drop (e + 1).toNat ds
    refine ⟨_, _, hparts _ _ (fun c hc => hds c (List.mem_of_mem_take hc))
      (fun c hc => hds c (List.mem_of_mem_drop hc)) ?_, ?_⟩
    · rw [← List.length_pos_iff, List.length_take]
      omega
    · rw [hsplit, List.length_drop]
      congr 2
      omega

/-- An exponent is read with the sign that the format gives it. -/
theorem integer?_exponent (hf : f.positiveExponent = [] ∨ f.positiveExponent = ['+']) (e : ℤ) :
    integer? ((if e < 0 then [] else f.positiveExponent) ++ integerDigits e) = some e := by
  split
  · exact integer?_integerDigits e
  rename_i he
  rcases hf with hf | hf <;> rw [hf]
  · exact integer?_integerDigits e
  · rw [integerDigits, if_neg he, List.singleton_append, integer?, dropPlus, natural?_digits]
    · have habs : (e.natAbs : ℤ) = e := by omega
      rw [Option.map_some, habs]
    · rintro cs ⟨⟩

theorem readDecimal?_scientific (hf : f.positiveExponent = [] ∨ f.positiveExponent = ['+'])
    (negative : Bool) (hds : ∀ c ∈ ds, c.isDigit = true) (hne : ds ≠ []) (e : ℤ) :
    ∃ n e', readDecimal? negative (f.scientific ds e) = some (ofDecimal negative n e') ∧
      (n : ℚ) * 10 ^ e' = digitsValue ds * 10 ^ (e + 1 - ds.length) := by
  have hlen : 0 < ds.length := List.length_pos_of_ne_nil hne
  have hfirst : ∀ c ∈ ds.take 1, c.isDigit = true := fun c hc => hds c (List.mem_of_mem_take hc)
  have hothers : ∀ c ∈ ds.drop 1, c.isDigit = true := fun c hc => hds c (List.mem_of_mem_drop hc)
  refine ⟨_, _, readDecimal?_of_parts negative hfirst hothers ?_ ?_
    (.inr ⟨_, rfl, integer?_exponent hf e⟩), ?_⟩
  · rw [← List.length_pos_iff, List.length_take]
    omega
  · split
    · rename_i hnil
      exact .inr ⟨rfl, List.isEmpty_iff.1 hnil⟩
    · exact .inl rfl
  · rw [List.take_append_drop, List.length_drop]
    congr 2
    omega

/-- The digits of a number other than zero are read back. -/
theorem readDecimal?_writeMagnitude (hf : f.positiveExponent = [] ∨ f.positiveExponent = ['+'])
    (hx : x.isNaN = false) (hzero : x.isZero = false) :
    readDecimal? x.isNegative (f.writeMagnitude x) = some x := by
  have hds := forall_isDigit_digits (x.shortest f.tie).coefficient
  have hne := digits_ne_nil (x.shortest f.tie).coefficient
  have hvalue := digitsValue_digits (x.shortest f.tie).coefficient
  have hshortest := Interval.contains_shortest hzero f.tie
  rw [Decimal.value, ← hvalue] at hshortest
  have hread {cs : List Char} {e : ℤ}
      (h : ∃ n e', readDecimal? x.isNegative cs = some (ofDecimal x.isNegative n e') ∧
        (n : ℚ) * 10 ^ e' = digitsValue (digits (x.shortest f.tie).coefficient) *
          10 ^ (e + 1 - (digits (x.shortest f.tie).coefficient).length : ℤ))
      (he : e = (x.shortest f.tie).exponent + (digits (x.shortest f.tie).coefficient).length - 1) :
      readDecimal? x.isNegative cs = some x := by
    obtain ⟨n, e', hcs, hn⟩ := h
    rw [he, sub_add_cancel, add_sub_cancel_right] at hn
    rw [hcs, ofDecimal_of_contains hx hzero (hn ▸ hshortest)]
  rw [writeMagnitude, if_neg (by simp [hzero])]
  simp only
  split
  · exact hread (readDecimal?_positional _ hds hne _) rfl
  · exact hread (readDecimal?_scientific hf _ hds hne _) rfl

theorem exists_cons_positional {d : Char} (hd : d.isDigit = true) (e : ℤ) :
    ∃ c cs, positional (d :: ds) e = c :: cs ∧ c.isDigit = true := by
  simp only [positional]
  split
  · exact ⟨'0', _, rfl, rfl⟩
  split
  · exact ⟨d, _, rfl, hd⟩
  · obtain ⟨k, hk⟩ : ∃ k, (e + 1).toNat = k + 1 := ⟨e.toNat, by omega⟩
    rw [hk]
    exact ⟨d, _, rfl, hd⟩

/-- The text of a number without its sign begins with a digit. -/
theorem exists_cons_writeMagnitude (f : FloatFormat) (x : Binary64) :
    ∃ c cs, f.writeMagnitude x = c :: cs ∧ c.isDigit = true := by
  have hds := forall_isDigit_digits (x.shortest f.tie).coefficient
  obtain ⟨d, ds, hcons⟩ := List.exists_cons_of_ne_nil
    (digits_ne_nil (x.shortest f.tie).coefficient)
  rw [hcons] at hds
  have hd := hds d List.mem_cons_self
  rw [writeMagnitude]
  split
  · exact ⟨'0', _, rfl, rfl⟩
  simp only [hcons]
  split
  · exact exists_cons_positional hd _
  · exact ⟨d, _, rfl, hd⟩

theorem forall_isPlain_positional (hds : ∀ c ∈ ds, isPlain c = true) (e : ℤ) :
    ∀ c ∈ positional ds e, isPlain c = true := by
  have hzeros (k : Nat) : ∀ c ∈ List.replicate k '0', isPlain c = true := fun c hc => by
    rw [List.eq_of_mem_replicate hc]
    rfl
  simp only [positional]
  split
  · refine List.forall_mem_cons.2 ⟨rfl, List.forall_mem_cons.2 ⟨rfl, ?_⟩⟩
    exact List.forall_mem_append.2 ⟨hzeros _, hds⟩
  split
  · exact List.forall_mem_append.2
      ⟨List.forall_mem_append.2 ⟨hds, hzeros _⟩, List.all_eq_true.1 rfl⟩
  · refine List.forall_mem_append.2 ⟨fun c hc => hds c (List.mem_of_mem_take hc), ?_⟩
    exact List.forall_mem_cons.2 ⟨rfl, fun c hc => hds c (List.mem_of_mem_drop hc)⟩

theorem forall_isPlain_scientific (hf : ∀ c ∈ f.positiveExponent, isPlain c = true)
    (hds : ∀ c ∈ ds, isPlain c = true) (e : ℤ) :
    ∀ c ∈ f.scientific ds e, isPlain c = true := by
  simp only [scientific]
  refine List.forall_mem_append.2 ⟨List.forall_mem_append.2
    ⟨fun c hc => hds c (List.mem_of_mem_take hc), ?_⟩, List.forall_mem_cons.2 ⟨rfl, ?_⟩⟩
  · split
    · exact List.forall_mem_nil _
    · exact List.forall_mem_cons.2 ⟨rfl, fun c hc => hds c (List.mem_of_mem_drop hc)⟩
  · refine List.forall_mem_append.2 ⟨?_, (isWord_integerDigits e).isPlain⟩
    split
    · exact List.forall_mem_nil _
    · exact hf

theorem isWord_writeMagnitude (hf : ∀ c ∈ f.positiveExponent, isPlain c = true)
    (x : Binary64) : IsWord (f.writeMagnitude x) := by
  refine ⟨?_, ?_⟩
  · obtain ⟨c, cs, hcons, -⟩ := f.exists_cons_writeMagnitude x
    rw [hcons]
    exact List.cons_ne_nil _ _
  have hds := (isWord_digits (x.shortest f.tie).coefficient).isPlain
  rw [writeMagnitude]
  split
  · exact List.all_eq_true.1 rfl
  simp only
  split
  · exact forall_isPlain_positional hds _
  · exact forall_isPlain_scientific hf hds _

/-- What a format writes is a word if its own words and its sign of an exponent are plain. -/
theorem isWord_write (hf : ∀ c ∈ f.positiveExponent, isPlain c = true)
    (hwords : ∀ word ∈ [f.nan, f.infinity, f.negativeInfinity], IsWord word) (x : Binary64) :
    IsWord (f.write x) := by
  have hmagnitude := isWord_writeMagnitude hf x
  rw [write]
  split
  · exact hwords _ (by simp)
  split
  · split <;> exact hwords _ (by simp)
  split
  · exact ⟨List.cons_ne_nil _ _, List.forall_mem_cons.2 ⟨rfl, hmagnitude.isPlain⟩⟩
  · exact hmagnitude

/-- What a format writes is read back, bit by bit, if it writes the infinities as words that
    are read and has no other sign of an exponent than `+`. -/
theorem read?_write (hf : f.positiveExponent = [] ∨ f.positiveExponent = ['+'])
    (hinfinity : f.infinity = "inf".toList) (hnegative : f.negativeInfinity = "-inf".toList)
    (hx : x.isNaN = false) : read? (f.write x) = some x := by
  have hself := ofMagnitude_magnitude x
  rw [write, if_neg (by simp [hx])]
  split
  · rename_i hinf
    rw [isInfinite, beq_iff_eq] at hinf
    rw [hinf] at hself
    split
    · rename_i hneg
      rw [hneg] at hself
      rw [hnegative, ← hself]
      rfl
    · rename_i hneg
      rw [Bool.eq_false_of_not_eq_true hneg] at hself
      rw [hinfinity, ← hself]
      rfl
  have hmagnitude : readDecimal? x.isNegative (f.writeMagnitude x) = some x := by
    cases hzero : x.isZero with
    | false => exact readDecimal?_writeMagnitude hf hx hzero
    | true =>
      rw [writeMagnitude, if_pos hzero]
      rw [isZero, beq_iff_eq] at hzero
      rw [hzero] at hself
      exact congrArg some hself
  obtain ⟨c, cs, hcons, hc⟩ := f.exists_cons_writeMagnitude x
  rw [hcons] at hmagnitude ⊢
  split
  · rename_i hneg
    rw [hneg] at hmagnitude
    rw [read?, readUnsigned?_of_isDigit true hc, hmagnitude]
  · rename_i hneg
    rw [Bool.eq_false_of_not_eq_true hneg] at hmagnitude
    rw [read?_of_isDigit hc, hmagnitude]

end FloatFormat

namespace Value

theorem isWord_displayFloat (x : Binary64) : IsWord (displayFloat x).toList := by
  rw [displayFloat, String.toList_ofList]
  refine FloatFormat.isWord_write (List.forall_mem_nil _) (List.forall_mem_cons.2 ⟨?_,
    List.forall_mem_cons.2 ⟨?_, List.forall_mem_singleton.2 ?_⟩⟩) x <;> decide

/-- The text of a float other than a NaN denotes that float. -/
theorem read?_displayFloat {x : Binary64} (hx : x.isNaN = false) :
    Binary64.read? (displayFloat x).toList = some x := by
  rw [displayFloat, String.toList_ofList]
  exact FloatFormat.read?_write (.inl rfl) rfl rfl hx

end Value

end StackMachine
