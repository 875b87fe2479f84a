import Mathlib.Data.Nat.Digits.Defs
import StackMachine.Assembly.Statement
import StackMachine.Proofs.Number.Text

/-!
# Integer literals

A numeral is an optional sign and decimal digits, and denotes an integer. As a literal it is that
integer, if this has 64 bits. Otherwise it is read as the float that is nearest to the integer,
without a word that it was rounded.

* `Numeral`: the texts that denote integers, and which ones they denote;
* `readLiteral_numeral`: what they are as literals;
* `readLiteral_ne_strictLiteral`: the literal `9223372036854775808` is no error.
-/

namespace StackMachine

open Text

namespace Assembly

open AssemblyError (Reason)

/-- The number with the given decimal digits, the first one counting most. -/
def numeralValue (ds : List Char) : Nat :=
  Nat.ofDigits 10 (ds.map digitValue).reverse

/-- `Numeral text i`: the text is an optional sign and at least one digit from `0` to `9`, and
    denotes the integer `i`. -/
inductive Numeral : List Char → Int → Prop
  | unsigned {ds : List Char} (hne : ds ≠ []) (hds : ∀ c ∈ ds, c.isDigit = true) :
    Numeral ds (numeralValue ds)
  | plus {ds : List Char} (hne : ds ≠ []) (hds : ∀ c ∈ ds, c.isDigit = true) :
    Numeral ('+' :: ds) (numeralValue ds)
  | minus {ds : List Char} (hne : ds ≠ []) (hds : ∀ c ∈ ds, c.isDigit = true) :
    Numeral ('-' :: ds) (-(numeralValue ds : Int))

/-- The integer has 64 bits, one of them for the sign. -/
def InRange (i : Int) : Prop :=
  -2 ^ 63 ≤ i ∧ i < 2 ^ 63

instance (i : Int) : Decidable (InRange i) :=
  inferInstanceAs (Decidable (_ ∧ _))

/-- What a numeral is as a literal, if only texts with a point or a word for it are floats. -/
def strictLiteral (text : List Char) (i : Int) : Except Reason Value :=
  if InRange i then .ok (.int (Int64.ofInt i))
  else .error (.invalidLiteral (String.ofList text))

theorem digitsValue_eq_numeralValue (ds : List Char) : digitsValue ds = numeralValue ds := by
  induction ds using List.reverseRecOn with
  | nil => rfl
  | append_singleton ds d ih =>
    rw [digitsValue_append, ih, numeralValue, numeralValue, List.map_append, List.reverse_append,
      List.map_singleton, List.reverse_singleton, List.singleton_append, Nat.ofDigits_cons,
      List.length_singleton]
    have hd : digitsValue [d] = digitValue d := Nat.zero_add _
    rw [hd, Nat.pow_one]
    exact (Nat.add_comm _ _).trans (congrArg _ (Nat.mul_comm _ _))

/-- The reader of integers reads what a numeral denotes. -/
theorem Numeral.integer?_eq {text : List Char} {i : Int} (h : Numeral text i) :
    integer? text = some i := by
  cases h with
  | unsigned hne hds =>
    obtain ⟨c, cs, rfl⟩ := List.exists_cons_of_ne_nil hne
    have hc : c ≠ '-' := Binary64.ne_of_isDigit (hds c List.mem_cons_self) rfl
    rw [integer?, dropPlus_of_forall_isDigit hds, natural?_of_forall_isDigit hne hds,
      digitsValue_eq_numeralValue]
    · rfl
    · simp [hc]
  | plus hne hds =>
    rw [integer?, dropPlus, natural?_of_forall_isDigit hne hds, digitsValue_eq_numeralValue]
    · rfl
    · simp
  | minus hne hds =>
    rw [integer?, natural?_of_forall_isDigit hne hds, digitsValue_eq_numeralValue]
    rfl

theorem isAlpha_of_isDigit {c : Char} (h : c.isDigit = true) : c.isAlpha = false := by
  simp only [Char.isDigit, Bool.and_eq_true, decide_eq_true_eq] at h
  refine Bool.eq_false_iff.2 fun halpha => ?_
  rcases (Bool.or_eq_true _ _).mp halpha with hupper | hlower
  · have hle : 'A'.val ≤ c.val := (of_decide_eq_true hupper).1
    exact absurd (UInt32.le_trans hle h.2) (by decide)
  · have hle : 'a'.val ≤ c.val := of_decide_eq_true ((Bool.and_eq_true _ _).mp hlower).1
    exact absurd (UInt32.le_trans hle h.2) (by decide)

/-- A numeral begins with no letter. -/
theorem Numeral.exists_cons {text : List Char} {i : Int} (h : Numeral text i) :
    ∃ c cs, text = c :: cs ∧ c.isAlpha = false := by
  cases h with
  | unsigned hne hds =>
    obtain ⟨c, cs, rfl⟩ := List.exists_cons_of_ne_nil hne
    exact ⟨c, cs, rfl, isAlpha_of_isDigit (hds c List.mem_cons_self)⟩
  | plus => exact ⟨_, _, rfl, rfl⟩
  | minus => exact ⟨_, _, rfl, rfl⟩

/-- A literal that begins with no letter is an integer or else a float. -/
theorem read?_of_isAlpha {c : Char} {cs : List Char} (hc : c.isAlpha = false) :
    Value.read? (c :: cs) =
      ((signed? (c :: cs)).map .int).or ((Binary64.read? (c :: cs)).map .float) := by
  have hne {d : Char} (hd : d.isAlpha = true) : c ≠ d := by
    rintro rfl
    cases hc.symm.trans hd
  have hword {d : Char} {ds : List Char} (hd : d.isAlpha = true) :
      String.ofList (c :: cs) ≠ String.ofList (d :: ds) := fun h =>
    hne hd (List.cons.inj (String.ofList_inj.1 h)).1
  have hpayload : Value.errorPayload? (c :: cs) = none := by
    refine if_neg fun h => ?_
    rw [List.take_succ_cons] at h
    exact hne (by decide) (List.cons.inj h.1).1
  simp only [Value.read?]
  rw [if_neg (hword rfl), if_neg (hword rfl), if_neg (hword rfl), hpayload]
  cases signed? (c :: cs) <;> rfl

/-- Digits without a point are read as the float that is nearest to the integer. -/
theorem readDecimal?_of_forall_isDigit (negative : Bool) {ds : List Char} (hne : ds ≠ [])
    (hds : ∀ c ∈ ds, c.isDigit = true) (hpos : numeralValue ds ≠ 0) :
    Binary64.readDecimal? negative ds = some (Binary64.nearest negative (numeralValue ds) 1) := by
  have hread := Binary64.readDecimal?_of_parts negative hds (List.forall_mem_nil _) hne
    (.inr ⟨rfl, rfl⟩) (.inl ⟨rfl, rfl⟩)
  rw [List.append_nil, List.append_nil, digitsValue_eq_numeralValue] at hread
  rw [hread, Binary64.ofDecimal, if_neg hpos, if_neg (by simp),
    if_neg (by rw [List.length_nil]; omega)]
  exact congrArg (fun n => some (Binary64.nearest negative n 1)) (Nat.mul_one _)

/-- A numeral is read as the float that is nearest to what it denotes. -/
theorem Numeral.read?_eq {text : List Char} {i : Int} (h : Numeral text i) (hi : i ≠ 0) :
    Binary64.read? text = some (Binary64.ofInt i) := by
  rw [Binary64.ofInt]
  cases h with
  | unsigned hne hds =>
    have hread := readDecimal?_of_forall_isDigit false hne hds (by omega)
    obtain ⟨c, cs, rfl⟩ := List.exists_cons_of_ne_nil hne
    rw [Binary64.read?_of_isDigit (hds c List.mem_cons_self), hread]
    rfl
  | plus hne hds =>
    have hread := readDecimal?_of_forall_isDigit false hne hds (by omega)
    obtain ⟨c, cs, rfl⟩ := List.exists_cons_of_ne_nil hne
    rw [Binary64.read?, Binary64.readUnsigned?_of_isDigit _ (hds c List.mem_cons_self), hread]
    rfl
  | minus hne hds =>
    have hread := readDecimal?_of_forall_isDigit true hne hds (by omega)
    obtain ⟨c, cs, rfl⟩ := List.exists_cons_of_ne_nil hne
    rw [Binary64.read?, Binary64.readUnsigned?_of_isDigit _ (hds c List.mem_cons_self), hread,
      decide_eq_true (by omega), Int.natAbs_neg, Int.natAbs_natCast]

/-- The reader of 64-bit integers reads the numerals in range. -/
theorem Numeral.signed?_eq {text : List Char} {i : Int} (h : Numeral text i) :
    signed? text = if InRange i then some (Int64.ofInt i) else none := by
  have hrange : (Int64.minValue.toInt ≤ i ∧ i ≤ Int64.maxValue.toInt) ↔ InRange i := by
    have hmin : Int64.minValue.toInt = -2 ^ 63 := by decide
    have hmax : Int64.maxValue.toInt = 2 ^ 63 - 1 := by decide
    rw [hmin, hmax, InRange]
    omega
  rw [signed?, h.integer?_eq]
  simp only [hrange]

theorem Numeral.readLiteral_eq {text : List Char} {i : Int} (h : Numeral text i) :
    readLiteral text =
      .ok (if InRange i then .int (Int64.ofInt i) else .float (Binary64.ofInt i)) := by
  have hsigned := h.signed?_eq
  have hread : i ≠ 0 → Binary64.read? text = some (Binary64.ofInt i) := h.read?_eq
  obtain ⟨c, cs, rfl, hc⟩ := h.exists_cons
  rw [readLiteral, read?_of_isAlpha hc, hsigned]
  by_cases hi : InRange i
  · rw [if_pos hi, if_pos hi]
    rfl
  · have hne : i ≠ 0 := by
      rintro rfl
      exact hi (by decide)
    rw [if_neg hi, if_neg hi, hread hne]
    rfl

/-- A numeral is the integer that it denotes if this has 64 bits. Otherwise it is no error, as it
    should be without a point in it, but the float that is nearest to the integer. -/
theorem readLiteral_numeral {text : List Char} {i : Int} (h : Numeral text i) :
    (readLiteral text = strictLiteral text i ↔ InRange i) ∧
      (InRange i → ∃ n : Int64, n.toInt = i ∧ readLiteral text = .ok (.int n)) ∧
      (¬ InRange i → readLiteral text = .ok (.float (Binary64.ofInt i))) := by
  rw [h.readLiteral_eq, strictLiteral]
  by_cases hi : InRange i
  · rw [if_pos hi, if_pos hi]
    exact ⟨iff_of_true rfl hi, fun _ => ⟨_, Int64.toInt_ofInt_of_le hi.1 hi.2, rfl⟩,
      fun hout => absurd hi hout⟩
  · rw [if_neg hi, if_neg hi]
    exact ⟨iff_of_false nofun hi, fun hin => absurd hin hi, fun _ => rfl⟩

/-- The numerals on both sides of the lower end of the range. -/
theorem readLiteral_numeral_lowerEnd :
    (∃ n : Int64, n.toInt = -9223372036854775808 ∧
      readLiteral "-9223372036854775808".toList = .ok (.int n)) ∧
    readLiteral "-9223372036854775809".toList =
      .ok (.float (Binary64.ofInt (-9223372036854775809))) := by
  have hlowest : Numeral "-9223372036854775808".toList (-9223372036854775808) :=
    @Numeral.minus "9223372036854775808".toList (by decide) (List.all_eq_true.1 (by decide))
  have hbelow : Numeral "-9223372036854775809".toList (-9223372036854775809) :=
    @Numeral.minus "9223372036854775809".toList (by decide) (List.all_eq_true.1 (by decide))
  exact ⟨(readLiteral_numeral hlowest).2.1 (by decide),
    (readLiteral_numeral hbelow).2.2 (by decide)⟩

/-- The numeral of `2 ^ 63` is no error, but a float. -/
theorem readLiteral_ne_strictLiteral :
    Numeral "9223372036854775808".toList (2 ^ 63) ∧
      strictLiteral "9223372036854775808".toList (2 ^ 63) =
        .error (.invalidLiteral "9223372036854775808") ∧
      readLiteral "9223372036854775808".toList = .ok (.float ⟨0x43E0000000000000⟩) ∧
      ¬ ∀ text i, Numeral text i → readLiteral text = strictLiteral text i := by
  have hnumeral : Numeral "9223372036854775808".toList (2 ^ 63) :=
    @Numeral.unsigned "9223372036854775808".toList (by decide) (List.all_eq_true.1 (by decide))
  have hstrict : strictLiteral "9223372036854775808".toList (2 ^ 63) =
      .error (.invalidLiteral "9223372036854775808") := by decide +kernel
  have hread : readLiteral "9223372036854775808".toList = .ok (.float ⟨0x43E0000000000000⟩) := by
    decide +kernel
  refine ⟨hnumeral, hstrict, hread, fun h => ?_⟩
  cases hread.symm.trans ((h _ _ hnumeral).trans hstrict)

end Assembly

end StackMachine
