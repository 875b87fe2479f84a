import Mathlib.Tactic.Ring
import StackMachine.Proofs.Text.Blank

/-!
# Numerals read back

* `digitsValue_append`: the value of digits put together;
* `unsigned?_digits`, `signed?_integerDigits`: numbers in range are read back from their numerals;
* `signed?_eq_none`: there are only digits and a sign in a numeral.
-/

namespace StackMachine.Text

variable {c : Char} {cs ds : List Char}

theorem digitsValue_append (cs ds : List Char) :
    digitsValue (cs ++ ds) = digitsValue cs * 10 ^ ds.length + digitsValue ds := by
  induction ds using List.reverseRecOn with
  | nil => simp [digitsValue]
  | append_singleton ds d ih =>
    have hsnoc (cs : List Char) : digitsValue (cs ++ [d]) = 10 * digitsValue cs + digitValue d := by
      rw [digitsValue, List.foldl_append, digitsValue]
      rfl
    rw [← List.append_assoc, hsnoc, ih, hsnoc, List.length_append, List.length_singleton]
    ring

/-- Zeros in front do not count. -/
theorem digitsValue_replicate_append (k : Nat) (ds : List Char) :
    digitsValue (List.replicate k '0' ++ ds) = digitsValue ds := by
  have hzero : digitsValue (List.replicate k '0') = 0 := by
    induction k with
    | zero => rfl
    | succ k ih => rw [List.replicate_succ', digitsValue_append, ih]; rfl
  rw [digitsValue_append, hzero, Nat.zero_mul, Nat.zero_add]

/-- Each zero at the end is a factor of ten. -/
theorem digitsValue_append_replicate (ds : List Char) (k : Nat) :
    digitsValue (ds ++ List.replicate k '0') = digitsValue ds * 10 ^ k := by
  have hzero := digitsValue_replicate_append k []
  rw [List.append_nil] at hzero
  rw [digitsValue_append, hzero, List.length_replicate]
  rfl

theorem natural?_of_forall_isDigit (hne : cs ≠ []) (h : ∀ c ∈ cs, c.isDigit = true) :
    natural? cs = some (digitsValue cs) := by
  simp [natural?, hne, List.all_eq_true.2 h]

theorem forall_isDigit_digits (n : Nat) : ∀ c ∈ digits n, c.isDigit = true :=
  List.all_eq_true.1 (all_isDigit_digits n)

/-- A numeral of digits has no sign. -/
theorem dropPlus_of_forall_isDigit (h : ∀ c ∈ cs, c.isDigit = true) : dropPlus cs = cs := by
  cases cs with
  | nil => rfl
  | cons c cs =>
    have hc : c ≠ '+' := by
      rintro rfl
      exact absurd (h _ List.mem_cons_self) (by decide)
    simp [dropPlus, hc]

theorem unsigned?_digits {bound n : Nat} (h : n < bound) : unsigned? bound (digits n) = some n := by
  simp only [unsigned?, dropPlus_of_forall_isDigit (forall_isDigit_digits n), natural?_digits, h,
    if_true]

theorem signed?_integerDigits (n : Int64) : signed? (integerDigits n.toInt) = some n := by
  simp only [signed?, integer?_integerDigits]
  rw [if_pos ⟨n.minValue_le_toInt, n.toInt_le⟩, Int64.ofInt_toInt]

theorem natural?_eq_none (hc : c ∈ cs) (hdigit : c.isDigit = false) : natural? cs = none := by
  refine if_neg fun h => ?_
  rw [Bool.and_eq_true, List.all_eq_true] at h
  cases hdigit.symm.trans (h.2 c hc)

/-- A text that holds anything but digits and signs is no numeral. -/
theorem signed?_eq_none (hc : c ∈ cs) (hdigit : c.isDigit = false) (hplus : c ≠ '+')
    (hminus : c ≠ '-') : signed? cs = none := by
  have hrest {d : Char} {ds : List Char} (h : c ∈ d :: ds) (hd : c ≠ d) : natural? ds = none :=
    natural?_eq_none ((List.mem_cons.1 h).resolve_left hd) hdigit
  have hinteger : integer? cs = none := by
    unfold integer?
    split
    · rw [hrest hc hminus, Option.map_none]
    · unfold dropPlus
      split
      · rw [hrest hc hplus, Option.map_none]
      · rw [natural?_eq_none hc hdigit, Option.map_none]
  rw [signed?, hinteger]

end StackMachine.Text
