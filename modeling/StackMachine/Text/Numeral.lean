/-!
# Numerals

Whole numbers as text, written and read.

* `digits` / `digitsValue`: the decimal digits of a number and back
  (`digitsValue_digits`);
* `natural?`, `unsigned?`, `signed?`: the readers. A numeral is a sign, where one
  is allowed, and at least one digit from `0` to `9`; it may have leading zeros,
  and its value must lie in the given range;
* `hexByte`: a byte as two hexadecimal digits.
-/

namespace StackMachine.Text

/-- The character of a digit below sixteen. -/
def digitChar (d : Nat) : Char :=
  if d < 10 then Char.ofNat (48 + d) else Char.ofNat (87 + d)

/-- The value of a decimal digit. -/
def digitValue (c : Char) : Nat :=
  c.toNat - 48

/-- The decimal digits of `n`, without leading zeros. -/
def digits (n : Nat) : List Char :=
  if n < 10 then [digitChar n] else digits (n / 10) ++ [digitChar (n % 10)]

/-- The number with the given decimal digits. -/
def digitsValue (cs : List Char) : Nat :=
  cs.foldl (fun n c => 10 * n + digitValue c) 0

theorem digitValue_digitChar {d : Nat} (h : d < 10) : digitValue (digitChar d) = d := by
  have : ∀ d : Fin 10, digitValue (digitChar d) = d := by decide
  exact this ⟨d, h⟩

theorem isDigit_digitChar {d : Nat} (h : d < 10) : (digitChar d).isDigit = true := by
  have : ∀ d : Fin 10, (digitChar d).isDigit = true := by decide
  exact this ⟨d, h⟩

/-- Reading the digits of a number gives the number. -/
theorem digitsValue_digits (n : Nat) : digitsValue (digits n) = n := by
  induction n using Nat.strongRecOn with
  | ind n ih =>
    rw [digits]
    split
    · next h => simp [digitsValue, digitValue_digitChar h]
    · next h =>
      have ih := ih (n / 10) (by omega)
      simp only [digitsValue] at ih
      simp only [digitsValue, List.foldl_append, ih, List.foldl_cons, List.foldl_nil,
        digitValue_digitChar (Nat.mod_lt n (by decide : 0 < 10))]
      omega

/-- Only digits are written. -/
theorem all_isDigit_digits (n : Nat) : (digits n).all Char.isDigit = true := by
  induction n using Nat.strongRecOn with
  | ind n ih =>
    rw [digits]
    split
    · next h => simp [isDigit_digitChar h]
    · next h =>
      simp [ih (n / 10) (by omega), isDigit_digitChar (Nat.mod_lt n (by decide : 0 < 10))]

theorem digits_ne_nil (n : Nat) : digits n ≠ [] := by
  rw [digits]
  split <;> simp

/-- A numeral without a sign. -/
def natural? (cs : List Char) : Option Nat :=
  if !cs.isEmpty && cs.all Char.isDigit then some (digitsValue cs) else none

/-- A numeral is read back. -/
theorem natural?_digits (n : Nat) : natural? (digits n) = some n := by
  simp [natural?, digits_ne_nil, all_isDigit_digits, digitsValue_digits]

/-- `cs` without the `+` that it may start with. -/
def dropPlus : List Char → List Char
  | '+' :: cs => cs
  | cs => cs

/-- A numeral with an optional `+`, whose value is below `bound`. -/
def unsigned? (bound : Nat) (cs : List Char) : Option Nat :=
  match natural? (dropPlus cs) with
  | some n => if n < bound then some n else none
  | none => none

/-- A numeral with an optional `+` or `-`, of any value. -/
def integer? : List Char → Option Int
  | '-' :: cs => (natural? cs).map fun n : Nat => -(n : Int)
  | cs => (natural? (dropPlus cs)).map fun n : Nat => (n : Int)

/-- A numeral with an optional sign, whose value is a 64-bit integer. -/
def signed? (cs : List Char) : Option Int64 :=
  match integer? cs with
  | some i =>
    if Int64.minValue.toInt ≤ i ∧ i ≤ Int64.maxValue.toInt then some (Int64.ofInt i) else none
  | none => none

/-- The decimal numeral of a natural number. -/
def decimal (n : Nat) : String :=
  String.ofList (digits n)

/-- The decimal numeral of an integer: a `-` only in front of a negative one. -/
def integerDigits (i : Int) : List Char :=
  if i < 0 then '-' :: digits i.natAbs else digits i.natAbs

/-- The decimal numeral of an integer. -/
def decimalInt (i : Int) : String :=
  String.ofList (integerDigits i)

/-- An integer is read back. -/
theorem integer?_integerDigits (i : Int) : integer? (integerDigits i) = some i := by
  unfold integerDigits
  split
  · next h =>
    have : -(i.natAbs : Int) = i := by omega
    simp only [integer?, natural?_digits, Option.map_some, this]
  · next h =>
    have hi : (i.natAbs : Int) = i := by omega
    have hd := all_isDigit_digits i.natAbs
    have hn := natural?_digits i.natAbs
    rcases hc : digits i.natAbs with _ | ⟨c, cs⟩
    · exact absurd hc (digits_ne_nil _)
    · rw [hc, List.all_cons, Bool.and_eq_true] at hd
      rw [hc] at hn
      have h₁ : c ≠ '-' := fun e => by simp [e] at hd
      have h₂ : c ≠ '+' := fun e => by simp [e] at hd
      simp [integer?, dropPlus, h₁, h₂, hn, hi]

/-- A byte as two hexadecimal digits. -/
def hexByte (b : UInt8) : String :=
  String.ofList [digitChar (b.toNat / 16), digitChar (b.toNat % 16)]

end StackMachine.Text
