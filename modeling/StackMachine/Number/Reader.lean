import StackMachine.Text.Numeral
import StackMachine.Number.Binary64

/-!
# Reading floating-point numbers

The text of a floating-point number is an optional sign and then either one of
the words `inf`, `infinity`, `nan`, in any case, or decimal digits with an
optional point among, before or after them and an optional exponent (`e` or `E`
and an integer). There is at least one digit before the exponent.

* `Binary64.ofDecimal`: the number nearest to a decimal;
* `Binary64.read?`: the reader.
-/

namespace StackMachine

namespace Binary64

/-- The number nearest to `n * 10 ^ e`. Beyond either end of the range the power is not
    computed: `10 ^ 400` is above every finite number, and `n * 10 ^ e` is less
    than `2 ^ (log2 n + 1 + 3 * e)`, for `e < 0`. -/
def ofDecimal (negative : Bool) (n : Nat) (e : Int) : Binary64 :=
  if n = 0 then zero negative
  else if 400 < e then infinity negative
  else if 3 * e + n.log2 < -1080 then zero negative
  else nearest negative (n * Nat.pow 10 e.toNat) (Nat.pow 10 (-e).toNat)

/-- The number with the given decimal digits, point and exponent. -/
def readDecimal? (negative : Bool) (cs : List Char) : Option Binary64 :=
  let isMark (c : Char) : Bool := c == 'e' || c == 'E'
  let significand := cs.takeWhile fun c => !isMark c
  let whole := significand.takeWhile (· != '.')
  let fraction := (significand.dropWhile (· != '.')).drop 1
  let exponent? :=
    match cs.dropWhile fun c => !isMark c with
    | [] => some 0
    | _ :: text => Text.integer? text
  match Text.natural? (whole ++ fraction), exponent? with
  | some n, some e => some (ofDecimal negative n (e - fraction.length))
  | _, _ => none

/-- The number that a text without sign denotes. -/
def readUnsigned? (negative : Bool) (cs : List Char) : Option Binary64 :=
  let word := String.ofList (cs.map Char.toLower)
  if word = "inf" ∨ word = "infinity" then some (infinity negative)
  else if word = "nan" then some (nan negative)
  else readDecimal? negative cs

/-- The number that a text denotes, rounded to nearest. -/
def read? : List Char → Option Binary64
  | '-' :: cs => readUnsigned? true cs
  | '+' :: cs => readUnsigned? false cs
  | cs => readUnsigned? false cs

end Binary64

end StackMachine
