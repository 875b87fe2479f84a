import StackMachine.Number.Layout
import StackMachine.Number.Reader
import StackMachine.Text.Blank
import StackMachine.Value

/-!
# Values as text

* `Value.display`: the text of a value in listings, traces and results;
* `Value.read?`: the reader of literals. It reads back what `display` writes, a NaN as some
  NaN;
* `Value.json`: the text of a value in JSON.
-/

namespace StackMachine

namespace Value

/-- Floats are written positionally from `0.0001` to below `10 ^ 16`, always with a point;
    a half goes up. -/
def displayFormat : FloatFormat where
  minPositional := -4
  maxPositional := 15
  positiveExponent := []
  tie := .up
  nan := ['N', 'a', 'N']
  infinity := ['i', 'n', 'f']
  negativeInfinity := ['-', 'i', 'n', 'f']

/-- In JSON floats are written positionally from `0.00001` to below `10 ^ 16`, an exponent has
    always a sign, and a half goes to the even neighbour; JSON has no infinities and NaNs. -/
def jsonFormat : FloatFormat where
  minPositional := -5
  maxPositional := 15
  positiveExponent := ['+']
  tie := .even
  nan := ['n', 'u', 'l', 'l']
  infinity := ['n', 'u', 'l', 'l']
  negativeInfinity := ['n', 'u', 'l', 'l']

/-- The text of a float. -/
def displayFloat (x : Binary64) : String :=
  String.ofList (displayFormat.write x)

/-- The text of a truth value. -/
def displayBool (b : Bool) : String :=
  if b then "true" else "false"

/-- The text of a value. -/
def display : Value → String
  | none => "none"
  | int n => Text.decimalInt n.toInt
  | float x => displayFloat x
  | bool b => displayBool b
  | error code => "error(" ++ Text.decimalInt code.toInt ++ ")"

/-- The text of a value in JSON. -/
def json : Value → String
  | none => "null"
  | int n => Text.decimalInt n.toInt
  | float x => String.ofList (jsonFormat.write x)
  | bool b => displayBool b
  | error code => "\x7b\"error\":" ++ Text.decimalInt code.toInt ++ "\x7d"

/-- The text between the brackets of `error(…)`. -/
def errorPayload? (cs : List Char) : Option (List Char) :=
  if cs.take 6 = ['e', 'r', 'r', 'o', 'r', '('] ∧ (cs.drop 6).getLast? = some ')' then
    some (cs.drop 6).dropLast
  else Option.none

/-- The value that a literal denotes: `none`, `true`, `false`, an error with its code in
    brackets, an integer, or otherwise a float. An integer numeral out of the range of
    64 bits is a float. -/
def read? (cs : List Char) : Option Value :=
  let word := String.ofList cs
  if word = "none" then some none
  else if word = "true" then some (bool true)
  else if word = "false" then some (bool false)
  else
    match errorPayload? cs with
    | some payload => (Text.signed? (Text.trim payload)).map error
    | Option.none =>
      match Text.signed? cs with
      | some n => some (int n)
      | Option.none => (Binary64.read? cs).map float

end Value

end StackMachine
