import Reifier.Number.Binary64
import Reifier.Text.Hex

/-!
# The value of a number literal

A literal keeps its spelling: digits with an optional fraction and exponent, or `0x` and
hexadecimal digits, either with an optional minus in front. A hexadecimal literal that does not
fit 64 bits has no value.
-/

namespace Reifier.Number

/-- The natural number that decimal digits denote. -/
def natOfDigits (cs : List Char) : Nat :=
  cs.foldl (fun n c => n * 10 + (c.toNat - '0'.toNat)) 0

/-- The exponent at the end of a decimal literal, zero when there is none. -/
def exponentOf : List Char → Int
  | e :: '-' :: cs => if e = 'e' ∨ e = 'E' then -(natOfDigits (cs.takeWhile Char.isDigit)) else 0
  | e :: '+' :: cs => if e = 'e' ∨ e = 'E' then natOfDigits (cs.takeWhile Char.isDigit) else 0
  | e :: cs => if e = 'e' ∨ e = 'E' then natOfDigits (cs.takeWhile Char.isDigit) else 0
  | [] => 0

/-- The digits between the point and the exponent of a decimal literal. -/
def fractionOf : List Char → List Char
  | '.' :: cs => cs.takeWhile Char.isDigit
  | _ => []

/-- The value of a decimal literal without its sign. -/
def decimalValue (cs : List Char) : Binary64 :=
  let whole := cs.takeWhile Char.isDigit
  let tail := cs.dropWhile Char.isDigit
  let fraction := fractionOf tail
  let exponent := exponentOf (if fraction.isEmpty then tail else tail.drop (fraction.length + 1))
  let digits := whole ++ fraction
  -- The digits are read as one whole number, and the point is moved back.
  Binary64.ofDecimal (natOfDigits digits) digits.length (exponent - fraction.length)

/-- The value of a run of hexadecimal digits. -/
def hexValue (cs : List Char) : Binary64 :=
  match Hex.bounded? (1 <<< 64) cs with
  | some n => Binary64.ofRatio n 1
  -- More than 64 bits are no number here, while decimal digits are rounded.
  | none => Binary64.nan

/-- The value of a literal without its sign. -/
def unsignedValue : List Char → Binary64
  | '0' :: 'x' :: cs => hexValue cs
  | '0' :: 'X' :: cs => hexValue cs
  | cs => decimalValue cs

/-- The value of a literal. -/
def value (spelling : String) : Binary64 :=
  match spelling.toList with
  | '-' :: cs => (unsignedValue cs).negate
  | cs => unsignedValue cs

end Reifier.Number
