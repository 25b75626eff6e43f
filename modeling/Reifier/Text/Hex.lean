/-!
# Hexadecimal digits

Reading and writing numbers in base 16. `value?` reads digits of either case; `fourDigits` writes
the last four digits of a number in lower case.
-/

namespace Reifier.Hex

/-- The value of a hexadecimal digit of either case. -/
def digit? (c : Char) : Option Nat :=
  let n := c.toNat
  if 0x30 ≤ n ∧ n ≤ 0x39 then some (n - 0x30)
  else if 0x41 ≤ n ∧ n ≤ 0x46 then some (n - 0x37)
  else if 0x61 ≤ n ∧ n ≤ 0x66 then some (n - 0x57)
  else none

/-- Whether a character is a hexadecimal digit. -/
def isDigit (c : Char) : Bool := (digit? c).isSome

/-- The number that digits denote after digits worth `high`, if all are hexadecimal. -/
def valueFrom? (high : Nat) : List Char → Option Nat
  | [] => some high
  | c :: cs => (digit? c).bind fun d => valueFrom? (high * 16 + d) cs

/-- The number that a run of hexadecimal digits denotes; the empty run denotes zero. -/
def value? (cs : List Char) : Option Nat := valueFrom? 0 cs

/-- The number that the first `count` characters denote, if they are all digits. -/
def leading? (count : Nat) (cs : List Char) : Option Nat :=
  if (cs.take count).length = count then value? (cs.take count) else none

/-- A number below `bound` written in at least one digit, with or without a leading `+`. -/
def bounded? (bound : Nat) (cs : List Char) : Option Nat :=
  let digits := match cs with
    | '+' :: rest => rest
    | _ => cs
  if digits.isEmpty then none
  else (value? digits).filter (· < bound)

/-- The last four hexadecimal digits of a number. -/
def fourDigits (n : Nat) : List Char :=
  [n / 4096 % 16, n / 256 % 16, n / 16 % 16, n % 16].map Nat.digitChar

end Reifier.Hex
