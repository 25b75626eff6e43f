/-!
# Doubles

A double is its sign and the other 63 bits of its binary64 form, read as a number. Up to
infinity these magnitudes are ordered as the values are, and every larger one is a NaN.

`ofRatio` rounds a quotient of natural numbers to the nearest double, a tie to the even one. In
units of `2 ^ (-1074)`, the least positive double, the quotient is
`num * 2 ^ 1074 / den`. It is counted in units of `2 ^ p`, for the least `p` for which the count
has at most 53 bits; the magnitude is then `p * 2 ^ 52` plus the rounded count. This also holds
for a double below the normal ones (`p = 0` and a count below `2 ^ 52`), and for a count that
rounding lifts to `2 ^ 53`, which moves on to the next exponent by itself.
-/

namespace Reifier

/-- The sign and the other bits of a double. -/
structure Binary64 where
  negative : Bool
  magnitude : Nat
deriving DecidableEq, Inhabited

namespace Binary64

/-- The magnitude of infinity: all eleven bits of the exponent set. -/
def infinityMagnitude : Nat := 0x7FF <<< 52

/-- Infinity. -/
def infinity : Binary64 := ⟨false, infinityMagnitude⟩

/-- The number that is none. -/
def nan : Binary64 := ⟨false, 0x7FF <<< 52 + 1 <<< 51⟩

/-- Whether a double is a NaN. -/
def isNaN (x : Binary64) : Bool := infinityMagnitude < x.magnitude

/-- All 64 bits. -/
def bits (x : Binary64) : Nat := (if x.negative then 1 <<< 63 else 0) + x.magnitude

/-- The double with the other sign. -/
def negate (x : Binary64) : Binary64 := { x with negative := !x.negative }

/-- The natural number nearest to a quotient, of two equally near the even one. -/
def roundHalfEven (num den : Nat) : Nat :=
  let q := num / den
  let r := num % den
  if 2 * r < den ∨ (2 * r = den ∧ q % 2 = 0) then q else q + 1

/-- The double nearest to a quotient, of two equally near the even one; infinity beyond the
largest. -/
def ofRatio (num den : Nat) : Binary64 :=
  let scaled := num <<< 1074
  -- A count of at most 53 bits; subtraction stops at zero, below the normal doubles.
  let p := Nat.log2 (scaled / den) - 52
  ⟨false, min infinityMagnitude (p <<< 52 + roundHalfEven scaled (den <<< p))⟩

/-- The double nearest to `mantissa * 10 ^ exponent`, where the mantissa has at most `digits`
digits. Beyond the bounds asked for first the answer is infinity or zero whatever the digits
are, and no power of ten has to be written out. -/
def ofDecimal (mantissa digits : Nat) (exponent : Int) : Binary64 :=
  if mantissa = 0 then ⟨false, 0⟩
  else if 310 < exponent then infinity
  else if exponent + digits < -330 then ⟨false, 0⟩
  else ofRatio (mantissa * Nat.pow 10 exponent.toNat) (Nat.pow 10 (-exponent).toNat)

end Binary64

end Reifier
