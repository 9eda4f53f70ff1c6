/-
Rounding and decimal text with a fixed number of places.

A 64-bit float is a fraction whose denominator is a power of two, so its text can be
found in exact arithmetic.  A value half way between two texts takes the even one.
-/

namespace PointerKinds

/-- The nearest whole number to a fraction; of two, the even one. -/
def roundHalfEven (num den : Nat) : Nat :=
  let q := num / den
  let r := num % den
  if 2 * r < den then q
  else if den < 2 * r then q + 1
  else if q % 2 = 0 then q
  else q + 1

/-- A number of tenths, with a point before the last digit. -/
def tenthsText (n : Nat) : String := toString (n / 10) ++ "." ++ toString (n % 10)

/-- The fraction that a float without sign stands for.  An exponent field of zero marks the
numbers without a leading one. -/
def floatFraction (bits : UInt64) : Nat × Nat :=
  let exponent := (bits.toNat >>> 52) % 2048
  let mantissa := bits.toNat % (1 <<< 52)
  let significand := if exponent = 0 then mantissa else mantissa + (1 <<< 52)
  let shift := max exponent 1
  if 1075 ≤ shift then (significand <<< (shift - 1075), 1) else (significand, 1 <<< (1075 - shift))

/-- A float without sign to one place. -/
def floatText (x : Float) : String :=
  let (num, den) := floatFraction x.toBits
  tenthsText (roundHalfEven (num * 10) den)

end PointerKinds
