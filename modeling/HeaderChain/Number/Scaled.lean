/-! Numbers of the form mantissa times a power of two, rounded to a number of significant bits or
to the doubles, and the bits of doubles. Every rounding goes to the nearest candidate, and of two to
the even one.
-/

namespace HeaderChain

/-- The quotient of two numbers, rounded to the nearest whole number; of two, the even one. -/
def nearest (n unit : Nat) : Nat :=
  if 2 * (n % unit) < unit ∨ (2 * (n % unit) = unit ∧ n / unit % 2 = 0) then n / unit
  else n / unit + 1

/-- The number `mantissa` times two to the power `exponent`. -/
structure Scaled where
  mantissa : Nat
  exponent : Int
  deriving DecidableEq

namespace Scaled

/-- The exponent at which the mantissa has the given number of bits. -/
def leading (number : Scaled) (precision : Nat) : Int :=
  number.exponent + (number.mantissa.log2 + 1) - precision

/-- The number with its mantissa rounded to a multiple of two to the given power. -/
def toExponent (number : Scaled) (exponent : Int) : Scaled :=
  if exponent ≤ number.exponent then
    ⟨number.mantissa <<< (number.exponent - exponent).toNat, exponent⟩
  else ⟨nearest number.mantissa (1 <<< (exponent - number.exponent).toNat), exponent⟩

/-- The number rounded to a number of significant bits. -/
def round (precision : Nat) (number : Scaled) : Scaled :=
  number.toExponent (number.leading precision)

/-- The reciprocal of a whole number, rounded to a number of significant bits. -/
def reciprocal (precision n : Nat) : Scaled :=
  let shift := precision + n.log2
  ⟨nearest (1 <<< shift) n, -shift⟩

/-- The product, rounded to a number of significant bits. -/
def mul (precision : Nat) (left right : Scaled) : Scaled :=
  round precision ⟨left.mantissa * right.mantissa, left.exponent + right.exponent⟩

/-- Whether the left number is less than the right one. -/
def less (left right : Scaled) : Bool :=
  if left.exponent ≤ right.exponent then
    left.mantissa < right.mantissa <<< (right.exponent - left.exponent).toNat
  else left.mantissa <<< (left.exponent - right.exponent).toNat < right.mantissa

/-- The greatest whole number that is not above the number. -/
def floor (number : Scaled) : Nat :=
  if 0 ≤ number.exponent then number.mantissa <<< number.exponent.toNat
  else number.mantissa >>> (-number.exponent).toNat

/-- The whole number that the number is, if it is one. -/
def whole? (number : Scaled) : Option Nat :=
  if Scaled.less ⟨number.floor, 0⟩ number then none else some number.floor

-----------------------------------------------------------------------------------------
-- Powers of ten
-----------------------------------------------------------------------------------------

/-- The significant bits that powers of ten and products with them are rounded to. -/
def precision : Nat := 64

/-- Ten to a power. -/
def ten (places : Nat) : Scaled :=
  round precision ⟨Nat.pow 10 places, 0⟩

/-- A tenth to a power. -/
def tenth (places : Nat) : Scaled :=
  reciprocal precision (Nat.pow 10 places)

-----------------------------------------------------------------------------------------
-- Doubles
-----------------------------------------------------------------------------------------

/-- The greatest double: its 53 bits are all set and its exponent is the greatest one. -/
def greatestDouble : Scaled :=
  ⟨1 <<< 53 - 1, 971⟩

/-- The double next to a number: 53 significant bits, fewer where the exponent would pass below the
least one. There is none next to a number past the greatest double.
-/
def double? (number : Scaled) : Option Scaled :=
  if greatestDouble.less number then none
  else some (number.toExponent (max (number.leading 53) (-1074)))

/-- The bits of a double without sign: the exponent above the mantissa, where the first bit of a
full mantissa counts into the exponent.
-/
def bits (double : Scaled) : Nat :=
  if double.mantissa = 0 then 0 else (double.exponent + 1074).toNat <<< 52 + double.mantissa

/-- The bits of positive infinity. -/
def infinityBits : Nat :=
  0x7ff <<< 52

/-- The double with the given bits without sign, unless it is infinite. -/
def ofBits? (bits : Nat) : Option Scaled :=
  let exponent := bits / 1 <<< 52
  let fraction := bits % 1 <<< 52
  if infinityBits ≤ bits then none
  else if exponent = 0 then some ⟨fraction, -1074⟩
  else some ⟨1 <<< 52 + fraction, exponent - 1075⟩

end Scaled

end HeaderChain
