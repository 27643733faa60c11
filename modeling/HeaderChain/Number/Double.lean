import HeaderChain.Number.Decimal
import HeaderChain.Number.Numeral

/-! Floating-point numbers of 64 bits: which one a numeral is read as, which are whole, and their
decimal texts.
-/

namespace HeaderChain

/-- A floating-point number, given by its bits: the sign first, then those of its size. What is not
a number is never stored as one.
-/
structure Double where
  bits : UInt64
  deriving DecidableEq

namespace Double

/-- The bit of the sign. -/
def signBit : UInt64 :=
  0x8000000000000000

/-- Whether the sign is set. -/
def negative (double : Double) : Bool :=
  signBit ≤ double.bits

/-- The size, unless it is infinite. -/
def size? (double : Double) : Option Scaled :=
  Scaled.ofBits? (double.bits % signBit).toNat

/-- The double that a numeral is read as. -/
def ofNumeral (numeral : Numeral) : Double :=
  let size := UInt64.ofNat (numeral.double?.elim Scaled.infinityBits Scaled.bits)
  ⟨if numeral.negative then signBit + size else size⟩

/-- The whole number that a double is, if it is one of at most 63 bits. -/
def whole? (double : Double) : Option Int := do
  let size ← (← double.size?).whole?
  guard (size < 1 <<< 63)
  return if double.negative then -size else size

/-- The decimal text of a double. Zero has no sign. -/
def text (double : Double) : String :=
  let size := double.size?.elim ['I', 'n', 'f'] fun size => (Decimal.ofSize size).render
  String.ofList (if signBit < double.bits then '-' :: size else size)

end Double

end HeaderChain
