import HeaderChain.Number.Scaled
import HeaderChain.Text

/-! Decimal numerals and the doubles they are read as. Digits count while 64 bits can hold them; the
power of ten is multiplied in by steps of a hundred, ten and one, each rounded to 64 bits, and the
outcome is rounded to a double.
-/

namespace HeaderChain

/-- A decimal numeral, as written. -/
structure Numeral where
  negative : Bool
  whole : List Char
  fraction : List Char
  exponent : Int
  plain : Bool

namespace Numeral

-----------------------------------------------------------------------------------------
-- Reading
-----------------------------------------------------------------------------------------

/-- Blank characters around a numeral. -/
def isBlank (c : Char) : Bool :=
  c = ' ' ∨ (9 ≤ c.toNat ∧ c.toNat ≤ 13)

/-- The value of a digit. -/
def digitValue (c : Char) : Nat :=
  c.toNat - 48

/-- Splits a leading sign off; without one the numeral is positive. -/
def readSign : List Char → Bool × List Char
  | '-' :: rest => (true, rest)
  | '+' :: rest => (false, rest)
  | chars => (false, chars)

/-- Reads the digits after a point, if there is a point. -/
def readFraction : List Char → List Char × List Char × Bool
  | '.' :: rest => (rest.takeWhile Char.isDigit, rest.dropWhile Char.isDigit, true)
  | chars => ([], chars, false)

/-- The size of an exponent. One that has reached 10000 becomes 10000 at its next digit. -/
def exponentSize (digits : List Char) : Nat :=
  digits.foldl (fun size c => if size < 10000 then 10 * size + digitValue c else 10000) 0

/-- Reads an exponent, if there is one; its letter must be followed by digits. -/
def readExponent? : List Char → Option (Int × List Char × Bool)
  | 'e' :: rest | 'E' :: rest =>
      let (negative, rest) := readSign rest
      let digits := rest.takeWhile Char.isDigit
      let size : Int := exponentSize digits
      if digits.isEmpty then none
      else some (if negative then -size else size, rest.dropWhile Char.isDigit, true)
  | chars => some (0, chars, false)

/-- Reads a text that is a numeral with nothing but blanks around it. A numeral is `plain` if it has
neither point nor exponent.
-/
def ofText? (text : Text) : Option Numeral := do
  let (negative, chars) := readSign (text.codes.dropWhile isBlank)
  let whole := chars.takeWhile Char.isDigit
  let (fraction, chars, pointed) := readFraction (chars.dropWhile Char.isDigit)
  let (exponent, chars, scaled) ← readExponent? chars
  guard (¬ (whole.isEmpty ∧ fraction.isEmpty) ∧ chars.all isBlank)
  return { negative, whole, fraction, exponent, plain := ¬ pointed ∧ ¬ scaled }

/-- The whole number before the point. -/
def integer (numeral : Numeral) : Int :=
  let size : Int := numeral.whole.foldl (fun n c => 10 * n + digitValue c) 0
  if numeral.negative then -size else size

-----------------------------------------------------------------------------------------
-- Significant digits
-----------------------------------------------------------------------------------------

/-- A whole number and the power of ten that it is scaled by. -/
structure Significand where
  digits : Nat
  scale : Int

namespace Significand

/-- From this number on another digit might not fit 64 bits. -/
def full : Nat := 1844674407370955160

/-- Takes in a digit before the point. One that has no room only counts as a place. -/
def pushWhole (significand : Significand) (c : Char) : Significand :=
  if significand.digits < full then
    { significand with digits := 10 * significand.digits + digitValue c }
  else { significand with scale := significand.scale + 1 }

/-- Takes in a digit after the point. One that has no room is dropped. -/
def pushFraction (significand : Significand) (c : Char) : Significand :=
  if significand.digits < full then
    ⟨10 * significand.digits + digitValue c, significand.scale - 1⟩
  else significand

/-- Moves powers of ten into the digits while 64 bits can hold them; the rest remains. -/
def absorb : Nat → Nat → Nat × Nat
  | 0, digits => (digits, 0)
  | scale + 1, digits =>
      if digits ≤ full then absorb scale (10 * digits) else (digits, scale + 1)

/-- Takes powers of ten out of the digits while they end in zero; the rest remains. -/
def release : Nat → Nat → Nat × Nat
  | 0, digits => (digits, 0)
  | scale + 1, digits =>
      if digits % 10 = 0 then release scale (digits / 10) else (digits, scale + 1)

/-- Multiplies by a power of ten, a hundred places, ten places and one place at a time. -/
def scaleUp (places : Nat) (number : Scaled) : Scaled :=
  let step (size : Nat) (number : Scaled) : Scaled :=
    number.mul Scaled.precision (.ten size)
  Nat.repeat (step 1) (places % 10)
    (Nat.repeat (step 10) (places / 10 % 10) (Nat.repeat (step 100) (places / 100) number))

/-- Divides by a power of ten through rounded reciprocals, in the same steps. -/
def scaleDown (places : Nat) (number : Scaled) : Scaled :=
  let step (size : Nat) (number : Scaled) : Scaled :=
    number.mul Scaled.precision (.tenth size)
  Nat.repeat (step 1) (places % 10)
    (Nat.repeat (step 10) (places / 10 % 10) (Nat.repeat (step 100) (places / 100) number))

/-- The number that the significand stands for, as the rounded steps give it. -/
def value (significand : Significand) : Scaled :=
  if 0 ≤ significand.scale then
    let (digits, places) := absorb significand.scale.toNat significand.digits
    scaleUp places ⟨digits, 0⟩
  else
    let (digits, places) := release (-significand.scale).toNat significand.digits
    scaleDown places ⟨digits, 0⟩

end Significand

/-- The digits of a numeral that count, with its exponent. -/
def significand (numeral : Numeral) : Significand :=
  let whole := numeral.whole.foldl Significand.pushWhole ⟨0, 0⟩
  let both := numeral.fraction.foldl Significand.pushFraction whole
  { both with scale := both.scale + numeral.exponent }

/-- The size of the double that a numeral is read as; none for one that is infinite. -/
def double? (numeral : Numeral) : Option Scaled :=
  numeral.significand.value.double?

end Numeral

end HeaderChain
