import HeaderChain.Number.Scaled

/-! Doubles as decimal texts of up to fifteen significant digits. A double is moved by steps of a
hundred, ten and one places, each rounded to 64 bits, until it has eighteen or nineteen whole
digits, and the first fifteen of these count.
-/

namespace HeaderChain

/-- The digits of a decimal number from its first significant one on, and how many places of it
stand before the point: none or fewer if it is less than one.
-/
structure Decimal where
  digits : List Char
  point : Int

namespace Decimal

-----------------------------------------------------------------------------------------
-- Significant digits
-----------------------------------------------------------------------------------------

/-- Multiplies by a factor while a condition holds, and counts how often. No double needs more than
eleven steps of any size.
-/
def multiplyWhile (condition : Scaled → Bool) (factor : Scaled) (number : Scaled) : Nat × Scaled :=
  go 11 number
where
  go : Nat → Scaled → Nat × Scaled
    | 0, number => (0, number)
    | steps + 1, number =>
        if condition number then
          let (count, number) := go steps (number.mul Scaled.precision factor)
          (count + 1, number)
        else (0, number)

/-- A positive double moved to between ten to the 17th and ten to the 19th power, and the places
that were taken out of it.
-/
def moved (size : Scaled) : Scaled × Int :=
  if size.less (.ten 19) then
    let (hundreds, number) := multiplyWhile (·.less (.tenth 97)) (.ten 100) size
    let (tens, number) := multiplyWhile (·.less (.ten 7)) (.ten 10) number
    let (ones, number) := multiplyWhile (·.less (.ten 17)) (.ten 1) number
    (number, -(100 * hundreds + 10 * tens + ones : Nat))
  else
    let (hundreds, number) := multiplyWhile (¬ ·.less (.ten 119)) (.tenth 100) size
    let (tens, number) := multiplyWhile (¬ ·.less (.ten 29)) (.tenth 10) number
    let (ones, number) := multiplyWhile (¬ ·.less (.ten 19)) (.tenth 1) number
    (number, (100 * hundreds + 10 * tens + ones : Nat))

/-- Digits without the zeros at their end. -/
def trimmed (digits : List Char) : List Char :=
  (digits.reverse.dropWhile (· = '0')).reverse

/-- A double without sign as a decimal number. The sixteenth digit of its whole number decides
whether the fifteenth is rounded up.
-/
def ofSize (size : Scaled) : Decimal :=
  if size.mantissa = 0 then ⟨['0'], 1⟩
  else
    let (number, places) := moved size
    let spare := (Nat.toDigits 10 number.floor).length - 15
    let unit := Nat.pow 10 spare
    let digits := Nat.toDigits 10 ((number.floor + unit / 2) / unit)
    ⟨trimmed digits, digits.length + spare + places⟩

-----------------------------------------------------------------------------------------
-- Texts
-----------------------------------------------------------------------------------------

/-- A point with the digits after it, at least one. -/
def fraction (digits : List Char) : List Char :=
  '.' :: if digits.isEmpty then ['0'] else digits

/-- An exponent of ten with its sign and at least two digits. -/
def exponent (places : Int) : List Char :=
  let size := Nat.toDigits 10 places.natAbs
  'e' :: (if places < 0 then '-' else '+') :: (List.replicate (2 - size.length) '0' ++ size)

/-- The text of a decimal number. One whose first digit is more than fourteen places before the unit
or more than four behind it has an exponent.
-/
def render (decimal : Decimal) : List Char :=
  let places := decimal.point - 1
  if places < -4 ∨ 14 < places then
    decimal.digits.take 1 ++ fraction (decimal.digits.drop 1) ++ exponent places
  else if 0 < decimal.point then
    let whole := decimal.point.toNat
    decimal.digits.take whole ++ List.replicate (whole - decimal.digits.length) '0'
      ++ fraction (decimal.digits.drop whole)
  else '0' :: fraction (List.replicate (-decimal.point).toNat '0' ++ decimal.digits)

end Decimal

end HeaderChain
