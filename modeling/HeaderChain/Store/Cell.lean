import HeaderChain.Number.Double

/-! Typed values in the columns of stored rows, and how a column's preferred type converts a value
on its way in. Blobs and nulls are kept as they are everywhere.
-/

namespace HeaderChain

/-- A stored value. The bytes of a text are kept as they came, UTF-8 or not. -/
inductive Cell
  | null
  | integer (value : Int64)
  | real (value : Double)
  | text (value : Text)
  | blob (bytes : List UInt8)
  deriving DecidableEq

namespace Cell

/-- The name of a value's type. -/
def kind : Cell → String
  | .null => "Null"
  | .integer _ => "Integer"
  | .real _ => "Real"
  | .text _ => "Text"
  | .blob _ => "Blob"

/-- Whether a whole number is in the range of stored integers. -/
def isInteger (value : Int) : Bool :=
  Int64.minValue.toInt ≤ value ∧ value ≤ Int64.maxValue.toInt

/-- A double as a stored number: an integer if it is whole and of at most 63 bits. -/
def ofDouble (double : Double) : Cell :=
  match double.whole? with
  | some value => .integer (Int64.ofInt value)
  | none => .real double

/-- A numeral as a stored number: an integer if it is written as one in the range of stored
integers, or else what its double is.
-/
def ofNumeral (numeral : Numeral) : Cell :=
  if numeral.plain ∧ isInteger numeral.integer then .integer (Int64.ofInt numeral.integer)
  else ofDouble (.ofNumeral numeral)

/-- A value in a column that prefers integers: a text that is a numeral becomes a number, and a real
number becomes an integer if it is one.
-/
def toNumber : Cell → Cell
  | .real value => ofDouble value
  | .text value => (Numeral.ofText? value).elim (.text value) ofNumeral
  | cell => cell

/-- A value in a column that prefers text: a number becomes its decimal numeral. -/
def toText : Cell → Cell
  | .integer value => .text (toString value.toInt)
  | .real value => .text value.text
  | cell => cell

theorem toNumber_ofDouble (double : Double)
    : (ofDouble double).toNumber = ofDouble double := by
  cases whole : double.whole? with
  | none => simp only [ofDouble, whole, toNumber]
  | some value => simp only [ofDouble, whole, toNumber]

theorem toNumber_ofNumeral (numeral : Numeral)
    : (ofNumeral numeral).toNumber = ofNumeral numeral := by
  rw [ofNumeral]
  split
  · rfl
  · exact toNumber_ofDouble _

/-- What a column that prefers integers stores is stored as it is. -/
theorem toNumber_toNumber (cell : Cell)
    : cell.toNumber.toNumber = cell.toNumber := by
  cases cell with
  | real value => exact toNumber_ofDouble value
  | text value =>
      cases read : Numeral.ofText? value with
      | none => simp only [toNumber, read, Option.elim_none]
      | some numeral =>
          simp only [toNumber, read, Option.elim_some]
          exact toNumber_ofNumeral numeral
  | _ => rfl

/-- What a column that prefers text stores is stored as it is. -/
theorem toText_toText (cell : Cell)
    : cell.toText.toText = cell.toText := by
  cases cell <;> rfl

example : (Cell.real ⟨0x4008000000000000⟩).toNumber = .integer 3 := by
  decide

example : (Cell.real ⟨0x3fb999999999999a⟩).toText = .text "0.1" := by
  decide +kernel

end Cell

end HeaderChain
