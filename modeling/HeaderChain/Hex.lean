/-! Byte strings as hexadecimal text. Writing uses lower-case digits; reading takes either case and
names the first thing that is wrong. What was written is read back, so different byte strings have
different texts.
-/

namespace HeaderChain.Hex

/-- The first reason why a text is not a row of hexadecimal byte pairs. -/
inductive Flaw
  | oddLength
  | invalidDigit (byte : UInt8) (position : Nat)
  deriving DecidableEq, Repr

/-- The lower-case digit of a number below sixteen. -/
def digit (value : Nat) : Char :=
  Char.ofNat (if value < 10 then 48 + value else 87 + value)

/-- Two digits, the high half first. -/
def encodeByte (byte : UInt8) : List Char :=
  [digit (byte.toNat / 16), digit (byte.toNat % 16)]

/-- A byte string as lower-case text, two digits a byte. -/
def encode (bytes : List UInt8) : String :=
  String.ofList (bytes.flatMap encodeByte)

/-- The value of a digit of either case, given as its ASCII code. -/
def digitValue? (byte : UInt8) : Option Nat :=
  if 48 ≤ byte ∧ byte ≤ 57 then some (byte.toNat - 48)
  else if 97 ≤ byte ∧ byte ≤ 102 then some (byte.toNat - 87)
  else if 65 ≤ byte ∧ byte ≤ 70 then some (byte.toNat - 55)
  else none

/-- The value of the digit at a position of the text, or that position as the flaw. -/
def digitAt (position : Nat) (byte : UInt8) : Except Flaw Nat :=
  match digitValue? byte with
  | some value => .ok value
  | none => .error (.invalidDigit byte position)

/-- Reads digit pairs from left to right; a single digit at the end is left unread. -/
def decodePairs (position : Nat) : List UInt8 → Except Flaw (List UInt8)
  | high :: low :: rest => do
      let upper ← digitAt position high
      let lower ← digitAt (position + 1) low
      let bytes ← decodePairs (position + 2) rest
      return UInt8.ofNat (16 * upper + lower) :: bytes
  | _ => .ok []

/-- Reads the bytes of a text. An odd number of them is reported before any invalid digit. -/
def decodeBytes (text : List UInt8) : Except Flaw (List UInt8) :=
  if text.length % 2 = 1 then .error .oddLength else decodePairs 0 text

/-- Reads a text through its UTF-8 bytes, so that positions count bytes. -/
def decode (text : String) : Except Flaw (List UInt8) :=
  decodeBytes text.toByteArray.data.toList

/-- The code point of a byte in the escape form of control characters. -/
def escapedCode (byte : UInt8) : String :=
  "\\u\x7b" ++ String.ofList (Nat.toDigits 16 byte.toNat) ++ "\x7d"

/-- A byte read as a Latin-1 character between single quotes. Quote, backslash and the control
characters are escaped.
-/
def quoted (byte : UInt8) : String :=
  let body :=
    if byte = 0 then "\\0"
    else if byte = 9 then "\\t"
    else if byte = 10 then "\\n"
    else if byte = 13 then "\\r"
    else if byte = 39 then "\\'"
    else if byte = 92 then "\\\\"
    else if byte < 32 ∨ byte = 127 then escapedCode byte
    else String.singleton (Char.ofNat byte.toNat)
  "'" ++ body ++ "'"

/-- The text of a flaw. -/
def Flaw.message : Flaw → String
  | .oddLength => "Odd number of digits"
  | .invalidDigit byte position =>
      "Invalid character " ++ quoted byte ++ " at position " ++ toString position

/-- The ASCII code of the lower-case digit of a number below sixteen. -/
def digitCode (value : Nat) : UInt8 :=
  UInt8.ofNat (if value < 10 then 48 + value else 87 + value)

/-- The codes of the digits of a byte string, two a byte. -/
def codes (bytes : List UInt8) : List UInt8 :=
  bytes.flatMap fun byte => [digitCode (byte.toNat / 16), digitCode (byte.toNat % 16)]

/-- A digit takes one byte of text. -/
theorem utf8EncodeChar_digit
    : ∀ value < 16, String.utf8EncodeChar (digit value) = [digitCode value] := by
  decide

/-- A digit is read back. -/
theorem digitValue?_digitCode : ∀ value < 16, digitValue? (digitCode value) = some value := by
  decide

/-- There are two codes a byte. -/
theorem length_codes (bytes : List UInt8) : (codes bytes).length = 2 * bytes.length := by
  induction bytes with
  | nil => rfl
  | cons byte rest ih =>
      change (codes rest).length + 1 + 1 = 2 * (rest.length + 1)
      omega

/-- The bytes of a text are the codes of its digits. -/
theorem toByteArray_encode (bytes : List UInt8)
    : (encode bytes).toByteArray.data.toList = codes bytes := by
  rw [encode, String.toByteArray_ofList, List.utf8Encode, List.data_toByteArray]
  induction bytes with
  | nil => rfl
  | cons byte rest ih =>
      have bound := byte.toNat_lt
      have high := utf8EncodeChar_digit (byte.toNat / 16) (by omega)
      have low := utf8EncodeChar_digit (byte.toNat % 16) (by omega)
      simp only [codes] at ih
      simp only [codes, List.flatMap_cons, encodeByte, high, low, List.cons_append,
        List.nil_append, ih]

/-- The codes of digit pairs are read back, wherever they stand in the text. -/
theorem decodePairs_codes (position : Nat) (bytes : List UInt8)
    : decodePairs position (codes bytes) = .ok bytes := by
  induction bytes generalizing position with
  | nil => rfl
  | cons byte rest ih =>
      have bound := byte.toNat_lt
      have high := digitValue?_digitCode (byte.toNat / 16) (by omega)
      have low := digitValue?_digitCode (byte.toNat % 16) (by omega)
      have whole : 16 * (byte.toNat / 16) + byte.toNat % 16 = byte.toNat := Nat.div_add_mod _ 16
      change decodePairs position (digitCode _ :: digitCode _ :: codes rest) = _
      simp only [decodePairs, digitAt, high, low, ih, bind, Except.bind, whole, UInt8.ofNat_toNat]
      rfl

/-- Every byte string is read back from its text. -/
theorem decode_encode (bytes : List UInt8)
    : decode (encode bytes) = .ok bytes := by
  have even : ¬ (codes bytes).length % 2 = 1 := by
    rw [length_codes]
    omega
  rw [decode, toByteArray_encode, decodeBytes, if_neg even, decodePairs_codes]

end HeaderChain.Hex
