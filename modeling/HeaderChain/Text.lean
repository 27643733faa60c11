/-! Texts as their bytes. A stored text need not be UTF-8: a check goes through its bytes character
by character and tells the first place where they are those of no character.
-/

namespace HeaderChain

-----------------------------------------------------------------------------------------
-- Bytes of characters
-----------------------------------------------------------------------------------------

namespace Utf8

/-- Why bytes are not UTF-8. From the index on, so many of them begin no character, or one that the
byte after them does not continue; or they begin a character that is incomplete when the bytes end.
-/
inductive Flaw
  | invalid (length index : Nat)
  | incomplete (index : Nat)
  deriving DecidableEq, Repr

namespace Flaw

/-- The place from which on the bytes are not UTF-8. -/
def index : Flaw → Nat
  | .invalid _ index => index
  | .incomplete index => index

/-- The text of a flaw. -/
def message : Flaw → String
  | .invalid length index =>
      "invalid utf-8 sequence of " ++ toString length ++ " bytes from index " ++ toString index
  | .incomplete index => "incomplete utf-8 byte sequence from index " ++ toString index

end Flaw

/-- The bytes from a least to a greatest one. -/
structure Span where
  low : UInt8
  high : UInt8
  deriving DecidableEq

/-- Whether a byte is in a span. -/
def Span.has (span : Span) (byte : UInt8) : Bool :=
  span.low ≤ byte ∧ byte ≤ span.high

/-- The bytes that continue a character. -/
def tail : Span := ⟨0x80, 0xbf⟩

/-- What may follow the first byte of a character, byte by byte; no character begins with any other
byte. Spans narrower than the tail leave out codes with shorter forms, surrogates and codes past the
greatest character.
-/
def following? (first : UInt8) : Option (List Span) :=
  if first ≤ 0x7f then some []
  else if first < 0xc2 then none
  else if first ≤ 0xdf then some [tail]
  else if first = 0xe0 then some [⟨0xa0, 0xbf⟩, tail]
  else if first = 0xed then some [⟨0x80, 0x9f⟩, tail]
  else if first ≤ 0xef then some [tail, tail]
  else if first = 0xf0 then some [⟨0x90, 0xbf⟩, tail, tail]
  else if first ≤ 0xf3 then some [tail, tail, tail]
  else if first = 0xf4 then some [⟨0x80, 0x8f⟩, tail, tail]
  else none

/-- Goes on within a character that began at `start`: `length` of its bytes were read, and the ones
still due are in the given spans. When none is due, the next character begins.
-/
def scan (start length : Nat) : List Span → List UInt8 → Option Flaw
  | [], [] => none
  | [], first :: rest =>
      match following? first with
      | some due => scan (start + length) 1 due rest
      | none => some (.invalid 1 (start + length))
  | _ :: _, [] => some (.incomplete start)
  | span :: due, byte :: rest =>
      if span.has byte then scan start (length + 1) due rest else some (.invalid length start)

/-- The first flaw of bytes as UTF-8. -/
def flaw? (bytes : List UInt8) : Option Flaw :=
  scan 0 0 [] bytes

end Utf8

-----------------------------------------------------------------------------------------
-- Texts
-----------------------------------------------------------------------------------------

/-- A text, given by its bytes. -/
@[ext]
structure Text where
  bytes : List UInt8
  deriving DecidableEq

namespace Text

/-- The text of a string's characters. -/
def ofString (value : String) : Text :=
  ⟨value.toByteArray.data.toList⟩

instance : Coe String Text := ⟨ofString⟩

/-- The bytes as the characters of the same codes. -/
def codes (text : Text) : List Char :=
  text.bytes.map fun byte => Char.ofNat byte.toNat

end Text

end HeaderChain
