import HeaderChain.Proofs.ValidText
import HeaderChain.Store.Rows
import Mathlib.Data.Nat.Digits.Lemmas
import Mathlib.Tactic.Ring

/-! What a row store makes of rows with arbitrary values. A read answers exactly if the columns
concerned are well-formed, with what they show, and fails on every other row.
-/

namespace HeaderChain

-----------------------------------------------------------------------------------------
-- Texts of hexadecimal digits
-----------------------------------------------------------------------------------------

namespace Hex

/-- A character is the digit of a value below sixteen, in lower or upper case. -/
def StandsFor (char : Char) (value : Nat) : Prop :=
  value < 16 ∧ (char = digit value ∨ char = (digit value).toUpper)

instance (char : Char) (value : Nat) : Decidable (StandsFor char value) :=
  inferInstanceAs (Decidable (_ ∧ _))

/-- A character is a digit of some value. -/
def IsDigit (char : Char) : Prop :=
  ∃ value, StandsFor char value

/-- A digit takes one byte of text, from which its value is read. -/
theorem StandsFor.map_utf8EncodeChar {char : Char} {value : Nat} (stands : StandsFor char value)
    : (String.utf8EncodeChar char).map digitValue? = [some value] := by
  have either
      : ∀ value < 16,
          (String.utf8EncodeChar (digit value)).map digitValue? = [some value]
          ∧ (String.utf8EncodeChar (digit value).toUpper).map digitValue? = [some value] := by
    decide
  obtain ⟨below, rfl | rfl⟩ := stands
  · exact (either value below).1
  · exact (either value below).2

/-- No code of a digit is as great as the first byte of a character beyond ASCII. -/
theorem digitValue?_of_le {byte : UInt8} (great : 192 ≤ byte.toNat)
    : digitValue? byte = none := by
  simp only [digitValue?, UInt8.le_iff_toNat_le, UInt8.reduceToNat]
  rw [if_neg (by omega), if_neg (by omega), if_neg (by omega)]

/-- A character is the digit of a value that is read from its first byte. -/
theorem standsFor_of_digitValue? {char : Char} {byte : UInt8} {more : List UInt8} {value : Nat}
    (encoded : String.utf8EncodeChar char = byte :: more) (read : digitValue? byte = some value)
    : StandsFor char value := by
  have ascii
      : ∀ code < 128, ∀ value ∈ digitValue? (UInt8.ofNat code), StandsFor (Char.ofNat code) value
      := by
    decide
  have lead {code : Nat} (low : 192 ≤ code) (high : code < 256) (same : UInt8.ofNat code = byte)
      : False := by
    have great : 192 ≤ byte.toNat := by
      rw [← same, UInt8.toNat_ofNat_of_lt' high]
      exact low
    rw [digitValue?_of_le great] at read
    cases read
  simp only [String.utf8EncodeChar] at encoded
  split at encoded
  · next one =>
      rw [(List.cons.inj encoded).1.symm] at read
      rw [← Char.ofNat_toNat char]
      exact ascii char.toNat (by exact Nat.lt_succ_of_le one) value read
  · split at encoded
    · exact (lead (by omega) (by omega) (List.cons.inj encoded).1).elim
    · split at encoded
      · exact (lead (by omega) (by omega) (List.cons.inj encoded).1).elim
      · exact (lead (by omega) (by omega) (List.cons.inj encoded).1).elim

/-- Characters that are digits have values. -/
theorem exists_values {chars : List Char} (digits : ∀ char ∈ chars, IsDigit char)
    : ∃ values, List.Forall₂ StandsFor chars values := by
  induction chars with
  | nil => exact ⟨[], .nil⟩
  | cons char rest ih =>
      simp only [List.forall_mem_cons] at digits
      obtain ⟨⟨value, stands⟩, digits⟩ := digits
      obtain ⟨values, spelled⟩ := ih digits
      exact ⟨value :: values, .cons stands spelled⟩

/-- The values of digits are below sixteen. -/
theorem values_lt {chars : List Char} {values : List Nat}
    (spelled : List.Forall₂ StandsFor chars values)
    : ∀ value ∈ values, value < 16 := by
  induction spelled with
  | nil => simp
  | cons stands _ ih => exact List.forall_mem_cons.mpr ⟨stands.1, ih⟩

/-- Characters are all digits, or there is a first that is none. -/
theorem digits_or_stray (chars : List Char)
    : (∀ char ∈ chars, IsDigit char)
      ∨ ∃ good bad rest,
          chars = good ++ bad :: rest ∧ (∀ char ∈ good, IsDigit char) ∧ ¬ IsDigit bad := by
  induction chars with
  | nil => exact .inl (by simp)
  | cons char rest ih =>
      by_cases digit : IsDigit char
      · obtain digits | ⟨good, bad, rest, rfl, digits, stray⟩ := ih
        · exact .inl (List.forall_mem_cons.mpr ⟨digit, digits⟩)
        · exact .inr ⟨char :: good, bad, rest, rfl, List.forall_mem_cons.mpr ⟨digit, digits⟩, stray⟩
      · exact .inr ⟨[], char, rest, rfl, by simp, digit⟩

/-- Digits are read from the bytes of their characters. -/
theorem map_encode {chars : List Char} {values : List Nat}
    (spelled : List.Forall₂ StandsFor chars values)
    : (Utf8.encode chars).map digitValue? = values.map some := by
  induction spelled with
  | nil => rfl
  | cons stands _ ih =>
      rw [Utf8.encode_cons, List.map_append, stands.map_utf8EncodeChar, ih]
      rfl

/-- The number of a text's bytes is that of its characters' bytes. -/
theorem utf8ByteSize_eq (text : String)
    : text.utf8ByteSize = (Utf8.encode text.toList).length := by
  rw [← Text.bytes_ofString]
  rfl

/-- Two digits for each byte have as many values. -/
theorem capacity_eq (width : Nat)
    : Bytes.capacity width = 16 ^ (2 * width) := by
  induction width with
  | zero => rfl
  | succ width ih =>
      rw [Bytes.capacity, ih]
      ring

/-- Pairs of digits are read as the bytes of the number that the digits denote, by induction on
the pairs.
-/
theorem decodePairs_of_digits {bytes : List UInt8} {values : List Nat} (position : Nat)
    (read : bytes.map digitValue? = values.map some) (bound : ∀ value ∈ values, value < 16)
    (even : values.length % 2 = 0)
    : ∃ pairs,
        decodePairs position bytes = .ok pairs
        ∧ values.length = 2 * pairs.length
        ∧ Bytes.ofBigEndian pairs = Nat.ofDigits 16 values.reverse := by
  induction position, bytes using decodePairs.induct generalizing values with
  | case1 position high low rest ih =>
      obtain _ | ⟨upper, _ | ⟨lower, values⟩⟩ := values
      · simp at read
      · simp at read
      simp only [List.map_cons, List.cons.injEq] at read
      obtain ⟨readHigh, readLow, readRest⟩ := read
      simp only [List.forall_mem_cons] at bound
      obtain ⟨upperBound, lowerBound, restBound⟩ := bound
      simp only [List.length_cons] at even ⊢
      obtain ⟨pairs, done, length, same⟩ := ih readRest restBound (by omega)
      have byte : (UInt8.ofNat (16 * upper + lower)).toNat = 16 * upper + lower :=
        UInt8.toNat_ofNat_of_lt' (by show _ < 256; omega)
      refine ⟨UInt8.ofNat (16 * upper + lower) :: pairs, ?_, ?_, ?_⟩
      · simp only [decodePairs, digitAt, readHigh, readLow, done, bind, Except.bind]
        rfl
      · rw [List.length_cons]
        omega
      · rw [Bytes.ofBigEndian_cons, byte, same, capacity_eq, ← length]
        simp only [List.reverse_cons, List.append_assoc, List.singleton_append,
          Nat.ofDigits_append, List.length_reverse, Nat.ofDigits_cons, Nat.ofDigits_nil]
        ring
  | case2 bytes position short =>
      have same := congrArg List.length read
      simp only [List.length_map] at same
      obtain _ | ⟨high, _ | ⟨low, rest⟩⟩ := bytes
      · obtain rfl : values = [] := List.length_eq_zero_iff.mp same.symm
        exact ⟨[], rfl, rfl, rfl⟩
      · simp [← same] at even
      · exact (short high low rest rfl).elim

/-- The first byte that is not a digit is reported with its place in the whole text, by induction on
the pairs before it.
-/
theorem decodePairs_of_stray {good rest : List UInt8} {bad : UInt8} (position : Nat)
    (digits : ∀ byte ∈ good, digitValue? byte ≠ none) (stray : digitValue? bad = none)
    (even : (good ++ bad :: rest).length % 2 = 0)
    : decodePairs position (good ++ bad :: rest)
      = .error (.invalidDigit bad (position + good.length)) := by
  induction position, good using decodePairs.induct with
  | case1 position high low good ih =>
      simp only [List.forall_mem_cons] at digits
      obtain ⟨digitHigh, digitLow, digitsRest⟩ := digits
      obtain ⟨upper, readHigh⟩ := Option.ne_none_iff_exists'.mp digitHigh
      obtain ⟨lower, readLow⟩ := Option.ne_none_iff_exists'.mp digitLow
      have place : position + (good.length + 1 + 1) = position + 2 + good.length := by omega
      simp only [List.cons_append, List.length_cons] at even ⊢
      simp only [decodePairs, digitAt, readHigh, readLow, ih digitsRest (by omega), bind,
        Except.bind, place]
  | case2 good position short =>
      obtain _ | ⟨high, _ | ⟨low, good⟩⟩ := good
      · cases rest with
        | nil => simp at even
        | cons low rest => simp [decodePairs, digitAt, stray, bind, Except.bind]
      · obtain ⟨upper, readHigh⟩ := Option.ne_none_iff_exists'.mp (digits high (by simp))
        simp [decodePairs, digitAt, readHigh, stray, bind, Except.bind]
      · exact (short high low good rfl).elim

/-- A text of digits is as many bytes long as it has digits. -/
theorem utf8ByteSize_of_digits {text : String} {values : List Nat}
    (spelled : List.Forall₂ StandsFor text.toList values)
    : text.utf8ByteSize = values.length := by
  have length := congrArg List.length (map_encode spelled)
  rw [List.length_map, List.length_map, ← utf8ByteSize_eq] at length
  exact length

/-- Sixty-four digits denote an amount of work. -/
theorem ofDigits_lt_capacity {chars : List Char} {values : List Nat}
    (spelled : List.Forall₂ StandsFor chars values) (width : values.length = 64)
    : Nat.ofDigits 16 values.reverse < Work.capacity := by
  have below : Nat.ofDigits 16 values.reverse < 16 ^ values.reverse.length :=
    Nat.ofDigits_lt_base_pow_length (by decide) fun value member =>
      values_lt spelled value (List.mem_reverse.mp member)
  rw [List.length_reverse, width] at below
  exact below

/-- A text of an odd number of bytes is refused for that, whatever its bytes. -/
theorem decode_of_odd {text : String} (odd : text.utf8ByteSize % 2 = 1)
    : decode text = .error .oddLength :=
  if_pos odd

/-- A text of an even number of bytes is read in pairs. -/
theorem decode_of_even {text : String} (even : text.utf8ByteSize % 2 = 0)
    : decode text = decodePairs 0 (Utf8.encode text.toList) := by
  have notOdd : ¬ (Utf8.encode text.toList).length % 2 = 1 := by
    rw [← utf8ByteSize_eq]
    omega
  change decodeBytes (Text.ofString text).bytes = _
  rw [Text.bytes_ofString, decodeBytes, if_neg notOdd]

/-- A text of an even number of digits is read as the number that they denote. -/
theorem decode_of_digits {text : String} {values : List Nat}
    (spelled : List.Forall₂ StandsFor text.toList values) (even : values.length % 2 = 0)
    : ∃ bytes,
        decode text = .ok bytes
        ∧ values.length = 2 * bytes.length
        ∧ Bytes.ofBigEndian bytes = Nat.ofDigits 16 values.reverse := by
  rw [decode_of_even (by rw [utf8ByteSize_of_digits spelled]; exact even)]
  exact decodePairs_of_digits 0 (map_encode spelled) (values_lt spelled) even

/-- The first character that is not a digit is reported in a text of an even number of bytes, by its
first byte and that byte's place.
-/
theorem decode_of_stray {text : String} {good rest : List Char} {bad : Char} {byte : UInt8}
    {more : List UInt8} (even : text.utf8ByteSize % 2 = 0)
    (chars : text.toList = good ++ bad :: rest) (digits : ∀ char ∈ good, IsDigit char)
    (stray : ¬ IsDigit bad) (encoded : String.utf8EncodeChar bad = byte :: more)
    : decode text = .error (.invalidDigit byte good.length) := by
  obtain ⟨values, spelled⟩ := exists_values digits
  have read := map_encode spelled
  have length := congrArg List.length read
  rw [List.length_map, List.length_map, ← spelled.length_eq] at length
  have readable : ∀ byte ∈ Utf8.encode good, digitValue? byte ≠ none := by
    intro byte member unreadable
    have found := List.mem_map_of_mem (f := digitValue?) member
    rw [read, unreadable] at found
    simp at found
  have unreadable : digitValue? byte = none := by
    cases found : digitValue? byte with
    | none => rfl
    | some value => exact (stray ⟨value, standsFor_of_digitValue? encoded found⟩).elim
  have split
      : Utf8.encode text.toList = Utf8.encode good ++ byte :: (more ++ Utf8.encode rest) := by
    rw [chars, Utf8.encode, List.flatMap_append, List.flatMap_cons, encoded, List.cons_append]
    rfl
  rw [decode_of_even even, split, decodePairs_of_stray 0 readable unreadable, length, Nat.zero_add]
  rw [← split, ← utf8ByteSize_eq]
  exact even

example : decode "0\u00e90" = .error (.invalidDigit 0xc3 1) := by
  decide

end Hex

-----------------------------------------------------------------------------------------
-- What a row shows
-----------------------------------------------------------------------------------------

namespace Row

/-- A header is in a row as its bytes and its time as an integer. -/
structure ShowsHeader (row : Row) (seen : SeenHeader) : Prop where
  header : row.header = .blob seen.header.encode
  firstSeen : ∃ value, row.firstSeen = .integer value ∧ value.toInt = seen.firstSeen.toNat

/-- A height is in a row as an integer, and that it is unknown as null. -/
def ShowsHeight (row : Row) : Option Height → Prop
  | none => row.height = .null
  | some height => ∃ value, row.height = .integer value ∧ value.toInt = height.toNat

/-- A work is in a row as a text of 64 hexadecimal digits, most significant first. -/
def ShowsWork (row : Row) (work : Work) : Prop :=
  ∃ (text : String) (values : List Nat),
    row.chainWork = .text text
    ∧ List.Forall₂ Hex.StandsFor text.toList values
    ∧ values.length = 64
    ∧ work.toNat = Nat.ofDigits 16 values.reverse

/-- An integer without sign is the number that its bits stand for. -/
theorem toNat_toUInt64 {value : Int64} (nonnegative : 0 ≤ value.toInt)
    : (value.toUInt64.toNat : Int) = value.toInt := by
  have same : value.toUInt64.toNat = value.toBitVec.toNat := rfl
  have signed := BitVec.toInt_eq_toNat_cond value.toBitVec
  rw [Int64.toInt_toBitVec] at signed
  have below := value.toBitVec.isLt
  split at signed <;> omega

/-- A header is read with its time exactly if the row shows both. -/
theorem seenHeader_eq_ok_iff {row : Row} {key : BlockHash} {seen : SeenHeader}
    : row.seenHeader key = .ok seen ↔ row.ShowsHeader seen := by
  constructor
  · intro read
    unfold seenHeader at read
    cases header : row.header with
    | blob bytes =>
        cases firstSeen : row.firstSeen with
        | integer value =>
            cases decoded : Header.decode bytes with
            | ok found =>
                simp only [header, firstSeen, decoded, blobIn, integerIn, Except.mapError, bind,
                  Except.bind] at read
                split at read
                · cases read
                · next unsigned =>
                    cases read
                    have nonnegative : 0 ≤ value.toInt := by
                      rw [Int64.lt_iff_toInt_lt] at unsigned
                      exact Int.not_lt.mp unsigned
                    exact ⟨header.trans (congrArg Cell.blob (Header.decode_eq_ok_iff.mp decoded)),
                      value, firstSeen, (toNat_toUInt64 nonnegative).symm⟩
            | error flaw => simp [header, firstSeen, decoded, blobIn, integerIn, Except.mapError,
                bind, Except.bind] at read
        | _ => simp [header, firstSeen, blobIn, integerIn, bind, Except.bind] at read
    | _ => simp [header, blobIn, bind, Except.bind] at read
  · rintro ⟨header, value, firstSeen, same⟩
    have unsigned : ¬ value < 0 := by
      rw [Int64.lt_iff_toInt_lt, same]
      exact Int.not_lt.mpr (Int.natCast_nonneg _)
    have time : value.toUInt64 = seen.firstSeen := by
      rw [← UInt64.toNat_inj, ← Int.ofNat_inj, ← same]
      exact toNat_toUInt64 (same ▸ Int.natCast_nonneg _)
    simp [seenHeader, header, firstSeen, blobIn, integerIn, Header.decode_encode, Except.mapError,
      bind, Except.bind, unsigned, time]

/-- A height is read exactly if the row shows it, and as unknown exactly if it shows that. -/
theorem knownHeight_eq_ok_iff {row : Row} {height : Option Height}
    : row.knownHeight = .ok height ↔ row.ShowsHeight height := by
  cases column : row.height with
  | null => cases height <;> simp [knownHeight, ShowsHeight, column]
  | integer value =>
      simp only [knownHeight, column, integerIn, bind, Except.bind, Int64.le_iff_toInt_le]
      change (if 0 ≤ value.toInt ∧ value.toInt < 4294967296 then _ else _) = _ ↔ _
      split
      · next fits =>
          have same := toNat_toUInt64 fits.1
          have small : value.toUInt64.toUInt32.toNat = value.toUInt64.toNat := by
            rw [UInt64.toNat_toUInt32]
            omega
          cases height with
          | none => simp [ShowsHeight, column]
          | some height =>
              simp only [ShowsHeight, column, Except.ok.injEq, Option.some.injEq,
                Cell.integer.injEq, exists_eq_left', ← UInt32.toNat_inj, small]
              omega
      · next exceeds =>
          cases height with
          | none => simp [ShowsHeight, column]
          | some height =>
              have bound := height.toNat_lt
              simp only [ShowsHeight, column, reduceCtorEq, Cell.integer.injEq, exists_eq_left',
                false_iff]
              omega
  | _ => cases height <;> simp [knownHeight, ShowsHeight, column, integerIn, bind, Except.bind]

/-- A text is the one in its column if it is that of a string. -/
theorem textIn_ofString (column : Column) (text : String)
    : textIn column (.text text) = .ok text := by
  rw [textIn, Text.flaw?_eq_none_iff.mpr ⟨text, rfl⟩]

/-- A text of digits is read as their value exactly if there are 64. -/
theorem knownWork_of_digits {row : Row} {text : String} {values : List Nat} (key : BlockHash)
    (column : row.chainWork = .text text)
    (spelled : List.Forall₂ Hex.StandsFor text.toList values) (even : values.length % 2 = 0)
    : row.knownWork key
      = if values.length = 64 then .ok (.ofNat (Nat.ofDigits 16 values.reverse))
        else .error (.workNotFullWidth key) := by
  obtain ⟨bytes, decoded, length, value⟩ := Hex.decode_of_digits spelled even
  have width : bytes.length = 32 ↔ values.length = 64 := by omega
  have read : Hex.decodeBytes (Text.ofString text).bytes = .ok bytes := decoded
  simp only [knownWork, column, textIn_ofString, read, Except.mapError, bind, Except.bind, value,
    width]

/-- A text that is not hexadecimal is refused with its flaw. -/
theorem knownWork_of_flaw {row : Row} {text : String} {flaw : Hex.Flaw} (key : BlockHash)
    (column : row.chainWork = .text text) (flawed : Hex.decode text = .error flaw)
    : row.knownWork key = .error (.workNotHex flaw) := by
  have read : Hex.decodeBytes (Text.ofString text).bytes = .error flaw := flawed
  simp only [knownWork, column, textIn_ofString, read, Except.mapError, bind, Except.bind]

/-- A text that is not UTF-8 is refused before its digits are read. -/
theorem knownWork_of_broken {row : Row} {text : Text} {flaw : Utf8.Flaw} (key : BlockHash)
    (column : row.chainWork = .text text) (broken : Utf8.flaw? text.bytes = some flaw)
    : row.knownWork key = .error (.notUtf8 .chainWork flaw) := by
  simp only [knownWork, column, textIn, broken, bind, Except.bind]

/-- A work is read exactly if the row shows it. -/
theorem knownWork_eq_ok_iff {row : Row} {key : BlockHash} {work : Work}
    : row.knownWork key = .ok work ↔ row.ShowsWork work := by
  constructor
  · intro read
    cases column : row.chainWork with
    | text text =>
        cases broken : Utf8.flaw? text.bytes with
        | some flaw =>
            rw [knownWork_of_broken key column broken] at read
            cases read
        | none =>
            obtain ⟨text, rfl⟩ := Text.flaw?_eq_none_iff.mp broken
            rcases Nat.mod_two_eq_zero_or_one text.utf8ByteSize with even | odd
            · rcases Hex.digits_or_stray text.toList with
                digits | ⟨good, bad, rest, chars, digits, stray⟩
              · obtain ⟨values, spelled⟩ := Hex.exists_values digits
                rw [Hex.utf8ByteSize_of_digits spelled] at even
                rw [knownWork_of_digits key column spelled even] at read
                split at read
                · next width =>
                    cases read
                    exact ⟨text, values, column, spelled, width,
                      Work.toNat_ofNat (Hex.ofDigits_lt_capacity spelled width)⟩
                · cases read
              · obtain ⟨byte, more, _, encoded, _⟩ := Utf8.exists_following bad
                rw [knownWork_of_flaw key column
                  (Hex.decode_of_stray even chars digits stray encoded)] at read
                cases read
            · rw [knownWork_of_flaw key column (Hex.decode_of_odd odd)] at read
              cases read
    | _ => simp [knownWork, column, textIn, bind, Except.bind] at read
  · rintro ⟨text, values, column, spelled, width, same⟩
    have kept : Work.ofNat work.toNat = work := Work.toNat_inj.mp (Work.toNat_ofNat work.toNat_lt)
    rw [knownWork_of_digits key column spelled (by rw [width]), if_pos width, ← same, kept]

/-- A row shows a header exactly if it has 80 bytes and an integer that is not negative. -/
theorem exists_showsHeader_iff {row : Row}
    : (∃ seen, row.ShowsHeader seen)
      ↔ (∃ bytes, row.header = .blob bytes ∧ bytes.length = 80)
        ∧ ∃ value, row.firstSeen = .integer value ∧ 0 ≤ value.toInt := by
  constructor
  · rintro ⟨seen, header, value, firstSeen, same⟩
    exact ⟨⟨_, header, Header.length_encode seen.header⟩, value, firstSeen,
      same ▸ Int.natCast_nonneg _⟩
  · rintro ⟨⟨bytes, header, full⟩, value, firstSeen, nonnegative⟩
    exact ⟨⟨Header.ofBytes bytes, value.toUInt64⟩,
      header.trans (congrArg Cell.blob (Header.encode_ofBytes full).symm), value, firstSeen,
      (toNat_toUInt64 nonnegative).symm⟩

/-- A row shows a height, or that it is unknown, exactly if it has null or an integer of 32 bits
without sign.
-/
theorem exists_showsHeight_iff {row : Row}
    : (∃ height, row.ShowsHeight height)
      ↔ row.height = .null
        ∨ ∃ value, row.height = .integer value ∧ 0 ≤ value.toInt ∧ value.toInt < 2 ^ 32 := by
  constructor
  · rintro ⟨none | height, shows⟩
    · exact .inl shows
    · obtain ⟨value, column, same⟩ := shows
      have bound := height.toNat_lt
      exact .inr ⟨value, column, by omega, by omega⟩
  · rintro (null | ⟨value, column, nonnegative, small⟩)
    · exact ⟨none, null⟩
    · refine ⟨some (UInt32.ofNat value.toInt.toNat), value, column, ?_⟩
      rw [UInt32.toNat_ofNat_of_lt' (by show _ < 2 ^ 32; omega)]
      exact (Int.toNat_of_nonneg nonnegative).symm

/-- A row shows a work exactly if it has a text of 64 digits. -/
theorem exists_showsWork_iff {row : Row}
    : (∃ work, row.ShowsWork work)
      ↔ ∃ text : String,
          row.chainWork = .text text
          ∧ text.length = 64
          ∧ ∀ char ∈ text.toList, Hex.IsDigit char := by
  constructor
  · rintro ⟨work, text, values, column, spelled, width, same⟩
    refine ⟨text, column, spelled.length_eq.trans width, fun char member => ?_⟩
    obtain ⟨place, inside, rfl⟩ := List.getElem_of_mem member
    exact ⟨_, spelled.get inside (spelled.length_eq ▸ inside)⟩
  · rintro ⟨text, column, width, digits⟩
    obtain ⟨values, spelled⟩ := Hex.exists_values digits
    have width : values.length = 64 := spelled.length_eq.symm.trans width
    exact ⟨_, text, values, column, spelled, width,
      Work.toNat_ofNat (Hex.ofDigits_lt_capacity spelled width)⟩

end Row

-----------------------------------------------------------------------------------------
-- What a store reads
-----------------------------------------------------------------------------------------

namespace RowStore

/-- A read gives exactly the answers described, and it fails exactly if there are none. Either way
the store stays as it is.
-/
structure Answers {α : Type} (store : RowStore) (read : StoreRead RowStore α)
    (described : α → Prop) : Prop where
  answered : ∀ answer after, read store = .ok answer after ↔ after = store ∧ described answer
  failed : (∃ error, read store = .error error store) ↔ ∀ answer, ¬ described answer

/-- What is read at a key with a row, given by what the row shows, and what the row must be like to
show anything. Of the faults of a work's text, bytes that are not UTF-8 are reported first, by the
place where the text breaks, then an odd number of bytes, then the first character that is not a
digit, by its first byte and that byte's place, and last a wrong number of digits.
-/
structure ReadsRow (store : RowStore) (key : BlockHash) (row : Row) : Prop where
  fetch
    : store.Answers (HeaderSource.fetch key) fun answer =>
        ∃ seen, answer = some seen ∧ row.ShowsHeader seen
  heightFor : store.Answers (HeaderSource.heightFor key) row.ShowsHeight
  workThrough
    : store.Answers (HeaderSource.workThrough key) fun answer =>
        ∃ work, answer = some work ∧ row.ShowsWork work
  headerShown
    : (∃ seen, row.ShowsHeader seen)
      ↔ (∃ bytes, row.header = .blob bytes ∧ bytes.length = 80)
        ∧ ∃ value, row.firstSeen = .integer value ∧ 0 ≤ value.toInt
  heightShown
    : (∃ height, row.ShowsHeight height)
      ↔ row.height = .null
        ∨ ∃ value, row.height = .integer value ∧ 0 ≤ value.toInt ∧ value.toInt < 2 ^ 32
  workShown
    : (∃ work, row.ShowsWork work)
      ↔ ∃ text : String,
          row.chainWork = .text text
          ∧ text.length = 64
          ∧ ∀ char ∈ text.toList, Hex.IsDigit char
  brokenWork
    : ∀ text : Text,
        row.chainWork = .text text
        → (∀ value : String, text ≠ value)
        → ∃ flaw,
            text.Breaks flaw
            ∧ HeaderSource.workThrough key store = .error (.notUtf8 .chainWork flaw) store
  oddWork
    : ∀ text : String,
        row.chainWork = .text text
        → text.utf8ByteSize % 2 = 1
        → HeaderSource.workThrough key store = .error (.workNotHex .oddLength) store
  strayWork
    : ∀ (text : String) good bad rest byte more,
        row.chainWork = .text text
        → text.utf8ByteSize % 2 = 0
        → text.toList = good ++ bad :: rest
        → (∀ char ∈ good, Hex.IsDigit char)
        → ¬ Hex.IsDigit bad
        → String.utf8EncodeChar bad = byte :: more
        → HeaderSource.workThrough key store
          = .error (.workNotHex (.invalidDigit byte good.length)) store
  narrowWork
    : ∀ text : String,
        row.chainWork = .text text
        → text.utf8ByteSize % 2 = 0
        → (∀ char ∈ text.toList, Hex.IsDigit char)
        → text.length ≠ 64
        → HeaderSource.workThrough key store = .error (.workNotFullWidth key) store

/-- Without a row nothing is known. With one, the reads are those of the row. -/
structure ReadsExactly (store : RowStore) (key : BlockHash) : Prop where
  absent
    : store.rows.get? key.text = none
      → HeaderSource.fetch key store = .ok none store
        ∧ HeaderSource.heightFor key store = .ok none store
        ∧ HeaderSource.workThrough key store = .ok none store
  present : ∀ row, store.rows.get? key.text = some row → store.ReadsRow key row

/-- A read at a key with a row ends as the row is read. -/
theorem readRow_of_get? {α : Type} {store : RowStore} {key : BlockHash} {row : Row}
    (found : store.rows.get? key.text = some row) (read : Row → Except StoreError (Option α))
    : readRow key read store
      = match read row with
        | .ok answer => .ok answer store
        | .error error => .error error store := by
  cases same : read row <;> simp [readRow, found, same]

/-- A read gives the answers that the row is read to. -/
theorem answers_readRow {α : Type} {store : RowStore} {key : BlockHash} {row : Row}
    {read : Row → Except StoreError (Option α)} {described : Option α → Prop}
    (found : store.rows.get? key.text = some row)
    (reads : ∀ answer, read row = .ok answer ↔ described answer)
    : store.Answers (readRow key read) described := by
  refine ⟨fun answer after => ?_, ?_⟩
  · rw [readRow_of_get? found, ← reads]
    cases read row with
    | ok result => simp [and_comm, eq_comm]
    | error error => simp
  · rw [readRow_of_get? found]
    simp only [← reads]
    cases read row with
    | ok result => simp
    | error error => simp

/-- The reads of a row store are those of its rows. -/
theorem readsExactly (store : RowStore) (key : BlockHash)
    : store.ReadsExactly key where
  absent missing := by
    have nothing {α : Type} (read : Row → Except StoreError (Option α))
        : readRow key read store = .ok none store := by
      rw [readRow, missing]
    exact ⟨nothing _, nothing _, nothing _⟩
  present row found := by
    have some_iff {α : Type} (read : Except StoreError α) (answer : Option α)
        : read.map some = .ok answer ↔ ∃ value, answer = some value ∧ read = .ok value := by
      cases read <;> simp [Except.map, eq_comm]
    have refused {error : StoreError} (fails : row.knownWork key = .error error)
        : HeaderSource.workThrough key store = .error error store := by
      change readRow key _ store = _
      simp only [readRow_of_get? found, fails, Except.map]
    exact {
      fetch := answers_readRow found fun answer => by
        simp only [some_iff, Row.seenHeader_eq_ok_iff]
      heightFor := answers_readRow found fun answer => Row.knownHeight_eq_ok_iff
      workThrough := answers_readRow found fun answer => by
        simp only [some_iff, Row.knownWork_eq_ok_iff]
      headerShown := Row.exists_showsHeader_iff
      heightShown := Row.exists_showsHeight_iff
      workShown := Row.exists_showsWork_iff
      brokenWork := fun text column foreign => by
        cases broken : Utf8.flaw? text.bytes with
        | none =>
            obtain ⟨value, same⟩ := Text.flaw?_eq_none_iff.mp broken
            exact (foreign value same).elim
        | some flaw =>
            exact ⟨flaw, Text.breaks_of_flaw? broken,
              refused (Row.knownWork_of_broken key column broken)⟩
      oddWork := fun text column odd =>
        refused (Row.knownWork_of_flaw key column (Hex.decode_of_odd odd))
      strayWork := fun text good bad rest byte more column even chars digits stray encoded =>
        refused (Row.knownWork_of_flaw key column
          (Hex.decode_of_stray even chars digits stray encoded))
      narrowWork := fun text column even digits narrow => by
        obtain ⟨values, spelled⟩ := Hex.exists_values digits
        have width : values.length ≠ 64 := fun width => narrow (spelled.length_eq.trans width)
        rw [Hex.utf8ByteSize_of_digits spelled] at even
        refine refused ?_
        rw [Row.knownWork_of_digits key column spelled even, if_neg width] }

end RowStore

end HeaderChain
