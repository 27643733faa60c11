import HeaderChain.Text
import Mathlib.Data.List.Forall2

/-! Which bytes are texts. A first byte and the bytes that may follow it are those of a character,
and every character has such bytes. So bytes have a flaw exactly if they are those of no string, and
the flaw is where the longest string that they begin with ends.
-/

namespace HeaderChain

namespace Utf8

-----------------------------------------------------------------------------------------
-- One character
-----------------------------------------------------------------------------------------

/-- Bytes are in the spans that are due, one in each. -/
def Fill (bytes : List UInt8) (due : List Span) : Prop :=
  List.Forall₂ (fun byte span => span.has byte = true) bytes due

theorem has_iff {span : Span} {byte : UInt8}
    : span.has byte = true ↔ span.low.toNat ≤ byte.toNat ∧ byte.toNat ≤ span.high.toNat := by
  simp only [Span.has, decide_eq_true_eq, UInt8.le_iff_toNat_le]

/-- The spans that follow a first byte, by its number. -/
theorem following?_eq (first : UInt8)
    : following? first
      = if first.toNat ≤ 0x7f then some []
        else if first.toNat < 0xc2 then none
        else if first.toNat ≤ 0xdf then some [tail]
        else if first.toNat = 0xe0 then some [⟨0xa0, 0xbf⟩, tail]
        else if first.toNat = 0xed then some [⟨0x80, 0x9f⟩, tail]
        else if first.toNat ≤ 0xef then some [tail, tail]
        else if first.toNat = 0xf0 then some [⟨0x90, 0xbf⟩, tail, tail]
        else if first.toNat ≤ 0xf3 then some [tail, tail, tail]
        else if first.toNat = 0xf4 then some [⟨0x80, 0x8f⟩, tail, tail]
        else none := by
  simp only [following?, UInt8.le_iff_toNat_le, UInt8.lt_iff_toNat_lt, ← UInt8.toNat_inj]
  rfl

theorem toNat_ofNat {number : Nat} (small : number < 256)
    : (UInt8.ofNat number).toNat = number :=
  UInt8.toNat_ofNat_of_lt' small

theorem has_ofNat {span : Span} {number : Nat}
    (bounds : span.low.toNat ≤ number ∧ number ≤ span.high.toNat)
    : span.has (UInt8.ofNat number) = true := by
  rw [has_iff, toNat_ofNat (Nat.lt_of_le_of_lt bounds.2 span.high.toNat_lt)]
  exact bounds

/-- Six bits of a code make a byte of the tail. -/
theorem has_tail (code : Nat)
    : tail.has (UInt8.ofNat (code % 64 + 128)) = true := by
  have bounds : 0x80 ≤ code % 64 + 128 ∧ code % 64 + 128 ≤ 0xbf := by omega
  exact has_ofNat bounds

/-- A character has a first byte and bytes that may follow it, by the number of its bytes. -/
theorem exists_following (char : Char)
    : ∃ first more due,
        String.utf8EncodeChar char = first :: more
        ∧ following? first = some due
        ∧ Fill more due := by
  have valid
      : char.val.toNat < 0xd800 ∨ 0xdfff < char.val.toNat ∧ char.val.toNat < 0x110000 :=
    char.valid
  simp only [String.utf8EncodeChar]
  generalize char.val.toNat = code at valid
  split
  · next one =>
      refine ⟨_, _, [], rfl, ?_, .nil⟩
      rw [following?_eq, toNat_ofNat (by omega), if_pos one]
  · split
    · refine ⟨_, _, [tail], rfl, ?_, .cons (has_tail code) .nil⟩
      rw [following?_eq, toNat_ofNat (by omega), if_neg (by omega), if_neg (by omega),
        if_pos (by omega)]
    · split
      · have begins := following?_eq (UInt8.ofNat (code / 4096 % 16 + 224))
        rw [toNat_ofNat (by omega), if_neg (by omega), if_neg (by omega), if_neg (by omega)]
          at begins
        split at begins
        · -- a code of eleven bits or less would have two bytes
          have bounds : 0xa0 ≤ code / 64 % 64 + 128 ∧ code / 64 % 64 + 128 ≤ 0xbf := by omega
          exact ⟨_, _, _, rfl, begins, .cons (has_ofNat bounds) (.cons (has_tail code) .nil)⟩
        · split at begins
          · -- the codes from here to the end of this first byte are surrogates
            have bounds : 0x80 ≤ code / 64 % 64 + 128 ∧ code / 64 % 64 + 128 ≤ 0x9f := by omega
            exact ⟨_, _, _, rfl, begins, .cons (has_ofNat bounds) (.cons (has_tail code) .nil)⟩
          · rw [if_pos (by omega)] at begins
            exact ⟨_, _, _, rfl, begins, .cons (has_tail _) (.cons (has_tail code) .nil)⟩
      · have begins := following?_eq (UInt8.ofNat (code / 262144 % 8 + 240))
        rw [toNat_ofNat (by omega), if_neg (by omega), if_neg (by omega), if_neg (by omega),
          if_neg (by omega), if_neg (by omega), if_neg (by omega)] at begins
        split at begins
        · -- a code of sixteen bits or less would have three bytes
          have bounds : 0x90 ≤ code / 4096 % 64 + 128 ∧ code / 4096 % 64 + 128 ≤ 0xbf := by omega
          exact ⟨_, _, _, rfl, begins,
            .cons (has_ofNat bounds) (.cons (has_tail _) (.cons (has_tail code) .nil))⟩
        · split at begins
          · exact ⟨_, _, _, rfl, begins,
              .cons (has_tail _) (.cons (has_tail _) (.cons (has_tail code) .nil))⟩
          · have bounds : 0x80 ≤ code / 4096 % 64 + 128 ∧ code / 4096 % 64 + 128 ≤ 0x8f := by omega
            rw [if_pos (by omega)] at begins
            exact ⟨_, _, _, rfl, begins,
              .cons (has_ofNat bounds) (.cons (has_tail _) (.cons (has_tail code) .nil))⟩

/-- Every code but the surrogates is that of a character. -/
theorem exists_code (code : Nat) (valid : code < 0xd800 ∨ 0xdfff < code ∧ code < 0x110000)
    : ∃ char : Char, char.val.toNat = code :=
  ⟨.ofNatAux code valid, rfl⟩

theorem ofNat_eq {number : Nat} (byte : UInt8) (same : number = byte.toNat)
    : UInt8.ofNat number = byte := by
  rw [same, UInt8.ofNat_toNat]

theorem exists_char_of_one {first : UInt8} (lead : first.toNat ≤ 0x7f)
    : ∃ char, String.utf8EncodeChar char = [first] := by
  obtain ⟨char, code⟩ := exists_code first.toNat (by omega)
  refine ⟨char, ?_⟩
  simp only [String.utf8EncodeChar, code]
  rw [if_pos (by omega), ofNat_eq first rfl]

theorem exists_char_of_two {first second : UInt8}
    (lead : 0xc2 ≤ first.toNat ∧ first.toNat ≤ 0xdf)
    (after : 0x80 ≤ second.toNat ∧ second.toNat ≤ 0xbf)
    : ∃ char, String.utf8EncodeChar char = [first, second] := by
  obtain ⟨char, code⟩ :=
    exists_code ((first.toNat - 0xc0) * 64 + (second.toNat - 0x80)) (by omega)
  refine ⟨char, ?_⟩
  simp only [String.utf8EncodeChar, code]
  rw [if_neg (by omega), if_pos (by omega), ofNat_eq first (by omega),
    ofNat_eq second (by omega)]

theorem exists_char_of_three {first second third : UInt8}
    (lead : 0xe0 ≤ first.toNat ∧ first.toNat ≤ 0xef)
    (after : 0x80 ≤ second.toNat ∧ second.toNat ≤ 0xbf)
    (notShorter : first.toNat = 0xe0 → 0xa0 ≤ second.toNat)
    (noSurrogate : first.toNat = 0xed → second.toNat ≤ 0x9f)
    (last : 0x80 ≤ third.toNat ∧ third.toNat ≤ 0xbf)
    : ∃ char, String.utf8EncodeChar char = [first, second, third] := by
  obtain ⟨char, code⟩ :=
    exists_code
      ((first.toNat - 0xe0) * 4096 + (second.toNat - 0x80) * 64 + (third.toNat - 0x80))
      (by omega)
  refine ⟨char, ?_⟩
  simp only [String.utf8EncodeChar, code]
  rw [if_neg (by omega), if_neg (by omega), if_pos (by omega), ofNat_eq first (by omega),
    ofNat_eq second (by omega), ofNat_eq third (by omega)]

theorem exists_char_of_four {first second third fourth : UInt8}
    (lead : 0xf0 ≤ first.toNat ∧ first.toNat ≤ 0xf4)
    (after : 0x80 ≤ second.toNat ∧ second.toNat ≤ 0xbf)
    (notShorter : first.toNat = 0xf0 → 0x90 ≤ second.toNat)
    (notGreater : first.toNat = 0xf4 → second.toNat ≤ 0x8f)
    (next : 0x80 ≤ third.toNat ∧ third.toNat ≤ 0xbf)
    (last : 0x80 ≤ fourth.toNat ∧ fourth.toNat ≤ 0xbf)
    : ∃ char, String.utf8EncodeChar char = [first, second, third, fourth] := by
  obtain ⟨char, code⟩ :=
    exists_code
      ((first.toNat - 0xf0) * 262144 + (second.toNat - 0x80) * 4096
        + (third.toNat - 0x80) * 64 + (fourth.toNat - 0x80))
      (by omega)
  refine ⟨char, ?_⟩
  simp only [String.utf8EncodeChar, code]
  rw [if_neg (by omega), if_neg (by omega), if_neg (by omega), ofNat_eq first (by omega),
    ofNat_eq second (by omega), ofNat_eq third (by omega), ofNat_eq fourth (by omega)]

/-- A first byte and bytes that may follow it are those of a character, by the first byte. -/
theorem exists_char {first : UInt8} {due : List Span} {more : List UInt8}
    (begins : following? first = some due) (fill : Fill more due)
    : ∃ char, String.utf8EncodeChar char = first :: more := by
  rw [following?_eq] at begins
  split at begins
  · next ascii =>
      cases begins
      obtain _ | _ := fill
      exact exists_char_of_one ascii
  split at begins
  · cases begins
  split at begins
  · cases begins
    obtain _ | ⟨second, _ | _⟩ := fill
    exact exists_char_of_two (by omega) (has_iff.mp second)
  split at begins
  · cases begins
    obtain _ | @⟨second, _, _, _, after, _ | ⟨third, _ | _⟩⟩ := fill
    have bounds : 0xa0 ≤ second.toNat ∧ second.toNat ≤ 0xbf := has_iff.mp after
    exact exists_char_of_three (by omega) (by omega) (by omega) (by omega) (has_iff.mp third)
  split at begins
  · cases begins
    obtain _ | @⟨second, _, _, _, after, _ | ⟨third, _ | _⟩⟩ := fill
    have bounds : 0x80 ≤ second.toNat ∧ second.toNat ≤ 0x9f := has_iff.mp after
    exact exists_char_of_three (by omega) (by omega) (by omega) (by omega) (has_iff.mp third)
  split at begins
  · cases begins
    obtain _ | ⟨second, _ | ⟨third, _ | _⟩⟩ := fill
    exact exists_char_of_three (by omega) (has_iff.mp second) (by omega) (by omega)
      (has_iff.mp third)
  split at begins
  · cases begins
    obtain _ | @⟨second, _, _, _, after, _ | ⟨third, _ | ⟨fourth, _ | _⟩⟩⟩ := fill
    have bounds : 0x90 ≤ second.toNat ∧ second.toNat ≤ 0xbf := has_iff.mp after
    exact exists_char_of_four (by omega) (by omega) (by omega) (by omega) (has_iff.mp third)
      (has_iff.mp fourth)
  split at begins
  · cases begins
    obtain _ | ⟨second, _ | ⟨third, _ | ⟨fourth, _ | _⟩⟩⟩ := fill
    exact exists_char_of_four (by omega) (has_iff.mp second) (by omega) (by omega)
      (has_iff.mp third) (has_iff.mp fourth)
  split at begins
  · cases begins
    obtain _ | @⟨second, _, _, _, after, _ | ⟨third, _ | ⟨fourth, _ | _⟩⟩⟩ := fill
    have bounds : 0x80 ≤ second.toNat ∧ second.toNat ≤ 0x8f := has_iff.mp after
    exact exists_char_of_four (by omega) (by omega) (by omega) (by omega) (has_iff.mp third)
      (has_iff.mp fourth)
  · cases begins

-----------------------------------------------------------------------------------------
-- All characters
-----------------------------------------------------------------------------------------

/-- The bytes of characters in turn. -/
def encode (chars : List Char) : List UInt8 :=
  chars.flatMap String.utf8EncodeChar

theorem encode_cons (char : Char) (chars : List Char)
    : encode (char :: chars) = String.utf8EncodeChar char ++ encode chars :=
  rfl

/-- Between characters only the place counts. -/
theorem scan_between (start length : Nat) (bytes : List UInt8)
    : scan start length [] bytes = scan (start + length) 0 [] bytes := by
  cases bytes <;> rfl

/-- Bytes that are due are passed, by induction on them. -/
theorem scan_fill {more : List UInt8} {due : List Span} (fill : Fill more due)
    (start length : Nat) (rest : List UInt8)
    : scan start length due (more ++ rest) = scan (start + length + more.length) 0 [] rest := by
  induction fill generalizing length with
  | nil => exact scan_between start length rest
  | cons has _ ih =>
      rw [List.cons_append, scan, if_pos has, ih, List.length_cons]
      congr 1
      omega

/-- The bytes of characters are passed, by induction on the characters. -/
theorem scan_encode (chars : List Char) (place : Nat) (rest : List UInt8)
    : scan place 0 [] (encode chars ++ rest)
      = scan (place + (encode chars).length) 0 [] rest := by
  induction chars generalizing place with
  | nil => rfl
  | cons char chars ih =>
      obtain ⟨first, more, due, bytes, begins, fill⟩ := exists_following char
      rw [encode_cons, bytes, List.cons_append, List.cons_append, List.append_assoc, scan, begins]
      dsimp only
      rw [scan_fill fill, ih, List.length_cons, List.length_append]
      congr 1
      omega

/-- A scan finds a flaw at the place where it begins. -/
def Stops (bytes : List UInt8) : Prop :=
  ∀ place, ∃ flaw, scan place 0 [] bytes = some flaw ∧ flaw.index = place

/-- Bytes begin with ones that are due, or the character is found flawed, by induction on the spans.
-/
theorem fill_or_flaw (due : List Span) (bytes : List UInt8)
    : (∃ more rest, bytes = more ++ rest ∧ Fill more due)
      ∨ ∀ start length, ∃ flaw, scan start length due bytes = some flaw ∧ flaw.index = start := by
  induction due generalizing bytes with
  | nil => exact .inl ⟨[], bytes, rfl, .nil⟩
  | cons span due ih =>
      cases bytes with
      | nil => exact .inr fun start length => ⟨_, rfl, rfl⟩
      | cons byte bytes =>
          by_cases has : span.has byte = true
          · rcases ih bytes with ⟨more, rest, rfl, fill⟩ | flawed
            · exact .inl ⟨byte :: more, rest, rfl, .cons has fill⟩
            · refine .inr fun start length => ?_
              rw [scan, if_pos has]
              exact flawed start (length + 1)
          · refine .inr fun start length => ?_
            rw [scan, if_neg has]
            exact ⟨_, rfl, rfl⟩

/-- Bytes are none, begin with a character or stop a scan. -/
theorem char_or_stops (bytes : List UInt8)
    : bytes = [] ∨ (∃ char rest, bytes = String.utf8EncodeChar char ++ rest) ∨ Stops bytes := by
  cases bytes with
  | nil => exact .inl rfl
  | cons first bytes =>
      refine .inr ?_
      cases begins : following? first with
      | none =>
          refine .inr fun place => ⟨.invalid 1 place, ?_, rfl⟩
          rw [scan, begins]
          rfl
      | some due =>
          rcases fill_or_flaw due bytes with ⟨more, rest, rfl, fill⟩ | flawed
          · obtain ⟨char, same⟩ := exists_char begins fill
            exact .inl ⟨char, rest, by rw [same, List.cons_append]⟩
          · refine .inr fun place => ?_
            rw [scan, begins]
            exact flawed place 1

/-- Bytes are those of characters up to their end or to where they stop a scan, by induction on
their number.
-/
theorem exists_encode (bytes : List UInt8)
    : ∃ chars rest, bytes = encode chars ++ rest ∧ (rest = [] ∨ Stops rest) := by
  induction size : bytes.length using Nat.strongRecOn generalizing bytes with
  | ind size ih =>
      subst size
      rcases char_or_stops bytes with rfl | ⟨char, rest, rfl⟩ | stops
      · exact ⟨[], [], rfl, .inl rfl⟩
      · obtain ⟨first, more, _, encoded, _⟩ := exists_following char
        have fewer : rest.length < (String.utf8EncodeChar char ++ rest).length := by
          rw [encoded, List.length_append, List.length_cons]
          omega
        obtain ⟨chars, rest', rfl, ends⟩ := ih _ fewer rest rfl
        exact ⟨char :: chars, rest', by rw [encode_cons, List.append_assoc], ends⟩
      · exact ⟨[], bytes, rfl, .inr stops⟩

/-- A flaw is not before the character that a scan is in, nor before the one it is about to begin,
by the scan.
-/
theorem le_index {start length : Nat} {due : List Span} {bytes : List UInt8} {flaw : Flaw}
    (found : scan start length due bytes = some flaw)
    : start ≤ flaw.index ∧ (due = [] → start + length ≤ flaw.index) := by
  induction start, length, due, bytes using scan.induct with
  | case1 => cases found
  | case2 start length first rest due begins ih =>
      rw [scan, begins] at found
      have later := (ih found).1
      exact ⟨by omega, fun _ => later⟩
  | case3 start length first rest begins =>
      rw [scan, begins] at found
      cases found
      exact ⟨Nat.le_add_right _ _, fun _ => Nat.le_refl _⟩
  | case4 start length span due =>
      cases found
      exact ⟨Nat.le_refl _, fun none => by cases none⟩
  | case5 start length span due byte rest has ih =>
      rw [scan, if_pos has] at found
      exact ⟨(ih found).1, fun none => by cases none⟩
  | case6 start length span due byte rest has =>
      rw [scan, if_neg has] at found
      cases found
      exact ⟨Nat.le_refl _, fun none => by cases none⟩

end Utf8

-----------------------------------------------------------------------------------------
-- Texts
-----------------------------------------------------------------------------------------

namespace Text

/-- The bytes of a string are those of its characters in turn. -/
theorem bytes_ofString (value : String)
    : (ofString value).bytes = Utf8.encode value.toList := by
  rw [ofString, ← String.ofList_toList (s := value), String.toByteArray_ofList, List.utf8Encode,
    List.data_toByteArray, String.toList_ofList, Utf8.encode]

/-- A text begins with a string, after which it ends or stops a scan. -/
theorem exists_ofString (text : Text)
    : ∃ value rest,
        text.bytes = (ofString value).bytes ++ rest ∧ (rest = [] ∨ Utf8.Stops rest) := by
  obtain ⟨chars, rest, split, ends⟩ := Utf8.exists_encode text.bytes
  refine ⟨String.ofList chars, rest, ?_, ends⟩
  rw [bytes_ofString, String.toList_ofList]
  exact split

/-- The bytes of a string are passed. -/
theorem scan_ofString (value : String) (rest : List UInt8)
    : Utf8.scan 0 0 [] ((ofString value).bytes ++ rest)
      = Utf8.scan (ofString value).bytes.length 0 [] rest := by
  rw [bytes_ofString, Utf8.scan_encode, Nat.zero_add]

/-- A text has no flaw exactly if it is that of a string. -/
theorem flaw?_eq_none_iff {text : Text}
    : Utf8.flaw? text.bytes = none ↔ ∃ value : String, text = value := by
  constructor
  · intro clean
    obtain ⟨value, rest, split, rfl | stops⟩ := text.exists_ofString
    · exact ⟨value, Text.ext (split.trans (List.append_nil _))⟩
    · obtain ⟨flaw, found, _⟩ := stops (ofString value).bytes.length
      rw [Utf8.flaw?, split, scan_ofString, found] at clean
      cases clean
  · rintro ⟨value, rfl⟩
    have passed := scan_ofString value []
    rw [List.append_nil] at passed
    exact passed

/-- A flaw is where the longest string ends that a text begins with. -/
structure Breaks (text : Text) (flaw : Utf8.Flaw) : Prop where
  reached
    : ∃ value : String,
        (ofString value).bytes <+: text.bytes ∧ (ofString value).bytes.length = flaw.index
  longest
    : ∀ value : String,
        (ofString value).bytes <+: text.bytes → (ofString value).bytes.length ≤ flaw.index

/-- A flaw is found where the text breaks. -/
theorem breaks_of_flaw? {text : Text} {flaw : Utf8.Flaw}
    (found : Utf8.flaw? text.bytes = some flaw)
    : text.Breaks flaw where
  reached := by
    obtain ⟨value, rest, split, rfl | stops⟩ := text.exists_ofString
    · rw [flaw?_eq_none_iff.mpr ⟨value, Text.ext (split.trans (List.append_nil _))⟩] at found
      cases found
    · obtain ⟨_, stopped, place⟩ := stops (ofString value).bytes.length
      rw [Utf8.flaw?, split, scan_ofString, stopped] at found
      cases found
      exact ⟨value, ⟨rest, split.symm⟩, place.symm⟩
  longest value begins := by
    obtain ⟨rest, split⟩ := begins
    rw [Utf8.flaw?, ← split, scan_ofString] at found
    exact (Utf8.le_index found).1

-- the bytes that a surrogate would have
example : Utf8.flaw? [0x61, 0xed, 0xa0, 0x80] = some (.invalid 1 1) := by
  decide

end Text

end HeaderChain
