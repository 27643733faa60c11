import HeaderChain.Digest
import HeaderChain.Work.Target

/-! Block headers and their 80-byte form. Encoding and decoding undo each other, and exactly the
byte strings of 80 bytes are headers.
-/

namespace HeaderChain

/-- A block header. -/
structure Header where
  version : Int32
  prev : BlockHash
  merkleRoot : Digest
  time : UInt32
  bits : UInt32
  nonce : UInt32
  deriving DecidableEq

namespace Header

/-- Why a byte string is not a header. -/
inductive Flaw
  | tooShort
  | tooLong
  deriving DecidableEq, Repr

/-- The length of an encoded header. -/
def size : Nat := 80

/-- Four bytes of a word, least significant first. -/
def encodeWord (word : UInt32) : List UInt8 :=
  Bytes.littleEndian 4 word.toNat

/-- The word of four bytes, least significant first. -/
def decodeWord (bytes : List UInt8) : UInt32 :=
  UInt32.ofNat (Bytes.ofLittleEndian bytes)

/-- The fields in order: words least significant byte first, digests by their bytes. -/
def encode (header : Header) : List UInt8 :=
  encodeWord header.version.toUInt32 ++ header.prev.bytes ++ header.merkleRoot.bytes
    ++ encodeWord header.time ++ encodeWord header.bits ++ encodeWord header.nonce

/-- The bytes of a field, by its place and width. -/
def field (bytes : List UInt8) (start width : Nat) : List UInt8 :=
  (bytes.drop start).take width

/-- The header whose fields lie in 80 bytes. -/
def ofBytes (bytes : List UInt8) : Header where
  version := (decodeWord (field bytes 0 4)).toInt32
  prev := Digest.ofBytes (field bytes 4 32)
  merkleRoot := Digest.ofBytes (field bytes 36 32)
  time := decodeWord (field bytes 68 4)
  bits := decodeWord (field bytes 72 4)
  nonce := decodeWord (field bytes 76 4)

/-- Reads a header that fills the byte string. -/
def decode (bytes : List UInt8) : Except Flaw Header :=
  if bytes.length < size then .error .tooShort
  else if size < bytes.length then .error .tooLong
  else .ok (ofBytes bytes)

/-- The hash by which the header is known. Proofs do not look into it. -/
@[irreducible] def hash (header : Header) : BlockHash :=
  Digest.ofMessage header.encode

/-- The work that the header's own bits stand for. -/
def work (header : Header) : Work :=
  Work.ofBits header.bits

/-- Whether the header has no predecessor. -/
def isGenesis (header : Header) : Bool :=
  header.prev = Digest.zero

/-- A word survives its four bytes. -/
theorem decodeWord_encodeWord (word : UInt32)
    : decodeWord (encodeWord word) = word := by
  have small : word.toNat < Bytes.capacity 4 := word.toNat_lt
  rw [decodeWord, encodeWord, Bytes.ofLittleEndian_littleEndian, Nat.mod_eq_of_lt small]
  exact UInt32.ofNat_toNat

/-- Four bytes survive the word they make. -/
theorem encodeWord_decodeWord {bytes : List UInt8} (width : bytes.length = 4)
    : encodeWord (decodeWord bytes) = bytes := by
  have small : Bytes.ofLittleEndian bytes < 2 ^ 32 := by
    have bound := Bytes.ofLittleEndian_lt bytes
    rwa [width] at bound
  have same := Bytes.littleEndian_ofLittleEndian bytes
  rw [width] at same
  rw [encodeWord, decodeWord, UInt32.toNat_ofNat', Nat.mod_eq_of_lt small]
  exact same

/-- A word takes four bytes. -/
@[simp] theorem length_encodeWord (word : UInt32)
    : (encodeWord word).length = 4 :=
  Bytes.length_littleEndian 4 _

/-- An encoded header has the fixed size. -/
@[simp] theorem length_encode (header : Header)
    : header.encode.length = size := by
  simp [encode, size]

/-- A field that lies inside the bytes has its full width. -/
theorem length_field {bytes : List UInt8} {start width : Nat}
    (inside : start + width ≤ bytes.length)
    : (field bytes start width).length = width := by
  simp only [field, List.length_take, List.length_drop]
  omega

/-- The fields of an encoded header are its own. -/
theorem ofBytes_encode (header : Header)
    : ofBytes header.encode = header := by
  obtain ⟨version, prev, merkleRoot, time, bits, nonce⟩ := header
  simp [ofBytes, encode, field, List.drop_append, List.take_of_length_le,
    List.drop_of_length_le, decodeWord_encodeWord]

/-- Every header is read back from its encoding. -/
theorem decode_encode (header : Header)
    : decode header.encode = .ok header := by
  simp [decode, ofBytes_encode]

/-- Consecutive fields join into one. -/
theorem field_append (bytes : List UInt8) (start first second : Nat)
    : field bytes start first ++ field bytes (start + first) second
      = field bytes start (first + second) := by
  simp only [field, ← List.drop_drop]
  rw [List.take_add]

/-- Eighty bytes are the encoding of the header they hold, by joining its six fields. -/
theorem encode_ofBytes {bytes : List UInt8} (full : bytes.length = size)
    : (ofBytes bytes).encode = bytes := by
  have width : bytes.length = 80 := full
  have word {start : Nat} (inside : start + 4 ≤ 80)
      : encodeWord (decodeWord (field bytes start 4)) = field bytes start 4 :=
    encodeWord_decodeWord (length_field (by omega))
  have digest {start : Nat} (inside : start + 32 ≤ 80)
      : (Digest.ofBytes (field bytes start 32)).bytes = field bytes start 32 :=
    Digest.bytes_ofBytes (length_field (by omega))
  have whole : field bytes 0 80 = bytes := by simp [field, List.take_of_length_le, width]
  have join := field_append bytes 0
  simp only [ofBytes, encode, UInt32.toUInt32_toInt32, word, digest, Nat.reduceLeDiff,
    Nat.reduceAdd]
  rw [join 4 32, join 36 32, join 68 4, join 72 4, join 76 4, whole]

/-- A byte string is read as a header exactly when it is that header's encoding. -/
theorem decode_eq_ok_iff {bytes : List UInt8} {header : Header}
    : decode bytes = .ok header ↔ bytes = header.encode := by
  constructor
  · intro read
    unfold decode at read
    split at read
    · cases read
    · split at read
      · cases read
      · have full : bytes.length = size := by omega
        cases read
        exact (encode_ofBytes full).symm
  · rintro rfl
    exact decode_encode header

end Header

end HeaderChain
