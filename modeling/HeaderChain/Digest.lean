import HeaderChain.Hex
import HeaderChain.Sha256

/-! Digests that identify block headers. A digest is the number its 32 bytes denote, most
significant byte first, so numeric order is byte order; its text shows the bytes reversed.
-/

namespace HeaderChain

/-- A 256-bit digest. -/
structure Digest where
  value : BitVec 256
  deriving DecidableEq

/-- The digest of a block header, by which the header is known. -/
abbrev BlockHash := Digest

namespace Digest

/-- The digest whose bytes are all zero. No header precedes a header that links to it. -/
def zero : Digest :=
  ⟨0⟩

instance : Inhabited Digest := ⟨zero⟩

instance : LT Digest := ⟨fun left right => left.value < right.value⟩

instance (left right : Digest) : Decidable (left < right) :=
  inferInstanceAs (Decidable (left.value < right.value))

/-- The 32 bytes of a digest. -/
def bytes (digest : Digest) : List UInt8 :=
  Bytes.bigEndian 32 digest.value.toNat

/-- The digest with the given 32 bytes. -/
def ofBytes (bytes : List UInt8) : Digest :=
  ⟨BitVec.ofNat 256 (Bytes.ofBigEndian bytes)⟩

/-- The display text of a digest: its bytes in reverse order, two lower-case digits each. -/
def text (digest : Digest) : String :=
  Hex.encode digest.bytes.reverse

/-- Reads a display text, with digits of either case. -/
def ofText? (text : String) : Option Digest :=
  match Hex.decode text with
  | .ok bytes => if bytes.length = 32 then some (ofBytes bytes.reverse) else none
  | .error _ => none

/-- The digest of a message: SHA-256 applied twice. -/
def ofMessage (message : List UInt8) : Digest :=
  ⟨Sha256.hashTwice message⟩

/-- A digest has 32 bytes. -/
@[simp] theorem length_bytes (digest : Digest)
    : digest.bytes.length = 32 :=
  Bytes.length_bigEndian 32 _

/-- The bytes of a digest determine it, by the byte round trip below the capacity of 32 bytes. -/
@[simp] theorem ofBytes_bytes (digest : Digest)
    : ofBytes digest.bytes = digest := by
  have small : digest.value.toNat < Bytes.capacity 32 := digest.value.isLt
  rw [ofBytes, bytes, Bytes.ofBigEndian_bigEndian, Nat.mod_eq_of_lt small, BitVec.ofNat_toNat,
    BitVec.setWidth_eq]

/-- Any 32 bytes are the bytes of the digest they make. -/
theorem bytes_ofBytes {bytes : List UInt8} (width : bytes.length = 32)
    : (ofBytes bytes).bytes = bytes := by
  have bound : Bytes.ofBigEndian bytes < Bytes.capacity 32 :=
    width ▸ Bytes.ofBigEndian_lt bytes
  have small : Bytes.ofBigEndian bytes < 2 ^ 256 := bound
  have same := Bytes.bigEndian_ofBigEndian bytes
  rw [width] at same
  rw [Digest.bytes, ofBytes, BitVec.toNat_ofNat, Nat.mod_eq_of_lt small]
  exact same

/-- A digest is read back from its display text, which reverses the bytes twice. -/
theorem ofText?_text (digest : Digest)
    : ofText? digest.text = some digest := by
  simp only [ofText?, text, Hex.decode_encode, List.length_reverse, length_bytes, if_pos,
    List.reverse_reverse, ofBytes_bytes]

/-- Different digests have different texts. -/
theorem text_inj {left right : Digest}
    : left.text = right.text ↔ left = right := by
  constructor
  · intro same
    have read := congrArg ofText? same
    rw [ofText?_text, ofText?_text] at read
    exact Option.some.inj read
  · rintro rfl
    rfl

/-- Digests with equal values are equal. -/
theorem ext_value {left right : Digest} (same : left.value = right.value)
    : left = right := by
  cases left; cases right; simpa using same

/-- No digest precedes itself. -/
theorem lt_irrefl (digest : Digest) : ¬ digest < digest :=
  BitVec.lt_irrefl digest.value

/-- Byte order is transitive. -/
theorem lt_trans {first second third : Digest} (before : first < second) (after : second < third)
    : first < third :=
  BitVec.lt_trans before after

/-- Of two different digests one precedes the other. -/
theorem lt_or_gt_of_ne {left right : Digest} (different : left ≠ right)
    : left < right ∨ right < left := by
  have values : left.value.toNat ≠ right.value.toNat := fun same =>
    different (ext_value (BitVec.eq_of_toNat_eq same))
  exact Nat.lt_or_gt_of_ne values

/-- Byte order is the order of the bytes, the first one that differs deciding. -/
theorem lt_iff_bytes_lt {left right : Digest}
    : left < right ↔ left.bytes < right.bytes := by
  have read (digest : Digest) : Bytes.ofBigEndian digest.bytes = digest.value.toNat := by
    have small : digest.value.toNat < Bytes.capacity 32 := digest.value.isLt
    rw [bytes, Bytes.ofBigEndian_bigEndian, Nat.mod_eq_of_lt small]
  have lengths : left.bytes.length = right.bytes.length := by
    rw [length_bytes, length_bytes]
  rw [← Bytes.ofBigEndian_lt_iff lengths, read, read]
  exact BitVec.lt_def

end Digest

end HeaderChain
