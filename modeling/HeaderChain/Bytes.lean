/-! Numbers as byte strings of a fixed width. Reading undoes writing up to the width, and writing
undoes reading, so a byte string of known length and its number carry the same information.
-/

namespace HeaderChain.Bytes

/-- The low `width` bytes of a number, least significant first. -/
def littleEndian : (width : Nat) → Nat → List UInt8
  | 0, _ => []
  | width + 1, n => UInt8.ofNat n :: littleEndian width (n / 256)

/-- The number whose bytes, least significant first, are given. -/
def ofLittleEndian : List UInt8 → Nat
  | [] => 0
  | byte :: rest => byte.toNat + 256 * ofLittleEndian rest

/-- The low `width` bytes of a number, most significant first. -/
def bigEndian (width n : Nat) : List UInt8 :=
  (littleEndian width n).reverse

/-- The number whose bytes, most significant first, are given. -/
def ofBigEndian (bytes : List UInt8) : Nat :=
  ofLittleEndian bytes.reverse

/-- The number of byte strings of a width. -/
def capacity : (width : Nat) → Nat
  | 0 => 1
  | width + 1 => 256 * capacity width

/-- Writing fills exactly the requested width. -/
@[simp] theorem length_littleEndian (width n : Nat)
    : (littleEndian width n).length = width := by
  induction width generalizing n with
  | zero => rfl
  | succ width ih => simp [littleEndian, ih]

/-- Writing most significant byte first fills the same width. -/
@[simp] theorem length_bigEndian (width n : Nat)
    : (bigEndian width n).length = width := by
  simp [bigEndian]

/-- A byte string denotes a number below the capacity of its length, by list induction. -/
theorem ofLittleEndian_lt (bytes : List UInt8)
    : ofLittleEndian bytes < capacity bytes.length := by
  induction bytes with
  | nil => decide
  | cons byte rest ih =>
      have low := byte.toNat_lt
      simp only [ofLittleEndian, List.length_cons, capacity]
      omega

/-- The capacity bound holds in the other byte order too. -/
theorem ofBigEndian_lt (bytes : List UInt8)
    : ofBigEndian bytes < capacity bytes.length := by
  simpa [ofBigEndian] using ofLittleEndian_lt bytes.reverse

/-- Reading back a written number reduces it modulo the capacity of the width, by peeling one
byte from both sides.
-/
theorem ofLittleEndian_littleEndian (width n : Nat)
    : ofLittleEndian (littleEndian width n) = n % capacity width := by
  induction width generalizing n with
  | zero => exact (Nat.mod_one n).symm
  | succ width ih =>
      have low : (UInt8.ofNat n).toNat = n % 256 := UInt8.toNat_ofNat'
      rw [littleEndian, ofLittleEndian, ih, low, capacity, Nat.mod_mul]

/-- Writing the number that a byte string denotes gives the byte string back. -/
theorem littleEndian_ofLittleEndian (bytes : List UInt8)
    : littleEndian bytes.length (ofLittleEndian bytes) = bytes := by
  induction bytes with
  | nil => rfl
  | cons byte rest ih =>
      have low := byte.toNat_lt
      have tail : (byte.toNat + 256 * ofLittleEndian rest) / 256 = ofLittleEndian rest := by omega
      have head : UInt8.ofNat (byte.toNat + 256 * ofLittleEndian rest) = byte := by
        apply UInt8.toNat_inj.mp
        rw [UInt8.toNat_ofNat']
        omega
      simp only [ofLittleEndian, List.length_cons, littleEndian, head, tail, ih]

/-- Reading back most significant byte first reduces modulo the same capacity. -/
theorem ofBigEndian_bigEndian (width n : Nat)
    : ofBigEndian (bigEndian width n) = n % capacity width := by
  simp [ofBigEndian, bigEndian, ofLittleEndian_littleEndian]

/-- Writing most significant byte first restores the byte string that was read. -/
theorem bigEndian_ofBigEndian (bytes : List UInt8)
    : bigEndian bytes.length (ofBigEndian bytes) = bytes := by
  have read := littleEndian_ofLittleEndian bytes.reverse
  rw [List.length_reverse] at read
  simp [bigEndian, ofBigEndian, read]

/-- The first byte of a string counts as many times as there are strings of the remaining width. -/
theorem ofBigEndian_cons (byte : UInt8) (rest : List UInt8)
    : ofBigEndian (byte :: rest) = byte.toNat * capacity rest.length + ofBigEndian rest := by
  have append (low : List UInt8)
      : ofLittleEndian (low ++ [byte]) = ofLittleEndian low + byte.toNat * capacity low.length := by
    induction low with
    | nil => simp [ofLittleEndian, capacity]
    | cons first rest ih =>
        rw [List.cons_append, ofLittleEndian, ih, ofLittleEndian, List.length_cons, capacity,
          Nat.mul_add, Nat.mul_left_comm, Nat.add_assoc]
  rw [ofBigEndian, List.reverse_cons, append, List.length_reverse, ofBigEndian, Nat.add_comm]

/-- Of byte strings of one length, the lesser in byte order denotes the lesser number, by induction
on both strings.
-/
theorem ofBigEndian_lt_iff {left right : List UInt8} (same : left.length = right.length)
    : ofBigEndian left < ofBigEndian right ↔ left < right := by
  induction left generalizing right with
  | nil =>
      have empty : right = [] := List.length_eq_zero_iff.mp same.symm
      simp [empty]
  | cons byte left ih =>
      cases right with
      | nil => cases same
      | cons byte' right =>
          have rest : left.length = right.length := Nat.succ.inj same
          have below := ofBigEndian_lt left
          have below' := ofBigEndian_lt right
          rw [ofBigEndian_cons, ofBigEndian_cons, List.cons_lt_cons_iff, ← ih rest,
            UInt8.lt_iff_toNat_lt, ← UInt8.toNat_inj]
          rw [rest] at below ⊢
          have apart {first second : Nat} (lesser : first < second)
              : first * capacity right.length + capacity right.length
                ≤ second * capacity right.length :=
            Nat.succ_mul first _ ▸ Nat.mul_le_mul_right _ lesser
          rcases Nat.lt_trichotomy byte.toNat byte'.toNat with lesser | equal | greater
          · have := apart lesser
            omega
          · rw [equal]
            omega
          · have := apart greater
            omega

end HeaderChain.Bytes
