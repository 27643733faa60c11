import HeaderChain.Work

/-! The work of a single header, from the compact form of its target: an exponent byte above a
three-byte mantissa. A smaller target takes more work to meet.
-/

namespace HeaderChain.Work

/-- The target that compact bits stand for. The exponent counts bytes: up to three of them the
mantissa loses its low bytes, beyond that it moves up, by a number of bits that wraps at 256. A
mantissa with its top bit set stands for zero, and bits moved past the top are lost.
-/
def targetOf (bits : UInt32) : BitVec 256 :=
  let exponent := bits.toNat >>> 24
  let digits := bits.toNat % 0x1000000
  let mantissa := if exponent ≤ 3 then digits >>> (8 * (3 - exponent)) else digits
  let shift := if exponent ≤ 3 then 0 else 8 * (exponent - 3)
  if mantissa > 0x7fffff then 0 else BitVec.ofNat 256 (mantissa <<< (shift % 256))

/-- The expected number of attempts to meet a target: 2^256 / (target + 1), rounded down. The
targets zero and one both take the greatest amount.
-/
def ofTarget (target : BitVec 256) : Work :=
  if target.toNat ≤ 1 then ofNat (capacity - 1) else ofNat (capacity / (target.toNat + 1))

/-- The work that a header with these compact bits adds to its chain. -/
def ofBits (bits : UInt32) : Work :=
  ofTarget (targetOf bits)

/-- Meeting a target is never free: a target lies below the capacity that is divided. -/
theorem ofTarget_pos (target : BitVec 256) : 0 < (ofTarget target).toNat := by
  have bound : target.toNat < capacity := target.isLt
  have room : 2 ≤ capacity := by decide
  unfold ofTarget
  split
  · rw [toNat_ofNat (by omega)]; omega
  · have share : capacity / (target.toNat + 1) < capacity :=
      Nat.div_lt_self (by omega) (by omega)
    rw [toNat_ofNat share]
    exact Nat.div_pos (by omega) (by omega)

end HeaderChain.Work
