/-! Proof of work as a 256-bit quantity. Sums that do not fit have no value. -/

namespace HeaderChain

/-- An amount of work below 2^256. -/
structure Work where
  value : BitVec 256
  deriving DecidableEq

namespace Work

/-- No work, the baseline below genesis. -/
def zero : Work :=
  ⟨0⟩

/-- One past the greatest amount. -/
def capacity : Nat :=
  1 <<< 256

/-- The amount as a natural number. -/
def toNat (work : Work) : Nat :=
  work.value.toNat

/-- The amount with the given value, modulo the capacity. -/
def ofNat (amount : Nat) : Work :=
  ⟨BitVec.ofNat 256 amount⟩

instance : Inhabited Work := ⟨zero⟩

instance : LT Work := ⟨fun left right => left.toNat < right.toNat⟩

instance (left right : Work) : Decidable (left < right) :=
  inferInstanceAs (Decidable (left.toNat < right.toNat))

/-- The sum of two amounts, if it stays below the capacity. -/
def add? (left right : Work) : Option Work :=
  if left.toNat + right.toNat < capacity then some (ofNat (left.toNat + right.toNat)) else none

/-- An amount is below the capacity. -/
theorem toNat_lt (work : Work) : work.toNat < capacity :=
  work.value.isLt

/-- Amounts below the capacity are kept. -/
theorem toNat_ofNat {amount : Nat} (fits : amount < capacity)
    : (ofNat amount).toNat = amount := by
  rw [toNat, ofNat, BitVec.toNat_ofNat]
  exact Nat.mod_eq_of_lt fits

/-- Equal amounts are equal. -/
theorem toNat_inj {left right : Work}
    : left.toNat = right.toNat ↔ left = right := by
  constructor
  · intro same
    cases left; cases right
    simpa [toNat, BitVec.toNat_inj] using same
  · rintro rfl; rfl

/-- A sum has a value exactly when the natural sum fits, and is then that sum. -/
theorem add?_eq_some_iff {left right sum : Work}
    : left.add? right = some sum ↔ sum.toNat = left.toNat + right.toNat := by
  unfold add?
  split
  · next fits =>
      rw [Option.some.injEq, ← toNat_inj, toNat_ofNat fits]
      exact eq_comm
  · next exceeds =>
      have bound := sum.toNat_lt
      simp only [reduceCtorEq, false_iff]
      omega

/-- A sum lacks a value exactly when the natural sum reaches the capacity. -/
theorem add?_eq_none_iff {left right : Work}
    : left.add? right = none ↔ capacity ≤ left.toNat + right.toNat := by
  simp [add?]

theorem exists_add? {left right : Work} (fits : left.toNat + right.toNat < capacity)
    : ∃ sum, left.add? right = some sum :=
  Option.ne_none_iff_exists'.mp fun none => Nat.not_le.mpr fits (add?_eq_none_iff.mp none)

end Work

end HeaderChain
