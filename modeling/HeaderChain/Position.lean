import HeaderChain.Work

/-! The place of a header among competing chains: more work comes first, and of equal work the
header that was seen earlier.
-/

namespace HeaderChain

/-- Cumulative work together with the time of first acceptance. -/
structure Position where
  work : Work
  firstSeen : UInt64
  deriving DecidableEq

namespace Position

/-- A position comes first by more work, or by equal work seen earlier. -/
def Precedes (left right : Position) : Prop :=
  right.work < left.work ∨ (left.work = right.work ∧ left.firstSeen < right.firstSeen)

instance (left right : Position) : Decidable (left.Precedes right) :=
  inferInstanceAs (Decidable (_ ∨ _))

/-- How two positions compare; the better one is the lesser. -/
def order (left right : Position) : Ordering :=
  if left.Precedes right then .lt else if right.Precedes left then .gt else .eq

/-- No position comes before itself. -/
theorem precedes_irrefl (position : Position) : ¬ position.Precedes position := by
  rintro (more | ⟨_, earlier⟩)
  · exact Nat.lt_irrefl _ more
  · exact UInt64.lt_irrefl _ earlier

/-- Coming first is transitive, by cases on which of the two rules decided. -/
theorem precedes_trans {first second third : Position}
    (before : first.Precedes second) (after : second.Precedes third)
    : first.Precedes third := by
  rcases before with more | ⟨same, earlier⟩ <;> rcases after with more' | ⟨same', earlier'⟩
  · exact .inl (Nat.lt_trans more' more)
  · exact .inl (same' ▸ more)
  · exact .inl (same ▸ more')
  · exact .inr ⟨same.trans same', UInt64.lt_trans earlier earlier'⟩

/-- Of two different positions one comes first. -/
theorem precedes_or_precedes_of_ne {left right : Position} (different : left ≠ right)
    : left.Precedes right ∨ right.Precedes left := by
  by_cases same : left.work = right.work
  · have apart : left.firstSeen ≠ right.firstSeen := fun seen => different (by
      cases left; cases right; simp_all)
    have order : left.firstSeen < right.firstSeen ∨ right.firstSeen < left.firstSeen := by
      simp only [UInt64.lt_iff_toNat_lt]
      have values := mt UInt64.toNat_inj.mp apart
      omega
    exact order.imp (fun earlier => .inr ⟨same, earlier⟩)
      (fun earlier => .inr ⟨same.symm, earlier⟩)
  · have values : left.work.toNat ≠ right.work.toNat := mt Work.toNat_inj.mp same
    rcases Nat.lt_or_gt_of_ne values with less | more
    · exact .inr (.inl less)
    · exact .inl (.inl more)

end Position

end HeaderChain
