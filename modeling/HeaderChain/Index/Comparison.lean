import HeaderChain.Index.Hydration

/-! Whether a header that is not yet there would win over an established record. -/

namespace HeaderChain.IndexM

variable {σ : Type} [HeaderSource σ]

/-- Whether work on top of a base beats another record. More work does; of equal work the new
header must be known already and must have been seen earlier.
-/
def isMoreWork (base other : Record) (newHash : BlockHash) (newWork : Work)
    : IndexM σ Bool := do
  let candidate ← sum base.work newWork
  if candidate ≠ other.work then return other.work < candidate
  match ← lookup newHash with
  | none => return false
  | some known => return known.firstSeen < other.firstSeen

end HeaderChain.IndexM
