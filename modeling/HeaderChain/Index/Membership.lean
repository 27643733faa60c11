import HeaderChain.Index.Hydration

/-! Headers enter an index as candidates for the best chain, with a baseline that the caller states
or that the parent supplies, and leave it again.
-/

namespace HeaderChain.IndexM

variable {σ : Type} [HeaderSource σ]

/-- Adds a header as a candidate, on top of the stated work before it. Tells whether it was new.
A resident header stays as it is, and work that does not fit changes nothing.
-/
def insert (header : Header) (height : Option Height) (baseline : Work) (firstSeen : UInt64)
    : IndexM σ Bool := do
  if (← resident).contains header.hash then return false
  let work ← sum baseline (← workOf header)
  commit (.indexed (.unlinked header height work firstSeen))
  return true

/-- Adds a header on top of its parent, which must be resident or known to the store. A header
without predecessor starts at height zero. Tells whether the header was new.
-/
def extend (header : Header) (firstSeen : UInt64) : IndexM σ Bool := do
  if (← resident).contains header.hash then return false
  if header.isGenesis then insert header (some 0) .zero firstSeen
  else
    match ← lookup header.prev with
    | none => throw (.unknownParent header.hash header.prev)
    | some parent => insert header parent.childHeight? parent.work firstSeen

omit [HeaderSource σ] in
/-- Takes the record under a key out of the index. Its children keep their links to it. -/
def remove (key : BlockHash) : IndexM σ (Option Record) := do
  match (← resident).get? key with
  | none => return none
  | some record =>
      commit (.removed key)
      return some record

omit [HeaderSource σ] in
/-- Evicts the oldest records past the ceiling. -/
def evict : IndexM σ Unit :=
  commit .trimmed

end HeaderChain.IndexM
