import HeaderChain.Index.Basic

/-! Records appear in an index on first access: what is not resident is read from the store. Height
and work follow from a resident parent where there is one, and from the store otherwise.
-/

namespace HeaderChain.IndexM

variable {σ : Type} [HeaderSource σ]

/-- The height and the work through a header that was served under a key. The parent's height is
used while it has a successor; the parent's work is used whenever the parent is resident.
-/
def chainPosition (key : BlockHash) (work : Work) (parent : Option Record)
    : IndexM σ (Option Height × Work) := do
  match parent with
  | some parent =>
      let height ← match parent.childHeight? with
        | some height => pure (some height)
        | none => ofStore (HeaderSource.heightFor key)
      return (height, ← sum parent.work work)
  | none =>
      let height ← ofStore (HeaderSource.heightFor key)
      match ← ofStore (HeaderSource.workThrough key) with
      | some work => return (height, work)
      | none => throw (.missingChainWork key)

/-- Reads the record for a key from the store. The record becomes resident, but no candidate for the
best chain. Without an answer from the store nothing changes.
-/
def hydrate (key : BlockHash) : IndexM σ (Option Record) := do
  match ← ofStore (HeaderSource.fetch key) with
  | none => return none
  | some ⟨header, firstSeen⟩ =>
      let work ← workOf header
      let parent := (← resident).get? header.prev
      let (height, work) ← chainPosition key work parent
      commit (.hydrated key (.unlinked header height work firstSeen))
      return (← resident).get? key

/-- The record for a key: the resident one, or else the one the store can supply. -/
def lookup (key : BlockHash) : IndexM σ (Option Record) := do
  match (← resident).get? key with
  | some record => return some record
  | none => hydrate key

end HeaderChain.IndexM
