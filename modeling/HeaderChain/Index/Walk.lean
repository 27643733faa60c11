import HeaderChain.Index.Hydration

/-! Walks towards genesis. Each step hydrates both ends, remembers the link between them and may
evict the header it came from.
-/

namespace HeaderChain.IndexM

variable {σ : Type} [HeaderSource σ]

/-- The record of the header before a key. There is none for a header without predecessor and where
either header is unknown. The link is remembered if the key is still resident by then.
-/
def parent (key : BlockHash) : IndexM σ (Option Record) := do
  match ← lookup key with
  | none => return none
  | some record =>
      if record.header.isGenesis then return none
      match ← lookup record.prev with
      | none => return none
      | some _ =>
          if (← resident).contains key then commit (.linked key record.prev)
          return (← resident).get? record.prev

/-- The hash that is reached after a number of steps from a hash to its parent. -/
def climb : Nat → BlockHash → IndexM σ (Option BlockHash)
  | 0, current => return some current
  | steps + 1, current => do
      match ← parent current with
      | none => return none
      | some above => climb steps above.hash

/-- The hash that lies a number of links above a key; none if the walk ends before. -/
def ancestor (key : BlockHash) (depth : Nat) : IndexM σ (Option BlockHash) := do
  match ← lookup key with
  | none => return none
  | some record => climb depth record.hash

/-- A branch on its way down: the hash it has reached, with its height. -/
structure Branch where
  hash : BlockHash
  height : Option Height
  deriving DecidableEq

/-- Where a branch stands at a record. -/
def Branch.at (record : Record) : Branch :=
  ⟨record.hash, record.height⟩

/-- Moves the branch that is not lower, the left one if both are level, until the two meet. There
is no answer where a height or a parent is unknown, and it is a failure not to meet within the
budget of steps.
-/
def descend : Nat → Branch → Branch → IndexM σ (Option BlockHash)
  | budget, left, right => do
      if left.hash = right.hash then return some left.hash
      match left.height, right.height with
      | some leftHeight, some rightHeight =>
          match budget with
          | 0 => throw .unfinished
          | budget + 1 =>
              if rightHeight ≤ leftHeight then
                match ← parent left.hash with
                | none => return none
                | some above => descend budget (.at above) right
              else
                match ← parent right.hash with
                | none => return none
                | some above => descend budget left (.at above)
      | _, _ => return none

/-- The last common header of the branches that end in two keys. -/
def findFork (budget : Nat) (left right : BlockHash) : IndexM σ (Option BlockHash) := do
  match ← lookup left with
  | none => return none
  | some leftRecord =>
      match ← lookup right with
      | none => return none
      | some rightRecord => descend budget (.at leftRecord) (.at rightRecord)

end HeaderChain.IndexM
