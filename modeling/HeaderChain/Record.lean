import HeaderChain.Header
import HeaderChain.Position

/-! A header's record in the chain graph. Links name other headers by hash; a link to a hash that
is not at hand is unresolved, never dangling ownership.
-/

namespace HeaderChain

/-- The distance to genesis. -/
abbrev Height := UInt32

/-- The height after a known height; unknown past the greatest one. -/
def Height.next? (height : Height) : Option Height :=
  if height = UInt32.ofNat (UInt32.size - 1) then none else some (height + 1)

/-- The next height is one more, which must fit. -/
theorem Height.next?_eq_some_iff {height next : Height}
    : Height.next? height = some next ↔ next.toNat = height.toNat + 1 := by
  have bound := next.toNat_lt
  rw [next?]
  split
  · next greatest =>
      have value : height.toNat = 4294967295 := congrArg UInt32.toNat greatest
      constructor
      · intro none
        cases none
      · omega
  · next smaller =>
      have value : height.toNat ≠ 4294967295 := fun same => smaller (UInt32.toNat_inj.mp same)
      have small := height.toNat_lt
      have sum : (height + 1).toNat = height.toNat + 1 := by
        rw [UInt32.toNat_add, UInt32.toNat_one]
        omega
      rw [Option.some.injEq, ← UInt32.toNat_inj, sum, eq_comm]

/-- A header with its place in its chain. `parent` and `children` are the links resolved so far. -/
structure Record where
  header : Header
  height : Option Height
  work : Work
  firstSeen : UInt64
  parent : Option BlockHash
  children : List BlockHash
  deriving DecidableEq

namespace Record

/-- A record without links. -/
def unlinked (header : Header) (height : Option Height) (work : Work) (firstSeen : UInt64)
    : Record :=
  ⟨header, height, work, firstSeen, none, []⟩

/-- The hash of the record's header. -/
def hash (record : Record) : BlockHash :=
  record.header.hash

/-- The hash of the header before it. -/
def prev (record : Record) : BlockHash :=
  record.header.prev

/-- The record's place among competing chains. -/
def position (record : Record) : Position :=
  ⟨record.work, record.firstSeen⟩

/-- The height of a child of the record, when it can be known from the record. -/
def childHeight? (record : Record) : Option Height :=
  record.height.bind Height.next?

/-- Whether two records are of the same header. -/
def sameHeader (left right : Record) : Bool :=
  left.hash = right.hash

/-- The record with its parent link set. -/
def withParent (record : Record) (parent : BlockHash) : Record :=
  { record with parent := some parent }

/-- The record without its parent link, if that is the given one. -/
def withoutParent (record : Record) (parent : BlockHash) : Record :=
  if record.parent = some parent then { record with parent := none } else record

/-- The record with a child among its children, added at the end if new. -/
def withChild (record : Record) (child : BlockHash) : Record :=
  if child ∈ record.children then record
  else { record with children := record.children ++ [child] }

/-- The record without a child. -/
def withoutChild (record : Record) (child : BlockHash) : Record :=
  { record with children := record.children.filter (· ≠ child) }

end Record

end HeaderChain
