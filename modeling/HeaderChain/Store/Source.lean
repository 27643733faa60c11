import HeaderChain.Record
import HeaderChain.Store.Error

/-! Stores that validated headers can be read from. A read may change the store, and what changed
stays so when the read fails.
-/

namespace HeaderChain

/-- A header with the time of its first acceptance. -/
structure SeenHeader where
  header : Header
  firstSeen : UInt64
  deriving DecidableEq

/-- A read of a store. -/
abbrev StoreRead (σ α : Type) := EStateM StoreError σ α

/-- Read access to validated headers. An unknown header is no failure: it has no answer. -/
class HeaderSource (σ : Type) where
  /-- The header under a hash. -/
  fetch : BlockHash → StoreRead σ (Option SeenHeader)
  /-- The height of the header under a hash. -/
  heightFor : BlockHash → StoreRead σ (Option Height)
  /-- The work from genesis through the header under a hash. -/
  workThrough : BlockHash → StoreRead σ (Option Work)
  /-- The work that a single header adds. -/
  workOf : σ → Header → Work := fun _ header => header.work

/-- The store that knows no headers. -/
structure EmptyStore where
  deriving DecidableEq

instance : HeaderSource EmptyStore where
  fetch _ := pure none
  heightFor _ := pure none
  workThrough _ := pure none

namespace StoreRead

/-- Reads a store that may be absent. An absent one has no answer. -/
def ofPresent {σ α : Type} (read : StoreRead σ (Option α)) : StoreRead (Option σ) (Option α)
  | none => .ok none none
  | some store =>
      match read store with
      | .ok answer store => .ok answer (some store)
      | .error error store => .error error (some store)

end StoreRead

/-- An absent store knows no headers and leaves their work at its default. -/
instance {σ : Type} [HeaderSource σ] : HeaderSource (Option σ) where
  fetch hash := (HeaderSource.fetch hash).ofPresent
  heightFor hash := (HeaderSource.heightFor hash).ofPresent
  workThrough hash := (HeaderSource.workThrough hash).ofPresent
  workOf store header :=
    match store with
    | none => header.work
    | some store => HeaderSource.workOf store header

end HeaderChain
