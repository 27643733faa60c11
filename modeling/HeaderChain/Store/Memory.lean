import HeaderChain.KeyedTable
import HeaderChain.Store.Source

/-! A store that keeps headers in memory and can derive height and work from a stored parent. A sum
of work that does not fit poisons the store: from then on everything but counting fails.
-/

namespace HeaderChain

/-- A header with everything that is known about it. -/
structure KnownHeader where
  header : Header
  height : Option Height
  chainWork : Work
  firstSeen : UInt64
  deriving DecidableEq

namespace KnownHeader

/-- The entry of a header on top of a stored parent, if the work fits. -/
def child? (parent : KnownHeader) (header : Header) (firstSeen : UInt64)
    : Option KnownHeader :=
  (parent.chainWork.add? header.work).map fun chainWork =>
    ⟨header, parent.height.bind Height.next?, chainWork, firstSeen⟩

end KnownHeader

/-- Headers under their hashes, the number of all fetches so far, which never wraps around, and
whether an overflow has poisoned the store.
-/
structure MemoryStore where
  headers : KeyedTable BlockHash KnownHeader
  fetches : Nat
  poisoned : Bool

namespace MemoryStore

/-- Why a header was not appended: the store refused, or the work does not fit. -/
inductive AppendFailure
  | refused (error : StoreError)
  | workOverflow
  deriving DecidableEq

/-- A store without headers. -/
def empty : MemoryStore :=
  ⟨.empty, 0, false⟩

instance : Inhabited MemoryStore := ⟨empty⟩

/-- The stored headers, unless the store is poisoned. -/
def read : StoreRead MemoryStore (KeyedTable BlockHash KnownHeader) := fun store =>
  if store.poisoned then .error .poisoned store else .ok store.headers store

/-- Replaces the stored headers. -/
def write (headers : KeyedTable BlockHash KnownHeader) : StoreRead MemoryStore Unit :=
  modify fun store => { store with headers }

/-- Stores a header with the given metadata under its hash, in place of an earlier entry. -/
def put (entry : KnownHeader) : StoreRead MemoryStore BlockHash := do
  let headers ← read
  write (headers.put entry.header.hash entry)
  return entry.header.hash

/-- Removes a header; tells whether it was stored. -/
def forget (hash : BlockHash) : StoreRead MemoryStore Bool := do
  let headers ← read
  write (headers.erase hash)
  return headers.contains hash

/-- The number of stored headers. -/
def size : StoreRead MemoryStore Nat := do
  return (← read).size

/-- Whether no header is stored. -/
def isEmpty : StoreRead MemoryStore Bool := do
  return (← read).size = 0

/-- A step on the store whose refusal is reported as such. -/
def orRefuse {α : Type} (step : StoreRead MemoryStore α)
    : EStateM AppendFailure MemoryStore α := fun store =>
  match step store with
  | .ok answer store => .ok answer store
  | .error error store => .error (.refused error) store

/-- Poisons the store and reports the overflow. -/
def overflow {α : Type} : EStateM AppendFailure MemoryStore α := fun store =>
  .error .workOverflow { store with poisoned := true }

/-- Stores a header with the height and work that follow from its stored parent. A header without
predecessor starts at height zero.
-/
def append (header : Header) (firstSeen : UInt64) : EStateM AppendFailure MemoryStore BlockHash :=
  if header.isGenesis then orRefuse (put ⟨header, some 0, header.work, firstSeen⟩)
  else do
    let headers ← orRefuse read
    match headers.get? header.prev with
    | none => throw (.refused (.parentNotStored header.prev))
    | some parent =>
        match parent.child? header firstSeen with
        | none => overflow
        | some entry => orRefuse (put entry)

/-- Counts a fetch. -/
def countFetch : StoreRead MemoryStore Unit :=
  modify fun store => { store with fetches := store.fetches + 1 }

/-- Every fetch counts, also one that fails. -/
instance : HeaderSource MemoryStore where
  fetch hash := do
    countFetch
    return ((← read).get? hash).map fun entry => ⟨entry.header, entry.firstSeen⟩
  heightFor hash := do
    return ((← read).get? hash).bind KnownHeader.height
  workThrough hash := do
    return ((← read).get? hash).map KnownHeader.chainWork

end MemoryStore

end HeaderChain
