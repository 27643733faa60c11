import HeaderChain.Store.Source

/-! A store together with the log of its reads. Logging changes no answer. -/

namespace HeaderChain

/-- A read that a store was asked for. -/
inductive StoreCall
  | fetch (hash : BlockHash)
  | heightFor (hash : BlockHash)
  | workThrough (hash : BlockHash)
  deriving DecidableEq

/-- A store and the reads it was asked for, earliest first. -/
structure Logged (σ : Type) where
  inner : σ
  calls : List StoreCall

namespace Logged

/-- Logs a read and passes it on. -/
def record {σ α : Type} (call : StoreCall) (read : StoreRead σ α)
    : StoreRead (Logged σ) α := fun store =>
  let calls := store.calls ++ [call]
  match read store.inner with
  | .ok answer inner => .ok answer ⟨inner, calls⟩
  | .error error inner => .error error ⟨inner, calls⟩

instance {σ : Type} [HeaderSource σ] : HeaderSource (Logged σ) where
  fetch hash := record (.fetch hash) (HeaderSource.fetch hash)
  heightFor hash := record (.heightFor hash) (HeaderSource.heightFor hash)
  workThrough hash := record (.workThrough hash) (HeaderSource.workThrough hash)
  workOf store header := HeaderSource.workOf store.inner header

end Logged

end HeaderChain
