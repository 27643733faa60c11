import HeaderChain.Change
import HeaderChain.Index.Failure
import HeaderChain.Store.Source

/-! An index of block headers: a resident part that is filled from a store, with a journal of the
changes to it. Operations run on the index and keep every change made before a failure.
-/

namespace HeaderChain

/-- Resident records, the store they are hydrated from, and the changes so far, latest first. -/
structure Index (σ : Type) where
  store : σ
  resident : Resident
  journal : List Change

/-- An operation on an index. -/
abbrev IndexM (σ : Type) := EStateM Failure (Index σ)

namespace Index

variable {σ : Type}

/-- An index over a store, with nothing resident. -/
def new (store : σ) (config : Config) : Index σ :=
  ⟨store, .empty config, []⟩

/-- The number of resident records. -/
def size (index : Index σ) : Nat :=
  index.resident.size

/-- Whether no record is resident. -/
def isEmpty (index : Index σ) : Bool :=
  index.size = 0

/-- Whether a hash has a resident record. -/
def contains (index : Index σ) (hash : BlockHash) : Bool :=
  index.resident.contains hash

/-- The resident record under a hash. -/
def get? (index : Index σ) (hash : BlockHash) : Option Record :=
  index.resident.get? hash

/-- The ceiling on resident records, if there is one. -/
def ceiling (index : Index σ) : Option Nat :=
  index.resident.config.ceiling

/-- The hashes of the candidates for the best chain, best first. -/
def tips (index : Index σ) : List BlockHash :=
  index.resident.tips.hashes

/-- The number of candidates. -/
def tipCount (index : Index σ) : Nat :=
  index.resident.tips.size

/-- The hash of the best candidate. -/
def bestTip? (index : Index σ) : Option BlockHash :=
  index.resident.tips.best?

/-- The record of the best candidate. -/
def bestTipRecord? (index : Index σ) : Option Record :=
  index.resident.bestRecord?

end Index

namespace IndexM

variable {σ : Type}

/-- The resident part as it is. -/
def resident : IndexM σ Resident :=
  fun index => .ok index.resident index

/-- Carries out a change of the resident part and enters it in the journal. -/
def commit (change : Change) : IndexM σ Unit := fun index =>
  .ok () { index with
    resident := index.resident.apply change
    journal := change :: index.journal }

/-- Reads the store. -/
def ofStore {α : Type} (read : StoreRead σ α) : IndexM σ α := fun index =>
  match read index.store with
  | .ok answer store => .ok answer { index with store }
  | .error error store => .error (.storage error) { index with store }

/-- The work that a single header adds, as the store has it. -/
def workOf [HeaderSource σ] (header : Header) : IndexM σ Work :=
  fun index => .ok (HeaderSource.workOf index.store header) index

/-- The sum of two amounts of work, which must fit. -/
def sum (left right : Work) : IndexM σ Work :=
  match left.add? right with
  | some work => pure work
  | none => throw .workOverflow

end IndexM

end HeaderChain
