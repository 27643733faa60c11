import HeaderChain.Index.Comparison
import HeaderChain.Index.Membership
import HeaderChain.Index.Walk

/-! The operations of an index as data, so that a course of events is a list. -/

namespace HeaderChain

/-- An operation that may change an index. -/
inductive Operation
  | insert (header : Header) (height : Option Height) (baseline : Work) (firstSeen : UInt64)
  | extend (header : Header) (firstSeen : UInt64)
  | lookup (key : BlockHash)
  | parent (key : BlockHash)
  | ancestor (key : BlockHash) (depth : UInt32)
  | findFork (budget : Nat) (left right : BlockHash)
  | isMoreWork (base other : Record) (newHash : BlockHash) (newWork : Work)
  | remove (key : BlockHash)
  | evict
  deriving DecidableEq

/-- What an operation answers. -/
inductive Answer
  | flag (value : Bool)
  | record (found : Option Record)
  | hash (found : Option BlockHash)
  | done
  deriving DecidableEq

namespace Operation

variable {σ : Type} [HeaderSource σ]

/-- Carries an operation out. -/
def perform : Operation → IndexM σ Answer
  | .insert header height baseline firstSeen =>
      return .flag (← IndexM.insert header height baseline firstSeen)
  | .extend header firstSeen => return .flag (← IndexM.extend header firstSeen)
  | .lookup key => return .record (← IndexM.lookup key)
  | .parent key => return .record (← IndexM.parent key)
  | .ancestor key depth => return .hash (← IndexM.ancestor key depth.toNat)
  | .findFork budget left right => return .hash (← IndexM.findFork budget left right)
  | .isMoreWork base other newHash newWork =>
      return .flag (← IndexM.isMoreWork base other newHash newWork)
  | .remove key => return .record (← IndexM.remove key)
  | .evict => do
      IndexM.evict
      return .done

/-- The index after an operation, whether it has an answer or fails. -/
def next (operation : Operation) (index : Index σ) : Index σ :=
  match operation.perform index with
  | .ok _ index => index
  | .error _ index => index

end Operation

end HeaderChain
