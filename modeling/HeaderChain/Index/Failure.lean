import HeaderChain.Store.Error

/-! Why an index operation has no answer. An unknown header is not among the reasons, unless its
child is to be added.
-/

namespace HeaderChain

/-- The reasons why an operation fails. Sums of work that do not fit and walks that exceed their
step budget count among them.
-/
inductive Failure
  | storage (error : StoreError)
  | missingChainWork (hash : BlockHash)
  | unknownParent (hash parent : BlockHash)
  | workOverflow
  | unfinished
  deriving DecidableEq

namespace Failure

/-- The text of a failure. -/
def message : Failure → String
  | .storage error => "header store failure: " ++ error.message
  | .missingChainWork hash =>
      "header store knows " ++ hash.text ++ " but has no chain work for it"
  | .unknownParent hash parent =>
      "header " ++ hash.text ++ " extends unknown parent " ++ parent.text
  | .workOverflow => "Addition of U256 values overflowed"
  | .unfinished => "walk exceeds its step budget"

end Failure

end HeaderChain
