import HeaderChain.Header
import HeaderChain.Store.Cell

/-! What can go wrong in a store. A failure has a chain of texts, the outermost cause first.
-/

namespace HeaderChain

/-- The columns that are read from a stored row. -/
inductive Column
  | header
  | firstSeen
  | height
  | chainWork
  deriving DecidableEq, Repr

namespace Column

/-- The name of a column. -/
def name : Column → String
  | .header => "header"
  | .firstSeen => "first_seen"
  | .height => "height"
  | .chainWork => "chain_work"

/-- The place of a column in what is read: a header comes with its acceptance time, all else is
read alone.
-/
def place : Column → Nat
  | .firstSeen => 1
  | _ => 0

end Column

/-- A failure of a store. -/
inductive StoreError
  | poisoned
  | parentNotStored (parent : BlockHash)
  | firstSeenTooLarge
  | firstSeenNegative
  | undecodable (hash : BlockHash) (flaw : Header.Flaw)
  | wrongKind (column : Column) (kind : String)
  | notUtf8 (column : Column) (flaw : Utf8.Flaw)
  | heightOutOfRange (value : Int64)
  | workNotHex (flaw : Hex.Flaw)
  | workNotFullWidth (hash : BlockHash)
  | reported (texts : List String)
  deriving DecidableEq

namespace StoreError

/-- The texts of a failure, outermost cause first. -/
def chain : StoreError → List String
  | .poisoned => ["memory header store lock poisoned"]
  | .parentNotStored parent => ["parent " ++ parent.text ++ " is not stored"]
  | .firstSeenTooLarge => ["first_seen out of range", "number too large to fit in target type"]
  | .firstSeenNegative => ["negative first_seen", "number too small to fit in target type"]
  | .undecodable hash flaw => [
      "decode stored header " ++ hash.text,
      match flaw with
      | .tooShort => "IO error: I/O Error: UnexpectedEof"
      | .tooLong => "parse failed: data not consumed entirely when explicitly deserializing"]
  | .wrongKind column kind => [
      "Invalid column type " ++ kind ++ " at index: " ++ toString column.place
        ++ ", name: " ++ column.name]
  | .notUtf8 column flaw => [
      "Conversion error from type Text at index: " ++ toString column.place ++ ", " ++ flaw.message,
      flaw.message]
  | .heightOutOfRange value => [
      "Integer " ++ toString value.toInt ++ " out of range at index "
        ++ toString Column.height.place]
  | .workNotHex flaw => ["parse chain_work", flaw.message]
  | .workNotFullWidth hash => ["chain_work for " ++ hash.text ++ " is not 32 bytes"]
  | .reported texts => texts

/-- The chain as one line. -/
def message (error : StoreError) : String :=
  ": ".intercalate error.chain

end StoreError

end HeaderChain
