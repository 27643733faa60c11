import HeaderChain.KeyedTable
import HeaderChain.Store.Source

/-! A store whose answers are written down beforehand, failures included. It may serve a header
under a hash that is not the header's own.
-/

namespace HeaderChain

/-- The answers about one hash. -/
structure ScriptEntry where
  fetch : Except StoreError (Option SeenHeader)
  height : Except StoreError (Option Height)
  work : Except StoreError (Option Work)

namespace ScriptEntry

/-- The entry of an unknown header. -/
def unknown : ScriptEntry :=
  ⟨.ok none, .ok none, .ok none⟩

end ScriptEntry

/-- Written answers by hash, and the work of headers with particular bits. -/
structure Script where
  entries : KeyedTable BlockHash ScriptEntry
  works : KeyedTable UInt32 Work

namespace Script

/-- The answers about a hash. -/
def entry (script : Script) (hash : BlockHash) : ScriptEntry :=
  (script.entries.get? hash).getD .unknown

/-- The script with other answers about a hash. -/
def put (script : Script) (hash : BlockHash) (entry : ScriptEntry) : Script :=
  { script with entries := script.entries.put hash entry }

/-- The script with another work for headers with particular bits. -/
def putWork (script : Script) (bits : UInt32) (work : Work) : Script :=
  { script with works := script.works.put bits work }

/-- Gives a written answer. -/
def answer {α : Type} (written : Script → Except StoreError α) : StoreRead Script α := fun script =>
  match written script with
  | .ok value => .ok value script
  | .error error => .error error script

instance : HeaderSource Script where
  fetch hash := answer fun script => (script.entry hash).fetch
  heightFor hash := answer fun script => (script.entry hash).height
  workThrough hash := answer fun script => (script.entry hash).work
  workOf script header := (script.works.get? header.bits).getD header.work

end Script

end HeaderChain
