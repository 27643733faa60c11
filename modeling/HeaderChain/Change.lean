import HeaderChain.Resident

/-! The changes that can happen to the resident part of an index, as data. A record enters either
by hydration or as a candidate; evictions belong to the change that made them necessary.
-/

namespace HeaderChain

/-- A change of the resident part. -/
inductive Change
  | hydrated (key : BlockHash) (record : Record)
  | indexed (record : Record)
  | removed (key : BlockHash)
  | linked (child parent : BlockHash)
  | trimmed
  deriving DecidableEq

namespace Resident

/-- Carries a change out. -/
def apply (resident : Resident) : Change → Resident
  | .hydrated key record => resident.enter key record
  | .indexed record => resident.enterTip record
  | .removed key => resident.remove key
  | .linked child parent => resident.link child parent
  | .trimmed => resident.evictToCeiling

/-- What a course of changes, latest first, makes of an empty resident part. -/
def replay (config : Config) (changes : List Change) : Resident :=
  changes.foldr (fun change resident => resident.apply change) (.empty config)

end Resident

end HeaderChain
