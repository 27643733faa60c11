/-! How many records may stay resident. -/

namespace HeaderChain

/-- The options of an index: the greatest number of resident records, where zero sets no bound.
Without a choice it is one retarget period.
-/
structure Config where
  headersLimit : Nat := 2016
  deriving DecidableEq

namespace Config

instance : Inhabited Config := ⟨{}⟩

/-- Records are never evicted. -/
def unbounded : Config where
  headersLimit := 0

/-- The options with another limit. -/
def withHeadersLimit (config : Config) (limit : Nat) : Config :=
  { config with headersLimit := limit }

/-- The ceiling on resident records, if there is one. -/
def ceiling (config : Config) : Option Nat :=
  if config.headersLimit = 0 then none else some config.headersLimit

end Config

end HeaderChain
