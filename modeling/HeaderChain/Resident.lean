import HeaderChain.Config
import HeaderChain.KeyedTable
import HeaderChain.Tips

/-! The part of an index that is held in memory: records under their hashes in the order of their
arrival, and the candidates for the best chain. Eviction takes the oldest records first and leaves
no link to them behind.
-/

namespace HeaderChain

/-- The records held in memory and the candidates among them. -/
structure Resident where
  config : Config
  table : KeyedTable BlockHash Record
  tips : Tips

namespace Resident

/-- Nothing held yet. -/
def empty (config : Config) : Resident :=
  ⟨config, .empty, .empty⟩

/-- The number of resident records. -/
def size (resident : Resident) : Nat :=
  resident.table.size

/-- Whether a hash has a resident record. -/
def contains (resident : Resident) (hash : BlockHash) : Bool :=
  resident.table.contains hash

/-- The resident record under a hash. -/
def get? (resident : Resident) (hash : BlockHash) : Option Record :=
  resident.table.get? hash

/-- The record of the best candidate. -/
def bestRecord? (resident : Resident) : Option Record :=
  resident.tips.best?.bind resident.get?

/-- Takes a record off the children of its parent, if the link is resolved and the parent is in the
table.
-/
def detach (table : KeyedTable BlockHash Record) (record : Record)
    : KeyedTable BlockHash Record :=
  match record.parent with
  | none => table
  | some parent => table.modify parent fun above => above.withoutChild record.hash

/-- Clears the links of a record's children to the key it was under. -/
def orphan (table : KeyedTable BlockHash Record) (key : BlockHash) (record : Record)
    : KeyedTable BlockHash Record :=
  record.children.foldl
    (fun table child => table.modify child fun below => below.withoutParent key) table

/-- Drops the oldest record together with its candidacy and all links to it. -/
def evictOldest (resident : Resident) : Resident :=
  match resident.table.oldest? with
  | none => resident
  | some (key, record) =>
      { resident with
        table := detach (orphan resident.table.eraseOldest key record) record
        tips := resident.tips.erase record }

/-- Drops the oldest records for as long as there are more than the ceiling allows. -/
def evictToCeiling (resident : Resident) : Resident :=
  match resident.config.ceiling with
  | none => resident
  | some ceiling => Nat.repeat evictOldest (resident.size - ceiling) resident

/-- Adds a record under a key, then evicts what exceeds the ceiling. -/
def enter (resident : Resident) (key : BlockHash) (record : Record) : Resident :=
  evictToCeiling { resident with table := resident.table.put key record }

/-- Adds a record under its own hash and as a candidate, then evicts what exceeds the ceiling. -/
def enterTip (resident : Resident) (record : Record) : Resident :=
  enter { resident with tips := resident.tips.insert record } record.hash record

/-- Takes out the record under a key. Its children keep their links; its parent forgets it. -/
def remove (resident : Resident) (key : BlockHash) : Resident :=
  match resident.get? key with
  | none => resident
  | some record =>
      { resident with
        table := detach (resident.table.erase key) record
        tips := resident.tips.erase record }

/-- Links a resident child with its parent, in both directions. -/
def link (resident : Resident) (child parent : BlockHash) : Resident :=
  { resident with
    table := (resident.table.modify child fun below => below.withParent parent).modify parent
      fun above => above.withChild child }

end Resident

end HeaderChain
