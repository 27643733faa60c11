import HeaderChain.Change

/-! What each change does to the records that are resident. Changes of links leave everything else
about a record alone; evictions take the oldest keys, and a record that enters survives them.
-/

namespace HeaderChain

/-- The record without its links: everything about it that never changes. -/
def Record.withoutLinks (record : Record) : Record :=
  .unlinked record.header record.height record.work record.firstSeen

namespace Record

@[simp] theorem withoutLinks_withParent (record : Record) (parent : BlockHash)
    : (record.withParent parent).withoutLinks = record.withoutLinks :=
  rfl

@[simp] theorem withoutLinks_withoutParent (record : Record) (parent : BlockHash)
    : (record.withoutParent parent).withoutLinks = record.withoutLinks := by
  rw [withoutParent]
  split <;> rfl

@[simp] theorem withoutLinks_withChild (record : Record) (child : BlockHash)
    : (record.withChild child).withoutLinks = record.withoutLinks := by
  rw [withChild]
  split <;> rfl

@[simp] theorem withoutLinks_withoutChild (record : Record) (child : BlockHash)
    : (record.withoutChild child).withoutLinks = record.withoutLinks :=
  rfl

/-- Records that agree apart from their links have the same header, height, work and time. -/
theorem withoutLinks_inj {left right : Record}
    : left.withoutLinks = right.withoutLinks
      ↔ left.header = right.header ∧ left.height = right.height ∧ left.work = right.work
        ∧ left.firstSeen = right.firstSeen := by
  simp [withoutLinks, unlinked]

theorem hash_eq_of_withoutLinks {left right : Record}
    (same : left.withoutLinks = right.withoutLinks)
    : left.hash = right.hash := by
  rw [hash, hash, (withoutLinks_inj.mp same).1]

theorem prev_eq_of_withoutLinks {left right : Record}
    (same : left.withoutLinks = right.withoutLinks)
    : left.prev = right.prev := by
  rw [prev, prev, (withoutLinks_inj.mp same).1]

end Record

namespace KeyedTable

variable {κ α : Type} [DecidableEq κ]

/-- The oldest entry is the value under its key, and erasing it touches no other key. -/
theorem get?_of_oldest? {table : KeyedTable κ α} {key : κ} {value : α}
    (oldest : table.oldest? = some (key, value))
    : table.get? key = some value := by
  obtain ⟨entries, nodup⟩ := table
  cases entries with
  | nil => cases oldest
  | cons entry rest =>
      cases oldest
      simp [get?]

theorem get?_eraseOldest {table : KeyedTable κ α} {key : κ} {value : α}
    (oldest : table.oldest? = some (key, value)) (other : κ)
    : table.eraseOldest.get? other = if other = key then none else table.get? other := by
  obtain ⟨entries, nodup⟩ := table
  cases entries with
  | nil => cases oldest
  | cons entry rest =>
      cases oldest
      have absent : ∀ entry ∈ rest, entry.1 ≠ key := by
        intro entry member same
        exact (List.nodup_cons.mp nodup).1 (List.mem_map.mpr ⟨entry, member, same⟩)
      split
      · next same =>
          subst same
          simpa [get?, eraseOldest] using absent
      · next different =>
          simp [get?, eraseOldest, Ne.symm different]

end KeyedTable

namespace Resident

variable {table : KeyedTable BlockHash Record} {resident : Resident}

-----------------------------------------------------------------------------------------
-- Links
-----------------------------------------------------------------------------------------

/-- Detaching a record takes it off the children of the record its parent link names. -/
theorem get?_detach (record : Record) (key : BlockHash)
    : (detach table record).get? key
      = (table.get? key).map fun found =>
          if record.parent = some key then found.withoutChild record.hash else found := by
  rw [detach]
  cases named : record.parent with
  | none => simp
  | some parent =>
      simp only [KeyedTable.get?_modify, Option.some.injEq]
      by_cases same : key = parent
      · subst same
        simp
      · simp [same, Ne.symm same]

/-- Orphaning clears the links to the key in the records that are listed as children. -/
theorem get?_orphan (key : BlockHash) (record : Record) (other : BlockHash)
    : (orphan table key record).get? other
      = (table.get? other).map fun found =>
          if other ∈ record.children then found.withoutParent key else found := by
  rw [orphan]
  have twice (found : Record)
      : (found.withoutParent key).withoutParent key = found.withoutParent key := by
    simp only [Record.withoutParent]
    split <;> simp_all
  induction record.children generalizing table with
  | nil => simp
  | cons child rest ih =>
      rw [List.foldl_cons, ih, KeyedTable.get?_modify]
      by_cases same : other = child
      · subst same
        cases table.get? other with
        | none => simp
        | some found =>
            by_cases again : other ∈ rest <;> simp [again, twice]
      · simp [same]

@[simp] theorem keys_detach (record : Record)
    : (detach table record).keys = table.keys := by
  rw [detach]
  split
  · rfl
  · exact KeyedTable.keys_modify _ _ _

@[simp] theorem keys_orphan (key : BlockHash) (record : Record)
    : (orphan table key record).keys = table.keys := by
  rw [orphan]
  induction record.children generalizing table with
  | nil => rfl
  | cons child rest ih => rw [List.foldl_cons, ih, KeyedTable.keys_modify]

/-- Linking changes the parent link of the child and the children of the parent, and nothing
else.
-/
theorem get?_link (child parent key : BlockHash)
    : (resident.link child parent).get? key
      = (resident.get? key).map fun found =>
          let below := if key = child then found.withParent parent else found
          if key = parent then below.withChild child else below := by
  simp only [link, get?, KeyedTable.get?_modify]
  by_cases above : key = parent
  · subst above
    by_cases below : key = child
    · subst below
      simp [Function.comp_def]
    · simp [below]
  · by_cases below : key = child
    · subst below
      simp [above]
    · simp [above, below]

@[simp] theorem keys_link (child parent : BlockHash)
    : (resident.link child parent).table.keys = resident.table.keys := by
  simp [link]

-----------------------------------------------------------------------------------------
-- Departures
-----------------------------------------------------------------------------------------

/-- A removed key is gone. The children of its record keep their links, and its parent forgets
it.
-/
theorem get?_remove {key : BlockHash} {record : Record}
    (found : resident.get? key = some record) (other : BlockHash)
    : (resident.remove key).get? other
      = if other = key then none
        else
          (resident.get? other).map fun found =>
            if record.parent = some other then found.withoutChild record.hash else found := by
  rw [remove, found]
  simp only [get?, get?_detach, KeyedTable.get?_erase]
  by_cases same : other = key
  · simp [same]
  · simp [same]

theorem remove_of_absent {key : BlockHash} (absent : resident.get? key = none)
    : resident.remove key = resident := by
  rw [remove, absent]

theorem keys_remove {key : BlockHash} {record : Record}
    (found : resident.get? key = some record)
    : (resident.remove key).table.keys = resident.table.keys.filter (· ≠ key) := by
  rw [remove, found]
  simp [KeyedTable.keys_erase]

/-- An evicted record is gone. Its children lose their links to it, and its parent forgets it. -/
theorem get?_evictOldest {key : BlockHash} {record : Record}
    (oldest : resident.table.oldest? = some (key, record)) (other : BlockHash)
    : resident.evictOldest.get? other
      = if other = key then none
        else
          (resident.get? other).map fun found =>
            let orphaned := if other ∈ record.children then found.withoutParent key else found
            if record.parent = some other then orphaned.withoutChild record.hash
            else orphaned := by
  rw [evictOldest, oldest]
  simp only [get?, get?_detach, get?_orphan, KeyedTable.get?_eraseOldest oldest]
  by_cases same : other = key
  · simp [same]
  · simp [same, Function.comp_def]

theorem evictOldest_of_empty (empty : resident.table.oldest? = none)
    : resident.evictOldest = resident := by
  rw [evictOldest, empty]

@[simp] theorem keys_evictOldest (resident : Resident)
    : resident.evictOldest.table.keys = resident.table.keys.tail := by
  rw [evictOldest]
  split
  · next empty =>
      have none : resident.table.entries = [] := List.head?_eq_none_iff.mp empty
      simp [KeyedTable.keys, none]
  · simp

@[simp] theorem config_evictOldest (resident : Resident)
    : resident.evictOldest.config = resident.config := by
  rw [evictOldest]
  split <;> rfl

theorem length_keys (resident : Resident) : resident.table.keys.length = resident.size :=
  List.length_map _

/-- The number of records above the ceiling. -/
def excess (resident : Resident) : Nat :=
  resident.config.ceiling.elim 0 fun ceiling => resident.size - ceiling

theorem evictToCeiling_eq_repeat (resident : Resident)
    : resident.evictToCeiling = Nat.repeat evictOldest resident.excess resident := by
  rw [evictToCeiling, excess]
  cases resident.config.ceiling <;> rfl

/-- What evicting one record keeps, evicting to the ceiling keeps, by induction on the number of
evictions.
-/
theorem evictToCeiling_keeps (property : Resident → Prop)
    (step : ∀ resident, property resident → property resident.evictOldest)
    (start : property resident)
    : property resident.evictToCeiling := by
  rw [evictToCeiling_eq_repeat]
  induction resident.excess with
  | zero => exact start
  | succ count ih => exact step _ ih

theorem keys_evictToCeiling (resident : Resident)
    : resident.evictToCeiling.table.keys = resident.table.keys.drop resident.excess := by
  rw [evictToCeiling_eq_repeat]
  induction resident.excess with
  | zero => simp [Nat.repeat]
  | succ count ih => rw [Nat.repeat, keys_evictOldest, ih, List.tail_drop]

-----------------------------------------------------------------------------------------
-- What stays
-----------------------------------------------------------------------------------------

/-- The record under a key without its links. -/
def unlinked? (resident : Resident) (key : BlockHash) : Option Record :=
  (resident.get? key).map Record.withoutLinks

theorem unlinked?_of_get? {key : BlockHash} {record : Record}
    (found : resident.get? key = some record)
    : resident.unlinked? key = some record.withoutLinks := by
  rw [unlinked?, found, Option.map_some]

theorem unlinked?_eq_none_iff {key : BlockHash}
    : resident.unlinked? key = none ↔ resident.get? key = none :=
  Option.map_eq_none_iff

@[simp] theorem unlinked?_link (child parent key : BlockHash)
    : (resident.link child parent).unlinked? key = resident.unlinked? key := by
  rw [unlinked?, unlinked?, get?_link, Option.map_map]
  congr 1
  funext found
  dsimp only [Function.comp]
  split <;> split <;> simp

theorem unlinked?_remove {key : BlockHash} {record : Record}
    (found : resident.get? key = some record) (other : BlockHash)
    : (resident.remove key).unlinked? other
      = if other = key then none else resident.unlinked? other := by
  rw [unlinked?, unlinked?, get?_remove found]
  split
  · rfl
  · rw [Option.map_map]
    congr 1
    funext found
    dsimp only [Function.comp]
    split <;> simp

theorem unlinked?_evictOldest {key : BlockHash} {record : Record}
    (oldest : resident.table.oldest? = some (key, record)) (other : BlockHash)
    : resident.evictOldest.unlinked? other
      = if other = key then none else resident.unlinked? other := by
  rw [unlinked?, unlinked?, get?_evictOldest oldest]
  split
  · rfl
  · rw [Option.map_map]
    congr 1
    funext found
    dsimp only [Function.comp]
    split <;> split <;> simp

theorem unlinked?_put (key other : BlockHash) (record : Record)
    : ({ resident with table := resident.table.put key record }).unlinked? other
      = if other = key then some record.withoutLinks else resident.unlinked? other := by
  simp only [unlinked?, get?, KeyedTable.get?_put]
  split <;> rfl

/-- Every record after is one from before, apart from its links. -/
def Shrinks (before after : Resident) : Prop :=
  ∀ key entry, after.unlinked? key = some entry → before.unlinked? key = some entry

theorem Shrinks.refl (resident : Resident) : resident.Shrinks resident :=
  fun _ _ => id

theorem Shrinks.trans {first second third : Resident}
    (before : first.Shrinks second) (after : second.Shrinks third)
    : first.Shrinks third :=
  fun key entry found => before key entry (after key entry found)

theorem shrinks_evictOldest (resident : Resident) : resident.Shrinks resident.evictOldest := by
  intro key entry found
  cases oldest : resident.table.oldest? with
  | none => rwa [evictOldest_of_empty oldest] at found
  | some victim =>
      rw [unlinked?_evictOldest oldest] at found
      split at found
      · cases found
      · exact found

theorem shrinks_evictToCeiling (resident : Resident)
    : resident.Shrinks resident.evictToCeiling :=
  evictToCeiling_keeps resident.Shrinks
    (fun kept shrunk => shrunk.trans (shrinks_evictOldest kept)) (Shrinks.refl resident)

theorem shrinks_remove (resident : Resident) (key : BlockHash)
    : resident.Shrinks (resident.remove key) := by
  intro other entry found
  cases under : resident.get? key with
  | none => rwa [remove_of_absent under] at found
  | some gone =>
      rw [unlinked?_remove under] at found
      split at found
      · cases found
      · exact found

-----------------------------------------------------------------------------------------
-- Entries
-----------------------------------------------------------------------------------------

/-- A record after an entry is the one that entered or one from before, apart from its links. -/
theorem unlinked?_enter {key other : BlockHash} {record entry : Record}
    (under : (resident.enter key record).unlinked? other = some entry)
    : (if other = key then some record.withoutLinks else resident.unlinked? other)
      = some entry := by
  rw [← unlinked?_put]
  exact shrinks_evictToCeiling _ other entry under

/-- A new key goes to the back, before the evictions. -/
theorem keys_enter {key : BlockHash} {record : Record} (absent : resident.get? key = none)
    : (resident.enter key record).table.keys
      = (resident.table.keys ++ [key]).drop
          (resident.config.ceiling.elim 0 fun ceiling => resident.size + 1 - ceiling) := by
  have fresh : key ∉ resident.table.keys := KeyedTable.get?_eq_none_iff.mp absent
  have keys := KeyedTable.keys_put_of_not_mem fresh record
  have size : (resident.table.put key record).size = resident.size + 1 := by
    have lengths := congrArg List.length keys
    simpa [KeyedTable.keys, KeyedTable.size, Resident.size] using lengths
  rw [enter, keys_evictToCeiling, keys, excess]
  simp only [Resident.size] at size ⊢
  rw [size]

/-- Without a ceiling nothing is evicted. -/
theorem evictToCeiling_of_unlimited (unlimited : resident.config.ceiling = none)
    : resident.evictToCeiling = resident := by
  rw [evictToCeiling, unlimited]

theorem get?_enter_of_unlimited (unlimited : resident.config.ceiling = none)
    (key other : BlockHash) (record : Record)
    : (resident.enter key record).get? other
      = if other = key then some record else resident.get? other := by
  let after : Resident := { resident with table := resident.table.put key record }
  have kept : after.evictToCeiling = after := evictToCeiling_of_unlimited unlimited
  rw [enter, kept]
  exact KeyedTable.get?_put _ _ _ _

theorem mem_keys_iff {key : BlockHash}
    : key ∈ resident.table.keys ↔ ∃ record, resident.get? key = some record := by
  rw [← KeyedTable.contains_iff, ← KeyedTable.isSome_get?, Option.isSome_iff_exists]
  rfl

theorem contains_iff {key : BlockHash}
    : resident.contains key = true ↔ ∃ record, resident.get? key = some record :=
  KeyedTable.contains_iff.trans mem_keys_iff

theorem contains_eq_false_iff {key : BlockHash}
    : resident.contains key = false ↔ resident.get? key = none := by
  rw [get?, ← Option.isNone_iff_eq_none, ← Option.not_isSome, KeyedTable.isSome_get?,
    Bool.not_eq_true']
  rfl

@[simp] theorem contains_link {child parent key : BlockHash}
    : (resident.link child parent).contains key = resident.contains key := by
  rw [Bool.eq_iff_iff, contains, contains, KeyedTable.contains_iff, KeyedTable.contains_iff,
    keys_link]

/-- The candidates are in order, and each is the one that the record under its hash stands for. -/
structure Listing (resident : Resident) : Prop where
  sorted : resident.tips.members.Pairwise Tip.Precedes
  backed
    : ∀ tip ∈ resident.tips.members,
        ∃ entry, resident.unlinked? tip.hash = some entry ∧ entry.tip = tip

theorem Listing.nodup (listing : resident.Listing) : resident.tips.members.Nodup :=
  Tip.nodup_of_pairwise listing.sorted

theorem Listing.record_of_mem (listing : resident.Listing) {tip : Tip}
    (member : tip ∈ resident.tips.members)
    : ∃ record, resident.get? tip.hash = some record ∧ record.tip = tip := by
  obtain ⟨entry, under, own⟩ := listing.backed tip member
  obtain ⟨record, found, same⟩ := Option.map_eq_some_iff.mp under
  refine ⟨record, found, ?_⟩
  rw [← own, ← same]
  rfl

/-- Candidates of one hash stand for one record, so the hashes do not repeat. -/
theorem Listing.hashes_nodup (listing : resident.Listing) : resident.tips.hashes.Nodup := by
  refine List.pairwise_map.mpr (listing.sorted.imp_of_mem ?_)
  intro left right member member' precedes same
  obtain ⟨record, found, own⟩ := listing.record_of_mem member
  obtain ⟨record', found', own'⟩ := listing.record_of_mem member'
  rw [same, found'] at found
  cases found
  rw [← own, own'] at precedes
  exact right.precedes_irrefl precedes

/-- A record that enters survives the evictions it causes, since a ceiling leaves room for one. -/
theorem unlinked?_enter_self {key : BlockHash} {record : Record} (absent : resident.get? key = none)
    : (resident.enter key record).unlinked? key = some record.withoutLinks := by
  have last : key ∈ (resident.enter key record).table.keys := by
    rw [keys_enter absent, List.drop_append]
    apply List.mem_append_right
    have room : (resident.config.ceiling.elim 0 fun ceiling => resident.size + 1 - ceiling)
        - resident.table.keys.length = 0 := by
      have length := length_keys resident
      rw [Config.ceiling]
      split
      · simp
      · simp only [Option.elim_some]
        omega
    rw [room]
    exact List.mem_singleton_self key
  obtain ⟨found, under⟩ := mem_keys_iff.mp last
  have kept := unlinked?_enter (unlinked?_of_get? under)
  rw [if_pos rfl] at kept
  rw [unlinked?_of_get? under, kept]

theorem exists_get?_enter_self {key : BlockHash} (record : Record)
    (absent : resident.get? key = none)
    : ∃ found,
        (resident.enter key record).get? key = some found
        ∧ found.withoutLinks = record.withoutLinks :=
  Option.map_eq_some_iff.mp (unlinked?_enter_self absent)

end Resident

/-- The record that a change brings in, with its key. -/
def Change.entry? : Change → Option (BlockHash × Record)
  | .hydrated key record => some (key, record)
  | .indexed record => some (record.hash, record)
  | _ => none

@[simp] theorem Resident.config_apply (resident : Resident) (change : Change)
    : (resident.apply change).config = resident.config := by
  have trimmed (other : Resident) (same : other.config = resident.config)
      : other.evictToCeiling.config = resident.config :=
    evictToCeiling_keeps (fun kept => kept.config = resident.config)
      (fun kept same => (config_evictOldest kept).trans same) same
  cases change with
  | hydrated key record => exact trimmed _ rfl
  | indexed record => exact trimmed _ rfl
  | removed key =>
      rw [apply, remove]
      split <;> rfl
  | linked child parent => rfl
  | trimmed => exact trimmed resident rfl

/-- Whatever the change, a resident record is the one it brings in or was resident before, apart
from its links.
-/
theorem Resident.unlinked?_apply {resident : Resident} {change : Change} {key : BlockHash}
    {entry : Record} (under : (resident.apply change).unlinked? key = some entry)
    : (∃ record, change.entry? = some (key, record) ∧ record.withoutLinks = entry)
      ∨ resident.unlinked? key = some entry := by
  cases change with
  | hydrated other record =>
      have kept := unlinked?_enter under
      split at kept
      · next same => exact .inl ⟨record, same ▸ rfl, Option.some.inj kept⟩
      · exact .inr kept
  | indexed record =>
      have kept := unlinked?_enter under
      split at kept
      · next same => exact .inl ⟨record, same ▸ rfl, Option.some.inj kept⟩
      · exact .inr kept
  | removed other => exact .inr (shrinks_remove resident other key entry under)
  | linked child parent =>
      rw [apply, unlinked?_link] at under
      exact .inr under
  | trimmed => exact .inr (shrinks_evictToCeiling resident key entry under)

end HeaderChain
