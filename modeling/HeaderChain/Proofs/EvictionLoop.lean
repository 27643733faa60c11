import HeaderChain.Proofs.Residence
import HeaderChain.Proofs.StoredHeaders
import Mathlib.Data.List.Nodup

/-! What the eviction loop leaves of any table, told from what was there when it began. Each round
edits links of records that may be evicted in a later round, but never a link between a record that
is evicted and one that stays, so the rounds do not interfere.
-/

namespace HeaderChain

/-- Each entry holds the value under its key. -/
theorem KeyedTable.get?_of_mem {κ α : Type} [DecidableEq κ] {table : KeyedTable κ α} {key : κ}
    {value : α} (member : (key, value) ∈ table.entries)
    : table.get? key = some value := by
  obtain ⟨entries, nodup⟩ := table
  obtain ⟨older, younger, rfl⟩ := List.append_of_mem member
  rw [List.map_append, List.map_cons, List.nodup_append] at nodup
  have first : ∀ entry ∈ older, ¬ entry.1 = key := fun entry among =>
    nodup.2.2 entry.1 (List.mem_map_of_mem among) key List.mem_cons_self
  have none : older.find? (fun entry => entry.1 = key) = none := by
    simpa only [List.find?_eq_none, decide_eq_true_eq] using first
  simp [get?, List.find?_append, none]

-----------------------------------------------------------------------------------------
-- Records
-----------------------------------------------------------------------------------------

/-- What is left of the record under a key when the given entries have left the table. The parent
link is cleared if it leads to one of them that lists the record as a child. Of the children, those
are dropped that are among them and link back to the record.
-/
def Record.bereaved (record : Record) (key : BlockHash) (gone : List (BlockHash × Record))
    : Record :=
  { record with
    parent :=
      if ∃ victim ∈ gone, record.parent = some victim.1 ∧ key ∈ victim.2.children then none
      else record.parent
    children := record.children.filter fun child =>
      ¬ ∃ victim ∈ gone, victim.1 = child ∧ victim.2.parent = some key }

namespace Record

variable {record : Record} {key : BlockHash} {gone : List (BlockHash × Record)}

/-- Records that agree apart from their links and have the same links are equal. -/
theorem eq_of_links {left right : Record} (same : left.withoutLinks = right.withoutLinks)
    (parent : left.parent = right.parent) (children : left.children = right.children)
    : left = right := by
  obtain ⟨header, height, work, firstSeen⟩ := withoutLinks_inj.mp same
  cases left
  cases right
  simp_all

theorem bereaved_nil : record.bereaved key [] = record := by
  simp [bereaved]

/-- A link to a record that has not left is not cleared. -/
theorem parent_bereaved_eq_some_iff {parent : BlockHash} (stays : parent ∉ gone.map Prod.fst)
    : (record.bereaved key gone).parent = some parent ↔ record.parent = some parent := by
  simp only [bereaved]
  split
  · next left =>
      obtain ⟨victim, member, link, _⟩ := left
      have apart : victim.1 ≠ parent := fun same =>
        stays (List.mem_map.mpr ⟨victim, member, same⟩)
      simp [link, apart]
  · rfl

/-- A child that has not left is not dropped. -/
theorem mem_children_bereaved {child : BlockHash} (stays : child ∉ gone.map Prod.fst)
    : child ∈ (record.bereaved key gone).children ↔ child ∈ record.children := by
  simp only [bereaved, List.mem_filter, decide_eq_true_eq, and_iff_left_iff_imp]
  intro _ left
  obtain ⟨victim, member, same, _⟩ := left
  exact stays (List.mem_map.mpr ⟨victim, member, same⟩)

section Append

variable {victim : BlockHash} {last : Record}

theorem parent_bereaved_append
    : (record.bereaved key (gone ++ [(victim, last)])).parent
      = if key ∈ last.children ∧ (record.bereaved key gone).parent = some victim then none
        else (record.bereaved key gone).parent := by
  simp only [bereaved, List.mem_append, List.mem_singleton, or_and_right, exists_or,
    exists_eq_left]
  by_cases left : ∃ entry ∈ gone, record.parent = some entry.1 ∧ key ∈ entry.2.children
  · simp [left]
  · simp only [left, false_or, if_false]
    simp only [and_comm]

theorem children_bereaved_append
    : (record.bereaved key (gone ++ [(victim, last)])).children
      = if last.parent = some key then
          (record.bereaved key gone).children.filter (· ≠ victim)
        else (record.bereaved key gone).children := by
  simp only [bereaved, List.mem_append, List.mem_singleton, or_and_right, exists_or,
    exists_eq_left]
  split
  · next linked =>
      rw [List.filter_filter]
      refine List.filter_congr ?_
      intro child _
      simp [linked, Bool.and_comm, eq_comm]
  · next apart => simp [apart]

/-- One more record leaves: a child that it lists loses its link, and its parent forgets it. -/
theorem bereaved_append
    : record.bereaved key (gone ++ [(victim, last)])
      = let orphaned :=
          if key ∈ last.children then (record.bereaved key gone).withoutParent victim
          else record.bereaved key gone
        if last.parent = some key then orphaned.withoutChild victim else orphaned := by
  refine eq_of_links ?_ ?_ ?_
  · simp only [apply_ite withoutLinks, withoutLinks_withoutChild, withoutLinks_withoutParent,
      ite_self]
    rfl
  · simp only [apply_ite parent, withoutChild, withoutParent, ite_self]
    rw [parent_bereaved_append, ite_and]
  · simp only [apply_ite children, withoutChild, withoutParent, ite_self]
    exact children_bereaved_append

end Append

end Record

-----------------------------------------------------------------------------------------
-- Rounds
-----------------------------------------------------------------------------------------

namespace Resident

variable {before between after : Resident} {gone : List (BlockHash × Record)} {limit : Nat}

/-- The oldest entries of a table have left it, in their order. The tips of their records have left
the candidates, and the other records have lost their links with them.
-/
structure Outlived (before : Resident) (gone : List (BlockHash × Record)) (after : Resident)
    : Prop where
  oldest : gone <+: before.table.entries
  keys : before.table.keys = gone.map Prod.fst ++ after.table.keys
  tips
    : after.tips.members
      = before.tips.members.filter fun tip => tip ∉ gone.map fun victim => victim.2.tip
  survivors
    : ∀ key record,
        key ∈ after.table.keys
        → before.get? key = some record
        → after.get? key = some (record.bereaved key gone)

theorem Outlived.none (resident : Resident) : resident.Outlived [] resident where
  oldest := List.nil_prefix
  keys := rfl
  tips := by simp
  survivors key record _ found := by rw [found, Record.bereaved_nil]

/-- A key that is left is not among those that are gone. -/
theorem Outlived.not_mem_gone (outlived : before.Outlived gone after) {key : BlockHash}
    (left : key ∈ after.table.keys)
    : key ∉ gone.map Prod.fst := by
  intro departed
  have nodup : before.table.keys.Nodup := before.table.nodup
  rw [outlived.keys, List.nodup_append] at nodup
  exact nodup.2.2 key departed key left rfl

/-- A round takes out one more entry. Earlier rounds have changed its record, but not the links
between it and the records that are left.
-/
theorem Outlived.evictOldest {key : BlockHash} {record : Record}
    (outlived : before.Outlived gone between)
    (keyed : ∀ key record, before.get? key = some record → record.hash = key)
    (distinct : before.tips.members.Nodup)
    (oldest : between.table.oldest? = some (key, record))
    : ∃ original, before.Outlived (gone ++ [(key, original)]) between.evictOldest := by
  obtain ⟨rest, entries⟩ := outlived.oldest
  obtain ⟨younger, entries'⟩ := List.head?_eq_some_iff.mp oldest
  have keys : rest.map Prod.fst = key :: younger.map Prod.fst := by
    have whole := outlived.keys
    rw [KeyedTable.keys, ← entries, List.map_append] at whole
    rw [List.append_cancel_left whole, KeyedTable.keys, entries', List.map_cons]
  obtain ⟨⟨first, original⟩, later, rfl, same, _⟩ := List.map_eq_cons_iff.mp keys
  obtain rfl : key = first := same.symm
  have found : before.get? key = some original :=
    KeyedTable.get?_of_mem (entries ▸ List.mem_append_right gone List.mem_cons_self)
  have left : between.table.keys = key :: younger.map Prod.fst := by
    rw [KeyedTable.keys, entries', List.map_cons]
  have changed : record = original.bereaved key gone := by
    have held : between.get? key = some record := KeyedTable.get?_of_oldest? oldest
    rw [outlived.survivors key original (left ▸ List.mem_cons_self) found] at held
    exact (Option.some.inj held).symm
  have own : record.hash = key := by
    rw [changed]
    exact keyed key original found
  refine ⟨original, ⟨later, ?_⟩, ?_, ?_, ?_⟩
  · rw [List.append_assoc, List.singleton_append, entries]
  · rw [outlived.keys, left, keys_evictOldest, left]
    simp
  · have tips : between.evictOldest.tips.members = between.tips.members.erase original.tip := by
      rw [Resident.evictOldest, oldest, changed]
      rfl
    have nodup := outlived.tips ▸ distinct.filter _
    rw [tips, nodup.erase_eq_filter, outlived.tips, List.filter_filter]
    refine List.filter_congr ?_
    intro tip _
    rw [Bool.eq_iff_iff, Bool.and_eq_true, bne_iff_ne, decide_eq_true_eq, decide_eq_true_eq,
      List.map_append, List.mem_append, not_or, and_comm]
    simp
  · intro other old stays was
    rw [keys_evictOldest, left, List.tail_cons] at stays
    have remained : other ∈ between.table.keys := left ▸ List.mem_cons_of_mem key stays
    have different : other ≠ key := by
      rintro rfl
      have nodup : between.table.keys.Nodup := between.table.nodup
      rw [left] at nodup
      exact (List.nodup_cons.mp nodup).1 stays
    have apart := outlived.not_mem_gone remained
    rw [get?_evictOldest oldest, if_neg different, outlived.survivors other old remained was,
      Option.map_some, Record.bereaved_append, own, changed]
    simp only [Record.mem_children_bereaved apart, Record.parent_bereaved_eq_some_iff apart]

-----------------------------------------------------------------------------------------
-- The loop
-----------------------------------------------------------------------------------------

/-- The loop runs rounds for as long as there are more records than the limit, and then ends. -/
inductive Trims (limit : Nat) : Resident → Resident → Prop
  | done {resident : Resident} (fits : resident.size ≤ limit) : Trims limit resident resident
  | round {resident after : Resident} (exceeds : limit < resident.size)
    (rest : Trims limit resident.evictOldest after)
    : Trims limit resident after

theorem size_evictOldest (resident : Resident)
    : resident.evictOldest.size = resident.size - 1 := by
  rw [← length_keys, keys_evictOldest, List.length_tail, length_keys]

theorem repeat_evictOldest (count : Nat) (resident : Resident)
    : Nat.repeat Resident.evictOldest count resident.evictOldest
      = (Nat.repeat Resident.evictOldest count resident).evictOldest := by
  induction count with
  | zero => rfl
  | succ count ih => rw [Nat.repeat, ih, Nat.repeat]

/-- The loop ends, and with what eviction to the ceiling gives, by induction on the number of rounds
that are left.
-/
theorem trims_evictToCeiling {resident : Resident} (limited : resident.config.ceiling = some limit)
    : resident.Trims limit resident.evictToCeiling := by
  simp only [evictToCeiling, limited]
  generalize rounds : resident.size - limit = count
  clear limited
  induction count generalizing resident with
  | zero => exact .done (Nat.sub_eq_zero_iff_le.mp rounds)
  | succ count ih =>
      have fewer : resident.evictOldest.size - limit = count := by
        rw [size_evictOldest]
        omega
      refine .round (by omega) ?_
      rw [Nat.repeat, ← repeat_evictOldest]
      exact ih fewer

namespace Trims

theorem size_eq (trims : before.Trims limit after) : after.size = min before.size limit := by
  induction trims with
  | done fits => exact (Nat.min_eq_left fits).symm
  | round exceeds _ ih =>
      rw [ih, size_evictOldest]
      omega

/-- Wherever the loop has got to, the rounds that are left take out the next entries, by induction
on these rounds.
-/
theorem exists_outlived (trims : between.Trims limit after)
    (outlived : before.Outlived gone between)
    (keyed : ∀ key record, before.get? key = some record → record.hash = key)
    (distinct : before.tips.members.Nodup)
    : ∃ gone, before.Outlived gone after := by
  induction trims generalizing gone with
  | done => exact ⟨gone, outlived⟩
  | @round between _ exceeds _ ih =>
      obtain ⟨⟨key, record⟩, oldest⟩ : ∃ entry, between.table.oldest? = some entry := by
        refine Option.ne_none_iff_exists'.mp fun empty => ?_
        have none : between.size = 0 := congrArg List.length (List.head?_eq_none_iff.mp empty)
        omega
      obtain ⟨original, outlived'⟩ := outlived.evictOldest keyed distinct oldest
      exact ih outlived'

end Trims

/-- The oldest entries past a limit. -/
def victims (resident : Resident) (limit : Nat) : List (BlockHash × Record) :=
  resident.table.entries.take (resident.size - limit)

/-- Eviction to the ceiling ends, as many records as the ceiling allows are left, and the oldest
entries past it are the ones that have left. Nothing is asked of the links in the table.
-/
theorem evictToCeiling_closedForm {resident : Resident}
    (limited : resident.config.ceiling = some limit)
    (keyed : ∀ key record, resident.get? key = some record → record.hash = key)
    (distinct : resident.tips.members.Nodup)
    : resident.Trims limit resident.evictToCeiling
      ∧ resident.evictToCeiling.size = min resident.size limit
      ∧ resident.Outlived (resident.victims limit) resident.evictToCeiling := by
  have trims := trims_evictToCeiling limited
  obtain ⟨gone, outlived⟩ := trims.exists_outlived (.none resident) keyed distinct
  have count : gone.length = resident.size - limit := by
    have lengths := congrArg List.length outlived.keys
    rw [List.length_append, List.length_map, length_keys, length_keys, trims.size_eq] at lengths
    omega
  have same : gone = resident.victims limit := by
    rw [List.prefix_iff_eq_take.mp outlived.oldest, count, victims]
  exact ⟨trims, trims.size_eq, same ▸ outlived⟩

end Resident

-----------------------------------------------------------------------------------------
-- A tangle
-----------------------------------------------------------------------------------------

namespace Fork

/-- A table that no course of operations makes: the root has its child as its parent, and the
children of the root are each other's children and parents.
-/
def tangled : Resident where
  config := ⟨1⟩
  table :=
    let oldest := KeyedTable.empty.put root.hash
      ⟨root, some 0, .ofNat 2, 5, some left.hash, [right.hash, left.hash, root.hash]⟩
    let older := oldest.put left.hash
      ⟨left, some 1, .ofNat 4, 6, some right.hash, [root.hash, right.hash]⟩
    older.put right.hash
      ⟨right, none, .ofNat 4, 7, some left.hash, [left.hash, root.hash, left.hash]⟩
  tips := ⟨[⟨⟨.ofNat 4, 6⟩, left.hash⟩, ⟨⟨.ofNat 4, 7⟩, right.hash⟩, ⟨⟨.ofNat 2, 9⟩, root.hash⟩]⟩

-- The last record loses its link to the one that listed it, and of its children only the one that
-- linked back. The candidate of the root stays, since it is not at the place of the root's record.
theorem closedForm_tangled
    : tangled.evictToCeiling.table.entries
        = [(right.hash, ⟨right, none, .ofNat 4, 7, none, [root.hash]⟩)]
      ∧ tangled.evictToCeiling.tips.hashes = [right.hash, root.hash]
      ∧ tangled.Trims 1 tangled.evictToCeiling
      ∧ tangled.evictToCeiling.size = min tangled.size 1
      ∧ tangled.Outlived (tangled.victims 1) tangled.evictToCeiling := by
  have content : tangled.evictToCeiling.table.entries
        = [(right.hash, ⟨right, none, .ofNat 4, 7, none, [root.hash]⟩)]
      ∧ tangled.evictToCeiling.tips.hashes = [right.hash, root.hash] := by
    decide +kernel
  have keyed : ∀ key record, tangled.get? key = some record → record.hash = key := by
    intro key record found
    simp only [tangled, Resident.get?, KeyedTable.get?_put] at found
    split at found
    · next same =>
        cases found
        exact same.symm
    · split at found
      · next same =>
          cases found
          exact same.symm
      · split at found
        · next same =>
            cases found
            exact same.symm
        · cases found
  have distinct : tangled.tips.members.Nodup := by
    decide +kernel
  have limited : tangled.config.ceiling = some 1 := rfl
  exact ⟨content.1, content.2, Resident.evictToCeiling_closedForm limited keyed distinct⟩

end Fork

end HeaderChain
