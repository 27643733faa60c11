import HeaderChain.Proofs.ArrivalQueue
import HeaderChain.Store.Script
import Mathlib.Data.List.Nodup

/-! What the bookkeeping of an index keeps over any store, also one that fails, changes its answers
or serves headers under hashes that are not their own. A record may then be filed under a foreign
key, but candidates still stand for resident records, links still go to the header before, and no
child is listed twice.
-/

namespace HeaderChain

-----------------------------------------------------------------------------------------
-- Records
-----------------------------------------------------------------------------------------

/-- A parent link names the header before the record's own, and no child is listed twice. -/
structure Record.Tidy (record : Record) : Prop where
  upward : ∀ parent, record.parent = some parent → parent = record.prev ∧ parent ≠ .zero
  distinct : record.children.Nodup

namespace Record

variable {record : Record}

theorem tidy_unlinked (header : Header) (height : Option Height) (work : Work)
    (firstSeen : UInt64)
    : (Record.unlinked header height work firstSeen).Tidy where
  upward parent link := by cases link
  distinct := List.nodup_nil

theorem Tidy.withParent (tidy : record.Tidy) (later : record.header.isGenesis = false)
    : (record.withParent record.prev).Tidy where
  upward parent link := by
    cases link
    exact ⟨rfl, of_decide_eq_false later⟩
  distinct := tidy.distinct

theorem Tidy.withoutParent (tidy : record.Tidy) (parent : BlockHash)
    : (record.withoutParent parent).Tidy := by
  rw [Record.withoutParent]
  split
  · refine ⟨?_, tidy.distinct⟩
    intro parent link
    cases link
  · exact tidy

theorem Tidy.withChild (tidy : record.Tidy) (child : BlockHash)
    : (record.withChild child).Tidy := by
  rw [Record.withChild]
  split
  · exact tidy
  · next new =>
      refine ⟨tidy.upward, List.nodup_append.mpr ⟨tidy.distinct, List.nodup_singleton child, ?_⟩⟩
      intro listed member other last same
      rw [List.mem_singleton.mp last] at same
      exact new (same ▸ member)

theorem Tidy.withoutChild (tidy : record.Tidy) (child : BlockHash)
    : (record.withoutChild child).Tidy where
  upward := tidy.upward
  distinct := tidy.distinct.filter _

end Record

-----------------------------------------------------------------------------------------
-- The invariant
-----------------------------------------------------------------------------------------

/-- The records are tidy, and each candidate is the one that the record under its hash stands for.
Nothing is said of the keys that records are filed under.
-/
structure Resident.Tidy (resident : Resident) : Prop extends resident.Listing where
  records : ∀ key record, resident.get? key = some record → record.Tidy

namespace Resident.Tidy

variable {before after : Resident}

/-- A record leaves the table, and the candidate it stands for, if there is one, leaves with it. A
candidate under the key that leaves is that one.
-/
theorem depart {key : BlockHash} {gone : Record} (tidy : before.Tidy)
    (found : before.get? key = some gone)
    (records : ∀ other record, after.get? other = some record → record.Tidy)
    (others
      : ∀ other, after.unlinked? other = if other = key then none else before.unlinked? other)
    (tips : after.tips.members = before.tips.members.erase gone.tip)
    : after.Tidy where
  records := records
  sorted := by
    rw [tips]
    exact tidy.sorted.sublist List.erase_sublist
  backed tip member := by
    rw [tips, tidy.nodup.mem_erase_iff] at member
    obtain ⟨different, member⟩ := member
    obtain ⟨entry, under, own⟩ := tidy.backed tip member
    refine ⟨entry, ?_, own⟩
    rw [others, if_neg, under]
    intro same
    rw [same, unlinked?_of_get? found] at under
    cases under
    exact different own.symm

theorem evictOldest (tidy : before.Tidy) : before.evictOldest.Tidy := by
  cases oldest : before.table.oldest? with
  | none =>
      rw [evictOldest_of_empty oldest]
      exact tidy
  | some victim =>
      obtain ⟨key, gone⟩ := victim
      refine tidy.depart (KeyedTable.get?_of_oldest? oldest) ?_ (unlinked?_evictOldest oldest) ?_
      · intro other record under
        rw [get?_evictOldest oldest] at under
        split at under
        · cases under
        · obtain ⟨old, was, rfl⟩ := Option.map_eq_some_iff.mp under
          have kept := tidy.records other old was
          dsimp only
          split <;> split
          · exact (kept.withoutParent key).withoutChild gone.hash
          · exact kept.withoutChild gone.hash
          · exact kept.withoutParent key
          · exact kept
      · rw [Resident.evictOldest, oldest]
        rfl

theorem evictToCeiling (tidy : before.Tidy) : before.evictToCeiling.Tidy :=
  evictToCeiling_keeps Tidy (fun _ kept => kept.evictOldest) tidy

theorem remove {key : BlockHash} {gone : Record} (tidy : before.Tidy)
    (found : before.get? key = some gone)
    : (before.remove key).Tidy := by
  refine tidy.depart found ?_ (unlinked?_remove found) ?_
  · intro other record under
    rw [get?_remove found] at under
    split at under
    · cases under
    · obtain ⟨old, was, rfl⟩ := Option.map_eq_some_iff.mp under
      have kept := tidy.records other old was
      split
      · exact kept.withoutChild gone.hash
      · exact kept
  · rw [Resident.remove, found]
    rfl

theorem link {child : BlockHash} {below : Record} (tidy : before.Tidy)
    (found : before.get? child = some below) (later : below.header.isGenesis = false)
    : (before.link child below.prev).Tidy where
  records key record under := by
    rw [get?_link] at under
    obtain ⟨old, was, rfl⟩ := Option.map_eq_some_iff.mp under
    have kept := tidy.records key old was
    have linked : (if key = child then old.withParent below.prev else old).Tidy := by
      split
      · next same =>
          rw [same, found] at was
          cases was
          exact kept.withParent later
      · exact kept
    dsimp only
    split
    · exact linked.withChild child
    · exact linked
  sorted := tidy.sorted
  backed tip member := by
    rw [unlinked?_link]
    exact tidy.backed tip member

/-- A new record comes without links. No candidate has waited for its key, and it may be a candidate
itself if the key is its own hash.
-/
theorem put {key : BlockHash} {record : Record} {tips : Tips} (tidy : before.Tidy)
    (absent : before.get? key = none) (new : record.Tidy)
    (sorted : tips.members.Pairwise Tip.Precedes)
    (members
      : ∀ tip ∈ tips.members,
          (tip = record.tip ∧ record.hash = key) ∨ tip ∈ before.tips.members)
    : ({ before with tips, table := before.table.put key record } : Resident).Tidy := by
  have held (other : BlockHash) := @unlinked?_put { before with tips } key other record
  refine ⟨⟨sorted, ?_⟩, ?_⟩
  · intro tip member
    rw [held]
    rcases members tip member with ⟨rfl, own⟩ | member
    · exact ⟨record.withoutLinks, if_pos own, rfl⟩
    · obtain ⟨entry, under, own⟩ := tidy.backed tip member
      refine ⟨entry, ?_, own⟩
      rw [if_neg]
      · exact under
      · intro same
        rw [same, unlinked?_eq_none_iff.mpr absent] at under
        cases under
  · intro other found under
    rw [get?, KeyedTable.get?_put] at under
    split at under
    · cases under
      exact new
    · exact tidy.records other found under

theorem enter {key : BlockHash} {record : Record} {tips : Tips} (tidy : before.Tidy)
    (absent : before.get? key = none) (new : record.Tidy)
    (sorted : tips.members.Pairwise Tip.Precedes)
    (members
      : ∀ tip ∈ tips.members,
          (tip = record.tip ∧ record.hash = key) ∨ tip ∈ before.tips.members)
    : (({ before with tips } : Resident).enter key record).Tidy :=
  (tidy.put absent new sorted members).evictToCeiling

end Resident.Tidy

variable {config : Config}

/-- The bookkeeping is in order after every journal, by induction on it. -/
theorem Recorded.tidy {journal : List Change} (recorded : Recorded config journal)
    : (Resident.replay config journal).Tidy := by
  induction recorded with
  | nil =>
      refine ⟨⟨.nil, ?_⟩, ?_⟩
      · intro tip member
        cases member
      · intro key record found
        cases found
  | @cons change earlier before fits ih =>
      cases fits with
      | hydrated absent =>
          exact ih.enter absent (Record.tidy_unlinked _ _ _ _) ih.sorted fun _ => .inr
      | indexed absent =>
          refine ih.enter absent (Record.tidy_unlinked _ _ _ _) (Tip.pairwise_place ih.sorted) ?_
          intro tip member
          exact (Tip.mem_place.mp member).imp (fun same => ⟨same, rfl⟩) id
      | removed found => exact ih.remove found
      | linked found later => exact ih.link found later
      | trimmed => exact ih.evictToCeiling

/-- There are never more records than the ceiling allows, since what is resident is a queue. -/
theorem Recorded.size_le {journal : List Change} {limit : Nat} (recorded : Recorded config journal)
    (limited : config.ceiling = some limit)
    : (Resident.replay config journal).size ≤ limit := by
  rw [← Resident.length_keys, recorded.keys_eq_replay, limited]
  exact ArrivalQueue.length_replay_le _

namespace Resident.Tidy

variable {resident : Resident}

/-- The hashes of the candidates are among the keys, each once. -/
theorem length_tips_le (tidy : resident.Tidy) : resident.tips.size ≤ resident.size := by
  have keys : resident.tips.hashes ⊆ resident.table.keys := by
    intro key listed
    obtain ⟨tip, member, rfl⟩ := List.mem_map.mp listed
    obtain ⟨record, found, _⟩ := tidy.record_of_mem member
    exact mem_keys_iff.mpr ⟨record, found⟩
  have lengths := tidy.hashes_nodup.length_le_of_subset keys
  rwa [length_keys, Tips.hashes, List.length_map] at lengths

theorem map_hash_bestRecord? (tidy : resident.Tidy)
    : resident.bestRecord?.map Record.hash = resident.tips.best? := by
  rw [bestRecord?, Tips.best?, Tips.hashes, List.head?_map]
  cases best : resident.tips.members.head? with
  | none => rfl
  | some tip =>
      obtain ⟨record, found, own⟩ := tidy.record_of_mem (List.mem_of_head? best)
      change (resident.get? tip.hash).map Record.hash = some tip.hash
      rw [found, ← own]
      rfl

end Resident.Tidy

-----------------------------------------------------------------------------------------
-- Runs
-----------------------------------------------------------------------------------------

variable {σ : Type} [HeaderSource σ]

/-- The books of an index are kept. There are no more records than the ceiling allows, so a request
to evict finds nothing. Each candidate is the record under its hash, in its place, and no hash is
listed twice. Links go to the header before, and children are listed once.
-/
structure Index.BooksKept (config : Config) (index : Index σ) : Prop where
  bounded : ∀ limit, config.ceiling = some limit → index.size ≤ limit
  idle
    : (Operation.evict.next index).resident = index.resident
      ∧ (Operation.evict.next index).store = index.store
  backed
    : ∀ tip ∈ index.resident.tips.members,
        ∃ record,
          index.get? tip.hash = some record
          ∧ record.hash = tip.hash
          ∧ record.work = tip.position.work
          ∧ record.firstSeen = tip.position.firstSeen
  distinct : index.tips.Nodup
  counted : index.tipCount ≤ index.size
  best : index.bestTipRecord?.map Record.hash = index.bestTip?
  upward
    : ∀ key record parent,
        index.get? key = some record
        → record.parent = some parent
        → parent = record.header.prev ∧ parent ≠ .zero
  single : ∀ key record, index.get? key = some record → record.children.Nodup

/-- Whatever the store does and wherever its headers hash to, the books are kept after every run of
operations, those that fail included.
-/
theorem Index.Reached.booksKept {index : Index σ}
    (reached : Index.Reached (fun _ => True) (fun _ => True) config index)
    : index.BooksKept config := by
  obtain ⟨replayed, recorded⟩ := reached.recorded readClosed_any
  have tidy : index.resident.Tidy := replayed ▸ recorded.tidy
  have bounded (limit : Nat) (limited : config.ceiling = some limit) : index.size ≤ limit := by
    rw [Index.size, replayed]
    exact recorded.size_le limited
  refine
    { bounded
      idle := ⟨?_, rfl⟩
      backed := ?_
      distinct := tidy.hashes_nodup
      counted := tidy.length_tips_le
      best := tidy.map_hash_bestRecord?
      upward := fun key record parent found => (tidy.records key record found).upward parent
      single := fun key record found => (tidy.records key record found).distinct }
  · have none : index.resident.excess = 0 := by
      rw [Resident.excess, replayed, Resident.config_replay, ← replayed]
      cases limited : config.ceiling with
      | none => rfl
      | some limit => exact Nat.sub_eq_zero_of_le (bounded limit limited)
    change index.resident.evictToCeiling = index.resident
    rw [Resident.evictToCeiling_eq_repeat, none]
    rfl
  · intro tip member
    obtain ⟨record, found, rfl⟩ := tidy.record_of_mem member
    exact ⟨record, found, rfl, rfl, rfl⟩

/-- A store that serves a child of the root under the hash of its sibling. -/
def Fork.misfiled : Script where
  entries := KeyedTable.empty.put left.hash ⟨.ok (some ⟨right, 8⟩), .ok none, .ok none⟩
  works := .empty

/-- An index over that store, after an extension with the root, a walk to it from the misfiled
record, an extension with the header that was misfiled, the removal of the misfiled record and
another walk from there.
-/
def Fork.confused : Index Script :=
  (Operation.parent left.hash).next
    ((Operation.remove left.hash).next
      ((Operation.extend right 8).next
        ((Operation.parent left.hash).next
          ((Operation.extend root 9).next (.new Fork.misfiled ⟨3⟩)))))

-- The removal has cost the other record of that header its candidacy, and the root still lists the
-- misfiled one, but only once.
theorem Fork.booksKept_confused
    : Fork.confused.resident.table.keys = [root.hash, right.hash, left.hash]
      ∧ (Fork.confused.get? left.hash).map Record.hash = some right.hash
      ∧ (Fork.confused.get? root.hash).map Record.children = some [left.hash]
      ∧ Fork.confused.tips = [root.hash]
      ∧ Fork.confused.BooksKept ⟨3⟩ := by
  have content : Fork.confused.resident.table.keys = [root.hash, right.hash, left.hash]
      ∧ (Fork.confused.get? left.hash).map Record.hash = some right.hash
      ∧ (Fork.confused.get? root.hash).map Record.children = some [left.hash]
      ∧ Fork.confused.tips = [root.hash] := by
    decide +kernel
  have reached : Index.Reached (fun _ => True) (fun _ => True) ⟨3⟩ Fork.confused :=
    .performed _ trivial (.performed _ trivial (.performed _ trivial (.performed _ trivial
      (.performed _ trivial (.new trivial)))))
  exact ⟨content.1, content.2.1, content.2.2.1, content.2.2.2, Index.Reached.booksKept reached⟩

end HeaderChain
