import HeaderChain.Proofs.Journal
import HeaderChain.Proofs.StoredHeaders
import Mathlib.Data.List.Nodup

/-! Who is a candidate for the best chain: exactly the records that were entered as candidates and
have stayed resident ever since. A record that came by hydration is none, even if its hash was a
candidate before.
-/

namespace HeaderChain

/-- Whether a change enters a candidate under a key. -/
def Change.indexes (change : Change) (key : BlockHash) : Bool :=
  match change with
  | .indexed record => record.hash = key
  | _ => false

/-- Whether the record under a key was entered as a candidate and has stayed resident after every
change since then.
-/
def Resident.standing (config : Config) : List Change → BlockHash → Bool
  | [], _ => false
  | change :: earlier, key =>
      (replay config (change :: earlier)).contains key
        && (change.indexes key || standing config earlier key)

/-- The candidates are in order and are the records under the given keys. Records are filed under
their own hashes, so a candidate tells its key.
-/
structure Resident.Candidates (resident : Resident) (standing : BlockHash → Prop) : Prop where
  keyed : ∀ key entry, resident.unlinked? key = some entry → entry.hash = key
  sorted : resident.tips.members.Pairwise Tip.Precedes
  members
    : ∀ tip,
        tip ∈ resident.tips.members
        ↔ ∃ entry,
            resident.unlinked? tip.hash = some entry ∧ entry.tip = tip ∧ standing tip.hash

namespace Resident.Candidates

variable {before after : Resident} {standing standing' : BlockHash → Prop}

/-- Only the keys of resident records matter. -/
theorem congr (candidates : before.Candidates standing)
    (same
      : ∀ key entry, before.unlinked? key = some entry → (standing key ↔ standing' key))
    : before.Candidates standing' where
  keyed := candidates.keyed
  sorted := candidates.sorted
  members tip := by
    rw [candidates.members]
    constructor
    · intro ⟨entry, found, own, stands⟩
      exact ⟨entry, found, own, (same _ entry found).mp stands⟩
    · intro ⟨entry, found, own, stands⟩
      exact ⟨entry, found, own, (same _ entry found).mpr stands⟩

theorem listing (candidates : before.Candidates standing) : before.Listing where
  sorted := candidates.sorted
  backed tip member := by
    obtain ⟨entry, under, own, _⟩ := (candidates.members tip).mp member
    exact ⟨entry, under, own⟩

/-- A record that leaves the table and the candidates together leaves all others as they are: its
key tells it from every other candidate.
-/
theorem drop {key : BlockHash} {entry : Record} (candidates : before.Candidates standing)
    (found : before.unlinked? key = some entry)
    (others
      : ∀ other, after.unlinked? other = if other = key then none else before.unlinked? other)
    (tips : after.tips.members = before.tips.members.erase entry.tip)
    : after.Candidates standing where
  keyed other found' under := by
    rw [others] at under
    split at under
    · cases under
    · exact candidates.keyed other found' under
  sorted := by
    rw [tips]
    exact candidates.sorted.sublist List.erase_sublist
  members tip := by
    rw [tips, candidates.listing.nodup.mem_erase_iff, candidates.members, others]
    have own := candidates.keyed key entry found
    by_cases gone : tip.hash = key
    · rw [if_pos gone]
      constructor
      · intro ⟨different, other, under, same, _⟩
        rw [gone, found] at under
        cases under
        exact (different same.symm).elim
      · intro ⟨_, under, _⟩
        cases under
    · rw [if_neg gone]
      refine and_iff_right ?_
      intro same
      exact gone ((congrArg Tip.hash same).trans own)

theorem evictOldest (candidates : before.Candidates standing)
    : before.evictOldest.Candidates standing := by
  cases oldest : before.table.oldest? with
  | none =>
      rw [evictOldest_of_empty oldest]
      exact candidates
  | some victim =>
      obtain ⟨key, record⟩ := victim
      have found := unlinked?_of_get? (KeyedTable.get?_of_oldest? oldest)
      refine candidates.drop found (unlinked?_evictOldest oldest) ?_
      rw [Resident.evictOldest, oldest]
      rfl

theorem evictToCeiling (candidates : before.Candidates standing)
    : before.evictToCeiling.Candidates standing :=
  evictToCeiling_keeps (Candidates · standing) (fun _ kept => kept.evictOldest) candidates

theorem remove (candidates : before.Candidates standing) {key : BlockHash} {record : Record}
    (found : before.get? key = some record)
    : (before.remove key).Candidates standing := by
  refine candidates.drop (unlinked?_of_get? found) (unlinked?_remove found) ?_
  rw [Resident.remove, found]
  rfl

theorem link (candidates : before.Candidates standing) (child parent : BlockHash)
    : (before.link child parent).Candidates standing where
  keyed key entry under := by
    rw [unlinked?_link] at under
    exact candidates.keyed key entry under
  sorted := candidates.sorted
  members tip := by
    rw [unlinked?_link]
    exact candidates.members tip

/-- A new record that is no candidate leaves the candidates as they are. -/
theorem enter (candidates : before.Candidates standing) {key : BlockHash} {record : Record}
    (absent : before.get? key = none) (own : record.hash = key) (fallen : ¬ standing key)
    : (before.enter key record).Candidates standing := by
  refine evictToCeiling ⟨?_, candidates.sorted, ?_⟩
  · intro other entry under
    rw [unlinked?_put] at under
    split at under
    · next same =>
        cases under
        exact own.trans same.symm
    · exact candidates.keyed other entry under
  · intro tip
    rw [unlinked?_put, candidates.members]
    by_cases new : tip.hash = key
    · rw [if_pos new, new, unlinked?_eq_none_iff.mpr absent]
      constructor
      · intro ⟨_, under, _⟩
        cases under
      · intro ⟨_, _, _, stands⟩
        exact (fallen stands).elim
    · rw [if_neg new]

/-- A new record that becomes a candidate is one more, in its place. -/
theorem enterTip (candidates : before.Candidates standing) (record : Record)
    (absent : before.get? record.hash = none)
    : (before.enterTip record).Candidates fun key => key = record.hash ∨ standing key := by
  refine evictToCeiling ⟨?_, Tip.pairwise_place candidates.sorted, ?_⟩
  · intro other entry under
    rw [unlinked?_put] at under
    split at under
    · next same =>
        cases under
        exact same.symm
    · exact candidates.keyed other entry under
  · intro tip
    rw [unlinked?_put]
    refine Tip.mem_place.trans ?_
    rw [candidates.members]
    by_cases new : tip.hash = record.hash
    · rw [if_pos new, new, unlinked?_eq_none_iff.mpr absent]
      constructor
      · intro placed
        rcases placed with same | ⟨_, under, _⟩
        · exact ⟨record.withoutLinks, rfl, same.symm, .inl rfl⟩
        · cases under
      · intro ⟨entry, under, same, _⟩
        cases under
        exact .inl same.symm
    · rw [if_neg new]
      constructor
      · intro placed
        rcases placed with same | ⟨entry, under, own, stands⟩
        · exact (new (congrArg Tip.hash same)).elim
        · exact ⟨entry, under, own, .inr stands⟩
      · intro ⟨entry, under, own, stands⟩
        exact .inr ⟨entry, under, own, stands.resolve_left new⟩

end Resident.Candidates

variable {config : Config}

/-- Whoever stands is resident. -/
theorem Resident.contains_of_standing {journal : List Change} {key : BlockHash}
    (stands : Resident.standing config journal key = true)
    : (Resident.replay config journal).contains key = true := by
  cases journal with
  | nil => cases stands
  | cons change earlier => exact (Bool.and_eq_true_iff.mp stands).1

/-- For a resident key, standing after a change is entering by it as a candidate or standing
before.
-/
theorem Resident.standing_cons {change : Change} {earlier : List Change} {key : BlockHash}
    {entry : Record}
    (found : (Resident.replay config (change :: earlier)).unlinked? key = some entry)
    : Resident.standing config (change :: earlier) key = true
      ↔ change.indexes key = true ∨ Resident.standing config earlier key = true := by
  obtain ⟨record, under, _⟩ := Option.map_eq_some_iff.mp found
  have resident : (Resident.replay config (change :: earlier)).contains key = true :=
    Resident.contains_iff.mpr ⟨record, under⟩
  rw [standing, resident, Bool.true_and, Bool.or_eq_true]

/-- The candidates of a journal of keyed hydrations are the records that stand, by induction on
the journal.
-/
theorem Recorded.candidates {journal : List Change} (recorded : Recorded config journal)
    (keyed : ∀ change ∈ journal, change.Keyed)
    : (Resident.replay config journal).Candidates fun key =>
        Resident.standing config journal key = true := by
  induction recorded with
  | nil =>
      refine ⟨?_, .nil, ?_⟩
      · intro key entry found
        cases found
      · intro tip
        constructor
        · intro member
          cases member
        · intro ⟨entry, found, _⟩
          cases found
  | @cons change earlier before fits ih =>
      have candidates := ih fun other member => keyed other (List.mem_cons_of_mem change member)
      have own := keyed change List.mem_cons_self
      -- Only an indexed record adds to those that stand; what leaves the table no longer counts.
      have same (quiet : ∀ key, change.indexes key = false) (key : BlockHash) (entry : Record)
          (found : (Resident.replay config (change :: earlier)).unlinked? key = some entry)
          : Resident.standing config earlier key = true
            ↔ Resident.standing config (change :: earlier) key = true := by
        rw [Resident.standing_cons found, quiet]
        simp
      cases fits with
      | @hydrated key header height work firstSeen absent =>
          refine (candidates.enter absent own ?_).congr (same fun _ => rfl)
          intro stands
          have resident := Resident.contains_of_standing stands
          rw [Resident.contains_eq_false_iff.mpr absent] at resident
          cases resident
      | @indexed header height work firstSeen absent =>
          let record : Record := .unlinked header height work firstSeen
          refine (candidates.enterTip record absent).congr ?_
          intro key entry (found
            : (Resident.replay config (.indexed record :: earlier)).unlinked? key = some entry)
          rw [Resident.standing_cons found, Change.indexes, decide_eq_true_eq]
          exact or_congr_left eq_comm
      | removed found => exact (candidates.remove found).congr (same fun _ => rfl)
      | linked => exact (candidates.link _ _).congr (same fun _ => rfl)
      | trimmed => exact candidates.evictToCeiling.congr (same fun _ => rfl)

-----------------------------------------------------------------------------------------
-- What enters candidates
-----------------------------------------------------------------------------------------

/-- The header of the candidate that a change enters. -/
def Change.candidate? : Change → Option Header
  | .indexed record => some record.header
  | _ => none

/-- The header that an operation has added, going by its answer: that of an insertion or extension
that says it was new.
-/
def Operation.added? : Operation → Answer → Option Header
  | .insert header .., .flag true => some header
  | .extend header _, .flag true => some header
  | _, _ => none

/-- The journal has grown by changes that enter the given header, if any, as a candidate and no
other.
-/
def Index.Entered {σ : Type} (new : Option Header) (before after : Index σ) : Prop :=
  ∃ changes,
    after.journal = changes ++ before.journal
    ∧ changes.filterMap Change.candidate? = new.toList

variable {σ : Type}

namespace Index.Entered

variable {before between after : Index σ} {new : Option Header}

theorem refl (index : Index σ) : Index.Entered none index index :=
  ⟨[], rfl, rfl⟩

theorem trans (first : Index.Entered none before between)
    (second : Index.Entered new between after)
    : Index.Entered new before after := by
  obtain ⟨changes, journal, quiet⟩ := first
  obtain ⟨changes', journal', entered⟩ := second
  refine ⟨changes' ++ changes, ?_, ?_⟩
  · rw [journal', journal, List.append_assoc]
  · rw [List.filterMap_append, quiet, entered, Option.toList_none, List.append_nil]

theorem changed (index : Index σ) (change : Change)
    : Index.Entered change.candidate? index (index.changed change) := by
  refine ⟨[change], rfl, ?_⟩
  rw [List.filterMap_cons]
  cases change.candidate? <;> rfl

end Index.Entered

variable [HeaderSource σ]

/-- An operation that offers no header enters no candidate. -/
theorem Index.Steps.entered {operation : Operation} {before after : Index σ}
    (steps : Index.Steps operation before after)
    (idle
      : ∀ resident header height baseline firstSeen,
          ¬ operation.Offers resident header height baseline firstSeen)
    : Index.Entered none before after := by
  induction steps with
  | refl => exact .refl before
  | tail _ step ih =>
      refine ih.trans ?_
      cases step with
      | fetched => exact .refl _
      | heightAsked => exact .refl _
      | workAsked => exact .refl _
      | hydrated => exact .changed _ (.hydrated _ _)
      | indexed offered => exact (idle _ _ _ _ _ offered).elim
      | removed => exact .changed _ (.removed _)
      | linked => exact .changed _ (.linked _ _)
      | trimmed => exact .changed _ .trimmed

/-- The candidates that an operation enters are what its answer says, and none if it fails. -/
theorem Operation.entered_meets (operation : Operation) (index : Index σ)
    : operation.perform.Meets index
        (fun answer after => Index.Entered (operation.added? answer) index after)
        (fun _ after => Index.Entered none index after) := by
  have idle (key : BlockHash) {before after : Index σ}
      (steps : Index.Steps (.lookup key) before after)
      : Index.Entered none before after :=
    steps.entered fun _ _ _ _ _ offered => nomatch offered
  have met := operation.takes_perform index
  cases operation with
  | insert header height baseline firstSeen =>
      refine IndexM.meets_bind.mpr ((IndexM.insert_meets .stated).mono ?_ ?_)
      · intro answer after outcome
        rcases outcome with ⟨rfl, rfl⟩ | ⟨rfl, total, rfl, _⟩
        · exact .refl _
        · exact .changed index (.indexed (.unlinked header height total firstSeen))
      · intro failure after same
        exact same ▸ .refl index
  | extend header firstSeen =>
      refine IndexM.meets_bind.mpr ((IndexM.extend_meets header firstSeen).mono ?_ ?_)
      · intro answer after outcome
        rcases outcome with ⟨rfl, steps⟩ | ⟨rfl, between, height, total, steps, rfl, _⟩
        · exact idle _ steps
        · exact (idle _ steps).trans
            (.changed between (.indexed (.unlinked header height total firstSeen)))
      · intro failure after steps
        exact idle _ steps
  | lookup key | parent key | ancestor key depth | findFork budget left right
  | isMoreWork base other newHash newWork | remove key | evict =>
      refine met.mono ?_ ?_
      · intro answer after steps
        exact steps.entered fun _ _ _ _ _ offered => nomatch offered
      · intro failure after steps
        exact steps.entered fun _ _ _ _ _ offered => nomatch offered

-----------------------------------------------------------------------------------------
-- The listing
-----------------------------------------------------------------------------------------

/-- More work comes first; of equal work, what was seen earlier; of those seen at the same time,
the lesser hash, byte by byte.
-/
def Record.Outranks (left right : Record) : Prop :=
  right.work < left.work
  ∨ left.work = right.work
    ∧ (left.firstSeen < right.firstSeen
      ∨ left.firstSeen = right.firstSeen ∧ left.hash.bytes < right.hash.bytes)

theorem Record.outranks_of_precedes {left right : Record}
    (precedes : left.tip.Precedes right.tip)
    : left.Outranks right := by
  rcases precedes with (more | ⟨same, earlier⟩) | ⟨same, lesser⟩
  · exact .inl more
  · exact .inr ⟨same, .inl earlier⟩
  · obtain ⟨work, seen⟩ := Position.mk.inj same
    exact .inr ⟨work, .inr ⟨seen, Digest.lt_iff_bytes_lt.mp lesser⟩⟩

namespace Resident.Candidates

variable {resident : Resident} {standing : BlockHash → Prop}

theorem mem_hashes_iff (candidates : resident.Candidates standing) {key : BlockHash}
    : key ∈ resident.tips.hashes ↔ (∃ record, resident.get? key = some record) ∧ standing key := by
  constructor
  · intro listed
    obtain ⟨tip, member, rfl⟩ := List.mem_map.mp listed
    obtain ⟨record, found, _⟩ := candidates.listing.record_of_mem member
    obtain ⟨_, _, _, stands⟩ := (candidates.members tip).mp member
    exact ⟨⟨record, found⟩, stands⟩
  · intro ⟨⟨record, found⟩, stands⟩
    have under := unlinked?_of_get? found
    have own : record.tip.hash = key := candidates.keyed key record.withoutLinks under
    refine List.mem_map.mpr ⟨record.tip, (candidates.members _).mpr ?_, own⟩
    rw [own]
    exact ⟨_, under, rfl, stands⟩

theorem hashes_ordered (candidates : resident.Candidates standing)
    : resident.tips.hashes.Pairwise fun left right =>
        ∃ first second,
          resident.get? left = some first
          ∧ resident.get? right = some second
          ∧ first.hash = left
          ∧ second.hash = right
          ∧ first.Outranks second := by
  refine List.pairwise_map.mpr (candidates.sorted.imp_of_mem ?_)
  intro left right member member' precedes
  obtain ⟨first, found, own⟩ := candidates.listing.record_of_mem member
  obtain ⟨second, found', own'⟩ := candidates.listing.record_of_mem member'
  refine ⟨first, second, found, found', congrArg Tip.hash own, congrArg Tip.hash own', ?_⟩
  exact Record.outranks_of_precedes (by rwa [own, own'])

/-- With a record its hash leaves the listing, and no other. -/
theorem hashes_remove (candidates : resident.Candidates standing) {key : BlockHash}
    {record : Record} (found : resident.get? key = some record)
    : (resident.remove key).tips.hashes = resident.tips.hashes.filter (· ≠ key) := by
  have own : record.tip.hash = key :=
    candidates.keyed key record.withoutLinks (unlinked?_of_get? found)
  have tips : (resident.remove key).tips.members = resident.tips.members.erase record.tip := by
    rw [Resident.remove, found]
    rfl
  rw [Tips.hashes, Tips.hashes, tips, candidates.listing.nodup.erase_eq_filter, List.filter_map]
  congr 1
  refine List.filter_congr ?_
  intro tip member
  obtain ⟨holder, held, same⟩ := candidates.listing.record_of_mem member
  by_cases gone : tip.hash = key
  · rw [gone, found] at held
    cases held
    simp [gone, same]
  · have apart : tip ≠ record.tip := fun equal => gone (equal ▸ own)
    simp [gone, apart]

end Resident.Candidates

/-- In every index that is reached, the candidates are the records that stand. -/
theorem Index.Reached.candidates {states : σ → Prop} {allowed : Operation → Prop}
    {index : Index σ} (wellKeyed : WellKeyed states)
    (reached : Index.Reached states allowed config index)
    : index.resident.Candidates fun key =>
        Resident.standing config index.journal key = true := by
  obtain ⟨replayed, recorded⟩ := reached.recorded wellKeyed.toReadClosed
  exact replayed ▸ recorded.candidates (reached.keyed wellKeyed)

/-- The record under a key has left the table and the candidates, and so did no other. -/
structure Index.Dropped (key : BlockHash) (before after : Index σ) : Prop where
  journal : after.journal = .removed key :: before.journal
  store : after.store = before.store
  keys : after.resident.table.keys = before.resident.table.keys.filter (· ≠ key)
  others : ∀ other ≠ key, after.resident.unlinked? other = before.resident.unlinked? other
  tips : after.tips = before.tips.filter (· ≠ key)

omit [HeaderSource σ] in
theorem Index.dropped {index : Index σ} {standing : BlockHash → Prop} {key : BlockHash}
    {record : Record} (candidates : index.resident.Candidates standing)
    (found : index.get? key = some record)
    : index.Dropped key (index.changed (.removed key)) where
  journal := rfl
  store := rfl
  keys := Resident.keys_remove found
  others other different := (Resident.unlinked?_remove found other).trans (if_neg different)
  tips := candidates.hashes_remove found

/-- A removal answers the record under its key and takes it out, or finds none there. -/
theorem Operation.remove_drops {index : Index σ} {standing : BlockHash → Prop}
    (candidates : index.resident.Candidates standing) (key : BlockHash)
    : (Operation.remove key).perform.Meets index
        (fun answer after =>
          answer = .record (index.get? key)
          ∧ (index.get? key = none → after = index)
          ∧ ((index.get? key).isSome = true → index.Dropped key after))
        (fun _ _ => False) := by
  refine IndexM.meets_bind.mpr ?_
  rw [IndexM.remove, IndexM.meets_bind, IndexM.meets_resident]
  cases found : index.get? key with
  | none =>
      have missing : index.resident.get? key = none := found
      rw [missing]
      refine ⟨rfl, fun _ => rfl, ?_⟩
      intro isSome
      cases isSome
  | some record =>
      have held : index.resident.get? key = some record := found
      rw [held]
      refine ⟨rfl, ?_, fun _ => Index.dropped candidates found⟩
      intro none
      cases none

/-- The listing of the candidates is exact: the journal tells what is resident, an operation enters
what its answer says, a removal takes out what it answers, and those listed are the entered ones
that have stayed, in order.
-/
structure Index.TipsExact (config : Config) (index : Index σ) : Prop where
  replayed : index.resident = Resident.replay config index.journal
  entered
    : ∀ operation : Operation,
        operation.perform.Meets index
          (fun answer after => Index.Entered (operation.added? answer) index after)
          (fun _ after => Index.Entered none index after)
  removed
    : ∀ key,
        (Operation.remove key).perform.Meets index
          (fun answer after =>
            answer = .record (index.get? key)
            ∧ (index.get? key = none → after = index)
            ∧ ((index.get? key).isSome = true → index.Dropped key after))
          (fun _ _ => False)
  listed : ∀ key, key ∈ index.tips ↔ Resident.standing config index.journal key = true
  distinct : index.tips.Nodup
  ordered
    : index.tips.Pairwise fun left right =>
        ∃ first second,
          index.get? left = some first
          ∧ index.get? right = some second
          ∧ first.hash = left
          ∧ second.hash = right
          ∧ first.Outranks second
  best : index.bestTip? = index.tips.head?
  counted : index.tipCount = index.tips.length

/-- Over a store that serves headers under their own hashes, the listing of the candidates is exact
after every run of operations.
-/
theorem Index.Reached.tipsExact {states : σ → Prop} {index : Index σ}
    (wellKeyed : WellKeyed states) (reached : Index.Reached states (fun _ => True) config index)
    : index.TipsExact config := by
  obtain ⟨replayed, recorded⟩ := reached.recorded wellKeyed.toReadClosed
  have candidates := recorded.candidates (reached.keyed wellKeyed)
  rw [← replayed] at candidates
  refine
    { replayed
      entered := fun operation => operation.entered_meets index
      removed := Operation.remove_drops candidates
      listed := ?_
      distinct := candidates.listing.hashes_nodup
      ordered := candidates.hashes_ordered
      best := rfl
      counted := (List.length_map _).symm }
  intro key
  refine candidates.mem_hashes_iff.trans (and_iff_right_of_imp ?_)
  intro stands
  have resident := Resident.contains_of_standing stands
  rw [← replayed] at resident
  exact Resident.contains_iff.mp resident

/-- An index with room for two records, after extensions with the root and one of its children and
lookups of the other child and of the root, which was evicted in between.
-/
def Fork.renewed : Index MemoryStore :=
  (Operation.lookup root.hash).next
    ((Operation.extend right 8).next
      ((Operation.lookup left.hash).next
        ((Operation.extend root 9).next (.new Fork.store ⟨2⟩))))

/-- That index after the removal of its candidate, an extension with the other child and a lookup of
the removed one.
-/
def Fork.withdrawn : Index MemoryStore :=
  (Operation.lookup right.hash).next
    ((Operation.extend left 6).next ((Operation.remove right.hash).next Fork.renewed))

-- The root, which was evicted, and the child that was removed are resident again, but only headers
-- that have stayed since they were added are candidates.
theorem Fork.tipsExact_renewed
    : Fork.renewed.contains root.hash = true
      ∧ Fork.renewed.tips = [right.hash]
      ∧ Fork.renewed.TipsExact ⟨2⟩
      ∧ Fork.renewed.Dropped right.hash ((Operation.remove right.hash).next Fork.renewed)
      ∧ Fork.withdrawn.contains right.hash = true
      ∧ Fork.withdrawn.tips = [left.hash]
      ∧ Fork.withdrawn.TipsExact ⟨2⟩ := by
  have content : Fork.renewed.contains root.hash = true
      ∧ Fork.renewed.tips = [right.hash]
      ∧ (Fork.renewed.get? right.hash).isSome = true
      ∧ Fork.withdrawn.contains right.hash = true
      ∧ Fork.withdrawn.tips = [left.hash] := by
    decide +kernel
  obtain ⟨resident, listed, candidate, resident', listed'⟩ := content
  have reached : Index.Reached _ (fun _ => True) ⟨2⟩ Fork.renewed :=
    .performed _ trivial (.performed _ trivial (.performed _ trivial (.performed _ trivial
      (.new holds_keyed))))
  have reached' : Index.Reached _ (fun _ => True) ⟨2⟩ Fork.withdrawn :=
    .performed _ trivial (.performed _ trivial (.performed _ trivial reached))
  have exact := Index.Reached.tipsExact MemoryStore.wellKeyed reached
  have dropped
      : Fork.renewed.Dropped right.hash ((Operation.remove right.hash).next Fork.renewed) :=
    Operation.next_of_meets
      ((exact.removed right.hash).mono (fun _ _ met => met.2.2 candidate) fun _ _ => False.elim)
  exact ⟨resident, listed, exact, dropped, resident', listed',
    Index.Reached.tipsExact MemoryStore.wellKeyed reached'⟩

end HeaderChain
