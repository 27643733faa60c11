import HeaderChain.Proofs.Journal
import HeaderChain.Proofs.StoredHeaders

/-! Links between parents and children over whole histories. A listed child is resident and links
back. A parent link may be stale in two ways only: the parent was removed under its child, or it
was created again after the child. Eviction goes by age, so it never leaves a stale link behind.
-/

namespace HeaderChain

namespace Record

@[simp] theorem parent_withoutChild (record : Record) (child : BlockHash)
    : (record.withoutChild child).parent = record.parent :=
  rfl

@[simp] theorem parent_withChild (record : Record) (child : BlockHash)
    : (record.withChild child).parent = record.parent := by
  rw [withChild]
  split <;> rfl

@[simp] theorem children_withParent (record : Record) (parent : BlockHash)
    : (record.withParent parent).children = record.children :=
  rfl

@[simp] theorem children_withoutParent (record : Record) (parent : BlockHash)
    : (record.withoutParent parent).children = record.children := by
  rw [withoutParent]
  split <;> rfl

theorem parent_withoutParent_eq_some_iff {record : Record} {key parent : BlockHash}
    : (record.withoutParent key).parent = some parent
      ↔ record.parent = some parent ∧ parent ≠ key := by
  rw [withoutParent]
  split
  · next same =>
      rw [same, Option.some.injEq]
      constructor
      · intro none
        cases none
      · intro named
        exact (named.2 named.1.symm).elim
  · next different =>
      refine (and_iff_left_of_imp ?_).symm
      intro same equal
      exact different (equal ▸ same)

@[simp] theorem mem_children_withoutChild {record : Record} {child other : BlockHash}
    : other ∈ (record.withoutChild child).children ↔ other ∈ record.children ∧ other ≠ child := by
  simp [withoutChild]

@[simp] theorem mem_children_withChild {record : Record} {child other : BlockHash}
    : other ∈ (record.withChild child).children ↔ other ∈ record.children ∨ other = child := by
  rw [withChild]
  split
  · next already =>
      refine (or_iff_left_of_imp ?_).symm
      intro same
      exact same ▸ already
  · simp

/-- What is left of the record under a key when another one leaves: the parent forgets a child that
leaves, and a child that the other one lists loses its link if it is severed.
-/
def bereft (record gone : Record) (key : BlockHash) (severed : Prop) [Decidable severed]
    : Record :=
  let orphaned :=
    if severed ∧ key ∈ gone.children then record.withoutParent gone.hash else record
  if gone.parent = some key then orphaned.withoutChild gone.hash else orphaned

section Bereft

variable {severed : Prop} [Decidable severed] {gone record : Record} {key : BlockHash}

@[simp] theorem withoutLinks_bereft
    : (record.bereft gone key severed).withoutLinks = record.withoutLinks := by
  simp only [bereft]
  split <;> split <;> simp

theorem parent_bereft_eq_some_iff {parent : BlockHash}
    : (record.bereft gone key severed).parent = some parent
      ↔ record.parent = some parent ∧ ¬ (parent = gone.hash ∧ severed ∧ key ∈ gone.children) := by
  simp only [bereft]
  split <;> split <;> simp [parent_withoutParent_eq_some_iff, *]

theorem mem_children_bereft {child : BlockHash}
    : child ∈ (record.bereft gone key severed).children
      ↔ child ∈ record.children ∧ ¬ (gone.parent = some key ∧ child = gone.hash) := by
  simp only [bereft]
  split <;> split <;> simp [*]

end Bereft

/-- What becomes of the record under a key when a child is linked with a parent. -/
def tied (record : Record) (key child parent : BlockHash) : Record :=
  let below := if key = child then record.withParent parent else record
  if key = parent then below.withChild child else below

section Tied

variable {record : Record} {key child parent : BlockHash}

@[simp] theorem withoutLinks_tied
    : (record.tied key child parent).withoutLinks = record.withoutLinks := by
  simp only [tied]
  split <;> split <;> simp

theorem parent_tied
    : (record.tied key child parent).parent
      = if key = child then some parent else record.parent := by
  simp only [tied]
  split <;> split <;> simp [withParent]

theorem mem_children_tied {other : BlockHash}
    : other ∈ (record.tied key child parent).children
      ↔ other ∈ record.children ∨ (key = parent ∧ other = child) := by
  simp only [tied]
  split
  · next above => split <;> simp [above]
  · next above => split <;> simp [above]

end Tied

end Record

-----------------------------------------------------------------------------------------
-- The invariant
-----------------------------------------------------------------------------------------

/-- Links are in order where the keys that are lost are those of which children may still hold a
link. A stale link to a resident parent leads from an older record to a younger one.
-/
structure Resident.Linked (resident : Resident) (lost : BlockHash → Prop) : Prop where
  keyed : ∀ key record, resident.get? key = some record → record.hash = key
  upward
    : ∀ key record parent,
        resident.get? key = some record → record.parent = some parent → parent = record.prev
  listed
    : ∀ parent above child,
        resident.get? parent = some above
        → child ∈ above.children
        → ∃ below, resident.get? child = some below ∧ below.parent = some parent
  linked
    : ∀ child below parent,
        resident.get? child = some below
        → below.parent = some parent
        → (∃ above,
            resident.get? parent = some above
            ∧ (child ∈ above.children ∨ [child, parent].Sublist resident.table.keys))
          ∨ (resident.get? parent = none ∧ lost parent)

namespace Resident.Linked

variable {before after : Resident} {lost lost' : BlockHash → Prop}

/-- Only keys without a record can be lost. -/
theorem mono (linked : before.Linked lost)
    (still : ∀ key, before.get? key = none → lost key → lost' key)
    : before.Linked lost' where
  keyed := linked.keyed
  upward := linked.upward
  listed := linked.listed
  linked child below parent found link := by
    rcases linked.linked child below parent found link with resident | ⟨absent, gone⟩
    · exact .inl resident
    · exact .inr ⟨absent, still parent absent gone⟩

/-- Candidates have no part in links. -/
theorem withTips (linked : before.Linked lost) (tips : Tips)
    : ({ before with tips } : Resident).Linked lost :=
  ⟨linked.keyed, linked.upward, linked.listed, linked.linked⟩

/-- A record leaves, its parent forgets it, and its listed children lose their links if they are
severed. Whoever links to it still must find its key among the lost ones.
-/
theorem depart {gone : Record} (severed : Prop) [Decidable severed]
    (linked : before.Linked lost) (found : before.get? gone.hash = some gone)
    (others
      : ∀ key,
          after.get? key
          = if key = gone.hash then none
            else (before.get? key).map fun record => record.bereft gone key severed)
    (order
      : ∀ child parent,
          child ≠ gone.hash
          → parent ≠ gone.hash
          → [child, parent].Sublist before.table.keys
          → [child, parent].Sublist after.table.keys)
    (still : ∀ key, lost key → lost' key)
    (stale
      : ∀ child below,
          before.get? child = some below
          → below.parent = some gone.hash
          → child ≠ gone.hash
          → (severed ∧ child ∈ gone.children) ∨ lost' gone.hash)
    : after.Linked lost' := by
  have origin {key : BlockHash} {kept : Record} (under : after.get? key = some kept)
      : key ≠ gone.hash
        ∧ ∃ old, before.get? key = some old ∧ kept = old.bereft gone key severed := by
    rw [others] at under
    split at under
    · cases under
    · next different =>
        obtain ⟨old, was, same⟩ := Option.map_eq_some_iff.mp under
        exact ⟨different, old, was, same.symm⟩
  have remains {key : BlockHash} {old : Record} (different : key ≠ gone.hash)
      (was : before.get? key = some old)
      : after.get? key = some (old.bereft gone key severed) := by
    rw [others, if_neg different, was, Option.map_some]
  refine ⟨?_, ?_, ?_, ?_⟩
  · intro key kept under
    obtain ⟨_, old, was, rfl⟩ := origin under
    rw [Record.hash_eq_of_withoutLinks Record.withoutLinks_bereft]
    exact linked.keyed key old was
  · intro key kept parent under link
    obtain ⟨_, old, was, rfl⟩ := origin under
    rw [Record.prev_eq_of_withoutLinks Record.withoutLinks_bereft]
    exact linked.upward key old parent was (Record.parent_bereft_eq_some_iff.mp link).1
  · intro parent kept child under member
    obtain ⟨different, above, was, rfl⟩ := origin under
    obtain ⟨listed, unlisted⟩ := Record.mem_children_bereft.mp member
    obtain ⟨below, resident, link⟩ := linked.listed parent above child was listed
    have other : child ≠ gone.hash := by
      intro same
      subst same
      rw [found] at resident
      cases resident
      exact unlisted ⟨link, rfl⟩
    refine ⟨_, remains other resident, Record.parent_bereft_eq_some_iff.mpr ⟨link, ?_⟩⟩
    intro ⟨same, _⟩
    exact different same
  · intro child kept parent under link
    obtain ⟨different, below, was, rfl⟩ := origin under
    obtain ⟨link, uncut⟩ := Record.parent_bereft_eq_some_iff.mp link
    by_cases same : parent = gone.hash
    · subst same
      rcases stale child below was link different with cut | departed
      · exact (uncut ⟨rfl, cut⟩).elim
      · refine .inr ⟨?_, departed⟩
        rw [others, if_pos rfl]
    · rcases linked.linked child below parent was link with ⟨above, found', place⟩ | ⟨absent, lost⟩
      · refine .inl ⟨_, remains same found', place.imp ?_ (order child parent different same)⟩
        intro listed
        refine Record.mem_children_bereft.mpr ⟨listed, ?_⟩
        intro ⟨_, equal⟩
        exact different equal
      · refine .inr ⟨?_, still parent lost⟩
        rw [others, if_neg same, absent, Option.map_none]

theorem evictOldest (linked : before.Linked lost) : before.evictOldest.Linked lost := by
  cases oldest : before.table.oldest? with
  | none =>
      rw [evictOldest_of_empty oldest]
      exact linked
  | some victim =>
      obtain ⟨key, gone⟩ := victim
      have found : before.get? key = some gone := KeyedTable.get?_of_oldest? oldest
      obtain rfl : gone.hash = key := linked.keyed key gone found
      obtain ⟨younger, keys⟩ : ∃ younger, before.table.keys = gone.hash :: younger := by
        obtain ⟨rest, entries⟩ := List.head?_eq_some_iff.mp oldest
        exact ⟨rest.map Prod.fst, by rw [KeyedTable.keys, entries, List.map_cons]⟩
      have first : gone.hash ∉ younger := by
        have nodup : before.table.keys.Nodup := before.table.nodup
        rw [keys] at nodup
        exact (List.nodup_cons.mp nodup).1
      refine linked.depart True found ?_ ?_ (fun _ => id) ?_
      · intro key
        simp only [get?_evictOldest oldest, Record.bereft, true_and]
      · intro child parent different _ place
        rw [keys_evictOldest, keys, List.tail_cons]
        rw [keys] at place
        cases place with
        | cons _ place => exact place
        | cons_cons _ place => exact (different rfl).elim
      -- A link that is not listed leads to a younger record, and nothing is older than the victim.
      · intro child below resident link different
        rcases linked.linked child below _ resident link with ⟨above, under, place⟩ | ⟨absent, _⟩
        · rw [found] at under
          cases under
          refine place.imp (fun listed => ⟨trivial, listed⟩) ?_
          intro place
          rw [keys] at place
          cases place with
          | cons _ place => exact (first (place.subset (by simp))).elim
          | cons_cons _ place => exact (different rfl).elim
        · rw [found] at absent
          cases absent

theorem evictToCeiling (linked : before.Linked lost) : before.evictToCeiling.Linked lost :=
  evictToCeiling_keeps (Linked · lost) (fun _ kept => kept.evictOldest) linked

theorem remove {key : BlockHash} {gone : Record} (linked : before.Linked lost)
    (found : before.get? key = some gone)
    : (before.remove key).Linked fun other => lost other ∨ other = key := by
  obtain rfl : gone.hash = key := linked.keyed key gone found
  refine linked.depart False found ?_ ?_ (fun _ => .inl) (fun _ _ _ _ _ => .inr (.inr rfl))
  · intro key
    simp only [get?_remove found, Record.bereft, false_and, if_false]
  · intro child parent different different' place
    rw [keys_remove found]
    have kept := place.filter (· ≠ gone.hash)
    simpa [different, different'] using kept

/-- A new record has no links, and stale links to it come from older records. -/
theorem enter {key : BlockHash} {header : Header} {height : Option Height} {work : Work}
    {firstSeen : UInt64} (linked : before.Linked lost) (absent : before.get? key = none)
    (own : header.hash = key)
    : (before.enter key (.unlinked header height work firstSeen)).Linked lost := by
  let record : Record := .unlinked header height work firstSeen
  let after : Resident := { before with table := before.table.put key record }
  have keys : after.table.keys = before.table.keys ++ [key] :=
    KeyedTable.keys_put_of_not_mem (KeyedTable.get?_eq_none_iff.mp absent) record
  have others (other : BlockHash)
      : after.get? other = if other = key then some record else before.get? other :=
    KeyedTable.get?_put _ _ _ _
  have origin {other : BlockHash} {kept : Record} (under : after.get? other = some kept)
      : (other = key ∧ kept = record) ∨ before.get? other = some kept := by
    rw [others] at under
    split at under
    · next same => exact .inl ⟨same, (Option.some.inj under).symm⟩
    · exact .inr under
  have remains {other : BlockHash} {old : Record} (was : before.get? other = some old)
      : other ≠ key ∧ after.get? other = some old := by
    have different : other ≠ key := by
      intro same
      rw [same, absent] at was
      cases was
    refine ⟨different, ?_⟩
    rw [others, if_neg different]
    exact was
  suffices entered : after.Linked lost from entered.evictToCeiling
  refine ⟨?_, ?_, ?_, ?_⟩
  · intro other kept under
    rcases origin under with ⟨same, new⟩ | was
    · rw [same, new]
      exact own
    · exact linked.keyed other kept was
  · intro other kept parent under link
    rcases origin under with ⟨_, new⟩ | was
    · rw [new] at link
      cases link
    · exact linked.upward other kept parent was link
  · intro parent kept child under member
    rcases origin under with ⟨_, new⟩ | was
    · rw [new] at member
      cases member
    · obtain ⟨below, found, link⟩ := linked.listed parent kept child was member
      exact ⟨below, (remains found).2, link⟩
  · intro child kept parent under link
    rcases origin under with ⟨_, new⟩ | was
    · rw [new] at link
      cases link
    · rcases linked.linked child kept parent was link with ⟨above, found, place⟩ | ⟨none, lost⟩
      · refine .inl ⟨above, (remains found).2, place.imp id ?_⟩
        intro place
        rw [keys]
        exact place.trans (List.sublist_append_left _ _)
      · by_cases same : parent = key
        · refine .inl ⟨record, ?_, .inr ?_⟩
          · rw [others, if_pos same]
          · rw [keys, same]
            have older : child ∈ before.table.keys := mem_keys_iff.mpr ⟨kept, was⟩
            exact (List.singleton_sublist.mpr older).append (List.Sublist.refl [key])
        · refine .inr ⟨?_, lost⟩
          rw [others, if_neg same]
          exact none

/-- A link set in both directions is in order. Another parent that the child could have had does
not exist, since a link leads to the record that the header names.
-/
theorem link {child : BlockHash} {below above : Record} (linked : before.Linked lost)
    (found : before.get? child = some below) (parent : before.get? below.prev = some above)
    : (before.link child below.prev).Linked lost := by
  let after : Resident := before.link child below.prev
  have others (key : BlockHash)
      : after.get? key = (before.get? key).map fun record => record.tied key child below.prev :=
    get?_link _ _ _
  have keys : after.table.keys = before.table.keys := keys_link _ _
  have origin {key : BlockHash} {kept : Record} (under : after.get? key = some kept)
      : ∃ old, before.get? key = some old ∧ kept = old.tied key child below.prev := by
    rw [others] at under
    obtain ⟨old, was, same⟩ := Option.map_eq_some_iff.mp under
    exact ⟨old, was, same.symm⟩
  have remains {key : BlockHash} {old : Record} (was : before.get? key = some old)
      : after.get? key = some (old.tied key child below.prev) := by
    rw [others, was, Option.map_some]
  refine ⟨?_, ?_, ?_, ?_⟩
  · intro key kept under
    obtain ⟨old, was, rfl⟩ := origin under
    rw [Record.hash_eq_of_withoutLinks Record.withoutLinks_tied]
    exact linked.keyed key old was
  · intro key kept other under link
    obtain ⟨old, was, rfl⟩ := origin under
    rw [Record.prev_eq_of_withoutLinks Record.withoutLinks_tied]
    rw [Record.parent_tied] at link
    split at link
    · next same =>
        rw [same, found] at was
        cases was
        exact (Option.some.inj link).symm
    · exact linked.upward key old other was link
  · intro key kept other under member
    obtain ⟨old, was, rfl⟩ := origin under
    rcases Record.mem_children_tied.mp member with listed | ⟨rfl, rfl⟩
    · obtain ⟨old', was', link⟩ := linked.listed key old other was listed
      refine ⟨_, remains was', ?_⟩
      rw [Record.parent_tied]
      split
      · next same =>
          rw [same, found] at was'
          cases was'
          rw [linked.upward child below key found link]
      · exact link
    · refine ⟨_, remains found, ?_⟩
      rw [Record.parent_tied, if_pos rfl]
  · intro key kept other under link
    obtain ⟨old, was, rfl⟩ := origin under
    rw [Record.parent_tied] at link
    split at link
    · next same =>
        cases link
        refine .inl ⟨_, remains parent, .inl ?_⟩
        exact Record.mem_children_tied.mpr (.inr ⟨rfl, same⟩)
    · rcases linked.linked key old other was link with ⟨above', found', place⟩ | ⟨absent, lost⟩
      · refine .inl ⟨_, remains found', place.imp ?_ ?_⟩
        · intro listed
          exact Record.mem_children_tied.mpr (.inl listed)
        · intro place
          rw [keys]
          exact place
      · refine .inr ⟨?_, lost⟩
        rw [others, absent, Option.map_none]

end Resident.Linked

-----------------------------------------------------------------------------------------
-- Coming and going
-----------------------------------------------------------------------------------------

/-- How a record left the table. -/
inductive Departure
  | removed
  | evicted
  deriving DecidableEq

/-- How the record under a key last left the table, if one ever did. A change takes a record out
either on request or by eviction.
-/
def Resident.lastDeparture (config : Config) : List Change → BlockHash → Option Departure
  | [], _ => none
  | change :: earlier, key =>
      if (replay config earlier).contains key && !(replay config (change :: earlier)).contains key
      then some (if change = .removed key then .removed else .evicted)
      else lastDeparture config earlier key

/-- Whether a change brings in a record under a key. -/
def Change.creates (change : Change) (key : BlockHash) : Bool :=
  change.entry?.any fun entry => entry.1 = key

/-- The number of changes up to the one that last brought in a record under a key. -/
def createdAt : List Change → BlockHash → Nat
  | [], _ => 0
  | change :: earlier, key =>
      if change.creates key then earlier.length + 1 else createdAt earlier key

theorem createdAt_le (journal : List Change) (key : BlockHash)
    : createdAt journal key ≤ journal.length := by
  induction journal with
  | nil => exact Nat.le_refl 0
  | cons change earlier ih =>
      rw [createdAt]
      split
      · exact Nat.le_refl _
      · exact Nat.le_succ_of_le ih

variable {config : Config}

/-- What was not there before a change did not leave by it. -/
theorem Resident.lastDeparture_of_absent {change : Change} {earlier : List Change}
    {key : BlockHash} (absent : (replay config earlier).get? key = none)
    : lastDeparture config (change :: earlier) key = lastDeparture config earlier key := by
  rw [lastDeparture, contains_eq_false_iff.mpr absent, Bool.false_and, if_neg Bool.false_ne_true]

/-- Records stand in the table in the order of their creation, by induction on the journal. -/
theorem Recorded.keys_ordered {journal : List Change} (recorded : Recorded config journal)
    : (Resident.replay config journal).table.keys.Pairwise fun older younger =>
        createdAt journal older < createdAt journal younger := by
  induction recorded with
  | nil => exact .nil
  | @cons change earlier before fits ih =>
      refine List.Pairwise.sublist fits.keys_sublist ?_
      have stays {key : BlockHash} (quiet : change.creates key = false)
          : createdAt (change :: earlier) key = createdAt earlier key := by
        rw [createdAt, quiet, if_neg Bool.false_ne_true]
      cases entry : change.entry? with
      | none =>
          rw [Option.map_none, Option.toList_none, List.append_nil]
          have quiet (key : BlockHash) : change.creates key = false := by
            rw [Change.creates, entry, Option.any_none]
          simp only [stays (quiet _)]
          exact ih
      | some entry' =>
          obtain ⟨key, record⟩ := entry'
          have fresh : key ∉ (Resident.replay config earlier).table.keys :=
            KeyedTable.get?_eq_none_iff.mp (fits.absent_of_entry entry)
          have new : createdAt (change :: earlier) key = earlier.length + 1 := by
            simp [createdAt, Change.creates, entry]
          have quiet (other : BlockHash)
              (member : other ∈ (Resident.replay config earlier).table.keys)
              : change.creates other = false := by
            have different : key ≠ other := fun equal => fresh (equal ▸ member)
            simp [Change.creates, entry, different]
          refine List.pairwise_append.mpr ⟨?_, List.pairwise_singleton _ _, ?_⟩
          · refine ih.imp_of_mem ?_
            intro older younger member member' order
            rwa [stays (quiet older member), stays (quiet younger member')]
          · intro older member younger last
            rw [List.mem_singleton.mp last, new, stays (quiet older member)]
            exact Nat.lt_succ_of_le (createdAt_le earlier older)

/-- Links are in order after every journal of keyed hydrations, where the lost keys are those whose
records were removed last. By induction on the journal.
-/
theorem Recorded.linked {journal : List Change} (recorded : Recorded config journal)
    (keyed : ∀ change ∈ journal, change.Keyed)
    : (Resident.replay config journal).Linked fun key =>
        Resident.lastDeparture config journal key = some .removed := by
  induction recorded with
  | nil =>
      refine ⟨?_, ?_, ?_, ?_⟩
      · intro key record found
        cases found
      · intro key record parent found
        cases found
      · intro parent above child found
        cases found
      · intro child below parent found
        cases found
  | @cons change earlier before fits ih =>
      have own := keyed change List.mem_cons_self
      -- Evictions of this change leave no link behind, so a lost key was lost before.
      have linked : (Resident.replay config earlier).Linked fun key =>
          Resident.lastDeparture config (change :: earlier) key = some .removed := by
        refine (ih fun other member => keyed other (List.mem_cons_of_mem change member)).mono ?_
        intro key absent lost
        rw [Resident.lastDeparture_of_absent absent]
        exact lost
      cases fits with
      | hydrated absent => exact linked.enter absent own
      | indexed absent => exact (linked.withTips _).enter absent rfl
      | @removed key record found =>
          refine (linked.remove found).mono ?_
          intro other absent lost
          rcases lost with lost | rfl
          · exact lost
          · have was := Resident.contains_iff.mpr ⟨record, found⟩
            have gone := Resident.contains_eq_false_iff.mpr absent
            rw [← Resident.apply, ← Resident.replay_cons] at gone
            rw [Resident.lastDeparture, was, gone]
            simp
      | linked found _ parent => exact linked.link found parent
      | trimmed => exact linked.evictToCeiling

-----------------------------------------------------------------------------------------
-- The history of an index
-----------------------------------------------------------------------------------------

/-- Links after a course of changes. A listed child is resident and links back. A link that is not
listed leads to a parent that was created after the child, or that was removed under it. No link
leads to a record that was evicted and has not come back.
-/
structure Resident.Coherent (config : Config) (past : List Change) (resident : Resident)
    : Prop where
  listed
    : ∀ parent above child,
        resident.get? parent = some above
        → child ∈ above.children
        → ∃ below, resident.get? child = some below ∧ below.parent = some parent
  linked
    : ∀ child below parent,
        resident.get? child = some below
        → below.parent = some parent
        → (∃ above,
            resident.get? parent = some above
            ∧ (child ∈ above.children ∨ createdAt past child < createdAt past parent))
          ∨ (resident.get? parent = none
            ∧ Resident.lastDeparture config past parent = some .removed)
  severed
    : ∀ parent,
        resident.get? parent = none
        → Resident.lastDeparture config past parent = some .evicted
        → ∀ child below, resident.get? child = some below → below.parent ≠ some parent

theorem Recorded.coherent {past : List Change} (recorded : Recorded config past)
    (keyed : ∀ change ∈ past, change.Keyed)
    : (Resident.replay config past).Coherent config past := by
  have inOrder := recorded.linked keyed
  refine ⟨inOrder.listed, ?_, ?_⟩
  · intro child below parent found link
    rcases inOrder.linked child below parent found link with ⟨above, found', place⟩ | lost
    · refine .inl ⟨above, found', place.imp id ?_⟩
      intro place
      have ordered := recorded.keys_ordered.sublist place
      exact List.rel_of_pairwise_cons ordered (List.mem_singleton_self parent)
    · exact .inr lost
  · intro parent absent evicted child below found link
    rcases inOrder.linked child below parent found link with ⟨above, found', _⟩ | ⟨_, removed⟩
    · rw [absent] at found'
      cases found'
    · rw [evicted] at removed
      cases removed

/-- The journal tells what is resident, and links were coherent after every change in it. -/
structure Index.LinksCoherent {σ : Type} (config : Config) (index : Index σ) : Prop where
  replayed : index.resident = Resident.replay config index.journal
  coherent : ∀ past, past <:+ index.journal → (Resident.replay config past).Coherent config past

/-- Over a store that serves headers under their own hashes, links are coherent all through every
run of operations.
-/
theorem Index.Reached.linksCoherent {σ : Type} [HeaderSource σ] {states : σ → Prop}
    {index : Index σ} (wellKeyed : WellKeyed states)
    (reached : Index.Reached states (fun _ => True) config index)
    : index.LinksCoherent config := by
  obtain ⟨replayed, recorded⟩ := reached.recorded wellKeyed.toReadClosed
  refine ⟨replayed, ?_⟩
  intro past earlier
  refine (recorded.suffix earlier).coherent ?_
  intro change member
  exact reached.keyed wellKeyed change (earlier.subset member)

/-- An index in which the root was removed under its child and inserted again. -/
def Fork.reinserted : Index MemoryStore :=
  (Operation.insert root (some 0) .zero 4).next
    ((Operation.remove root.hash).next
      ((Operation.parent left.hash).next (.new Fork.store ⟨2⟩)))

-- The child still links to the root, which has not listed it again.
theorem Fork.linksCoherent_reinserted
    : (Fork.reinserted.get? left.hash).map Record.parent = some (some root.hash)
      ∧ (Fork.reinserted.get? root.hash).map Record.children = some []
      ∧ Fork.reinserted.LinksCoherent ⟨2⟩ := by
  have links : (Fork.reinserted.get? left.hash).map Record.parent = some (some root.hash)
      ∧ (Fork.reinserted.get? root.hash).map Record.children = some [] := by
    decide +kernel
  have reached : Index.Reached _ (fun _ => True) ⟨2⟩ Fork.reinserted :=
    .performed _ trivial (.performed _ trivial (.performed _ trivial (.new holds_keyed)))
  exact ⟨links.1, links.2, Index.Reached.linksCoherent MemoryStore.wellKeyed reached⟩

end HeaderChain
