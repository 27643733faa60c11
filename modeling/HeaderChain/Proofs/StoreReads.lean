import HeaderChain.Proofs.CleanFailure
import HeaderChain.Proofs.Substitution
import HeaderChain.Store.Logged

/-! Which reads an index asks its store for. A lookup asks for nothing that is resident, and a walk
that steps from one header to the next finds the lower end of each step resident: its record was the
last to enter or to be found, and nothing is evicted before the step begins.
-/

namespace HeaderChain

variable {σ : Type}

-----------------------------------------------------------------------------------------
-- Logs
-----------------------------------------------------------------------------------------

/-- The key that a read fetches the header for. -/
def StoreCall.fetched? : StoreCall → Option BlockHash
  | .fetch key => some key
  | _ => none

/-- The index over the same store with an empty log. -/
def Index.observed (index : Index σ) : Index (HeaderChain.Logged σ) :=
  ⟨⟨index.store, []⟩, index.resident, index.journal⟩

/-- Nothing has been asked of the store yet. -/
def Index.Unasked (index : Index (HeaderChain.Logged σ)) : Prop :=
  index.store.calls = []

namespace Logged

/-- The keys for which headers were fetched, earliest first. -/
def fetched (store : Logged σ) : List BlockHash :=
  store.calls.filterMap StoreCall.fetched?

theorem final_record {α : Type} (call : StoreCall) (read : StoreRead σ α) (store : Logged σ)
    : (record call read).final store = ⟨read.final store.inner, store.calls ++ [call]⟩ := by
  rw [StoreRead.final, record, StoreRead.final]
  cases read store.inner <;> rfl

/-- Whether a log is kept of a store. -/
def IsOf (logged : Logged σ) (store : σ) : Prop :=
  logged.inner = store

theorem concur_record {α : Type} (call : StoreCall) (read : StoreRead σ α)
    : Concur IsOf (record call read) read := by
  intro logged store same
  obtain rfl : logged.inner = store := same
  rw [record]
  cases read logged.inner with
  | ok answer after => exact .ok rfl
  | error failure after => exact .error rfl

variable [HeaderSource σ] {states : σ → Prop}

theorem fetch_eq (key : BlockHash)
    : (HeaderSource.fetch key : StoreRead (Logged σ) _)
      = record (.fetch key) (HeaderSource.fetch key) :=
  rfl

theorem heightFor_eq (key : BlockHash)
    : (HeaderSource.heightFor key : StoreRead (Logged σ) _)
      = record (.heightFor key) (HeaderSource.heightFor key) :=
  rfl

theorem workThrough_eq (key : BlockHash)
    : (HeaderSource.workThrough key : StoreRead (Logged σ) _)
      = record (.workThrough key) (HeaderSource.workThrough key) :=
  rfl

/-- An index cannot tell a store from the same one with a log. -/
theorem interchangeable : Interchangeable (IsOf : Logged σ → σ → Prop) where
  fetch key := concur_record (.fetch key) _
  heightFor key := concur_record (.heightFor key) _
  workThrough key := concur_record (.workThrough key) _
  workOf logged store header same := by
    obtain rfl : logged.inner = store := same
    rfl

/-- A log keeps a store in its states, and headers are still served under their own hashes. -/
theorem wellKeyed (wellKeyed : WellKeyed states)
    : WellKeyed fun logged : Logged σ => states logged.inner where
  fetch logged key state := by
    rw [fetch_eq, final_record]
    exact wellKeyed.fetch _ key state
  heightFor logged key state := by
    rw [heightFor_eq, final_record]
    exact wellKeyed.heightFor _ key state
  workThrough logged key state := by
    rw [workThrough_eq, final_record]
    exact wellKeyed.workThrough _ key state
  served logged key header firstSeen after state asked := by
    have alike := concur_record (.fetch key) (HeaderSource.fetch key) logged logged.inner rfl
    rw [← fetch_eq, asked] at alike
    generalize told : HeaderSource.fetch key logged.inner = ending at alike
    cases alike with
    | ok => exact wellKeyed.served _ _ _ _ _ state told

end Logged

/-- A logged read meets a condition on what the store answers, with one more call in the log. -/
theorem IndexM.meets_record {α : Type} {call : StoreCall} {read : StoreRead σ α}
    {index : Index (Logged σ)} {answered : α → Index (Logged σ) → Prop}
    {failed : Failure → Index (Logged σ) → Prop}
    : (ofStore (Logged.record call read)).Meets index answered failed
      ↔ let calls := index.store.calls ++ [call]
        match read index.store.inner with
        | .ok answer inner => answered answer { index with store := ⟨inner, calls⟩ }
        | .error error inner => failed (.storage error) { index with store := ⟨inner, calls⟩ } := by
  rw [meets_ofStore, Logged.record]
  cases read index.store.inner <;> rfl

-----------------------------------------------------------------------------------------
-- Lookups
-----------------------------------------------------------------------------------------

/-- No height of a child is known if there is none, or none above. -/
theorem Record.childHeight?_eq_none_iff {record : Record}
    : record.childHeight? = none ↔ record.height = none ∨ record.height = some 4294967295 := by
  rw [childHeight?]
  cases record.height with
  | none => simp
  | some height => simp [Height.next?]

variable [HeaderSource σ]

/-- The reads for height and work of a header, given the resident record of its parent and the store
from which the header was served.
-/
structure PositionReads (key : BlockHash) (parent : Option Record) (store : σ)
    (calls : List StoreCall)
    : Prop where
  ordered : calls.Sublist [.heightFor key, .workThrough key]
  heightFor
    : .heightFor key ∈ calls ↔ ∀ record, parent = some record → record.childHeight? = none
  workThrough
    : .workThrough key ∈ calls
      ↔ parent = none ∧ ∃ height between, HeaderSource.heightFor key store = .ok height between

/-- The reads for a key that is not resident, in this order. The header is fetched. If it is served,
its height is read unless a resident parent supplies it, and then its work unless the parent is
resident or the height could not be read.
-/
structure LookupReads (resident : Resident) (store : σ) (key : BlockHash) (calls : List StoreCall)
    : Prop where
  ordered : calls.Sublist [.fetch key, .heightFor key, .workThrough key]
  fetch : .fetch key ∈ calls
  heightFor
    : .heightFor key ∈ calls
      ↔ ∃ seen served,
          HeaderSource.fetch key store = .ok (some seen) served
          ∧ ∀ parent,
              resident.get? seen.header.prev = some parent
              → parent.height = none ∨ parent.height = some 4294967295
  workThrough
    : .workThrough key ∈ calls
      ↔ ∃ seen served height between,
          HeaderSource.fetch key store = .ok (some seen) served
          ∧ resident.get? seen.header.prev = none
          ∧ HeaderSource.heightFor key served = .ok height between

namespace LookupReads

variable {resident : Resident} {store after : σ} {key : BlockHash} {calls : List StoreCall}

/-- A header that is not served is not read about any further. -/
theorem unserved
    (unknown : ∀ seen after, HeaderSource.fetch key store ≠ .ok (some seen) after)
    : LookupReads resident store key [.fetch key] where
  ordered := by simp
  fetch := List.mem_singleton_self _
  heightFor := by
    refine iff_of_false (by simp) ?_
    rintro ⟨seen, after, asked, _⟩
    exact unknown seen after asked
  workThrough := by
    refine iff_of_false (by simp) ?_
    rintro ⟨seen, after, _, _, asked, _⟩
    exact unknown seen after asked

theorem served {seen : SeenHeader} (asked : HeaderSource.fetch key store = .ok (some seen) after)
    (reads : PositionReads key (resident.get? seen.header.prev) after calls)
    : LookupReads resident store key (.fetch key :: calls) where
  ordered := reads.ordered.cons_cons _
  fetch := List.mem_cons_self
  heightFor := by
    simp only [List.mem_cons, reduceCtorEq, false_or, reads.heightFor, asked,
      Record.childHeight?_eq_none_iff, EStateM.Result.ok.injEq, Option.some.injEq]
    constructor
    · exact fun unknown => ⟨seen, after, ⟨rfl, rfl⟩, unknown⟩
    · rintro ⟨_, _, ⟨rfl, rfl⟩, unknown⟩
      exact unknown
  workThrough := by
    simp only [List.mem_cons, reduceCtorEq, false_or, reads.workThrough, asked,
      EStateM.Result.ok.injEq, Option.some.injEq]
    constructor
    · rintro ⟨absent, height, between, told⟩
      exact ⟨seen, after, height, between, ⟨rfl, rfl⟩, absent, told⟩
    · rintro ⟨_, _, height, between, ⟨rfl, rfl⟩, absent, told⟩
      exact ⟨absent, height, between, told⟩

/-- Of the reads for a key, one is a fetch. -/
theorem fetched_eq (reads : LookupReads resident store key calls)
    : calls.filterMap StoreCall.fetched? = [key] := by
  have few : (calls.filterMap StoreCall.fetched?).Sublist [key] :=
    reads.ordered.filterMap StoreCall.fetched?
  have some : key ∈ calls.filterMap StoreCall.fetched? :=
    List.mem_filterMap.mpr ⟨_, reads.fetch, rfl⟩
  rcases List.sublist_singleton.mp few with none | one
  · rw [none] at some
    cases some
  · exact one

end LookupReads

namespace IndexM

variable {index : Index (Logged σ)}

/-- The log goes on with particular reads. -/
def Adds (index : Index (Logged σ)) (fits : List StoreCall → Prop) (after : Index (Logged σ))
    : Prop :=
  ∃ calls, after.store.calls = index.store.calls ++ calls ∧ fits calls

/-- Height and work are read as far as they do not follow from the parent, by cases of what is known
of it and of what the store answers.
-/
theorem chainPosition_reads (key : BlockHash) (work : Work) (parent : Option Record)
    : (chainPosition key work parent).Meets index
        (fun _ after => Adds index (PositionReads key parent index.store.inner) after)
        (fun _ after => Adds index (PositionReads key parent index.store.inner) after) := by
  cases parent with
  | some parent =>
      rw [chainPosition]
      cases known : parent.childHeight? with
      | some height =>
          have reads : PositionReads key (some parent) index.store.inner [] :=
            ⟨List.nil_sublist _, by simp [known], by simp⟩
          simp only [meets_bind, meets_pure, meets_sum]
          split
          all_goals exact ⟨[], (List.append_nil _).symm, reads⟩
      | none =>
          have reads : PositionReads key (some parent) index.store.inner [.heightFor key] :=
            ⟨by simp, by simp [known], by simp⟩
          simp only [meets_bind, Logged.heightFor_eq, meets_record, meets_sum, meets_pure]
          split
          · split
            all_goals exact ⟨[.heightFor key], rfl, reads⟩
          · exact ⟨[.heightFor key], rfl, reads⟩
  | none =>
      simp only [chainPosition, meets_bind, Logged.heightFor_eq, Logged.workThrough_eq,
        meets_record]
      cases told : (HeaderSource.heightFor key : StoreRead σ _) index.store.inner with
      | ok height between =>
          have reads
              : PositionReads key none index.store.inner [.heightFor key, .workThrough key] :=
            ⟨.refl _, by simp, by simp [told]⟩
          dsimp only
          split
          · split
            all_goals exact ⟨_, List.append_assoc _ _ _, reads⟩
          · exact ⟨_, List.append_assoc _ _ _, reads⟩
      | error failure between =>
          have reads : PositionReads key none index.store.inner [.heightFor key] :=
            ⟨by simp, by simp, by simp [told]⟩
          exact ⟨[.heightFor key], rfl, reads⟩

/-- A lookup of a key that is not resident reads just what it needs, whether it answers or fails. -/
theorem lookup_reads {key : BlockHash} (absent : index.resident.get? key = none)
    : (lookup key).Meets index
        (fun _ after => Adds index (LookupReads index.resident index.store.inner key) after)
        (fun _ after => Adds index (LookupReads index.resident index.store.inner key) after) := by
  simp only [lookup, meets_bind, meets_resident, absent, hydrate, Logged.fetch_eq, meets_record]
  cases asked : (HeaderSource.fetch key : StoreRead σ _) index.store.inner with
  | error failure served => exact ⟨[.fetch key], rfl, .unserved (by simp [asked])⟩
  | ok found served =>
      cases found with
      | none => exact ⟨[.fetch key], rfl, .unserved (by simp [asked])⟩
      | some seen =>
          have further {after : Index (Logged σ)}
              (adds
                : Adds { index with store := ⟨served, index.store.calls ++ [.fetch key]⟩ }
                    (PositionReads key (index.resident.get? seen.header.prev) served) after)
              : Adds index (LookupReads index.resident index.store.inner key) after := by
            obtain ⟨calls, log, reads⟩ := adds
            exact ⟨.fetch key :: calls, log.trans (List.append_assoc _ _ _), .served asked reads⟩
          simp only [meets_bind, meets_workOf, meets_resident]
          refine (chainPosition_reads key _ _).mono ?_ ?_
          · intro position after adds
            exact further adds
          · intro failure after adds
            exact further adds

end IndexM

theorem Operation.lookup_next_reads {index : Index (Logged σ)} {key : BlockHash}
    (absent : index.resident.get? key = none)
    : IndexM.Adds index (LookupReads index.resident index.store.inner key)
        ((Operation.lookup key).next index) := by
  refine next_of_meets (IndexM.meets_bind.mpr ?_)
  exact IndexM.lookup_reads absent

-----------------------------------------------------------------------------------------
-- Walks
-----------------------------------------------------------------------------------------

/-- A sequence of lookups of keys that were not resident when they were looked up, and of links from
resident records to their resident parents. The keys are listed in this order, also those that were
not found.
-/
inductive Index.Consults (before : Index σ) : List BlockHash → Index σ → Prop
  | start : Consults before [] before
  | missing {keys between} (key : BlockHash) (earlier : Consults before keys between)
    (absent : between.resident.get? key = none)
    : Consults before (keys ++ [key]) ((Operation.lookup key).next between)
  | linked {keys between child below above} (earlier : Consults before keys between)
    (found : between.resident.get? child = some below)
    (later : below.header.isGenesis = false)
    (parent : between.resident.get? below.prev = some above)
    : Consults before keys (between.changed (.linked child below.prev))

/-- The headers that are fetched on the way are those for the keys that were not resident, each
once for each time that it was looked up.
-/
theorem Index.Consults.fetched_eq {before after : Index (HeaderChain.Logged σ)}
    {keys : List BlockHash} (consults : before.Consults keys after)
    : after.store.fetched = before.store.fetched ++ keys := by
  induction consults with
  | start => exact (List.append_nil _).symm
  | @missing keys between key _ absent ih =>
      obtain ⟨calls, log, reads⟩ := Operation.lookup_next_reads absent
      rw [Logged.fetched, log, List.filterMap_append, reads.fetched_eq, ← Logged.fetched, ih,
        List.append_assoc]
  | linked _ _ _ _ ih => exact ih

/-- An index that lookups and links have led to, with no more than a number of keys that were not
resident when they were looked up.
-/
def Index.Spends (before : Index σ) (count : Nat) (after : Index σ) : Prop :=
  ∃ keys, Index.Consults before keys after ∧ keys.length ≤ count

theorem Index.Spends.mono {before after : Index σ} {count more : Nat}
    (spends : before.Spends count after) (enough : count ≤ more)
    : before.Spends more after := by
  obtain ⟨keys, consults, few⟩ := spends
  exact ⟨keys, consults, Nat.le_trans few enough⟩

namespace IndexM

variable {before index : Index σ} {count : Nat} {states : σ → Prop} {config : Config}

/-- The index after a lookup is the one that its answer or its failure comes with. -/
theorem lookup_meets_next {index : Index σ} (key : BlockHash)
    : (lookup key).Meets index (fun _ after => after = (Operation.lookup key).next index)
        (fun _ after => after = (Operation.lookup key).next index) := by
  rw [Meets, Operation.next, Operation.perform]
  simp only [bind, EStateM.bind]
  cases lookup key index <;> rfl

/-- A lookup spends one key at most. -/
theorem lookup_spends (key : BlockHash) (spends : before.Spends count index)
    : (lookup key).Meets index (fun _ after => before.Spends (count + 1) after)
        (fun _ after => before.Spends (count + 1) after) := by
  cases held : index.resident.get? key with
  | some record =>
      rw [Meets, lookup_of_resident held]
      exact spends.mono (Nat.le_succ count)
  | none =>
      obtain ⟨keys, consults, few⟩ := spends
      have spent : before.Spends (count + 1) ((Operation.lookup key).next index) := by
        refine ⟨keys ++ [key], consults.missing key held, ?_⟩
        rw [List.length_append, List.length_singleton]
        exact Nat.succ_le_succ few
      refine (lookup_meets_next key).mono ?_ ?_
      · intro answer after same
        exact same ▸ spent
      · intro failure after same
        exact same ▸ spent

/-- A step to the parent of a resident record spends one key at most, and what it answers is
resident under its own hash, ready for the next step.
-/
theorem parent_spends {key : BlockHash} {record : Record} (wellKeyed : WellKeyed states)
    (documented : index.Documented config states)
    (found : index.resident.get? key = some record) (spends : before.Spends count index)
    : (parent key).Meets index
        (fun answer after =>
          before.Spends (count + 1) after
          ∧ ∀ above, answer = some above → after.resident.get? above.hash = some above)
        (fun _ after => before.Spends (count + 1) after) := by
  have done := lookup_of_resident found
  have first : LookedUp key index (some record) index := (lookup_meets key).of_ok done
  refine parent_meets_of_lookups ?_
  rw [Meets, done]
  dsimp only
  split
  · refine ⟨spends.mono (Nat.le_succ count), ?_⟩
    intro above none
    cases none
  · next later =>
      refine ((lookup_meets record.prev).and (lookup_spends record.prev spends)).mono ?_
        fun _ _ => And.right
      intro answer after met
      obtain ⟨looked, spends'⟩ := met
      cases answer with
      | none =>
          refine ⟨spends', ?_⟩
          intro above none
          cases none
      | some above =>
          refine ⟨?_, ?_⟩
          · rcases first.joined looked (Bool.eq_false_iff.mpr later) with
              same | ⟨below, under, later', parent, same⟩
            · rw [same]
              exact spends'
            · rw [same]
              obtain ⟨keys, consults, few⟩ := spends'
              exact ⟨keys, consults.linked under later' parent, few⟩
          · intro linked under
            have own : linked.hash = record.prev := by
              have after' := (documented.steps wellKeyed looked.steps).own
              have under' := Resident.unlinked?_of_get? under
              rw [Index.unlinked?_joined] at under'
              exact after' record.prev linked.withoutLinks under'
            rw [own]
            exact under

/-- A climb from a resident record spends one key at most for each step, by induction on the number
of steps: each begins at a record that the step before has left resident.
-/
theorem climb_spends (wellKeyed : WellKeyed states) (steps : Nat) {key : BlockHash}
    {record : Record} (documented : index.Documented config states)
    (found : index.resident.get? key = some record) (spends : before.Spends count index)
    : (climb steps key).Meets index (fun _ after => before.Spends (count + steps) after)
        (fun _ after => before.Spends (count + steps) after) := by
  induction steps generalizing index key record count with
  | zero => exact spends
  | succ steps ih =>
      have total : count + 1 + steps = count + (steps + 1) := by omega
      rw [climb, meets_bind, ← total]
      refine ((parent_spends wellKeyed documented found spends).and
        (takes_parent .evict key index)).mono ?_ ?_
      · intro answer after met
        obtain ⟨⟨spends', resident⟩, taken⟩ := met
        cases answer with
        | none => exact spends'.mono (Nat.le_add_right _ _)
        | some above => exact ih (documented.steps wellKeyed taken) (resident above rfl) spends'
      · intro failure after met
        exact met.1.mono (Nat.le_add_right _ _)

/-- A walk to an ancestor spends one key for where it starts and one for each step, at most. -/
theorem ancestor_spends (wellKeyed : WellKeyed states) (key : BlockHash) (depth : Nat)
    (documented : index.Documented config states)
    : (ancestor key depth).Meets index (fun _ after => index.Spends (depth + 1) after)
        (fun _ after => index.Spends (depth + 1) after) := by
  have start : index.Spends 0 index := ⟨[], .start, Nat.le_refl 0⟩
  rw [ancestor, meets_bind, Nat.add_comm]
  refine ((lookup_spends key start).and (lookup_meets key)).mono ?_ ?_
  · intro answer after met
    obtain ⟨spends, looked⟩ := met
    cases answer with
    | none => exact spends.mono (Nat.le_add_right _ _)
    | some record =>
        have documented' := documented.steps wellKeyed looked.steps
        have own : record.hash = key :=
          documented'.own key record.withoutLinks (Resident.unlinked?_of_get? looked.answered.symm)
        have resident : after.resident.get? record.hash = some record := by
          rw [own]
          exact looked.answered.symm
        exact climb_spends wellKeyed depth documented' resident spends
  · intro failure after met
    exact met.1.mono (Nat.le_add_right _ _)

end IndexM

-----------------------------------------------------------------------------------------
-- Reads of an index
-----------------------------------------------------------------------------------------

/-- The reads that the store is asked for, told by an index with a log, which answers and fails as
the one without. A resident key causes none, and a missing key those of one lookup, for this key
only. What needs no lookup reads nothing, and the answers that leave the index alone do not depend
on the store at all. Where headers are served under their own hashes, a walk to an ancestor in an
index that was reached fetches one header for its start and one for each step, at most, each
for a key that is not resident when it is looked up.
-/
structure Index.ReadsSparingly (index : Index σ) : Prop where
  alike
    : ∀ operation : Operation,
        EndsAlike (Index.Paired Logged.IsOf) (operation.perform index.observed)
          (operation.perform index)
  resident
    : ∀ key record,
        index.resident.get? key = some record
        → (Operation.lookup key).next index.observed = index.observed
  missing
    : ∀ key,
        index.resident.get? key = none
        → LookupReads index.resident index.store key
            ((Operation.lookup key).next index.observed).store.calls
  insert
    : ∀ header height baseline firstSeen,
        ((Operation.insert header height baseline firstSeen).next index.observed).Unasked
  remove : ∀ key, ((Operation.remove key).next index.observed).Unasked
  evict : (Operation.evict.next index.observed).Unasked
  views
    : ∀ store : σ,
        let other := { index with store }
        other.contains = index.contains
        ∧ other.get? = index.get?
        ∧ other.tips = index.tips
        ∧ other.tipCount = index.tipCount
        ∧ other.bestTip? = index.bestTip?
        ∧ other.bestTipRecord? = index.bestTipRecord?
  ancestor
    : ∀ states allowed config,
        WellKeyed states
        → Index.Reached states allowed config index
        → ∀ key depth,
            let after := (Operation.ancestor key depth).next index.observed
            ∃ keys,
              index.observed.Consults keys after
              ∧ after.store.fetched = keys
              ∧ keys.length ≤ depth.toNat + 1

/-- Over any store, an index asks for what is missing and for nothing else. -/
theorem Index.readsSparingly (index : Index σ) : index.ReadsSparingly where
  alike operation := Logged.interchangeable.concur_perform operation _ _ ⟨rfl, rfl, rfl⟩
  resident key record found := by
    have held : index.observed.resident.get? key = some record := found
    rw [Operation.next, Operation.perform]
    simp only [bind, EStateM.bind, IndexM.lookup_of_resident held]
    rfl
  missing key absent := by
    have missing : index.observed.resident.get? key = none := absent
    obtain ⟨calls, log, reads⟩ := Operation.lookup_next_reads missing
    rw [log]
    exact reads
  insert header height baseline firstSeen := by
    refine Operation.next_of_meets ?_
    refine IndexM.meets_bind.mpr ?_
    refine (IndexM.insert_meets .stated).mono ?_ ?_
    · intro answer after outcome
      rcases outcome with ⟨_, rfl⟩ | ⟨_, total, rfl, _⟩
      · rfl
      · rfl
    · intro failure after same
      rw [same]
      rfl
  remove key := by
    refine Operation.next_of_meets ?_
    refine IndexM.meets_bind.mpr ?_
    rw [IndexM.remove, IndexM.meets_bind, IndexM.meets_resident]
    split
    · rfl
    · rfl
  evict := rfl
  views store := ⟨rfl, rfl, rfl, rfl, rfl, rfl⟩
  ancestor states allowed config wellKeyed reached key depth := by
    have documented : index.observed.Documented config fun logged => states logged.inner :=
      { state := reached.state wellKeyed.toReadClosed
        recorded := reached.recorded wellKeyed.toReadClosed
        keyed := reached.keyed wellKeyed }
    have spends : index.observed.Spends (depth.toNat + 1)
        ((Operation.ancestor key depth).next index.observed) := by
      refine Operation.next_of_meets ?_
      refine IndexM.meets_bind.mpr ?_
      exact IndexM.ancestor_spends (Logged.wellKeyed wellKeyed) key depth.toNat documented
    obtain ⟨keys, consults, few⟩ := spends
    exact ⟨keys, consults, consults.fetched_eq, few⟩

namespace Fork

/-- An index with room for one record, in which the root has the greatest height. -/
def lofty : Index MemoryStore :=
  (Operation.insert root (some 4294967295) .zero 5).next (.new store ⟨1⟩)

-- Nothing is left to ask about a child of the root but its height. The walk back to the root then
-- asks for all there is about it, since by then it had to make room for the child.
theorem readsSparingly_lofty
    : ((Operation.lookup root.hash).next lofty.observed).store.calls = []
      ∧ ((Operation.ancestor left.hash 1).next lofty.observed).store.calls
          = [.fetch left.hash, .heightFor left.hash, .fetch root.hash, .heightFor root.hash,
              .workThrough root.hash]
      ∧ lofty.ReadsSparingly
      ∧ ∃ keys,
          lofty.observed.Consults keys ((Operation.ancestor left.hash 1).next lofty.observed)
          ∧ keys = [left.hash, root.hash] := by
  have content
      : ((Operation.lookup root.hash).next lofty.observed).store.calls = []
        ∧ ((Operation.ancestor left.hash 1).next lofty.observed).store.calls
            = [.fetch left.hash, .heightFor left.hash, .fetch root.hash, .heightFor root.hash,
                .workThrough root.hash] := by
    decide +kernel
  have reached
      : Index.Reached (MemoryStore.Holds fun key entry => entry.header.hash = key) (fun _ => True)
          ⟨1⟩ lofty :=
    .performed _ trivial (.new holds_keyed)
  have reads := Index.readsSparingly lofty
  obtain ⟨keys, consults, fetched, _⟩ :=
    reads.ancestor _ _ _ MemoryStore.wellKeyed reached left.hash 1
  refine ⟨content.1, content.2, reads, keys, consults, ?_⟩
  rw [← fetched, Logged.fetched, content.2]
  rfl

end Fork

end HeaderChain
