import HeaderChain.Proofs.ArrivalOrder
import HeaderChain.Proofs.Catalog
import HeaderChain.Proofs.WorkGrowth

/-! When a header extends an index, and with what values. Over a store that never fails and lacks no
chain work, the parent is all that can be missing: it must be resident or known to the store. Room
for the parent is not needed, since it may be evicted by the header it was looked up for.
-/

namespace HeaderChain

variable {σ : Type} [HeaderSource σ]

-----------------------------------------------------------------------------------------
-- Stores that never fail
-----------------------------------------------------------------------------------------

/-- A store that never fails. The headers it serves hash to the key asked for, and the work that it
gives a header is a function of the header alone.
-/
structure Unfailing (states : σ → Prop) (workOf : Header → Work) : Prop
    extends WellKeyed states where
  fetched
    : ∀ store key,
        states store
        → ∃ answer after, HeaderSource.fetch key store = .ok answer after
  heightTold
    : ∀ store key,
        states store
        → ∃ answer after, HeaderSource.heightFor key store = .ok answer after
  workTold
    : ∀ store key,
        states store
        → ∃ answer after, HeaderSource.workThrough key store = .ok answer after
  ownWork : ∀ store header, states store → HeaderSource.workOf store header = workOf header

/-- A store that never fails and has the chain work of every header it serves. -/
structure Reliable (states : σ → Prop) (workOf : Header → Work) : Prop
    extends Unfailing states workOf where
  chainWork
    : ∀ store key seen served height between,
        states store
        → HeaderSource.fetch key store = .ok (some seen) served
        → HeaderSource.heightFor key served = .ok height between
        → ∃ total after, HeaderSource.workThrough key between = .ok (some total) after

/-- An absent store is reliable: it knows no headers. -/
theorem reliable_absent : Reliable (fun store : Option σ => store = none) Header.work where
  fetch store key absent := by
    subst absent
    rfl
  heightFor store key absent := by
    subst absent
    rfl
  workThrough store key absent := by
    subst absent
    rfl
  served store key header firstSeen after absent served := by
    subst absent
    cases served
  fetched store key absent := by
    subst absent
    exact ⟨none, none, rfl⟩
  heightTold store key absent := by
    subst absent
    exact ⟨none, none, rfl⟩
  workTold store key absent := by
    subst absent
    exact ⟨none, none, rfl⟩
  ownWork store header absent := by
    subst absent
    rfl
  chainWork store key seen served height between absent served' := by
    subst absent
    cases served'

/-- A store that serves a catalog of headers under their own hashes is reliable. -/
theorem Catalog.Serves.reliable {catalog : Catalog} {states : σ → Prop}
    (serves : catalog.Serves states)
    (keyed : ∀ key entry, catalog.entry key = some entry → entry.header.hash = key)
    : Reliable states catalog.workOf where
  toWellKeyed := serves.wellKeyed keyed
  fetched store key state := by
    obtain ⟨after, asked, _⟩ := serves.fetch store key state
    exact ⟨_, after, asked⟩
  heightTold store key state := by
    obtain ⟨after, asked, _⟩ := serves.heightFor store key state
    exact ⟨_, after, asked⟩
  workTold store key state := by
    obtain ⟨after, asked, _⟩ := serves.workThrough store key state
    exact ⟨_, after, asked⟩
  ownWork := serves.workOf
  chainWork store key seen served height between state asked asked' := by
    obtain ⟨served', fetched, state'⟩ := serves.fetch store key state
    obtain ⟨between', told, state''⟩ := serves.heightFor served' key state'
    obtain ⟨after, told', _⟩ := serves.workThrough between' key state''
    obtain ⟨same, rfl⟩ := EStateM.Result.ok.inj (asked.symm.trans fetched)
    obtain ⟨_, rfl⟩ := EStateM.Result.ok.inj (asked'.symm.trans told)
    obtain ⟨entry, known, _⟩ := Option.map_eq_some_iff.mp same.symm
    rw [known] at told'
    exact ⟨entry.chainWork, after, told'⟩

-----------------------------------------------------------------------------------------
-- What a key stands for
-----------------------------------------------------------------------------------------

/-- The store of an index serves a header under a key. -/
def Index.Knows (index : Index σ) (key : BlockHash) : Prop :=
  ∃ seen after, HeaderSource.fetch key index.store = .ok (some seen) after

/-- The record that a key stands for: the resident one, or else the one that hydration makes of the
header served under the key.
-/
inductive Index.Resolves (index : Index σ) (key : BlockHash) : Record → Prop
  | resident {record} (found : index.get? key = some record) : Resolves index key record
  | hydrated {header firstSeen height total} {served last : σ} (absent : index.get? key = none)
    (answered : HeaderSource.fetch key index.store = .ok (some ⟨header, firstSeen⟩) served)
    (derived
      : Derived key (HeaderSource.workOf served header) (index.get? header.prev) served height total
          last)
    : Resolves index key (.unlinked header height total firstSeen)

/-- The one sum of work that a lookup may need: that of a header to be hydrated on top of a resident
record.
-/
def Index.RoomBelow (workOf : Header → Work) (index : Index σ) (key : BlockHash) : Prop :=
  ∀ seen after above,
    index.get? key = none
    → HeaderSource.fetch key index.store = .ok (some seen) after
    → index.get? seen.header.prev = some above
    → above.work.toNat + (workOf seen.header).toNat < Work.capacity

variable {states : σ → Prop} {workOf : Header → Work} {config : Config} {index : Index σ}

/-- Hydration over a reliable store derives height and work, unless their sum is too great. -/
theorem Reliable.chainPosition_meets (reliable : Reliable states workOf) {key : BlockHash}
    {store : σ} {seen : SeenHeader} {work : Work} (state : states store)
    (asked : HeaderSource.fetch key store = .ok (some seen) index.store) (parent : Option Record)
    (room : ∀ above, parent = some above → above.work.toNat + work.toNat < Work.capacity)
    : (IndexM.chainPosition key work parent).Meets index
        (fun answer after =>
          ∃ last, after = { index with store := last }
            ∧ Derived key work parent index.store answer.1 answer.2 last)
        (fun _ _ => False) := by
  have served : states index.store := StoreRead.final_of_ok asked ▸ reliable.fetch _ key state
  obtain ⟨height, between, told⟩ := reliable.heightTold index.store key served
  have determined
      : (IndexM.chainPosition key work parent).Meets index (fun _ _ => True)
          (fun _ _ => False) := by
    cases parent with
    | some above =>
        obtain ⟨total, sum⟩ := Work.exists_add? (room above rfl)
        rw [IndexM.chainPosition]
        cases above.childHeight? with
        | some known =>
            simp only [IndexM.meets_bind, IndexM.meets_pure, IndexM.meets_sum, sum]
        | none =>
            simp only [IndexM.meets_bind, IndexM.meets_pure, IndexM.meets_ofStore,
              IndexM.meets_sum, told, sum]
    | none =>
        obtain ⟨total, after, told'⟩ :=
          reliable.chainWork store key seen index.store height between state asked told
        simp only [IndexM.chainPosition, IndexM.meets_bind, IndexM.meets_pure,
          IndexM.meets_ofStore, told, told']
  exact ((IndexM.chainPosition_meets (.lookup key) key work parent).and determined).mono
    (fun _ _ => And.left) fun _ _ => And.right

/-- A lookup over a reliable store answers the record that the key stands for, apart from links, and
has no answer only for a key that is neither resident nor known.
-/
theorem Reliable.lookup_meets (reliable : Reliable states workOf) (state : states index.store)
    {key : BlockHash} (room : index.RoomBelow workOf key)
    : (IndexM.lookup key).Meets index
        (fun answer _ =>
          (answer = none → index.get? key = none ∧ ¬ index.Knows key)
          ∧ ∀ record,
              answer = some record
              → ∃ entry, index.Resolves key entry ∧ record.withoutLinks = entry.withoutLinks)
        (fun _ _ => False) := by
  simp only [IndexM.lookup, IndexM.meets_bind, IndexM.meets_resident]
  split
  · next record found =>
      refine ⟨by simp, fun other same => ?_⟩
      obtain rfl : record = other := Option.some.inj same
      exact ⟨record, .resident found, rfl⟩
  · next absent =>
      obtain ⟨answer, served, asked⟩ := reliable.fetched index.store key state
      have state' : states served := StoreRead.final_of_ok asked ▸ reliable.fetch _ key state
      simp only [IndexM.hydrate, IndexM.meets_bind, IndexM.meets_ofStore, asked]
      rcases answer with none | ⟨header, firstSeen⟩
      · refine ⟨fun _ => ⟨absent, ?_⟩, by simp⟩
        rintro ⟨seen, after, asked'⟩
        simp [asked] at asked'
      · simp only [IndexM.meets_bind, IndexM.meets_workOf, IndexM.meets_resident]
        refine (reliable.chainPosition_meets state asked _ ?_).mono
          ?_ fun _ _ => id
        · intro above found
          rw [reliable.ownWork served header state']
          exact room ⟨header, firstSeen⟩ served above absent asked found
        · intro answer after positioned
          obtain ⟨last, rfl, derived⟩ := positioned
          let record : Record := .unlinked header answer.1 answer.2 firstSeen
          obtain ⟨entered, stays, same⟩ := Resident.exists_get?_enter_self record absent
          refine ⟨fun none => ?_, fun found under => ?_⟩
          · cases stays.symm.trans none
          · obtain rfl : entered = found := Option.some.inj (stays.symm.trans under)
            exact ⟨record, .hydrated absent asked derived, same⟩

/-- A key stands for a record only if it is resident or known. -/
theorem Index.Resolves.resident_or_knows {key : BlockHash} {record : Record}
    (resolves : index.Resolves key record)
    : index.contains key = true ∨ index.Knows key := by
  cases resolves with
  | resident found => exact .inl (Resident.contains_iff.mpr ⟨record, found⟩)
  | hydrated _ answered => exact .inr ⟨_, _, answered⟩

-----------------------------------------------------------------------------------------
-- The header on top
-----------------------------------------------------------------------------------------

/-- A header is the youngest resident one and a candidate, with the given height, work and time. -/
structure Index.Topped (after : Index σ) (header : Header) (height : Option Height) (work : Work)
    (firstSeen : UInt64) : Prop where
  record
    : ∃ record,
        after.get? header.hash = some record
        ∧ record.withoutLinks = .unlinked header height work firstSeen
  youngest : after.resident.table.keys.getLast? = some header.hash
  candidate : header.hash ∈ after.tips

/-- In an index that is reached, the record that was entered last as a candidate is on top. -/
theorem Index.Reached.topped {allowed : Operation → Prop} {between after : Index σ}
    {header : Header} {height : Option Height} {work : Work} {firstSeen : UInt64}
    (wellKeyed : WellKeyed states) (reached : Index.Reached states allowed config after)
    (absent : between.get? header.hash = none)
    (entered : after = between.changed (.indexed (.unlinked header height work firstSeen)))
    : after.Topped header height work firstSeen := by
  let record : Record := .unlinked header height work firstSeen
  let listed : Resident := { between.resident with tips := between.resident.tips.insert record }
  have absent' : listed.get? header.hash = none := absent
  obtain ⟨found, under, same⟩ := Resident.exists_get?_enter_self record absent'
  have resident : after.resident = listed.enter header.hash record :=
    congrArg Index.resident entered
  have journal : after.journal = .indexed record :: between.journal :=
    congrArg Index.journal entered
  have fits : (Change.indexed record).Fits between.resident := .indexed absent
  rw [← resident] at under
  refine ⟨⟨found, under, same⟩, ?_,
    (reached.candidates wellKeyed).mem_hashes_iff.mpr ⟨⟨found, under⟩, ?_⟩⟩
  · rw [resident]
    exact fits.getLast?_keys rfl
  · have held := Resident.unlinked?_of_get? under
    rw [(reached.recorded wellKeyed.toReadClosed).1, journal] at held
    rw [journal]
    exact (Resident.standing_cons held).mpr (.inl (decide_eq_true rfl))

section Extend

variable {header : Header}

theorem Index.Reached.extended {firstSeen : UInt64} {answer : Bool} {after : Index σ}
    (reached : Index.Reached states (fun _ => True) config index)
    (run : IndexM.extend header firstSeen index = .ok answer after)
    : Index.Reached states (fun _ => True) config after := by
  have next : (Operation.extend header firstSeen).next index = after := by
    simp only [Operation.next, Operation.perform, bind, EStateM.bind, run]
    rfl
  exact next ▸ .performed (.extend header firstSeen) trivial reached

theorem IndexM.extend_of_resident (resident : index.contains header.hash = true)
    (firstSeen : UInt64)
    : extend header firstSeen index = .ok false index := by
  have held : index.resident.contains header.hash = true := resident
  have met
      : (extend header firstSeen).Meets index (fun answer after => answer = false ∧ after = index)
          (fun _ _ => False) := by
    simp only [extend, meets_bind, meets_resident, held, if_true, meets_pure, and_self]
  obtain ⟨_, _, run, rfl, rfl⟩ := met.exists_ok
  exact run

/-- An extension on top of a parent ends with the new header entered, on the values that the parent
stands for, or else the parent is unknown.
-/
theorem Reliable.extend_meets_child (reliable : Reliable states workOf)
    (state : states index.store) (absent : index.get? header.hash = none)
    (later : header.isGenesis = false) (apart : header.prev ≠ header.hash)
    (below : index.RoomBelow workOf header.prev)
    (room
      : ∀ parent,
          index.Resolves header.prev parent
          → parent.work.toNat + (workOf header).toNat < Work.capacity)
    (firstSeen : UInt64)
    : (IndexM.extend header firstSeen).Meets index
        (fun answer after =>
          answer = true
          ∧ ∃ parent, ∃ total : Work, ∃ between : Index σ,
              index.Resolves header.prev parent
              ∧ total.toNat = parent.work.toNat + (workOf header).toNat
              ∧ between.get? header.hash = none
              ∧ after
                = between.changed
                    (.indexed (.unlinked header parent.childHeight? total firstSeen)))
        (fun failure _ =>
          failure = .unknownParent header.hash header.prev
          ∧ index.contains header.prev = false
          ∧ ¬ index.Knows header.prev) := by
  have fresh : index.resident.contains header.hash = false :=
    Resident.contains_eq_false_iff.mpr absent
  simp only [IndexM.extend, IndexM.meets_bind, IndexM.meets_resident, fresh, later,
    Bool.false_eq_true, if_false]
  refine ((IndexM.lookup_meets header.prev).and (reliable.lookup_meets state below)).mono ?_
    fun _ _ failed => failed.2.elim
  rintro answer between ⟨looked, answered⟩
  cases answer with
  | none =>
      obtain ⟨absent', unknown⟩ := answered.1 rfl
      exact ⟨rfl, Resident.contains_eq_false_iff.mpr absent', unknown⟩
  | some record =>
      obtain ⟨parent, resolves, same⟩ := answered.2 record rfl
      obtain ⟨_, height, work, _⟩ := Record.withoutLinks_inj.mp same
      have absent' : between.get? header.hash = none := by
        refine Resident.contains_eq_false_iff.mp (Bool.eq_false_iff.mpr fun resident => ?_)
        exact apart (looked.eq_of_entered absent resident).symm
      have ownWork := reliable.ownWork between.store header
        (looked.steps.states_kept reliable.toReadClosed state)
      obtain ⟨total, sum⟩ := Work.exists_add? (room parent resolves)
      rw [← ownWork, ← work] at sum
      refine (IndexM.insert_meets_new absent' sum).mono ?_ fun _ _ => False.elim
      rintro answer after ⟨rfl, rfl⟩
      refine ⟨rfl, parent, total, between, resolves, ?_, absent', ?_⟩
      · rw [← ownWork, ← work]
        exact Work.add?_eq_some_iff.mp sum
      · rw [Record.childHeight?, Record.childHeight?, height]

end Extend

/-- The sums of work that an extension makes fit: the one that its lookup of the parent may need,
and that of the header on top of the parent.
-/
structure Index.RoomFor (workOf : Header → Work) (header : Header) (index : Index σ) : Prop where
  below : index.RoomBelow workOf header.prev
  onTop
    : ∀ parent,
        index.Resolves header.prev parent
        → parent.work.toNat + (workOf header).toNat < Work.capacity

/-- What extending an index with a header does: it is refused exactly if the header is resident
already, the parent is unknown exactly if it is neither resident nor known to the store, and in all
other cases the header is on top afterwards, at height zero with its own work or on top of what the
parent stood for.
-/
structure Index.ExtendsExactly (workOf : Header → Work) (header : Header) (firstSeen : UInt64)
    (index : Index σ) : Prop where
  refused
    : (∃ after, IndexM.extend header firstSeen index = .ok false after)
      ↔ index.contains header.hash = true
  unknownParent
    : (∃ after,
        IndexM.extend header firstSeen index
        = .error (.unknownParent header.hash header.prev) after)
      ↔ index.contains header.hash = false
        ∧ header.isGenesis = false
        ∧ index.contains header.prev = false
        ∧ ¬ index.Knows header.prev
  accepted
    : (∃ after, IndexM.extend header firstSeen index = .ok true after)
      ↔ index.contains header.hash = false
        ∧ (header.isGenesis = true ∨ index.contains header.prev = true ∨ index.Knows header.prev)
  first
    : ∀ after,
        IndexM.extend header firstSeen index = .ok true after
        → header.isGenesis = true
        → after.Topped header (some 0) (workOf header) firstSeen
  child
    : ∀ after,
        IndexM.extend header firstSeen index = .ok true after
        → header.isGenesis = false
        → ∃ parent, ∃ total : Work,
            index.Resolves header.prev parent
            ∧ total.toNat = parent.work.toNat + (workOf header).toNat
            ∧ after.Topped header parent.childHeight? total firstSeen

/-- Over a reliable store, a header that does not name itself as its parent extends every index that
is reached exactly if its parent can be resolved, as long as the sums of work fit.
-/
theorem Index.Reached.extendsExactly {header : Header} (reliable : Reliable states workOf)
    (reached : Index.Reached states (fun _ => True) config index)
    (apart : header.prev ≠ header.hash)
    (room
      : index.contains header.hash = false → header.isGenesis = false → index.RoomFor workOf header)
    (firstSeen : UInt64)
    : index.ExtendsExactly workOf header firstSeen := by
  have state := reached.state reliable.toReadClosed
  cases fresh : index.contains header.hash with
  | true =>
      have run := IndexM.extend_of_resident fresh firstSeen
      constructor <;> simp [run, fresh]
  | false =>
      have absent := Resident.contains_eq_false_iff.mp fresh
      cases genesis : header.isGenesis with
      | true =>
          have sum : Work.zero.add? (HeaderSource.workOf index.store header)
              = some (workOf header) := by
            rw [reliable.ownWork _ _ state]
            exact Work.add?_eq_some_iff.mpr (Nat.zero_add _).symm
          have run : IndexM.extend header firstSeen index = .ok true _ :=
            IndexM.extend_eq_new absent (.first genesis) sum
          have topped := (reached.extended run).topped reliable.toWellKeyed absent rfl
          constructor <;> simp [run, fresh, genesis, topped]
      | false =>
          obtain ⟨below, onTop⟩ := room fresh genesis
          have met := reliable.extend_meets_child state absent genesis apart below onTop firstSeen
          rw [IndexM.Meets] at met
          cases run : IndexM.extend header firstSeen index with
          | ok answer after =>
              simp only [run] at met
              obtain ⟨rfl, parent, total, between, resolves, sum, absent', entered⟩ := met
              have topped := (reached.extended run).topped reliable.toWellKeyed absent' entered
              have resolved := resolves.resident_or_knows
              refine ⟨by simp [run, fresh], ?_, by simp [run, fresh, resolved], by simp [genesis],
                ?_⟩
              · have known (absent : index.contains header.prev = false)
                    : index.Knows header.prev :=
                  resolved.resolve_left (by simp [absent])
                simpa [run] using fun _ _ => known
              · intro after run' _
                cases run.symm.trans run'
                exact ⟨parent, total, resolves, sum, topped⟩
          | error failure after =>
              simp only [run] at met
              obtain ⟨rfl, absent', unknown⟩ := met
              constructor <;> simp [run, fresh, genesis, absent', unknown]

namespace Fork

/-- The store of the fork is reliable as long as nothing is written. -/
theorem reliable_store
    : Reliable
        (fun other : MemoryStore => other.headers = store.headers ∧ other.poisoned = false)
        Header.work :=
  store.serves_catalog.reliable holds_keyed

/-- With nothing resident, the left child stands for its entry in the store. -/
theorem resolves_left {config : Config} {record : Record}
    (resolves : (Index.new store config).Resolves left.hash record)
    : record = leftEntry.record := by
  have known : store.headers.get? left.hash = some leftEntry := by
    simp [get?_store, left_ne_right]
  cases resolves with
  | resident found => cases found
  | @hydrated header firstSeen height total served last absent answered derived =>
      obtain ⟨entry, found, seen, same⟩ := MemoryStore.entry_of_fetch answered
      have kept : served.headers = store.headers := same
      cases known.symm.trans found
      cases seen
      cases derived with
      | stored asked told =>
          obtain ⟨rfl, rfl⟩ := MemoryStore.height_of_heightFor asked
          obtain ⟨same, rfl⟩ := MemoryStore.work_of_workThrough told
          rw [kept, known] at same ⊢
          cases same
          rfl

-- There is room for one record, so the leaf evicts the parent that it was put on top of.
theorem extendsExactly_crowded
    : leaf.prev ≠ leaf.hash
      ∧ (Index.new store ⟨1⟩).RoomFor Header.work leaf
      ∧ (Index.new store ⟨1⟩).ExtendsExactly Header.work leaf 9
      ∧ (IndexM.extend leaf 9).Meets (Index.new store ⟨1⟩)
          (fun answer after =>
            answer = true
            ∧ after.resident.table.keys = [leaf.hash]
            ∧ after.get? leaf.hash = some (.unlinked leaf (some 2) (.ofNat 5) 9))
          (fun _ _ => False) := by
  have apart : leaf.prev ≠ leaf.hash := leaf_ne_left.symm
  have room : (Index.new store ⟨1⟩).RoomFor Header.work leaf := by
    constructor
    · intro seen after above _ _ found
      cases found
    · intro parent resolves
      rw [resolves_left resolves]
      decide
  have ended
      : (IndexM.extend leaf 9).Meets (Index.new store ⟨1⟩)
          (fun answer after =>
            answer = true
            ∧ after.resident.table.keys = [leaf.hash]
            ∧ after.get? leaf.hash = some (.unlinked leaf (some 2) (.ofNat 5) 9))
          (fun _ _ => False) := by
    decide +kernel
  exact ⟨apart, room,
    Index.Reached.extendsExactly reliable_store (.new ⟨rfl, rfl⟩) apart (fun _ _ => room) 9, ended⟩

end Fork

end HeaderChain
