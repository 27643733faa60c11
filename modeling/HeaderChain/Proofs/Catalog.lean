import HeaderChain.Proofs.StoredHeaders
import HeaderChain.Proofs.Step

/-! A fixed store as the catalog of what it knows. Over a consistent catalog, lookups and walks to
the parent never fail, and whatever they bring in is what the catalog has.
-/

namespace HeaderChain

/-- The headers that a store knows, with their places in their chains, and the work of headers. -/
structure Catalog where
  entry : BlockHash → Option KnownHeader
  workOf : Header → Work

/-- The record that hydration makes of an entry. -/
def KnownHeader.record (entry : KnownHeader) : Record :=
  .unlinked entry.header entry.height entry.chainWork entry.firstSeen

/-- A record agrees with an entry in its header, its height and its work. -/
structure KnownHeader.Matches (entry : KnownHeader) (record : Record) : Prop where
  header : record.header = entry.header
  height : record.height = entry.height
  work : record.work = entry.chainWork

namespace Catalog

/-- Whether the catalog has an entry under a key. -/
def knows (catalog : Catalog) (key : BlockHash) : Bool :=
  (catalog.entry key).isSome

/-- The key of the header before a known one, if that is known as well. -/
def parent? (catalog : Catalog) (key : BlockHash) : Option BlockHash :=
  match catalog.entry key with
  | none => none
  | some entry =>
      if entry.header.isGenesis then none
      else if catalog.knows entry.header.prev then some entry.header.prev
      else none

/-- Headers are filed under their own hashes. From a known header to the next, heights count as far
as they go, and works sum.
-/
structure Consistent (catalog : Catalog) : Prop where
  keyed : ∀ key entry, catalog.entry key = some entry → entry.header.hash = key
  height
    : ∀ key entry parent,
        catalog.entry key = some entry
        → catalog.entry entry.header.prev = some parent
        → entry.height = parent.height.bind Height.next?
  work
    : ∀ key entry parent,
        catalog.entry key = some entry
        → catalog.entry entry.header.prev = some parent
        → entry.chainWork.toNat = parent.chainWork.toNat + (catalog.workOf entry.header).toNat

/-- A store in one of the given states answers every read from the catalog, without fail, and is in
one of them afterwards.
-/
structure Serves {σ : Type} [HeaderSource σ] (catalog : Catalog) (states : σ → Prop) : Prop where
  fetch
    : ∀ store key,
        states store
        → ∃ after,
            HeaderSource.fetch key store
              = .ok ((catalog.entry key).map fun entry => ⟨entry.header, entry.firstSeen⟩) after
            ∧ states after
  heightFor
    : ∀ store key,
        states store
        → ∃ after,
            HeaderSource.heightFor key store
              = .ok ((catalog.entry key).bind KnownHeader.height) after
            ∧ states after
  workThrough
    : ∀ store key,
        states store
        → ∃ after,
            HeaderSource.workThrough key store
              = .ok ((catalog.entry key).map KnownHeader.chainWork) after
            ∧ states after
  workOf : ∀ store header, states store → HeaderSource.workOf store header = catalog.workOf header

/-- A store in one of the given states answers from the catalog, without fail, whatever a lookup may
ask it, and is in one of them afterwards. Height and work are never asked for unknown headers.
-/
structure Supplies {σ : Type} [HeaderSource σ] (catalog : Catalog) (states : σ → Prop)
    : Prop where
  fetch
    : ∀ store key,
        states store
        → ∃ after,
            HeaderSource.fetch key store
              = .ok ((catalog.entry key).map fun entry => ⟨entry.header, entry.firstSeen⟩) after
            ∧ states after
  heightFor
    : ∀ store key entry,
        states store
        → catalog.entry key = some entry
        → ∃ after, HeaderSource.heightFor key store = .ok entry.height after ∧ states after
  workThrough
    : ∀ store key entry,
        states store
        → catalog.entry key = some entry
        → ∃ after,
            HeaderSource.workThrough key store = .ok (some entry.chainWork) after
            ∧ states after
  workOf : ∀ store header, states store → HeaderSource.workOf store header = catalog.workOf header

theorem Serves.supplies {σ : Type} [HeaderSource σ] {catalog : Catalog} {states : σ → Prop}
    (serves : catalog.Serves states)
    : catalog.Supplies states where
  fetch := serves.fetch
  heightFor store key entry state known := by
    obtain ⟨after, asked, state'⟩ := serves.heightFor store key state
    rw [known] at asked
    exact ⟨after, asked, state'⟩
  workThrough store key entry state known := by
    obtain ⟨after, asked, state'⟩ := serves.workThrough store key state
    rw [known] at asked
    exact ⟨after, asked, state'⟩
  workOf := serves.workOf

/-- A store that serves headers filed under their own hashes is one that reads never lead astray. -/
theorem Serves.wellKeyed {σ : Type} [HeaderSource σ] {catalog : Catalog} {states : σ → Prop}
    (serves : catalog.Serves states)
    (keyed : ∀ key entry, catalog.entry key = some entry → entry.header.hash = key)
    : WellKeyed states where
  fetch store key state := by
    obtain ⟨after, asked, state'⟩ := serves.fetch store key state
    exact StoreRead.final_of_ok asked ▸ state'
  heightFor store key state := by
    obtain ⟨after, asked, state'⟩ := serves.heightFor store key state
    exact StoreRead.final_of_ok asked ▸ state'
  workThrough store key state := by
    obtain ⟨after, asked, state'⟩ := serves.workThrough store key state
    exact StoreRead.final_of_ok asked ▸ state'
  served store key header firstSeen after state served := by
    obtain ⟨after', asked, _⟩ := serves.fetch store key state
    rw [served] at asked
    obtain ⟨same, _⟩ := EStateM.Result.ok.inj asked
    obtain ⟨entry, known, seen⟩ := Option.map_eq_some_iff.mp same.symm
    cases seen
    exact keyed key entry known

/-- The height and the work that hydration gives the header of an entry: from the resident record of
its parent where there is one, if the sum fits, and else those of the entry.
-/
def position? (catalog : Catalog) (entry : KnownHeader)
    : Option Record → Option (Option Height × Work)
  | none => some (entry.height, entry.chainWork)
  | some parent =>
      (parent.work.add? (catalog.workOf entry.header)).map fun total =>
        (parent.childHeight?.or entry.height, total)

/-- Every resident record agrees with the entry under its key. -/
def Agrees (catalog : Catalog) (resident : Resident) : Prop :=
  ∀ key record,
    resident.get? key = some record
    → ∃ entry, catalog.entry key = some entry ∧ entry.Matches record

/-- Every record after is one from before or made of the entry under its key, apart from its links.
-/
def Fills (catalog : Catalog) (before after : Resident) : Prop :=
  ∀ key record,
    after.unlinked? key = some record
    → before.unlinked? key = some record
      ∨ ∃ entry, catalog.entry key = some entry ∧ record = entry.record

variable {catalog : Catalog}

theorem knows_iff {key : BlockHash}
    : catalog.knows key = true ↔ ∃ entry, catalog.entry key = some entry :=
  Option.isSome_iff_exists

theorem parent?_eq_some_iff {key prev : BlockHash}
    : catalog.parent? key = some prev
      ↔ ∃ entry,
          catalog.entry key = some entry
          ∧ entry.header.isGenesis = false
          ∧ entry.header.prev = prev
          ∧ catalog.knows prev = true := by
  rw [parent?]
  cases catalog.entry key with
  | none => simp
  | some entry =>
      dsimp only
      cases genesis : entry.header.isGenesis with
      | true => simp [genesis]
      | false =>
          cases knows : catalog.knows entry.header.prev with
          | true =>
              constructor
              · intro same
                cases same
                exact ⟨entry, rfl, genesis, rfl, knows⟩
              · intro ⟨_, found, _, same, _⟩
                cases found
                exact congrArg some same
          | false =>
              constructor
              · intro none
                cases none
              · intro ⟨_, found, _, same, known⟩
                cases found
                rw [same, known] at knows
                cases knows

theorem Fills.refl (resident : Resident) : catalog.Fills resident resident :=
  fun _ _ => .inl

theorem Fills.trans {first second third : Resident} (before : catalog.Fills first second)
    (after : catalog.Fills second third)
    : catalog.Fills first third := by
  intro key record found
  rcases after key record found with kept | new
  · exact before key record kept
  · exact .inr new

theorem Agrees.fills {before after : Resident} (agrees : catalog.Agrees before)
    (fills : catalog.Fills before after)
    : catalog.Agrees after := by
  intro key record found
  rcases fills key _ (Resident.unlinked?_of_get? found) with kept | ⟨entry, known, new⟩
  · obtain ⟨old, found', same⟩ := Option.map_eq_some_iff.mp kept
    obtain ⟨header, height, work, _⟩ := Record.withoutLinks_inj.mp same
    obtain ⟨entry, known, fits⟩ := agrees key old found'
    exact ⟨entry, known, header ▸ fits.header, height ▸ fits.height, work ▸ fits.work⟩
  · have same : record.withoutLinks = entry.record.withoutLinks := new
    obtain ⟨header, height, work, _⟩ := Record.withoutLinks_inj.mp same
    exact ⟨entry, known, header, height, work⟩

variable {σ : Type} [HeaderSource σ] {states : σ → Prop} {index : Index σ}

/-- The store is in one of its states and the resident part agrees with the catalog. -/
structure Fits (catalog : Catalog) (states : σ → Prop) (index : Index σ) : Prop where
  state : states index.store
  agrees : catalog.Agrees index.resident

/-- The store stays in its states, and what has become resident comes from the catalog. -/
structure Kept (catalog : Catalog) (states : σ → Prop) (before after : Index σ) : Prop where
  state : states after.store
  fills : catalog.Fills before.resident after.resident

omit [HeaderSource σ] in
theorem Kept.trans {first second third : Index σ} (before : catalog.Kept states first second)
    (after : catalog.Kept states second third)
    : catalog.Kept states first third :=
  ⟨after.state, before.fills.trans after.fills⟩

omit [HeaderSource σ] in
theorem Fits.kept {before after : Index σ} (fits : catalog.Fits states before)
    (kept : catalog.Kept states before after)
    : catalog.Fits states after :=
  ⟨kept.state, fits.agrees.fills kept.fills⟩

/-- Hydration of a known header finds its position, or the sum of the work does not fit. -/
theorem Supplies.chainPosition_meets {key : BlockHash} {entry : KnownHeader}
    (supplies : catalog.Supplies states) (state : states index.store)
    (known : catalog.entry key = some entry) (parent : Option Record)
    : (IndexM.chainPosition key (catalog.workOf entry.header) parent).Meets index
        (fun answer after =>
          catalog.position? entry parent = some answer
          ∧ ∃ last, states last ∧ after = { index with store := last })
        (fun failure _ =>
          failure = .workOverflow ∧ catalog.position? entry parent = none) := by
  obtain ⟨between, heightAsked, state'⟩ := supplies.heightFor index.store key entry state known
  cases parent with
  | some parent =>
      rw [IndexM.chainPosition, position?]
      cases told : parent.childHeight? with
      | some height =>
          simp only [IndexM.meets_bind, IndexM.meets_pure, IndexM.meets_sum]
          split
          · next sum => exact ⟨by rw [sum]; rfl, index.store, state, rfl⟩
          · next sum => exact ⟨trivial, by rw [sum]; rfl⟩
      | none =>
          simp only [IndexM.meets_bind, IndexM.meets_pure, IndexM.meets_sum, IndexM.meets_ofStore,
            heightAsked]
          split
          · next sum => exact ⟨by rw [sum]; rfl, between, state', rfl⟩
          · next sum => exact ⟨trivial, by rw [sum]; rfl⟩
  | none =>
      obtain ⟨last, workAsked, state''⟩ := supplies.workThrough between key entry state' known
      simp only [IndexM.chainPosition, IndexM.meets_bind, IndexM.meets_ofStore, heightAsked,
        workAsked]
      exact ⟨rfl, last, state'', rfl⟩

/-- What a lookup does: nothing for a resident header, nothing but reads for an unknown one, and for
a known one it brings in a record with the entry's header, time and position.
-/
inductive Looked (catalog : Catalog) (states : σ → Prop) (key : BlockHash) (before : Index σ)
    : Option Record → Index σ → Prop
  | resident {record} (found : before.resident.get? key = some record)
    : Looked catalog states key before (some record) before
  | unknown {store} (absent : before.resident.get? key = none)
    (unknown : catalog.entry key = none) (state : states store)
    : Looked catalog states key before none { before with store }
  | hydrated {store entry height work record} (absent : before.resident.get? key = none)
    (known : catalog.entry key = some entry)
    (position
      : catalog.position? entry (before.resident.get? entry.header.prev) = some (height, work))
    (state : states store)
    (entered
      : (before.resident.enter key (.unlinked entry.header height work entry.firstSeen)).get? key
        = some record)
    : Looked catalog states key before (some record)
        (Index.changed { before with store }
          (.hydrated key (.unlinked entry.header height work entry.firstSeen)))

/-- A lookup fails only where a sum of work does not fit. -/
theorem Supplies.lookup_meets (supplies : catalog.Supplies states) (state : states index.store)
    (key : BlockHash)
    : (IndexM.lookup key).Meets index (catalog.Looked states key index)
        (fun failure _ =>
          failure = .workOverflow
          ∧ ∃ entry,
              catalog.entry key = some entry
              ∧ catalog.position? entry (index.resident.get? entry.header.prev) = none) := by
  rw [IndexM.lookup, IndexM.meets_bind, IndexM.meets_resident]
  split
  · next record found => exact .resident found
  · next absent =>
      obtain ⟨served, asked, state'⟩ := supplies.fetch index.store key state
      rw [IndexM.hydrate, IndexM.meets_bind, IndexM.meets_ofStore, asked]
      cases known : catalog.entry key with
      | none => exact .unknown absent known state'
      | some entry =>
          simp only [Option.map_some, IndexM.meets_bind, IndexM.meets_workOf,
            IndexM.meets_resident, supplies.workOf served entry.header state']
          refine (supplies.chainPosition_meets state' known _).mono ?_ ?_
          · intro answer after found
            obtain ⟨height, work⟩ := answer
            obtain ⟨position, last, state'', rfl⟩ := found
            let record : Record := .unlinked entry.header height work entry.firstSeen
            obtain ⟨entered, stays, _⟩ := Resident.exists_get?_enter_self record absent
            have done : catalog.Looked states key index (some entered) _ :=
              .hydrated absent known position state'' stays
            rw [← stays] at done
            exact done
          · intro failure after overflow
            exact ⟨overflow.1, entry, rfl, overflow.2⟩

/-- Over a consistent catalog the position of a known header is that of its entry, whether it comes
from the resident record of its parent, from the store, or half from each.
-/
theorem Consistent.position?_eq {key : BlockHash} {entry : KnownHeader} {resident : Resident}
    (consistent : catalog.Consistent) (agrees : catalog.Agrees resident)
    (known : catalog.entry key = some entry)
    : catalog.position? entry (resident.get? entry.header.prev)
      = some (entry.height, entry.chainWork) := by
  cases found : resident.get? entry.header.prev with
  | none => rfl
  | some parent =>
      obtain ⟨above, knownAbove, same⟩ := agrees _ parent found
      have height : parent.childHeight? = entry.height := by
        rw [Record.childHeight?, same.height, consistent.height key entry above known knownAbove]
      have sum : parent.work.add? (catalog.workOf entry.header) = some entry.chainWork := by
        rw [Work.add?_eq_some_iff, same.work]
        exact consistent.work key entry above known knownAbove
      rw [position?, sum, height, Option.or_self]
      rfl

/-- A lookup does not fail. It answers what is resident afterwards, and only an unknown header is
not found.
-/
theorem Consistent.lookup_meets (consistent : catalog.Consistent)
    (supplies : catalog.Supplies states) (fits : catalog.Fits states index) (key : BlockHash)
    : (IndexM.lookup key).Meets index
        (fun answer after =>
          catalog.Kept states index after
          ∧ answer = after.resident.get? key
          ∧ (answer.isSome = catalog.knows key))
        (fun _ _ => False) := by
  refine (supplies.lookup_meets fits.state key).mono ?_ ?_
  · intro answer after looked
    cases looked with
    | resident found =>
        obtain ⟨entry, known, _⟩ := fits.agrees key _ found
        refine ⟨⟨fits.state, .refl _⟩, found.symm, ?_⟩
        rw [knows, known]
        rfl
    | unknown absent unknown state =>
        refine ⟨⟨state, .refl _⟩, absent.symm, ?_⟩
        rw [knows, unknown]
        rfl
    | hydrated absent known position state entered =>
        rw [consistent.position?_eq fits.agrees known] at position
        cases position
        refine ⟨⟨state, ?_⟩, entered.symm, ?_⟩
        · intro other record under
          have kept := Resident.unlinked?_enter under
          split at kept
          · next same => exact .inr ⟨_, same ▸ known, (Option.some.inj kept).symm⟩
          · exact .inl kept
        · rw [knows, known]
          rfl
  · intro failure after overflow
    obtain ⟨_, entry, known, none⟩ := overflow
    rw [consistent.position?_eq fits.agrees known] at none
    cases none

/-- A walk to the parent does not fail. It answers what is resident under the parent's key
afterwards, and nothing for a header without known parent.
-/
theorem Consistent.parent_meets (consistent : catalog.Consistent)
    (supplies : catalog.Supplies states) (fits : catalog.Fits states index) (key : BlockHash)
    : (IndexM.parent key).Meets index
        (fun answer after =>
          catalog.Kept states index after
          ∧ match catalog.parent? key with
            | none => answer = none
            | some prev => answer = after.resident.get? prev ∧ answer.isSome)
        (fun _ _ => False) := by
  refine IndexM.parent_meets_of_lookups ?_
  refine (consistent.lookup_meets supplies fits key).mono ?_ fun _ _ => id
  intro found between looked
  obtain ⟨kept, answered, known⟩ := looked
  cases found with
  | none =>
      refine ⟨kept, ?_⟩
      have unknown : catalog.entry key = none := Option.isNone_iff_eq_none.mp (by
        rw [← Option.not_isSome, ← knows, ← known]
        rfl)
      rw [parent?, unknown]
  | some record =>
      obtain ⟨entry, known', same⟩ := (fits.kept kept).agrees key record answered.symm
      have prev : record.prev = entry.header.prev := by rw [Record.prev, same.header]
      dsimp only
      rw [parent?, known', same.header, prev]
      dsimp only
      split
      · exact ⟨kept, rfl⟩
      · refine (consistent.lookup_meets supplies (fits.kept kept) _).mono ?_ fun _ _ => id
        intro above after looked'
        obtain ⟨kept', answered', known''⟩ := looked'
        rw [← known'']
        cases above with
        | none => exact ⟨kept.trans kept', rfl⟩
        | some above =>
            have joined : catalog.Kept states after (after.joined key entry.header.prev) := by
              refine ⟨?_, ?_⟩
              · rw [Index.store_joined]
                exact kept'.state
              · intro other record under
                rw [Index.unlinked?_joined] at under
                exact .inl under
            obtain ⟨linked, stays, _⟩ :=
              Index.exists_get?_joined answered'.symm key entry.header.prev
            exact ⟨(kept.trans kept').trans joined, rfl, by rw [stays]; rfl⟩

end Catalog

/-- What a memory store knows. -/
def MemoryStore.catalog (store : MemoryStore) : Catalog :=
  ⟨store.headers.get?, Header.work⟩

/-- A memory store that is not poisoned serves what it knows, and reads do not change that. -/
theorem MemoryStore.serves_catalog (store : MemoryStore)
    : store.catalog.Serves fun other : MemoryStore =>
        other.headers = store.headers ∧ other.poisoned = false where
  fetch other key state := by
    obtain ⟨headers, healthy⟩ := state
    refine ⟨{ other with fetches := other.fetches + 1 }, ?_, headers, healthy⟩
    rw [fetch_eq, healthy, headers]
    rfl
  heightFor other key state := by
    obtain ⟨headers, healthy⟩ := state
    refine ⟨other, ?_, headers, healthy⟩
    rw [heightFor_eq, healthy, headers]
    rfl
  workThrough other key state := by
    obtain ⟨headers, healthy⟩ := state
    refine ⟨other, ?_, headers, healthy⟩
    rw [workThrough_eq, healthy, headers]
    rfl
  workOf _ _ _ := rfl

-- The children have the root as their parent, and the root has none.
theorem Fork.holds_successors
    : MemoryStore.Holds
        (fun _ entry =>
          ∀ parent,
            store.headers.get? entry.header.prev = some parent
            → entry.height = parent.height.bind Height.next?
              ∧ entry.chainWork.toNat = parent.chainWork.toNat + entry.header.work.toNat)
        store := by
  have first : store.headers.get? .zero = none := by
    rw [get?_store, if_neg right_ne_zero.symm, if_neg left_ne_zero.symm, if_neg root_ne_zero.symm]
  have second : store.headers.get? root.hash = some rootEntry := by
    rw [get?_store, if_neg right_ne_root.symm, if_neg left_ne_root.symm, if_pos rfl]
  refine holds_store ?_ ?_ ?_
  · intro parent found
    exact nomatch first.symm.trans found
  · intro parent found
    cases second.symm.trans found
    decide
  · intro parent found
    cases second.symm.trans found
    decide

theorem Fork.consistent_catalog : store.catalog.Consistent where
  keyed := holds_keyed
  height key entry parent known knownParent :=
    (holds_successors key entry known parent knownParent).1
  work key entry parent known knownParent :=
    (holds_successors key entry known parent knownParent).2

end HeaderChain
