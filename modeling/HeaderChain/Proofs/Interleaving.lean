import HeaderChain.Proofs.AppendedChain
import HeaderChain.Proofs.Transparency

/-! A pipeline and readers at one index. A header that a reader brings in before the pipeline extends
the index with it is resident by then and never becomes a candidate. Readers that stay clear of the
headers still to come leave the candidates as they would be without them.
-/

namespace HeaderChain

/-- What happens around an index over a memory store: the pipeline appends a header to the store or
extends the index with it, and readers query the index.
-/
inductive Happening
  | append (header : Header) (firstSeen : UInt64)
  | extend (header : Header) (firstSeen : UInt64)
  | query (operation : Operation) (asks : operation.isQuery = true)

namespace Happening

/-- Whether readers are at work. -/
def isQuery : Happening → Bool
  | .query _ _ => true
  | _ => false

/-- The header that the pipeline is at work on. -/
def header? : Happening → Option Header
  | .append header _ => some header
  | .extend header _ => some header
  | .query _ _ => none

/-- The header that the index is extended with. -/
def extension? : Happening → Option Header
  | .extend header _ => some header
  | _ => none

/-- The index and its store afterwards, also if something failed. -/
def next : Happening → Index MemoryStore → Index MemoryStore
  | .append header firstSeen, index =>
      { index with store := index.store.appended header firstSeen }
  | .extend header firstSeen, index => (Operation.extend header firstSeen).next index
  | .query operation _, index => operation.next index

end Happening

/-- What happens in turn. -/
abbrev Course := List Happening

namespace Course

/-- A new index without ceiling over a new store. -/
def start : Index MemoryStore :=
  .new .empty .unbounded

/-- The index after everything has happened. -/
def run (course : Course) (index : Index MemoryStore) : Index MemoryStore :=
  course.foldl (fun index step => step.next index) index

/-- What the pipeline alone does. -/
def withoutQueries (course : Course) : Course :=
  course.filter fun step => !step.isQuery

/-- The headers that the pipeline is at work on. -/
def headers (course : Course) : List Header :=
  course.filterMap Happening.header?

/-- The headers that the index is extended with. -/
def extensions (course : Course) : List Header :=
  course.filterMap Happening.extension?

/-- No query makes a header resident that the index is to be extended with later. -/
def Unraced : Course → Index MemoryStore → Prop
  | [], _ => True
  | step :: rest, index =>
      (step.isQuery = true
        → ∀ header ∈ Course.extensions rest,
            index.contains header.hash = false
            → (step.next index).contains header.hash = false)
      ∧ Unraced rest (step.next index)

instance decidableUnraced
    : ∀ (course : Course) (index : Index MemoryStore), Decidable (course.Unraced index)
  | [], _ => isTrue trivial
  | step :: rest, index =>
      have := decidableUnraced rest (step.next index)
      inferInstanceAs (Decidable (_ ∧ _))

end Course

-----------------------------------------------------------------------------------------
-- Stores
-----------------------------------------------------------------------------------------

namespace MemoryStore

/-- Stores that differ in nothing but the reads so far. -/
structure Alike (left right : MemoryStore) : Prop where
  headers : right.headers = left.headers
  poisoned : right.poisoned = left.poisoned

theorem readClosed_alike (store : MemoryStore) : ReadClosed (Alike store) where
  fetch other key alike := by
    rw [final_fetch]
    exact ⟨alike.headers, alike.poisoned⟩
  heightFor other key alike := by
    rw [final_heightFor]
    exact alike
  workThrough other key alike := by
    rw [final_workThrough]
    exact alike

/-- What is stored stays stored when a header is appended. -/
theorem stored_appended {store : MemoryStore} {key : BlockHash} {entry : KnownHeader}
    (header : Header) (firstSeen : UInt64) (stored : store.headers.get? key = some entry)
    : ∃ entry, (store.appended header firstSeen).headers.get? key = some entry := by
  have put (new : KnownHeader)
      : ∃ entry, (store.headers.put header.hash new).get? key = some entry := by
    rw [KeyedTable.get?_put]
    split
    · exact ⟨new, rfl⟩
    · exact ⟨entry, stored⟩
  rw [appended_eq]
  split
  · exact ⟨entry, stored⟩
  · cases grown : entries? store.headers header firstSeen with
    | none => exact ⟨entry, stored⟩
    | some headers =>
        rw [entries?] at grown
        split at grown
        · cases grown
          exact put _
        · split at grown
          · cases grown
            exact ⟨entry, stored⟩
          · obtain ⟨new, _, rfl⟩ := Option.map_eq_some_iff.mp grown
            exact put new

theorem Alike.trans {first second third : MemoryStore} (before : Alike first second)
    (after : Alike second third)
    : Alike first third :=
  ⟨after.headers.trans before.headers, after.poisoned.trans before.poisoned⟩

end MemoryStore

variable {operation : Operation} {before after index : Index MemoryStore}

/-- An operation does nothing to the store but read it. -/
theorem Index.Steps.alike (steps : Index.Steps operation before after)
    : before.store.Alike after.store :=
  Index.Steps.states_kept steps (MemoryStore.readClosed_alike _) ⟨rfl, rfl⟩

theorem Happening.poisoned_next (step : Happening) (poisoned : index.store.poisoned = true)
    : (step.next index).store.poisoned = true := by
  cases step with
  | append header firstSeen =>
      rw [next, MemoryStore.appended_eq, poisoned, if_pos rfl]
      exact poisoned
  | extend header firstSeen =>
      exact (Operation.next_steps _ index).alike.poisoned.trans poisoned
  | query operation asks => exact (operation.next_steps index).alike.poisoned.trans poisoned

/-- A store that is not poisoned in the end never was. -/
theorem Course.healthy_of_run {course : Course}
    (healthy : (course.run index).store.poisoned = false)
    : index.store.poisoned = false := by
  induction course generalizing index with
  | nil => exact healthy
  | cons step rest ih =>
      have later := ih healthy
      refine Bool.eq_false_iff.mpr fun poisoned => ?_
      rw [step.poisoned_next poisoned] at later
      cases later

-----------------------------------------------------------------------------------------
-- Residency without a ceiling
-----------------------------------------------------------------------------------------

theorem Resident.contains_enter_of_unlimited {resident : Resident}
    (unlimited : resident.config.ceiling = none) {key other : BlockHash} {record : Record}
    : (resident.enter key record).contains other = true
      ↔ other = key ∨ resident.contains other = true := by
  rw [contains_iff, contains_iff, get?_enter_of_unlimited unlimited]
  by_cases same : other = key
  · simp [same]
  · simp [same]

theorem Resident.tips_enter_of_unlimited {resident : Resident}
    (unlimited : resident.config.ceiling = none) (key : BlockHash) (record : Record)
    : (resident.enter key record).tips = resident.tips := by
  let entered : Resident := { resident with table := resident.table.put key record }
  have kept : entered.evictToCeiling = entered := evictToCeiling_of_unlimited unlimited
  change entered.evictToCeiling.tips = resident.tips
  rw [kept]

theorem Index.contains_indexed {record : Record} {key : BlockHash}
    (unlimited : index.resident.config.ceiling = none)
    : (index.changed (.indexed record)).contains key = true
      ↔ key = record.hash ∨ index.contains key = true := by
  let listed : Resident := { index.resident with tips := index.resident.tips.insert record }
  have unlimited' : listed.config.ceiling = none := unlimited
  exact Resident.contains_enter_of_unlimited unlimited'

theorem Index.tips_indexed (unlimited : index.resident.config.ceiling = none) (record : Record)
    : (index.changed (.indexed record)).resident.tips = index.resident.tips.insert record := by
  let listed : Resident := { index.resident with tips := index.resident.tips.insert record }
  have unlimited' : listed.config.ceiling = none := unlimited
  exact Resident.tips_enter_of_unlimited unlimited' record.hash record

/-- The store and the resident records agree with the chain, and nothing is ever evicted. -/
structure Index.Sound (view : ChainView) (index : Index MemoryStore) : Prop where
  unlimited : index.resident.config.ceiling = none
  entries : MemoryStore.Holds view.Enters index.store
  placed : view.Placed index.resident

/-- Reading leaves the entries and the candidates alone and only makes stored headers resident. -/
structure Index.Hydrates (before after : Index MemoryStore) : Prop where
  alike : before.store.Alike after.store
  config : after.resident.config = before.resident.config
  tips : after.resident.tips = before.resident.tips
  kept : ∀ key, before.contains key = true → after.contains key = true
  stored
    : ∀ key,
        after.contains key = true
        → before.contains key = true
          ∨ ∃ entry, before.store.headers.get? key = some entry

theorem Index.Hydrates.trans {first second third : Index MemoryStore}
    (before : Index.Hydrates first second) (after : Index.Hydrates second third)
    : Index.Hydrates first third where
  alike := before.alike.trans after.alike
  config := after.config.trans before.config
  tips := after.tips.trans before.tips
  kept key resident := after.kept key (before.kept key resident)
  stored key resident := by
    rcases after.stored key resident with was | stored
    · exact before.stored key was
    · rw [before.alike.headers] at stored
      exact .inr stored

/-- Without a ceiling, a step of an operation that does not remove only hydrates or adds a record. -/
theorem Index.Step.hydrates_or_indexes (step : Index.Step operation before after)
    (keeps : ∀ key, operation ≠ .remove key) (unlimited : before.resident.config.ceiling = none)
    : Index.Hydrates before after
      ∨ ∃ header height baseline total firstSeen,
          operation.Offers before.resident header height baseline firstSeen
          ∧ before.contains header.hash = false
          ∧ after = before.changed (.indexed (.unlinked header height total firstSeen)) := by
  have alike : before.store.Alike after.store := Index.Steps.alike (.single step)
  have same (config : after.resident.config = before.resident.config)
      (tips : after.resident.tips = before.resident.tips)
      (resident : ∀ key, after.contains key = before.contains key)
      : Index.Hydrates before after :=
    ⟨alike, config, tips, fun key => (resident key).trans, fun key held =>
      .inl ((resident key).symm.trans held)⟩
  cases step with
  | fetched => exact .inl (same rfl rfl fun _ => rfl)
  | heightAsked => exact .inl (same rfl rfl fun _ => rfl)
  | workAsked => exact .inl (same rfl rfl fun _ => rfl)
  | @hydrated key header firstSeen height total served last absent answered =>
      obtain ⟨entry, found, _⟩ := MemoryStore.entry_of_fetch answered
      let record : Record := .unlinked header height total firstSeen
      have entered (other : BlockHash)
          : (before.resident.enter key record).contains other = true
            ↔ other = key ∨ before.resident.contains other = true :=
        Resident.contains_enter_of_unlimited unlimited
      refine .inl ⟨alike, Resident.config_apply _ (.hydrated key record),
        Resident.tips_enter_of_unlimited unlimited key record, ?_, ?_⟩
      · intro other held
        exact (entered other).mpr (.inr held)
      · intro other held
        rcases (entered other).mp held with rfl | was
        · exact .inr ⟨entry, found⟩
        · exact .inl was
  | indexed offered absent =>
      exact .inr ⟨_, _, _, _, _, offered, Resident.contains_eq_false_iff.mpr absent, rfl⟩
  | removed asked => exact (keeps _ asked).elim
  | linked => exact .inl (same rfl rfl fun _ => Resident.contains_link)
  | trimmed =>
      have kept : (before.changed .trimmed).resident = before.resident :=
        Resident.evictToCeiling_of_unlimited unlimited
      refine .inl (same (congrArg Resident.config kept) (congrArg Resident.tips kept) ?_)
      intro key
      exact congrArg (fun resident => Resident.contains resident key) kept

/-- Without a ceiling, a query only hydrates. -/
theorem Index.Steps.hydrates (steps : Index.Steps operation before after)
    (asks : operation.isQuery = true) (unlimited : before.resident.config.ceiling = none)
    : Index.Hydrates before after := by
  induction steps with
  | refl => exact ⟨⟨rfl, rfl⟩, rfl, rfl, fun _ => id, fun _ => .inl⟩
  | tail _ step ih =>
      have unlimited' := ih.config ▸ unlimited
      have keeps (key : BlockHash) (same : operation = .remove key) : False := by
        subst same
        cases asks
      rcases step.hydrates_or_indexes keeps unlimited' with
        hydrates | ⟨_, _, _, _, _, offered, _⟩
      · exact ih.trans hydrates
      · cases offered <;> cases asks

variable {view : ChainView} {given : Header → Prop}

/-- The steps of a query keep an index sound. -/
theorem Index.Sound.steps (sound : before.Sound view) (lawful : view.Lawful)
    (spans : view.Spans given) (asks : operation.isQuery = true)
    (steps : Index.Steps operation before after)
    : after.Sound view := by
  have answered : view.Answered (MemoryStore.Holds view.Enters) :=
    ChainView.answered_memory spans.workOf
  have follows : view.Follows operation := by
    cases operation with
    | insert => cases asks
    | extend => cases asks
    | lookup | parent | ancestor | findFork | isMoreWork | remove | evict => trivial
  have kept : MemoryStore.Holds view.Enters after.store ∧ view.Placed after.resident := by
    induction steps with
    | refl => exact ⟨sound.entries, sound.placed⟩
    | tail _ step ih =>
        exact ⟨step.states_kept answered.toReadClosed ih.1,
          lawful.step answered follows ih.1 ih.2 step⟩
  have settings := congrArg Config.ceiling (steps.hydrates asks sound.unlimited).config
  exact ⟨settings.trans sound.unlimited, kept.1, kept.2⟩

-----------------------------------------------------------------------------------------
-- The pipeline
-----------------------------------------------------------------------------------------

/-- The index after an insertion, whether it was new, was resident or did not fit. -/
def Index.inserted (index : Index MemoryStore) (header : Header) (height : Option Height)
    (baseline : Work) (firstSeen : UInt64)
    : Index MemoryStore :=
  if index.resident.contains header.hash then index
  else
    match baseline.add? header.work with
    | none => index
    | some total => index.changed (.indexed (.unlinked header height total firstSeen))

/-- What a lookup leaves: what is stored under the key has become resident, and nothing else. -/
structure Index.Fetched (view : ChainView) (key : BlockHash) (before : Index MemoryStore)
    (answer : Option Record) (after : Index MemoryStore)
    : Prop where
  sound : after.Sound view
  alike : before.store.Alike after.store
  tips : after.resident.tips = before.resident.tips
  answered : answer = after.resident.get? key
  resident
    : ∀ other,
        after.contains other = true
        ↔ before.contains other = true
          ∨ other = key ∧ ∃ entry, before.store.headers.get? key = some entry

/-- The sum of work that hydration makes on a resident parent is that of the entry, so it fits. -/
theorem Index.Sound.position?_isSome (sound : index.Sound view) (lawful : view.Lawful)
    (spans : view.Spans given) {key : BlockHash} {entry : KnownHeader}
    (stored : index.store.headers.get? key = some entry)
    : index.store.catalog.position? entry (index.resident.get? entry.header.prev) ≠ none := by
  cases found : index.resident.get? entry.header.prev with
  | none => exact Option.some_ne_none _
  | some parent =>
      obtain ⟨covered, own, _, work⟩ := sound.entries key entry stored
      have above := sound.placed.of_get? found
      have later : entry.header.isGenesis = false := lawful.later above
      have sum : parent.work.add? entry.header.work = some entry.chainWork := by
        rw [Work.add?_eq_some_iff, above.work, ← spans.workOf, work, ← own]
        exact (lawful.child entry.header covered later).2
      rw [Catalog.position?]
      change (parent.work.add? entry.header.work).map _ ≠ none
      rw [sum]
      exact Option.some_ne_none _

theorem Index.Sound.lookup (sound : index.Sound view) (lawful : view.Lawful)
    (spans : view.Spans given) (healthy : index.store.poisoned = false) (key : BlockHash)
    : ∃ answer after,
        IndexM.lookup key index = .ok answer after
        ∧ Index.Fetched view key index answer after := by
  let states (other : MemoryStore) : Prop :=
    other.headers = index.store.headers ∧ other.poisoned = false
  have state : states index.store := ⟨rfl, healthy⟩
  have supplies : index.store.catalog.Supplies states := index.store.serves_catalog.supplies
  have looked : (IndexM.lookup key).Meets index (index.store.catalog.Looked states key index)
      (fun _ _ => False) := by
    refine (supplies.lookup_meets state key).mono (fun _ _ => id) ?_
    intro failure after overflow
    obtain ⟨_, entry, stored, none⟩ := overflow
    exact sound.position?_isSome lawful spans stored none
  obtain ⟨answer, after, run, looked⟩ := looked.exists_ok
  have steps := (IndexM.lookup_meets key).of_ok run
  have sound' := sound.steps lawful spans rfl steps.steps
  have hydrates := steps.steps.hydrates rfl sound.unlimited
  refine ⟨answer, after, run, sound', hydrates.alike, hydrates.tips, steps.answered, ?_⟩
  intro other
  cases looked with
  | @resident record found =>
      refine ⟨.inl, ?_⟩
      intro held
      rcases held with held | ⟨rfl, _⟩
      · exact held
      · exact Resident.contains_iff.mpr ⟨record, found⟩
  | unknown absent unknown =>
      refine ⟨.inl, ?_⟩
      intro held
      rcases held with held | ⟨_, entry, stored⟩
      · exact held
      · exact nomatch unknown.symm.trans stored
  | hydrated absent known =>
      refine (Resident.contains_enter_of_unlimited sound.unlimited).trans ?_
      constructor
      · intro held
        rcases held with rfl | held
        · exact .inr ⟨rfl, _, known⟩
        · exact .inl held
      · intro held
        rcases held with held | ⟨rfl, _⟩
        · exact .inr held
        · exact .inl rfl

theorem IndexM.insert_leaves (header : Header) (height : Option Height) (baseline : Work)
    (firstSeen : UInt64) (index : Index MemoryStore)
    : (IndexM.insert header height baseline firstSeen).Meets index
        (fun _ after => after = index.inserted header height baseline firstSeen)
        (fun _ after => after = index.inserted header height baseline firstSeen) := by
  rw [IndexM.insert, IndexM.meets_bind, IndexM.meets_resident, Index.inserted]
  by_cases resident : index.resident.contains header.hash = true
  · rw [if_pos resident, if_pos resident]
    exact rfl
  · rw [if_neg resident, if_neg resident, IndexM.meets_bind, IndexM.meets_workOf,
      IndexM.meets_bind, IndexM.meets_sum]
    have works : HeaderSource.workOf index.store header = header.work := rfl
    rw [works]
    cases baseline.add? header.work with
    | none => exact rfl
    | some total => exact rfl

/-- An extension refuses a resident header, and else enters it on what the lookup of its parent
answers.
-/
theorem Operation.next_extend {header : Header} {answer : Option Record} (firstSeen : UInt64)
    (run : IndexM.lookup header.prev index = .ok answer after)
    : (Operation.extend header firstSeen).next index
      = if index.resident.contains header.hash then index
        else if header.isGenesis then index.inserted header (some 0) .zero firstSeen
        else
          answer.elim after fun above =>
            after.inserted header above.childHeight? above.work firstSeen := by
  refine @next_of_meets _ _ _ _ (· = _) (IndexM.meets_bind.mpr ?_)
  rw [IndexM.extend, IndexM.meets_bind, IndexM.meets_resident]
  by_cases resident : index.resident.contains header.hash = true
  · rw [if_pos resident, if_pos resident]
    exact rfl
  · rw [if_neg resident, if_neg resident]
    by_cases genesis : header.isGenesis = true
    · rw [if_pos genesis, if_pos genesis]
      exact IndexM.insert_leaves header (some 0) .zero firstSeen index
    · rw [if_neg genesis, if_neg genesis, IndexM.meets_bind, IndexM.Meets, run]
      cases answer with
      | none => exact rfl
      | some above => exact IndexM.insert_leaves header above.childHeight? above.work firstSeen after

theorem Index.Sound.indexed {record : Record} (sound : index.Sound view)
    (places : view.Places record.hash record)
    : (index.changed (.indexed record)).Sound view where
  unlimited := (congrArg Config.ceiling (Resident.config_apply _ _)).trans sound.unlimited
  entries := sound.entries
  placed key entry found := by
    rcases Resident.unlinked?_apply found with ⟨entered, new, same⟩ | was
    · cases new
      exact same ▸ ChainView.places_withoutLinks_iff.mpr places
    · exact sound.placed key entry was

-----------------------------------------------------------------------------------------
-- With and without readers
-----------------------------------------------------------------------------------------

/-- An index that readers use next to one that they do not. More may be resident in the first, but
only what is stored, and nothing that is still to come.
-/
structure Shadow (view : ChainView) (rest : Course) (loud quiet : Index MemoryStore) : Prop where
  sound : loud.Sound view
  sound' : quiet.Sound view
  alike : quiet.store.Alike loud.store
  tips : loud.resident.tips = quiet.resident.tips
  within : ∀ key, quiet.contains key = true → loud.contains key = true
  beyond
    : ∀ key,
        loud.contains key = true
        → quiet.contains key = true ∨ ∃ entry, quiet.store.headers.get? key = some entry
  ahead
    : ∀ header ∈ Course.extensions rest,
        loud.contains header.hash = true → quiet.contains header.hash = true

namespace Shadow

variable {rest : Course} {loud quiet loud' quiet' : Index MemoryStore}

theorem later {step : Happening} (shadow : Shadow view (step :: rest) loud quiet)
    : Shadow view rest loud quiet := by
  refine { shadow with ahead := fun header member => shadow.ahead header ?_ }
  exact ((List.sublist_cons_self step rest).filterMap Happening.extension?).subset member

theorem query (shadow : Shadow view rest loud quiet) (sound : loud'.Sound view)
    (hydrates : Index.Hydrates loud loud')
    (clear
      : ∀ header ∈ Course.extensions rest,
          loud.contains header.hash = false → loud'.contains header.hash = false)
    : Shadow view rest loud' quiet where
  sound := sound
  sound' := shadow.sound'
  alike := shadow.alike.trans hydrates.alike
  tips := hydrates.tips.trans shadow.tips
  within key resident := hydrates.kept key (shadow.within key resident)
  beyond key resident := by
    rcases hydrates.stored key resident with was | stored
    · exact shadow.beyond key was
    · rw [shadow.alike.headers] at stored
      exact .inr stored
  ahead header member resident := by
    refine shadow.ahead header member ?_
    cases was : loud.contains header.hash with
    | true => rfl
    | false =>
        rw [clear header member was] at resident
        cases resident

/-- After a lookup of one key on both sides, the key is resident on both sides or on neither. -/
theorem fetched {key : BlockHash} {answer answer' : Option Record}
    (shadow : Shadow view rest loud quiet) (fetched : Index.Fetched view key loud answer loud')
    (fetched' : Index.Fetched view key quiet answer' quiet')
    : Shadow view rest loud' quiet' ∧ loud'.contains key = quiet'.contains key := by
  have resident (other : BlockHash)
      : loud'.contains other = true
        ↔ loud.contains other = true
          ∨ other = key ∧ ∃ entry, quiet.store.headers.get? key = some entry := by
    rw [fetched.resident, shadow.alike.headers]
  have resident' := fetched'.resident
  have within (other : BlockHash) (held : quiet'.contains other = true)
      : loud'.contains other = true :=
    (resident other).mpr (((resident' other).mp held).imp (shadow.within other) id)
  have same : loud'.contains key = quiet'.contains key := by
    refine Bool.eq_iff_iff.mpr ⟨?_, within key⟩
    intro held
    rcases (resident key).mp held with was | stored
    · rcases shadow.beyond key was with was' | stored
      · exact (resident' key).mpr (.inl was')
      · exact (resident' key).mpr (.inr ⟨rfl, stored⟩)
    · exact (resident' key).mpr (.inr stored)
  refine ⟨⟨fetched.sound, fetched'.sound, ⟨?_, ?_⟩, ?_, within, ?_, ?_⟩, same⟩
  · rw [fetched.alike.headers, shadow.alike.headers, fetched'.alike.headers]
  · rw [fetched.alike.poisoned, shadow.alike.poisoned, fetched'.alike.poisoned]
  · rw [fetched.tips, shadow.tips, fetched'.tips]
  · intro other held
    rw [fetched'.alike.headers]
    rcases (resident other).mp held with was | new
    · exact (shadow.beyond other was).imp (fun was' => (resident' other).mpr (.inl was')) id
    · exact .inl ((resident' other).mpr (.inr new))
  · intro header member held
    rcases (resident header.hash).mp held with was | new
    · exact (resident' _).mpr (.inl (shadow.ahead header member was))
    · exact (resident' _).mpr (.inr new)

/-- The same insertion on both sides does the same to the candidates. -/
theorem inserted {header : Header} {height : Option Height} {baseline : Work}
    {firstSeen : UInt64} (shadow : Shadow view rest loud quiet)
    (same : loud.contains header.hash = true → quiet.contains header.hash = true)
    (places
      : ∀ total,
          baseline.add? header.work = some total
          → view.Places header.hash (.unlinked header height total firstSeen))
    : Shadow view rest (loud.inserted header height baseline firstSeen)
        (quiet.inserted header height baseline firstSeen) := by
  rw [Index.inserted, Index.inserted]
  by_cases resident : quiet.resident.contains header.hash = true
  · have resident' : loud.resident.contains header.hash = true := shadow.within _ resident
    rw [if_pos resident, if_pos resident']
    exact shadow
  · have absent : ¬ loud.resident.contains header.hash = true := fun held => resident (same held)
    rw [if_neg resident, if_neg absent]
    cases sum : baseline.add? header.work with
    | none => exact shadow
    | some total =>
        let record : Record := .unlinked header height total firstSeen
        have held (key : BlockHash)
            : (loud.changed (.indexed record)).contains key = true
              ↔ key = header.hash ∨ loud.contains key = true :=
          Index.contains_indexed shadow.sound.unlimited
        have held' (key : BlockHash)
            : (quiet.changed (.indexed record)).contains key = true
              ↔ key = header.hash ∨ quiet.contains key = true :=
          Index.contains_indexed shadow.sound'.unlimited
        refine
          { sound := shadow.sound.indexed (places total sum)
            sound' := shadow.sound'.indexed (places total sum)
            alike := shadow.alike
            tips := by
              rw [Index.tips_indexed shadow.sound.unlimited,
                Index.tips_indexed shadow.sound'.unlimited, shadow.tips]
            within := fun key found =>
              (held key).mpr (((held' key).mp found).imp id (shadow.within key))
            beyond := ?_
            ahead := ?_ }
        · intro key found
          rcases (held key).mp found with new | was
          · exact .inl ((held' key).mpr (.inl new))
          · exact (shadow.beyond key was).imp (fun was' => (held' key).mpr (.inr was')) id
        · intro other member found
          exact (held' _).mpr (((held _).mp found).imp id (shadow.ahead other member))

theorem append {header : Header} {firstSeen : UInt64}
    (shadow : Shadow view (.append header firstSeen :: rest) loud quiet) (lawful : view.Lawful)
    (spans : view.Spans given) (member : given header)
    : Shadow view rest ((Happening.append header firstSeen).next loud)
        ((Happening.append header firstSeen).next quiet) := by
  obtain ⟨headers, poisoned⟩ :=
    MemoryStore.appended_congr header firstSeen shadow.alike.headers shadow.alike.poisoned
  have appended {index : Index MemoryStore} (sound : index.Sound view)
      : ((Happening.append header firstSeen).next index).Sound view :=
    { sound with entries := lawful.enters_appended spans member sound.entries firstSeen }
  refine
    { shadow.later with
      sound := appended shadow.sound
      sound' := appended shadow.sound'
      alike := ⟨headers, poisoned⟩
      beyond := ?_ }
  intro key resident
  refine (shadow.beyond key resident).imp id ?_
  intro stored
  obtain ⟨entry, found⟩ := stored
  exact MemoryStore.stored_appended header firstSeen found

/-- The same extension on both sides does the same to the candidates: the parent is found on both
sides or on neither, and it has one place in the chain.
-/
theorem extend {header : Header} {firstSeen : UInt64}
    (shadow : Shadow view (.extend header firstSeen :: rest) loud quiet) (lawful : view.Lawful)
    (spans : view.Spans given) (member : given header)
    (healthy : loud.store.poisoned = false)
    : Shadow view rest ((Happening.extend header firstSeen).next loud)
        ((Happening.extend header firstSeen).next quiet) := by
  have healthy' : quiet.store.poisoned = false := shadow.alike.poisoned.symm.trans healthy
  obtain ⟨answer, between, run, fetched⟩ := shadow.sound.lookup lawful spans healthy header.prev
  obtain ⟨answer', between', run', fetched'⟩ :=
    shadow.sound'.lookup lawful spans healthy' header.prev
  have same := shadow.ahead header List.mem_cons_self
  rw [Happening.next, Happening.next, Operation.next_extend firstSeen run,
    Operation.next_extend firstSeen run']
  by_cases resident : quiet.resident.contains header.hash = true
  · have resident' : loud.resident.contains header.hash = true := shadow.within _ resident
    rw [if_pos resident, if_pos resident']
    exact shadow.later
  · have absent : ¬ loud.resident.contains header.hash = true := fun held => resident (same held)
    rw [if_neg resident, if_neg absent]
    cases first : header.isGenesis with
    | true =>
        rw [if_pos rfl, if_pos rfl]
        refine shadow.later.inserted same ?_
        intro total sum
        rw [← spans.workOf] at sum
        exact lawful.places_first (spans.genesis header member first) first sum firstSeen
    | false =>
        rw [if_neg Bool.false_ne_true, if_neg Bool.false_ne_true]
        obtain ⟨shadow', found⟩ := shadow.fetched fetched fetched'
        cases answer' with
        | none =>
            have gone := Resident.contains_eq_false_iff.mpr fetched'.answered.symm
            have gone' := Resident.contains_eq_false_iff.mp (found.trans gone)
            rw [fetched.answered, gone']
            exact shadow'.later
        | some above' =>
            have held := Resident.contains_iff.mpr ⟨above', fetched'.answered.symm⟩
            obtain ⟨above, under⟩ := Resident.contains_iff.mp (found.trans held)
            rw [fetched.answered, under]
            have placed := fetched.sound.placed.of_get? under
            have placed' := fetched'.sound.placed.of_get? fetched'.answered.symm
            have height : above.height = above'.height := placed.height.trans placed'.height.symm
            have work : above.work = above'.work :=
              Work.toNat_inj.mp (placed.work.trans placed'.work.symm)
            simp only [Option.elim_some, Record.childHeight?, height, work]
            refine shadow'.later.inserted (shadow'.ahead header List.mem_cons_self) ?_
            intro total sum
            have covered :=
              spans.child header above'.header member first placed'.covers placed'.hash
            rw [← spans.workOf] at sum
            exact lawful.places_child covered placed' sum firstSeen

end Shadow

/-- The candidates in the end are those without readers, by induction on what happens. -/
theorem Shadow.tips_run {course : Course} {loud quiet : Index MemoryStore}
    (shadow : Shadow view course loud quiet) (lawful : view.Lawful) (spans : view.Spans given)
    (members : ∀ header ∈ course.headers, given header)
    (healthy : (course.run loud).store.poisoned = false) (unraced : course.Unraced loud)
    : (course.run loud).resident.tips = (course.withoutQueries.run quiet).resident.tips := by
  induction course generalizing loud quiet with
  | nil => exact shadow.tips
  | cons step rest ih =>
      have healthy' := Course.healthy_of_run healthy
      cases step with
      | append header firstSeen =>
          have member := members header List.mem_cons_self
          exact ih (shadow.append lawful spans member)
            (fun other found => members other (List.mem_cons_of_mem header found)) healthy unraced.2
      | extend header firstSeen =>
          have member := members header List.mem_cons_self
          exact ih (shadow.extend lawful spans member healthy')
            (fun other found => members other (List.mem_cons_of_mem header found)) healthy unraced.2
      | query operation asks =>
          have steps := operation.next_steps loud
          have sound := shadow.sound.steps lawful spans asks steps
          have hydrates := steps.hydrates asks shadow.sound.unlimited
          exact ih (shadow.later.query sound hydrates (unraced.1 rfl)) members healthy unraced.2

-----------------------------------------------------------------------------------------
-- Headers that readers were first to bring in
-----------------------------------------------------------------------------------------

/-- Nothing that was resident is gone, and a new candidate was not resident before. -/
structure Index.Grows (before after : Index MemoryStore) : Prop where
  config : after.resident.config = before.resident.config
  kept : ∀ key, before.contains key = true → after.contains key = true
  tips
    : ∀ tip ∈ after.resident.tips.members,
        tip ∈ before.resident.tips.members
        ∨ before.contains tip.hash = false ∧ after.contains tip.hash = true

theorem Index.Grows.trans {first second third : Index MemoryStore}
    (before : Index.Grows first second) (after : Index.Grows second third)
    : Index.Grows first third where
  config := after.config.trans before.config
  kept key resident := after.kept key (before.kept key resident)
  tips tip member := by
    rcases after.tips tip member with listed | ⟨absent, resident⟩
    · exact (before.tips tip listed).imp id (And.imp id (after.kept tip.hash))
    · refine .inr ⟨?_, resident⟩
      refine Bool.eq_false_iff.mpr fun held => ?_
      rw [before.kept tip.hash held] at absent
      cases absent

theorem Index.Hydrates.grows (hydrates : Index.Hydrates before after)
    : Index.Grows before after where
  config := hydrates.config
  kept := hydrates.kept
  tips _ member := .inl (hydrates.tips ▸ member)

theorem Index.grows_indexed {record : Record} (unlimited : index.resident.config.ceiling = none)
    (absent : index.contains record.hash = false)
    : Index.Grows index (index.changed (.indexed record)) := by
  refine ⟨Resident.config_apply _ (.indexed record), ?_, ?_⟩
  · intro key held
    exact (Index.contains_indexed unlimited).mpr (.inr held)
  · intro tip member
    rw [Index.tips_indexed unlimited] at member
    rcases Tip.mem_place.mp member with rfl | listed
    · exact .inr ⟨absent, (Index.contains_indexed unlimited).mpr (.inl rfl)⟩
    · exact .inl listed

theorem Index.Steps.grows (steps : Index.Steps operation before after)
    (keeps : ∀ key, operation ≠ .remove key) (unlimited : before.resident.config.ceiling = none)
    : Index.Grows before after := by
  induction steps with
  | refl => exact ⟨rfl, fun _ => id, fun _ => .inl⟩
  | tail _ step ih =>
      have unlimited' := ih.config ▸ unlimited
      refine ih.trans ?_
      rcases step.hydrates_or_indexes keeps unlimited' with
        hydrates | ⟨_, _, _, _, _, _, absent, rfl⟩
      · exact hydrates.grows
      · exact Index.grows_indexed unlimited' absent

theorem Happening.grows (step : Happening) (unlimited : index.resident.config.ceiling = none)
    : Index.Grows index (step.next index) := by
  cases step with
  | append header firstSeen => exact ⟨rfl, fun _ => id, fun _ => .inl⟩
  | extend header firstSeen =>
      exact Index.Steps.grows (Operation.next_steps _ index) (fun _ same => nomatch same) unlimited
  | query operation asks =>
      exact (Index.Steps.hydrates (operation.next_steps index) asks unlimited).grows

theorem Course.grows (course : Course) (unlimited : index.resident.config.ceiling = none)
    : Index.Grows index (course.run index) := by
  induction course generalizing index with
  | nil => exact ⟨rfl, fun _ => id, fun _ => .inl⟩
  | cons step rest ih =>
      have grows := step.grows unlimited
      exact grows.trans (ih ((congrArg Config.ceiling grows.config).trans unlimited))

theorem Course.grows_start (course : Course) : Index.Grows start (course.run start) := by
  have unlimited : start.resident.config.ceiling = none := rfl
  exact course.grows unlimited

/-- Without removals and evictions, a candidate is resident. -/
theorem Course.not_tip_of_absent (course : Course) {key : BlockHash}
    (absent : (course.run start).contains key = false)
    : key ∉ (course.run start).tips := by
  intro listed
  obtain ⟨tip, member, rfl⟩ := List.mem_map.mp listed
  rcases course.grows_start.tips tip member with none | ⟨_, resident⟩
  · cases none
  · rw [resident] at absent
    cases absent

/-- A header that a query makes resident is never a candidate afterwards: an extension with it finds
it resident and leaves it alone.
-/
theorem Course.not_tip_of_hydrated {before rest : Course} {step : Happening} {key : BlockHash}
    (asks : step.isQuery = true) (absent : (before.run start).contains key = false)
    (resident : (step.next (before.run start)).contains key = true)
    : key ∉ (rest.run (step.next (before.run start))).tips := by
  have unlimited : (before.run start).resident.config.ceiling = none :=
    congrArg Config.ceiling before.grows_start.config
  have unlimited' := (congrArg Config.ceiling (step.grows unlimited).config).trans unlimited
  intro listed
  obtain ⟨tip, member, rfl⟩ := List.mem_map.mp listed
  rcases (rest.grows unlimited').tips tip member with earlier | ⟨gone, _⟩
  · refine before.not_tip_of_absent absent (List.mem_map.mpr ⟨tip, ?_, rfl⟩)
    cases step with
    | append => cases asks
    | extend => cases asks
    | query operation reads =>
        have steps := operation.next_steps (before.run start)
        exact (Index.Steps.hydrates steps reads unlimited).tips ▸ earlier
  · rw [resident] at gone
    cases gone

-----------------------------------------------------------------------------------------
-- Courses
-----------------------------------------------------------------------------------------

theorem Course.sound_start : start.Sound view where
  unlimited := rfl
  entries _ _ found := nomatch found
  placed _ _ found := nomatch found

theorem Course.shadow_start {course : Course} : Shadow view course start start where
  sound := sound_start
  sound' := sound_start
  alike := ⟨rfl, rfl⟩
  tips := rfl
  within _ := id
  beyond _ := .inl
  ahead _ _ := id

/-- What readers mean for the candidates. They do not matter as long as they make no header resident
that the index is to be extended with later, headers are told apart by their hashes, and no sum of
work poisons the store. A header that a reader brings in first is no candidate.
-/
structure Course.Settled (course : Course) : Prop where
  undisturbed
    : ChainView.Distinct (· ∈ course.headers)
      → (course.run start).store.poisoned = false
      → course.Unraced start
      → (course.run start).tips = (course.withoutQueries.run start).tips
        ∧ (course.run start).bestTip? = (course.withoutQueries.run start).bestTip?
  forestalled
    : ∀ (before : Course) (step : Happening) (rest : Course) (key : BlockHash),
        course = before ++ step :: rest
        → step.isQuery = true
        → (before.run start).contains key = false
        → (step.next (before.run start)).contains key = true
        → key ∉ (course.run start).tips

/-- Whatever the pipeline and the readers do, this is what becomes of the candidates. -/
theorem Course.settled (course : Course) : course.Settled where
  undisturbed distinct healthy unraced := by
    have same :=
      course.shadow_start.tips_run distinct.lawful (ChainView.spans_spanned _) (fun _ => id) healthy
        unraced
    exact ⟨congrArg Tips.hashes same, congrArg Tips.best? same⟩
  forestalled before step rest key split asks absent resident := by
    subst split
    have fallen : key ∉ (run rest (step.next (before.run start))).tips :=
      not_tip_of_hydrated asks absent resident
    rw [run, List.foldl_append]
    exact fallen

/-- The pipeline persists the root, a reader looks it up, and the pipeline extends the index. -/
def Fork.raced : Course :=
  [.append root 5, .query (.lookup root.hash) rfl, .extend root 5]

/-- A header with the greatest work. -/
def Fork.heavy : Header := ⟨2, .zero, .zero, 0, 0, 0⟩

/-- A child of the heavy header. -/
def Fork.unbearable : Header := ⟨2, heavy.hash, .zero, 1, 0x207fffff, 1⟩

/-- A reader looks the root up before a sum of work poisons the store. -/
def Fork.spilled : Course :=
  [.append root 5, .append heavy 6, .query (.lookup root.hash) rfl, .append unbearable 7,
    .extend left 8]

-- In the first course the reader keeps the root from becoming a candidate. In the second it makes a
-- child of the root one, since without it the root can no longer be read.
theorem Fork.tips_raced
    : (raced.run Course.start).tips = []
      ∧ (raced.withoutQueries.run Course.start).tips = [root.hash]
      ∧ (spilled.run Course.start).tips = [left.hash]
      ∧ (spilled.withoutQueries.run Course.start).tips = [] := by
  decide +kernel

/-- The pipeline persists two headers, a reader looks one of them up, and the pipeline extends the
index with a child of the other.
-/
def Fork.consulted : Course :=
  [.append root 5, .append right 7, .query (.lookup right.hash) rfl, .extend left 8]

theorem Fork.distinct_consulted : ChainView.Distinct (· ∈ consulted.headers) := by
  refine distinct_view.mono ?_
  intro header member
  have headers : consulted.headers = [root, right, left] := rfl
  rw [headers] at member
  simp only [List.mem_cons, List.not_mem_nil, or_false] at member
  exact member.imp id Or.symm

-- Without the reader its header would not be resident.
theorem Fork.settled_consulted
    : (consulted.withoutQueries.run Course.start).contains right.hash = false
      ∧ (consulted.run Course.start).tips = [left.hash]
      ∧ (consulted.withoutQueries.run Course.start).tips = [left.hash]
      ∧ right.hash ∉ (consulted.run Course.start).tips := by
  have run : (consulted.withoutQueries.run Course.start).contains right.hash = false
      ∧ (consulted.run Course.start).store.poisoned = false
      ∧ (consulted.run Course.start).tips = [left.hash]
      ∧ consulted.Unraced Course.start := by
    decide +kernel
  obtain ⟨free, healthy, tips, unraced⟩ := run
  have settled := Course.settled consulted
  obtain ⟨same, _⟩ := settled.undisturbed distinct_consulted healthy unraced
  refine ⟨free, tips, same ▸ tips, ?_⟩
  refine settled.forestalled [.append root 5, .append right 7] (.query (.lookup right.hash) rfl)
    [.extend left 8] right.hash rfl rfl rfl ?_
  decide +kernel

end HeaderChain
