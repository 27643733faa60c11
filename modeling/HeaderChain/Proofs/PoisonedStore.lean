import HeaderChain.Proofs.Interleaving
import HeaderChain.Proofs.StoreUpkeep
import HeaderChain.Proofs.Substitution

/-! What is left of an index when a sum of work has poisoned its store. The store refuses everything
from then on and keeps its entries. The index goes on with what is resident, and what enters it is
what its callers add on top of that.
-/

namespace HeaderChain

-----------------------------------------------------------------------------------------
-- Requests
-----------------------------------------------------------------------------------------

namespace MemoryStore

/-- A request to a store, through any of the handles that share it. -/
inductive Request
  | put (entry : KnownHeader)
  | append (header : Header) (firstSeen : UInt64)
  | forget (key : BlockHash)
  | size
  | isEmpty
  | fetch (key : BlockHash)
  | heightFor (key : BlockHash)
  | workThrough (key : BlockHash)
  deriving DecidableEq

namespace Request

/-- What a request is answered with. -/
def Reply : Request → Type
  | .put _ | .append _ _ => BlockHash
  | .forget _ | .isEmpty => Bool
  | .size => Nat
  | .fetch _ => Option SeenHeader
  | .heightFor _ => Option Height
  | .workThrough _ => Option Work

/-- Carries a request out. -/
def perform : (request : Request) → EStateM AppendFailure MemoryStore request.Reply
  | .put entry => orRefuse (MemoryStore.put entry)
  | .append header firstSeen => MemoryStore.append header firstSeen
  | .forget key => orRefuse (MemoryStore.forget key)
  | .size => orRefuse MemoryStore.size
  | .isEmpty => orRefuse MemoryStore.isEmpty
  | .fetch key => orRefuse (HeaderSource.fetch key)
  | .heightFor key => orRefuse (HeaderSource.heightFor key)
  | .workThrough key => orRefuse (HeaderSource.workThrough key)

/-- The store after a request, also if it failed. -/
def next (request : Request) (store : MemoryStore) : MemoryStore :=
  match request.perform store with
  | .ok _ store => store
  | .error _ store => store

/-- The store with one more fetch, if the request is one. -/
def counted : Request → MemoryStore → MemoryStore
  | .fetch _, store => { store with fetches := store.fetches + 1 }
  | _, store => store

variable {store : MemoryStore}

/-- A poisoned store refuses every request and only counts the fetches. -/
theorem perform_of_poisoned (request : Request) (poisoned : store.poisoned = true)
    : request.perform store = .error (.refused .poisoned) (request.counted store) := by
  obtain ⟨headers, fetches, _⟩ := store
  cases poisoned
  cases request with
  | append header firstSeen =>
      rw [perform, MemoryStore.append]
      cases header.isGenesis <;> rfl
  | put | forget | size | isEmpty | fetch | heightFor | workThrough => rfl

/-- A poisoned store stays poisoned, with the same entries. -/
theorem alike_next (request : Request) (poisoned : store.poisoned = true)
    : store.Alike (request.next store) := by
  rw [next, request.perform_of_poisoned poisoned]
  cases request <;> exact ⟨rfl, rfl⟩

end Request

/-- An append whose work does not fit changes no entry and leaves the store poisoned. -/
theorem append_of_overflows {store : MemoryStore} {header : Header}
    (overflows : store.Overflows header) (firstSeen : UInt64)
    : append header firstSeen store
      = .error (if store.poisoned then .refused .poisoned else .workOverflow)
          { store with poisoned := true } := by
  have attempt := append_attempt header firstSeen store
  generalize append header firstSeen store = result at attempt ⊢
  cases attempt with
  | poisoned poisoned =>
      obtain ⟨headers, fetches, _⟩ := store
      cases poisoned
      rfl
  | unknown _ _ absent =>
      obtain ⟨_, parent, found, _⟩ := overflows
      rw [absent] at found
      cases found
  | overflow healthy => rw [healthy, if_neg Bool.false_ne_true]
  | stored _ _ fits => exact (fits overflows).elim

end MemoryStore

-----------------------------------------------------------------------------------------
-- Courses
-----------------------------------------------------------------------------------------

/-- The index after an activity, whether it has an answer or fails. -/
def Activity.next {ω σ : Type} [HeaderSource σ] (serve : ω → σ → σ)
    : Activity ω → Index σ → Index σ
  | .write item, index => { index with store := serve item index.store }
  | .operate operation, index => operation.next index

/-- The index after requests to its store and operations, in turn. -/
def Index.used (index : Index MemoryStore) (course : List (Activity MemoryStore.Request))
    : Index MemoryStore :=
  course.foldl (fun index activity => activity.next MemoryStore.Request.next index) index

variable {index before after : Index MemoryStore} {operation : Operation}

theorem Activity.alike_next (activity : Activity MemoryStore.Request)
    (poisoned : index.store.poisoned = true)
    : index.store.Alike (activity.next MemoryStore.Request.next index).store := by
  cases activity with
  | write request => exact request.alike_next poisoned
  | operate operation => exact (operation.next_steps index).alike

/-- A poisoned store keeps its entries and stays poisoned, by induction on what happens. -/
theorem Index.alike_used (course : List (Activity MemoryStore.Request))
    (poisoned : index.store.poisoned = true)
    : index.store.Alike (index.used course).store := by
  induction course generalizing index with
  | nil => exact ⟨rfl, rfl⟩
  | cons activity rest ih =>
      have first := activity.alike_next poisoned
      exact first.trans (ih (first.poisoned.trans poisoned))

-----------------------------------------------------------------------------------------
-- Additions
-----------------------------------------------------------------------------------------

/-- The records that an operation can create without its store: what it offers, entered on the
baseline that comes with it.
-/
def Operation.Creates (operation : Operation) (resident : Resident) (key : BlockHash)
    (record : Record)
    : Prop :=
  ∃ header height baseline firstSeen total,
    operation.Offers resident header height baseline firstSeen
    ∧ header.hash = key
    ∧ baseline.add? header.work = some total
    ∧ record = .unlinked header height total firstSeen

theorem Operation.Creates.withoutLinks_eq {resident : Resident} {key : BlockHash}
    {record : Record} (creates : operation.Creates resident key record)
    : record.withoutLinks = record := by
  obtain ⟨_, _, _, _, _, _, _, _, rfl⟩ := creates
  rfl

/-- No record has entered the resident part or the journal but those that the operation creates. -/
structure Index.Supplied (operation : Operation) (before after : Index MemoryStore) : Prop where
  resident
    : ∀ key entry,
        after.resident.unlinked? key = some entry
        → before.resident.unlinked? key = some entry
          ∨ operation.Creates before.resident key entry
  journal
    : ∃ changes,
        after.journal = changes ++ before.journal
        ∧ ∀ change ∈ changes, ∀ key record,
            change.entry? = some (key, record) → operation.Creates before.resident key record

/-- What a step brings in over a poisoned store is new and offered by the operation. -/
theorem Index.Step.creates (step : Index.Step operation before after)
    (poisoned : before.store.poisoned = true)
    : (after.resident = before.resident ∧ after.journal = before.journal)
      ∨ ∃ change,
          after.resident = before.resident.apply change
          ∧ after.journal = change :: before.journal
          ∧ ∀ key record,
              change.entry? = some (key, record)
              → before.resident.get? key = none
                ∧ operation.Creates before.resident key record := by
  cases step with
  | fetched => exact .inl ⟨rfl, rfl⟩
  | heightAsked => exact .inl ⟨rfl, rfl⟩
  | workAsked => exact .inl ⟨rfl, rfl⟩
  | hydrated _ answered =>
      rw [MemoryStore.fetch_eq, if_pos poisoned] at answered
      cases answered
  | indexed offered absent sum =>
      refine .inr ⟨_, rfl, rfl, ?_⟩
      intro key record entry
      cases entry
      exact ⟨absent, _, _, _, _, _, offered, rfl, sum, rfl⟩
  | removed => exact .inr ⟨_, rfl, rfl, fun _ _ entry => nomatch entry⟩
  | linked => exact .inr ⟨_, rfl, rfl, fun _ _ entry => nomatch entry⟩
  | trimmed => exact .inr ⟨_, rfl, rfl, fun _ _ entry => nomatch entry⟩

/-- What an operation offers on the way it offered from the start. The parent of an extension has
not come in on the way, for then it would be the header itself, which is new.
-/
theorem Index.Supplied.offers {between : Index MemoryStore} {header : Header}
    {height : Option Height} {baseline : Work} {firstSeen : UInt64}
    (supplied : Index.Supplied operation before between)
    (offered : operation.Offers between.resident header height baseline firstSeen)
    (absent : between.resident.get? header.hash = none)
    : operation.Offers before.resident header height baseline firstSeen := by
  cases offered with
  | stated => exact .stated
  | first genesis => exact .first genesis
  | @child _ _ _ parent later found =>
      rcases supplied.resident _ _ (Resident.unlinked?_of_get? found) with was | created
      · obtain ⟨original, found', same⟩ := Option.map_eq_some_iff.mp was
        obtain ⟨_, height, work, _⟩ := Record.withoutLinks_inj.mp same
        have childHeight : original.childHeight? = parent.childHeight? := by
          rw [Record.childHeight?, height, ← Record.childHeight?]
        rw [← childHeight, ← work]
        exact .child later found'
      · obtain ⟨other, _, _, _, _, offered', own, _⟩ := created
        have self : other = header := by
          cases offered' <;> rfl
        rw [← own, self, absent] at found
        cases found

/-- Over a poisoned store, operations create records from what they are given and what is resident,
by induction on the steps.
-/
theorem Index.Steps.supplied (steps : Index.Steps operation before after)
    (poisoned : before.store.poisoned = true)
    : Index.Supplied operation before after := by
  induction steps with
  | refl =>
      refine ⟨fun _ _ => .inl, [], rfl, ?_⟩
      intro change member
      cases member
  | @tail between after steps step ih =>
      have poisoned' := (Index.Steps.alike steps).poisoned.trans poisoned
      rcases step.creates poisoned' with ⟨resident, journal⟩ | ⟨change, resident, journal, entered⟩
      · refine ⟨?_, ?_⟩
        · rw [resident]
          exact ih.resident
        · rw [journal]
          exact ih.journal
      · have creates (key : BlockHash) (record : Record)
            (entry : change.entry? = some (key, record))
            : operation.Creates before.resident key record := by
          obtain ⟨absent, header, height, baseline, firstSeen, total, offered, own, rest⟩ :=
            entered key record entry
          exact ⟨header, height, baseline, firstSeen, total,
            ih.offers offered (own ▸ absent), own, rest⟩
        refine ⟨?_, ?_⟩
        · intro key entry found
          rw [resident] at found
          rcases Resident.unlinked?_apply found with ⟨record, new, same⟩ | was
          · have created := creates key record new
            rw [← same, created.withoutLinks_eq]
            exact .inr created
          · exact ih.resident key entry was
        · obtain ⟨changes, before', fresh⟩ := ih.journal
          refine ⟨change :: changes, ?_, ?_⟩
          · rw [journal, before', List.cons_append]
          · intro other member
            rcases List.mem_cons.mp member with rfl | earlier
            · exact creates
            · exact fresh other earlier

-----------------------------------------------------------------------------------------
-- An index cut off
-----------------------------------------------------------------------------------------

namespace IndexM

variable {σ : Type} [HeaderSource σ]

/-- Between resident records, a step to the parent reads nothing and remembers the link. -/
theorem parent_of_resident {index : Index σ} {key : BlockHash} {record above : Record}
    (found : index.resident.get? key = some record) (later : record.header.isGenesis = false)
    (parent : index.resident.get? record.prev = some above)
    : ∃ answer,
        IndexM.parent key index = .ok (some answer) (index.changed (.linked key record.prev))
        ∧ answer.withoutLinks = above.withoutLinks := by
  have joined : index.joined key record.prev = index.changed (.linked key record.prev) := by
    rw [Index.joined, if_pos (Resident.contains_iff.mpr ⟨record, found⟩)]
  obtain ⟨linked, under, same⟩ := Index.exists_get?_joined parent key record.prev
  have met : (IndexM.parent key).Meets index
      (fun answer after =>
        answer = some linked ∧ after = index.changed (.linked key record.prev))
      (fun _ _ => False) := by
    refine parent_meets_of_lookups ?_
    rw [Meets, lookup_of_resident found]
    dsimp only
    rw [if_neg (Bool.eq_false_iff.mp later), Meets, lookup_of_resident parent]
    exact ⟨under, joined⟩
  obtain ⟨_, _, done, rfl, rfl⟩ := met.exists_ok
  exact ⟨linked, done, same⟩

end IndexM

/-- How an index does without its store. The store refuses every request and counts the fetches. A
lookup fails for what is missing, with nothing changed but this count, and answers what is resident;
so does a step between resident records. Records come from insertions, and from extensions by a
header without predecessor or on top of a resident record.
-/
structure Index.CutOff (index : Index MemoryStore) : Prop where
  refuses
    : ∀ request : MemoryStore.Request,
        request.perform index.store = .error (.refused .poisoned) (request.counted index.store)
  missing
    : ∀ key,
        index.resident.get? key = none
        → IndexM.lookup key index
          = .error (.storage .poisoned)
              { index with store := { index.store with fetches := index.store.fetches + 1 } }
  resident
    : ∀ key record,
        index.resident.get? key = some record
        → IndexM.lookup key index = .ok (some record) index
  parent
    : ∀ key record above,
        index.resident.get? key = some record
        → record.header.isGenesis = false
        → index.resident.get? record.prev = some above
        → ∃ answer,
            IndexM.parent key index = .ok (some answer) (index.changed (.linked key record.prev))
            ∧ answer.withoutLinks = above.withoutLinks
  supplied : ∀ operation : Operation, Index.Supplied operation index (operation.next index)

theorem Index.cutOff_of_poisoned (poisoned : index.store.poisoned = true) : index.CutOff where
  refuses request := request.perform_of_poisoned poisoned
  missing key absent := by
    have failed : HeaderSource.fetch key index.store
        = .error .poisoned { index.store with fetches := index.store.fetches + 1 } := by
      rw [MemoryStore.fetch_eq, if_pos poisoned]
    simp only [IndexM.lookup, IndexM.hydrate, IndexM.resident, IndexM.ofStore, bind, EStateM.bind,
      absent, failed]
  resident key record found := IndexM.lookup_of_resident found
  parent key record above found later parent := IndexM.parent_of_resident found later parent
  supplied operation := (operation.next_steps index).supplied poisoned

/-- When the work of a header does not fit on top of its stored parent, the append fails, the
entries stay and the store is poisoned. From then on, whatever is asked of the store and whatever is
done with an index over it, the entries stay as they are and the index is cut off.
-/
theorem MemoryStore.Overflows.cutsOff {store : MemoryStore} {header : Header}
    (overflows : store.Overflows header) (firstSeen : UInt64)
    : let closed := { store with poisoned := true }
      append header firstSeen store
        = .error (if store.poisoned then .refused .poisoned else .workOverflow) closed
      ∧ ∀ resident journal course,
          let index := Index.used ⟨closed, resident, journal⟩ course
          index.store.headers = store.headers ∧ index.CutOff := by
  refine ⟨append_of_overflows overflows firstSeen, ?_⟩
  intro resident journal course
  let start : Index MemoryStore := ⟨{ store with poisoned := true }, resident, journal⟩
  have alike : start.store.Alike (start.used course).store := Index.alike_used course rfl
  exact ⟨alike.headers, Index.cutOff_of_poisoned alike.poisoned⟩

namespace Fork

/-- An index over a store with the fork and a header of the greatest work. The root and one of its
children are resident.
-/
def stocked : Index MemoryStore :=
  (Operation.parent left.hash).next (.new (store.appended heavy 8) .unbounded)

theorem overflows_stocked : stocked.store.Overflows unbearable := by
  have stored : unbearable.isGenesis = false
      ∧ stocked.store.headers.get? unbearable.prev = some ⟨heavy, some 0, heavy.work, 8⟩
      ∧ Work.capacity ≤ heavy.work.toNat + unbearable.work.toNat := by
    decide +kernel
  exact ⟨stored.1, _, stored.2.1, stored.2.2⟩

/-- What happens once the store is poisoned, last of all an extension by the other child. -/
def siege : List (Activity MemoryStore.Request) :=
  [.write (.append root 9), .operate (.lookup right.hash), .write (.forget left.hash),
    .operate (.extend right 7)]

/-- The index after that. -/
def besieged : Index MemoryStore :=
  Index.used { stocked with store := { stocked.store with poisoned := true } } siege

-- The other child cannot be looked up, but it can be added, since its parent is resident.
theorem cutsOff_stocked
    : stocked.store.Overflows unbearable
      ∧ MemoryStore.append unbearable 9 stocked.store
        = .error .workOverflow { stocked.store with poisoned := true }
      ∧ stocked.resident.table.keys = [left.hash, root.hash]
      ∧ besieged.resident.table.keys = [left.hash, root.hash, right.hash]
      ∧ besieged.store.fetches = stocked.store.fetches + 1
      ∧ besieged.store.headers = stocked.store.headers
      ∧ besieged.CutOff := by
  have content : stocked.store.poisoned = false
      ∧ stocked.resident.table.keys = [left.hash, root.hash]
      ∧ besieged.resident.table.keys = [left.hash, root.hash, right.hash]
      ∧ besieged.store.fetches = stocked.store.fetches + 1 := by
    decide +kernel
  obtain ⟨healthy, before, after, fetches⟩ := content
  obtain ⟨failed, later⟩ := overflows_stocked.cutsOff 9
  rw [healthy, if_neg Bool.false_ne_true] at failed
  obtain ⟨headers, cutOff⟩ := later stocked.resident stocked.journal siege
  exact ⟨overflows_stocked, failed, before, after, fetches, headers, cutOff⟩

end Fork

end HeaderChain
