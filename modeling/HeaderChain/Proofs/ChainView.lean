import HeaderChain.Proofs.StoredHeaders

/-! One chain, seen through an index. However a record came to be resident, by hydration on a
resident parent or from the store alone, by extension or by insertion, its height and its work are
the ones that its header has in the chain.
-/

namespace HeaderChain

/-- The heights and works that belong to the hashes of a set of headers. -/
structure ChainView where
  covers : Header → Prop
  workOf : Header → Work
  height : BlockHash → Option Height
  work : BlockHash → Nat

namespace ChainView

/-- Heights count and works sum along the links of the covered headers. The height is unknown past
the greatest one, and no covered header has the hash that stands for the lack of a predecessor.
-/
structure Lawful (view : ChainView) : Prop where
  nonzero : ∀ header, view.covers header → header.hash ≠ .zero
  genesis
    : ∀ header,
        view.covers header
        → header.isGenesis = true
        → view.height header.hash = some 0 ∧ view.work header.hash = (view.workOf header).toNat
  child
    : ∀ header,
        view.covers header
        → header.isGenesis = false
        → view.height header.hash = (view.height header.prev).bind Height.next?
          ∧ view.work header.hash = view.work header.prev + (view.workOf header).toNat

/-- A store agrees with the chain in whatever it answers: it serves covered headers under their own
hashes, and what it then tells about such a header is what the chain has. It may fail and it may
lack headers at any time.
-/
structure Answered {σ : Type} [HeaderSource σ] (view : ChainView) (states : σ → Prop) : Prop
    extends ReadClosed states where
  workOf
    : ∀ store header,
        states store
        → view.covers header
        → HeaderSource.workOf store header = view.workOf header
  served
    : ∀ store key header firstSeen after,
        states store
        → HeaderSource.fetch key store = .ok (some ⟨header, firstSeen⟩) after
        → view.covers header ∧ header.hash = key
  height
    : ∀ store key seen served height after,
        states store
        → HeaderSource.fetch key store = .ok (some seen) served
        → HeaderSource.heightFor key served = .ok height after
        → height = view.height key
  work
    : ∀ store key seen served height between total after,
        states store
        → HeaderSource.fetch key store = .ok (some seen) served
        → HeaderSource.heightFor key served = .ok height between
        → HeaderSource.workThrough key between = .ok (some total) after
        → total.toNat = view.work key

/-- An operation adds covered headers only, and whoever states a height and a baseline states those
of the chain.
-/
def Follows (view : ChainView) : Operation → Prop
  | .insert header height baseline _ =>
      view.covers header
      ∧ height = view.height header.hash
      ∧ baseline.toNat = if header.isGenesis then 0 else view.work header.prev
  | .extend header _ => view.covers header
  | _ => True

/-- An entry of a covered header with the height and the work that it has in the chain. -/
def Enters (view : ChainView) (key : BlockHash) (entry : KnownHeader) : Prop :=
  view.covers entry.header
  ∧ entry.header.hash = key
  ∧ entry.height = view.height key
  ∧ entry.chainWork.toNat = view.work key

/-- A record is of a covered header and in its place. -/
structure Places (view : ChainView) (key : BlockHash) (record : Record) : Prop where
  covers : view.covers record.header
  hash : record.hash = key
  height : record.height = view.height key
  work : record.work.toNat = view.work key

variable {view : ChainView}

theorem places_withoutLinks_iff {key : BlockHash} {record : Record}
    : view.Places key record.withoutLinks ↔ view.Places key record :=
  ⟨fun places => ⟨places.covers, places.hash, places.height, places.work⟩,
    fun places => ⟨places.covers, places.hash, places.height, places.work⟩⟩

/-- Every resident record is in its place. -/
def Placed (view : ChainView) (resident : Resident) : Prop :=
  ∀ key entry, resident.unlinked? key = some entry → view.Places key entry

theorem Placed.of_get? {resident : Resident} {key : BlockHash} {record : Record}
    (placed : view.Placed resident) (found : resident.get? key = some record)
    : view.Places key record :=
  places_withoutLinks_iff.mp (placed key _ (Resident.unlinked?_of_get? found))

/-- No header without predecessor links to a covered one. -/
theorem Lawful.later {header : Header} {parent : Record} (lawful : view.Lawful)
    (parentPlaced : view.Places header.prev parent)
    : header.isGenesis = false := by
  refine Bool.eq_false_iff.mpr fun genesis => ?_
  have zero : header.prev = .zero := of_decide_eq_true genesis
  exact lawful.nonzero parent.header parentPlaced.covers (parentPlaced.hash.trans zero)

/-- A header on top of a parent that is in its place has its own place one above it. -/
theorem Lawful.above {header : Header} {parent : Record} {total : Work} (lawful : view.Lawful)
    (covered : view.covers header) (parentPlaced : view.Places header.prev parent)
    (sum : parent.work.add? (view.workOf header) = some total)
    : header.isGenesis = false
      ∧ view.height header.hash = parent.childHeight?
      ∧ total.toNat = view.work header.hash := by
  have later := lawful.later parentPlaced
  obtain ⟨height, work⟩ := lawful.child header covered later
  refine ⟨later, ?_, ?_⟩
  · rw [height, Record.childHeight?, parentPlaced.height]
  · rw [work, Work.add?_eq_some_iff.mp sum, parentPlaced.work]

/-- A header without predecessor that is entered at height zero on no work is in its place. -/
theorem Lawful.places_first {header : Header} {total : Work} (lawful : view.Lawful)
    (covered : view.covers header) (genesis : header.isGenesis = true)
    (sum : Work.zero.add? (view.workOf header) = some total) (firstSeen : UInt64)
    : view.Places header.hash (.unlinked header (some 0) total firstSeen) := by
  obtain ⟨height, work⟩ := lawful.genesis header covered genesis
  have value := Work.add?_eq_some_iff.mp sum
  have zero : Work.zero.toNat = 0 := rfl
  refine ⟨covered, rfl, height.symm, ?_⟩
  simp only [Record.unlinked]
  omega

/-- A header that is entered on a parent in its place is in its own. -/
theorem Lawful.places_child {header : Header} {parent : Record} {total : Work}
    (lawful : view.Lawful) (covered : view.covers header)
    (parentPlaced : view.Places header.prev parent)
    (sum : parent.work.add? (view.workOf header) = some total) (firstSeen : UInt64)
    : view.Places header.hash (.unlinked header parent.childHeight? total firstSeen) := by
  obtain ⟨_, height, work⟩ := lawful.above covered parentPlaced sum
  exact ⟨covered, rfl, height.symm, work⟩

variable {σ : Type} [HeaderSource σ] {states : σ → Prop}

/-- What hydration derives for a header is its place: from a resident parent that is in its own
place, from the store, or the height from the one and the work from the other.
-/
theorem Lawful.derived {key : BlockHash} {header : Header} {firstSeen : UInt64}
    {parent : Option Record} {store served last : σ} {height : Option Height} {total : Work}
    (lawful : view.Lawful) (answered : view.Answered states) (state : states store)
    (asked : HeaderSource.fetch key store = .ok (some ⟨header, firstSeen⟩) served)
    (parentPlaced : ∀ record, parent = some record → view.Places header.prev record)
    (derived
      : Derived key (HeaderSource.workOf served header) parent served height total last)
    : view.Places key (.unlinked header height total firstSeen) := by
  obtain ⟨covered, own⟩ := answered.served _ _ _ _ _ state asked
  have fetched : states served := StoreRead.final_of_ok asked ▸ answered.fetch _ key state
  rw [answered.workOf served header fetched covered] at derived
  cases derived with
  | @parent record _ height _ known sum =>
      obtain ⟨_, above, work⟩ := lawful.above covered (parentPlaced record rfl) sum
      refine ⟨covered, own, ?_, own ▸ work⟩
      rw [← own, above, known]
      rfl
  | @parentWork record _ _ _ _ unknown told sum =>
      obtain ⟨_, _, work⟩ := lawful.above covered (parentPlaced record rfl) sum
      exact ⟨covered, own, answered.height _ _ _ _ _ _ state asked told, own ▸ work⟩
  | stored told told' =>
      exact ⟨covered, own, answered.height _ _ _ _ _ _ state asked told,
        answered.work _ _ _ _ _ _ _ _ state asked told told'⟩

/-- What an operation that follows the chain adds is in its place as well. -/
theorem Lawful.offered {operation : Operation} {resident : Resident} {header : Header}
    {height : Option Height} {baseline total : Work} {firstSeen : UInt64}
    (lawful : view.Lawful) (follows : view.Follows operation)
    (placed : view.Placed resident)
    (offered : operation.Offers resident header height baseline firstSeen)
    (sum : baseline.add? (view.workOf header) = some total)
    : view.Places header.hash (.unlinked header height total firstSeen) := by
  cases offered with
  | stated =>
      obtain ⟨covered, same, stated⟩ := follows
      refine ⟨covered, rfl, same, ?_⟩
      have value : total.toNat = baseline.toNat + (view.workOf header).toNat :=
        Work.add?_eq_some_iff.mp sum
      cases genesis : header.isGenesis with
      | true =>
          rw [genesis, if_pos rfl] at stated
          have work := (lawful.genesis header covered genesis).2
          simp only [Record.unlinked]
          omega
      | false =>
          rw [genesis, if_neg Bool.false_ne_true] at stated
          have work := (lawful.child header covered genesis).2
          simp only [Record.unlinked]
          omega
  | first genesis => exact lawful.places_first follows genesis sum firstSeen
  | child later found =>
      exact lawful.places_child follows (placed.of_get? found) sum firstSeen

/-- Every step of an operation that follows the chain keeps every resident record in its place. -/
theorem Lawful.step {operation : Operation} {before after : Index σ} (lawful : view.Lawful)
    (answered : view.Answered states) (follows : view.Follows operation)
    (state : states before.store)
    (placed : view.Placed before.resident) (step : Index.Step operation before after)
    : view.Placed after.resident := by
  intro key entry found
  rcases step.origin found with kept | admits
  · exact placed key entry kept
  · cases admits with
    | hydrated asked derived =>
        exact lawful.derived answered state asked (fun record found => placed.of_get? found) derived
    | @indexed header height baseline firstSeen total offered sum =>
        have covered : view.covers header := by
          cases offered with
          | stated => exact follows.1
          | first => exact follows
          | child => exact follows
        rw [answered.workOf _ _ state covered] at sum
        exact lawful.offered follows placed offered sum

/-- A memory store all of whose entries are in their places agrees with the chain. -/
theorem answered_memory (sameWork : ∀ header, view.workOf header = header.work)
    : view.Answered (MemoryStore.Holds view.Enters) where
  toReadClosed := MemoryStore.readClosed_holds _
  workOf _ header _ _ := (sameWork header).symm
  served store key header firstSeen after held asked := by
    obtain ⟨entry, entered, rfl⟩ := held.exists_served asked
    exact ⟨entered.1, entered.2.1⟩
  height store key seen served height after held asked told := by
    obtain ⟨entry, found, _, kept⟩ := MemoryStore.entry_of_fetch asked
    obtain ⟨same, _⟩ := MemoryStore.height_of_heightFor told
    rw [same, kept, found]
    exact (held key entry found).2.2.1
  work store key seen served height between total after held asked told told' := by
    obtain ⟨entry, found, _, kept⟩ := MemoryStore.entry_of_fetch asked
    obtain ⟨_, unchanged⟩ := MemoryStore.height_of_heightFor told
    obtain ⟨same, _⟩ := MemoryStore.work_of_workThrough told'
    rw [unchanged, kept, found] at same
    cases same
    exact (held key entry found).2.2.2

end ChainView

/-- However a record came to be resident, it is filed under its own hash, and its height and its
work are those of the chain. Heights stay unknown past the greatest one, sums that do not fit only
make operations fail, and no assumption on colliding hashes is needed beyond that the chain gives
each hash one place.
-/
theorem Index.Reached.placed {σ : Type} [HeaderSource σ] {view : ChainView} {states : σ → Prop}
    {config : Config} {index : Index σ} {key : BlockHash} {record : Record}
    (lawful : view.Lawful) (answered : view.Answered states)
    (reached : Index.Reached states view.Follows config index)
    (found : index.get? key = some record)
    : record.hash = key
      ∧ record.height = view.height key
      ∧ record.work.toNat = view.work key := by
  let property (index : Index σ) : Prop := view.Placed index.resident
  have kept : states index.store ∧ property index := by
    refine reached.invariant property answered.toReadClosed ?_ ?_ ?_
    · intro store key entry found
      cases found
    · intro index store placed
      exact placed
    · intro operation before after follows state placed step
      exact lawful.step answered follows state placed step
  have places := kept.2.of_get? found
  exact ⟨places.hash, places.height, places.work⟩

/-- The fork as a chain. -/
def Fork.view : ChainView where
  covers header := header = root ∨ header = left ∨ header = right
  workOf := Header.work
  height key := if key = root.hash then some 0 else some 1
  work key := if key = root.hash then 2 else 4

theorem Fork.lawful_view : Fork.view.Lawful where
  nonzero header covered := by
    rcases covered with rfl | rfl | rfl
    · exact root_ne_zero
    · exact left_ne_zero
    · exact right_ne_zero
  genesis header covered genesis := by
    rcases covered with rfl | rfl | rfl
    · have work : root.work.toNat = 2 := by decide
      simp [view, work]
    · exact absurd (of_decide_eq_true genesis) root_ne_zero
    · exact absurd (of_decide_eq_true genesis) root_ne_zero
  child header covered later := by
    have next : Height.next? 0 = some 1 := by decide
    rcases covered with rfl | rfl | rfl
    · cases later
    · have prev : left.prev = root.hash := rfl
      have work : left.work.toNat = 2 := by decide
      simp [view, left_ne_root, prev, work, next]
    · have prev : right.prev = root.hash := rfl
      have work : right.work.toNat = 2 := by decide
      simp [view, right_ne_root, prev, work, next]

theorem Fork.holds_view
    : MemoryStore.Holds view.Enters Fork.store := by
  have two : (Work.ofNat 2).toNat = 2 := by decide
  have four : (Work.ofNat 4).toNat = 4 := by decide
  refine holds_store ?_ ?_ ?_
  · simp [ChainView.Enters, view, rootEntry, two]
  · simp [ChainView.Enters, view, leftEntry, left_ne_root, four]
  · simp [ChainView.Enters, view, rightEntry, right_ne_root, four]

/-- An index with room for one record, after an extension with the root and a lookup of a child,
which takes its place from the root and evicts it.
-/
def Fork.narrow : Index MemoryStore :=
  (Operation.lookup left.hash).next ((Operation.extend root 9).next (.new Fork.store ⟨1⟩))

theorem Fork.placed_left
    : Fork.narrow.get? left.hash = some (.unlinked left (some 1) (.ofNat 4) 6)
      ∧ left.hash = left.hash
      ∧ some 1 = Fork.view.height left.hash
      ∧ (Work.ofNat 4).toNat = Fork.view.work left.hash := by
  have found : Fork.narrow.get? left.hash = some (.unlinked left (some 1) (.ofNat 4) 6) := by
    decide +kernel
  have reached : Index.Reached _ Fork.view.Follows ⟨1⟩ Fork.narrow :=
    .performed _ trivial (.performed _ (.inl rfl) (.new Fork.holds_view))
  exact ⟨found, Index.Reached.placed Fork.lawful_view
    (ChainView.answered_memory fun _ => rfl) reached found⟩

end HeaderChain
