import HeaderChain.Proofs.ChainView

/-! The chain of the headers that are appended to a memory store. Where different headers have
different hashes, every header that hangs together with one without predecessor has its height and
its work in it, and what the store has is the same.
-/

namespace HeaderChain

namespace MemoryStore

/-- The store after a header was appended to it, whether it was accepted or not. -/
def appended (header : Header) (firstSeen : UInt64) (store : MemoryStore) : MemoryStore :=
  match append header firstSeen store with
  | .ok _ store => store
  | .error _ store => store

/-- The entries after a header was appended to a store that is not poisoned; none if the work does
not fit.
-/
def entries? (headers : KeyedTable BlockHash KnownHeader) (header : Header) (firstSeen : UInt64)
    : Option (KeyedTable BlockHash KnownHeader) :=
  if header.isGenesis then
    some (headers.put header.hash ⟨header, some 0, header.work, firstSeen⟩)
  else
    match headers.get? header.prev with
    | none => some headers
    | some parent => (parent.child? header firstSeen).map fun entry => headers.put header.hash entry

theorem appended_eq (header : Header) (firstSeen : UInt64) (store : MemoryStore)
    : store.appended header firstSeen
      = if store.poisoned then store
        else
          match entries? store.headers header firstSeen with
          | none => { store with poisoned := true }
          | some headers => { store with headers } := by
  obtain ⟨headers, fetches, poisoned⟩ := store
  rw [appended, append, entries?]
  cases poisoned with
  | true => cases header.isGenesis <;> rfl
  | false =>
      cases header.isGenesis with
      | true => rfl
      | false =>
          have unpoisoned : orRefuse read ⟨headers, fetches, false⟩
              = .ok headers ⟨headers, fetches, false⟩ := rfl
          simp only [Bool.false_eq_true, if_false, bind, EStateM.bind, unpoisoned]
          cases headers.get? header.prev with
          | none => rfl
          | some parent =>
              dsimp only
              cases grown : parent.child? header firstSeen with
              | none => rfl
              | some entry =>
                  obtain ⟨chainWork, _, rfl⟩ := Option.map_eq_some_iff.mp grown
                  rfl

/-- What an append makes of the entries does not depend on the reads so far. -/
theorem appended_congr {left right : MemoryStore} (header : Header) (firstSeen : UInt64)
    (headers : left.headers = right.headers) (poisoned : left.poisoned = right.poisoned)
    : (left.appended header firstSeen).headers = (right.appended header firstSeen).headers
      ∧ (left.appended header firstSeen).poisoned
        = (right.appended header firstSeen).poisoned := by
  rw [appended_eq, appended_eq, headers, poisoned]
  split
  · exact ⟨headers, poisoned⟩
  · split
    · exact ⟨rfl, rfl⟩
    · exact ⟨rfl, rfl⟩

end MemoryStore

namespace ChainView

/-- The height and the work under a key, as the given headers have them that hang together with one
without predecessor.
-/
inductive Chained (given : Header → Prop) : BlockHash → Option Height → Nat → Prop
  | genesis {key header} (own : header.hash = key) (member : given header)
    (first : header.isGenesis = true)
    : Chained given key (some 0) header.work.toNat
  | child {key header height work} (own : header.hash = key) (member : given header)
    (later : header.isGenesis = false) (above : Chained given header.prev height work)
    : Chained given key (height.bind Height.next?) (work + header.work.toNat)

/-- Different headers have different hashes, and none has the hash that stands for the lack of a
predecessor.
-/
structure Distinct (given : Header → Prop) : Prop where
  injective : ∀ left right, given left → given right → left.hash = right.hash → left = right
  nonzero : ∀ header, given header → header.hash ≠ .zero

/-- A view has the work of headers from their own bits. It covers those of the given headers that
have no predecessor or one that it covers.
-/
structure Spans (view : ChainView) (given : Header → Prop) : Prop where
  workOf : ∀ header, view.workOf header = header.work
  genesis : ∀ header, given header → header.isGenesis = true → view.covers header
  child
    : ∀ header above,
        given header
        → header.isGenesis = false
        → view.covers above
        → above.hash = header.prev
        → view.covers header

variable {given : Header → Prop}

-----------------------------------------------------------------------------------------
-- The chain of given headers
-----------------------------------------------------------------------------------------

/-- A key has one place, by induction along the chain: its header is the only one of that hash. -/
theorem Chained.unique {key : BlockHash} {height height' : Option Height} {work work' : Nat}
    (injective : ∀ left right, given left → given right → left.hash = right.hash → left = right)
    (left : Chained given key height work) (right : Chained given key height' work')
    : height = height' ∧ work = work' := by
  induction left generalizing height' work' with
  | genesis own member first =>
      cases right with
      | genesis own' member' =>
          obtain rfl := injective _ _ member member' (own.trans own'.symm)
          exact ⟨rfl, rfl⟩
      | child own' member' later =>
          obtain rfl := injective _ _ member member' (own.trans own'.symm)
          rw [first] at later
          cases later
  | child own member later _ ih =>
      cases right with
      | genesis own' member' first =>
          obtain rfl := injective _ _ member member' (own.trans own'.symm)
          rw [first] at later
          cases later
      | child own' member' _ above =>
          obtain rfl := injective _ _ member member' (own.trans own'.symm)
          obtain ⟨rfl, rfl⟩ := ih above
          exact ⟨rfl, rfl⟩

/-- Among fewer headers there are no more collisions. -/
theorem Distinct.mono {fewer : Header → Prop} (distinct : Distinct given)
    (among : ∀ header, fewer header → given header)
    : Distinct fewer where
  injective left right member member' :=
    distinct.injective left right (among left member) (among right member')
  nonzero header member := distinct.nonzero header (among header member)

/-- The chain of the given headers, as far as it can be followed. -/
noncomputable def spanned (given : Header → Prop) : ChainView where
  covers header := given header ∧ ∃ height work, Chained given header.hash height work
  workOf := Header.work
  height key := Classical.epsilon fun height => ∃ work, Chained given key height work
  work key := Classical.epsilon fun work => ∃ height, Chained given key height work

theorem Distinct.spanned_eq {key : BlockHash} {height : Option Height} {work : Nat}
    (distinct : Distinct given) (chained : Chained given key height work)
    : (spanned given).height key = height ∧ (spanned given).work key = work := by
  obtain ⟨work', found⟩ :=
    Classical.epsilon_spec (p := fun height => ∃ work, Chained given key height work)
      ⟨height, work, chained⟩
  obtain ⟨height', found'⟩ :=
    Classical.epsilon_spec (p := fun work => ∃ height, Chained given key height work)
      ⟨work, height, chained⟩
  exact ⟨(found.unique distinct.injective chained).1, (found'.unique distinct.injective chained).2⟩

theorem Distinct.lawful (distinct : Distinct given) : (spanned given).Lawful where
  nonzero header covered := distinct.nonzero header covered.1
  genesis header covered first := distinct.spanned_eq (.genesis rfl covered.1 first)
  child header covered later := by
    obtain ⟨member, _, _, chained⟩ := covered
    have same := distinct.spanned_eq chained
    cases chained with
    | genesis own member' first =>
        obtain rfl := distinct.injective _ _ member' member own
        rw [first] at later
        cases later
    | child own member' _ above =>
        obtain rfl := distinct.injective _ _ member' member own
        obtain ⟨height, work⟩ := distinct.spanned_eq above
        rw [height, work]
        exact same

theorem spans_spanned (given : Header → Prop) : (spanned given).Spans given where
  workOf _ := rfl
  genesis header member first := ⟨member, _, _, .genesis rfl member first⟩
  child header above member later covered own := by
    obtain ⟨_, _, _, chained⟩ := covered
    rw [own] at chained
    exact ⟨member, _, _, .child rfl member later chained⟩

-----------------------------------------------------------------------------------------
-- What is appended
-----------------------------------------------------------------------------------------

variable {view : ChainView}

/-- What an append enters has its place in the chain, whether it starts at a header without
predecessor or goes on from a stored parent.
-/
theorem Lawful.enters_appended {store : MemoryStore} {header : Header} (lawful : view.Lawful)
    (spans : view.Spans given) (member : given header) (held : MemoryStore.Holds view.Enters store)
    (firstSeen : UInt64)
    : MemoryStore.Holds view.Enters (store.appended header firstSeen) := by
  have put {entry : KnownHeader} (new : view.Enters header.hash entry)
      : MemoryStore.Holds view.Enters
          { store with headers := store.headers.put header.hash entry } := by
    intro key other found
    rw [KeyedTable.get?_put] at found
    split at found
    · next same =>
        cases found
        exact same ▸ new
    · exact held key other found
  rw [MemoryStore.appended_eq]
  split
  · exact held
  · rw [MemoryStore.entries?]
    cases first : header.isGenesis with
    | true =>
        have covered := spans.genesis header member first
        obtain ⟨height, work⟩ := lawful.genesis header covered first
        exact put ⟨covered, rfl, height.symm, by rw [work, spans.workOf]⟩
    | false =>
        rw [if_neg Bool.false_ne_true]
        cases found : store.headers.get? header.prev with
        | none => exact held
        | some parent =>
            obtain ⟨above, own, height, work⟩ := held header.prev parent found
            have covered := spans.child header parent.header member first above own
            obtain ⟨height', work'⟩ := lawful.child header covered first
            dsimp only
            rw [KnownHeader.child?]
            cases sum : parent.chainWork.add? header.work with
            | none => exact held
            | some total =>
                refine put ⟨covered, rfl, ?_, ?_⟩
                · rw [height', ← height]
                · rw [work', spans.workOf, ← work]
                  exact Work.add?_eq_some_iff.mp sum

end ChainView

/-- The headers of the fork are told apart by their hashes. -/
theorem Fork.distinct_view : ChainView.Distinct view.covers where
  injective first second covered covered' same := by
    rcases covered with rfl | rfl | rfl <;> rcases covered' with rfl | rfl | rfl
    · rfl
    · exact (left_ne_root same.symm).elim
    · exact (right_ne_root same.symm).elim
    · exact (left_ne_root same).elim
    · rfl
    · exact (left_ne_right same).elim
    · exact (right_ne_root same).elim
    · exact (left_ne_right same.symm).elim
    · rfl
  nonzero := lawful_view.nonzero

end HeaderChain
