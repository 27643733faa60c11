import HeaderChain.Proofs.AppendedChain
import HeaderChain.Proofs.Line
import Mathlib.Data.List.Induction

/-! A memory store to which headers are appended and which forgets some of them again. Whatever is
stored has the height and the work that its lineage gives it, in whatever order headers came and
went, also if a header went and came back while its children stayed.
-/

namespace HeaderChain

/-- The height after a number of steps from a header without predecessor; unknown past the greatest
one.
-/
def Height.counted? (count : Nat) : Option Height :=
  if count < UInt32.size then some (UInt32.ofNat count) else none

theorem Height.counted?_eq_some_iff {count : Nat} {height : Height}
    : counted? count = some height ↔ height.toNat = count := by
  have bound := height.toNat_lt
  rw [counted?]
  split
  · next small =>
      rw [Option.some.injEq, ← UInt32.toNat_inj, UInt32.toNat_ofNat_of_lt' small, eq_comm]
  · next exceeds =>
      simp only [reduceCtorEq, false_iff]
      rintro rfl
      exact exceeds bound

theorem Height.counted?_succ (count : Nat)
    : counted? (count + 1) = (counted? count).bind next? := by
  have value {count : Nat} (small : count < UInt32.size) : (UInt32.ofNat count).toNat = count :=
    UInt32.toNat_ofNat_of_lt' small
  by_cases small : count + 1 < UInt32.size
  · have smaller : count < UInt32.size := Nat.lt_of_succ_lt small
    have next : next? (UInt32.ofNat count) = some (UInt32.ofNat (count + 1)) := by
      rw [next?_eq_some_iff, value small, value smaller]
    rw [counted?, counted?, if_pos small, if_pos smaller, Option.bind_some, next]
  · rw [counted?, if_neg small]
    symm
    rw [Option.bind_eq_none_iff]
    intro height known
    rw [counted?] at known
    split at known
    · next smaller =>
        cases known
        refine Option.eq_none_iff_forall_ne_some.mpr fun next same => ?_
        have more := next?_eq_some_iff.mp same
        have bound := next.toNat_lt
        rw [value smaller] at more
        exact small (more ▸ bound)
    · cases known

namespace MemoryStore

-----------------------------------------------------------------------------------------
-- Calls
-----------------------------------------------------------------------------------------

/-- A call by which the owner of a store changes it. -/
inductive Upkeep
  | append (header : Header) (firstSeen : UInt64)
  | forget (key : BlockHash)
  deriving DecidableEq

/-- The store after a call, also if it failed. -/
def Upkeep.next : Upkeep → MemoryStore → MemoryStore
  | .append header firstSeen, store => store.appended header firstSeen
  | .forget key, store => (MemoryStore.forget key).final store

/-- The store after calls on an empty one, the earliest first. -/
def upkept (calls : List Upkeep) : MemoryStore :=
  calls.foldl (fun store call => call.next store) .empty

/-- The parent of a header is stored, and the work up to there and of the header does not fit. -/
def Overflows (store : MemoryStore) (header : Header) : Prop :=
  header.isGenesis = false
  ∧ ∃ parent,
      store.headers.get? header.prev = some parent
      ∧ Work.capacity ≤ parent.chainWork.toNat + header.work.toNat

/-- The work of a header did not fit when it was appended. -/
def Overflowed (calls : List Upkeep) : Prop :=
  ∃ past header firstSeen,
    past ++ [.append header firstSeen] <+: calls ∧ (upkept past).Overflows header

/-- How an append ends: with a refusal that changes nothing, with an overflow that poisons the store,
or with the header under its hash.
-/
inductive Attempt (header : Header) (firstSeen : UInt64) (store : MemoryStore)
    : EStateM.Result AppendFailure MemoryStore BlockHash → Prop
  | poisoned (poisoned : store.poisoned = true)
    : Attempt header firstSeen store (.error (.refused .poisoned) store)
  | unknown (healthy : store.poisoned = false) (later : header.isGenesis = false)
    (absent : store.headers.get? header.prev = none)
    : Attempt header firstSeen store (.error (.refused (.parentNotStored header.prev)) store)
  | overflow (healthy : store.poisoned = false) (overflows : store.Overflows header)
    : Attempt header firstSeen store (.error .workOverflow { store with poisoned := true })
  | stored {entry : KnownHeader} (healthy : store.poisoned = false)
    (known : header.isGenesis = false → ∃ parent, store.headers.get? header.prev = some parent)
    (fits : ¬ store.Overflows header)
    (same : entry.header = header) (seen : entry.firstSeen = firstSeen)
    : Attempt header firstSeen store
        (.ok header.hash { store with headers := store.headers.put header.hash entry })

theorem append_attempt (header : Header) (firstSeen : UInt64) (store : MemoryStore)
    : Attempt header firstSeen store (append header firstSeen store) := by
  cases poisoned : store.poisoned with
  | true =>
      obtain ⟨headers, fetches, _⟩ := store
      cases poisoned
      have refused : append header firstSeen ⟨headers, fetches, true⟩
          = .error (.refused .poisoned) ⟨headers, fetches, true⟩ := by
        rw [append]
        cases header.isGenesis <;> rfl
      exact refused ▸ .poisoned rfl
  | false =>
      have read : orRefuse read store = .ok store.headers store := by
        rw [orRefuse, MemoryStore.read, poisoned]
        rfl
      have put (entry : KnownHeader)
          : orRefuse (put entry) store
            = .ok entry.header.hash
                { store with headers := store.headers.put entry.header.hash entry } := by
        rw [orRefuse, put_eq poisoned]
      rw [append]
      cases first : header.isGenesis with
      | true =>
          rw [if_pos rfl, put]
          refine .stored poisoned ?_ ?_ rfl rfl
          · intro later
            rw [first] at later
            cases later
          · intro overflows
            cases first.symm.trans overflows.1
      | false =>
          rw [if_neg Bool.false_ne_true]
          simp only [bind, EStateM.bind, read]
          cases found : store.headers.get? header.prev with
          | none => exact .unknown poisoned first found
          | some parent =>
              dsimp only
              rw [KnownHeader.child?]
              cases sum : parent.chainWork.add? header.work with
              | none =>
                  exact .overflow poisoned ⟨first, parent, found, Work.add?_eq_none_iff.mp sum⟩
              | some total =>
                  rw [Option.map_some]
                  dsimp only
                  rw [put]
                  refine .stored poisoned (fun _ => ⟨parent, found⟩) ?_ rfl rfl
                  intro overflows
                  obtain ⟨_, other, found', exceeds⟩ := overflows
                  rw [found] at found'
                  cases found'
                  rw [Work.add?_eq_none_iff.mpr exceeds] at sum
                  cases sum

variable {header : Header} {firstSeen : UInt64} {store : MemoryStore}

/-- The entries after an append are those before, with a new one of the header if there is room for
its work.
-/
theorem headers_appended (header : Header) (firstSeen : UInt64) (store : MemoryStore)
    : (store.appended header firstSeen).headers = store.headers
      ∨ ∃ entry,
          entry.header = header
          ∧ entry.firstSeen = firstSeen
          ∧ (store.appended header firstSeen).headers = store.headers.put header.hash entry := by
  have attempt := append_attempt header firstSeen store
  rw [appended]
  generalize append header firstSeen store = result at attempt ⊢
  cases attempt with
  | poisoned | unknown | overflow => exact .inl rfl
  | stored _ _ _ same seen => exact .inr ⟨_, same, seen, rfl⟩

/-- A store is poisoned after an append if it was before or if the work overflows. -/
theorem poisoned_appended_iff
    : (store.appended header firstSeen).poisoned = true
      ↔ store.poisoned = true ∨ store.Overflows header := by
  have attempt := append_attempt header firstSeen store
  rw [appended]
  generalize append header firstSeen store = result at attempt ⊢
  cases attempt with
  | poisoned poisoned => exact iff_of_true poisoned (.inl poisoned)
  | overflow _ overflows => exact iff_of_true rfl (.inr overflows)
  | unknown _ _ absent =>
      refine (or_iff_left ?_).symm
      intro overflows
      obtain ⟨_, parent, found, _⟩ := overflows
      rw [absent] at found
      cases found
  | stored _ _ fits => exact (or_iff_left fits).symm

/-- An append fails exactly when the store is poisoned, when the header has a predecessor that is
not stored, or when the work overflows.
-/
theorem append_fails_iff
    : (∃ failure after, append header firstSeen store = .error failure after)
      ↔ (header.isGenesis = false ∧ store.headers.get? header.prev = none)
        ∨ store.Overflows header
        ∨ store.poisoned = true := by
  have attempt := append_attempt header firstSeen store
  generalize append header firstSeen store = result at attempt ⊢
  cases attempt with
  | poisoned poisoned => exact iff_of_true ⟨_, _, rfl⟩ (.inr (.inr poisoned))
  | unknown _ later absent => exact iff_of_true ⟨_, _, rfl⟩ (.inl ⟨later, absent⟩)
  | overflow _ overflows => exact iff_of_true ⟨_, _, rfl⟩ (.inr (.inl overflows))
  | stored healthy known fits =>
      refine iff_of_false ?_ ?_
      · rintro ⟨_, _, failed⟩
        cases failed
      · rintro (⟨later, absent⟩ | overflows | poisoned)
        · obtain ⟨parent, found⟩ := known later
          rw [absent] at found
          cases found
        · exact fits overflows
        · rw [healthy] at poisoned
          cases poisoned

theorem headers_of_append_fails {failure : AppendFailure} {after : MemoryStore}
    (failed : append header firstSeen store = .error failure after)
    : after.headers = store.headers := by
  have attempt := append_attempt header firstSeen store
  rw [failed] at attempt
  cases attempt <;> rfl

/-- An append that succeeds has filed the header under its hash and left the other entries alone. -/
theorem stored_of_append {hash : BlockHash} {after : MemoryStore}
    (done : append header firstSeen store = .ok hash after)
    : hash = header.hash
      ∧ ∃ entry,
          entry.header = header
          ∧ entry.firstSeen = firstSeen
          ∧ ∀ key,
              after.headers.get? key
                = if key = header.hash then some entry else store.headers.get? key := by
  have attempt := append_attempt header firstSeen store
  rw [done] at attempt
  cases attempt with
  | stored _ _ _ same seen =>
      exact ⟨rfl, _, same, seen, fun key => KeyedTable.get?_put _ _ key _⟩

theorem final_forget (key : BlockHash) (store : MemoryStore)
    : (forget key).final store
      = if store.poisoned then store else { store with headers := store.headers.erase key } := by
  obtain ⟨headers, fetches, poisoned⟩ := store
  cases poisoned <;> rfl

theorem poisoned_forget (key : BlockHash) (store : MemoryStore)
    : ((forget key).final store).poisoned = store.poisoned := by
  rw [final_forget]
  split <;> rfl

theorem upkept_append (past : List Upkeep) (call : Upkeep)
    : upkept (past ++ [call]) = call.next (upkept past) := by
  rw [upkept, List.foldl_append]
  rfl

/-- A store is poisoned exactly when the work of a header once did not fit, by induction on the
calls: nothing else poisons it, and nothing heals it.
-/
theorem poisoned_upkept_iff (calls : List Upkeep)
    : (upkept calls).poisoned = true ↔ Overflowed calls := by
  have earlier {past : List Upkeep} {call : Upkeep} (overflowed : Overflowed past)
      : Overflowed (past ++ [call]) := by
    obtain ⟨before, header, firstSeen, start, overflows⟩ := overflowed
    exact ⟨before, header, firstSeen, start.trans (List.prefix_append past [call]), overflows⟩
  induction calls using List.reverseRecOn with
  | nil =>
      refine iff_of_false Bool.false_ne_true ?_
      rintro ⟨past, header, firstSeen, start, _⟩
      exact List.append_ne_nil_of_right_ne_nil past (List.cons_ne_nil _ _)
        (List.prefix_nil.mp start)
  | append_singleton past call ih =>
      have last {before : List Upkeep} {header : Header} {firstSeen : UInt64}
          (start : before ++ [.append header firstSeen] <+: past ++ [call])
          : before ++ [.append header firstSeen] <+: past
            ∨ (before = past ∧ call = .append header firstSeen) := by
        rcases List.prefix_concat_iff.mp start with whole | start
        · obtain ⟨same, last⟩ := List.append_inj' whole rfl
          exact .inr ⟨same, (List.cons.inj last).1.symm⟩
        · exact .inl start
      rw [upkept_append]
      cases call with
      | append header firstSeen =>
          refine poisoned_appended_iff.trans ((or_congr_left ih).trans ?_)
          constructor
          · rintro (overflowed | overflows)
            · exact earlier overflowed
            · exact ⟨past, header, firstSeen, List.prefix_rfl, overflows⟩
          · rintro ⟨before, header', firstSeen', start, overflows⟩
            rcases last start with start | ⟨rfl, same⟩
            · exact .inl ⟨before, header', firstSeen', start, overflows⟩
            · cases same
              exact .inr overflows
      | forget key =>
          rw [Upkeep.next, poisoned_forget]
          refine ih.trans ?_
          constructor
          · exact earlier
          · rintro ⟨before, header', firstSeen', start, overflows⟩
            rcases last start with start | ⟨_, same⟩
            · exact ⟨before, header', firstSeen', start, overflows⟩
            · cases same

end MemoryStore

-----------------------------------------------------------------------------------------
-- Lineages
-----------------------------------------------------------------------------------------

namespace ChainView

variable {given : Header → Prop} {key : BlockHash} {line : List Header}

theorem Chained.exists_lineage {height : Option Height} {work : Nat}
    (chained : Chained given key height work)
    : ∃ line, Header.Lineage given key line := by
  induction chained with
  | genesis own member first => exact ⟨_, .last own member first⟩
  | child own member later _ ih =>
      obtain ⟨line, above⟩ := ih
      exact ⟨_, .cons own member later above⟩

/-- Heights count the headers of a lineage and works sum over them, by induction along it. -/
theorem chained_of_lineage (lineage : Header.Lineage given key line)
    : Chained given key (Height.counted? (line.length - 1)) (Header.totalWork line) := by
  induction lineage with
  | last own member first => exact .genesis own member first
  | @cons key header rest own member later above ih =>
      have chained := Chained.child own member later ih
      have longer : rest.length - 1 + 1 = rest.length := by
        obtain ⟨_, first, _⟩ := above.exists_head?
        cases rest with
        | nil => cases first
        | cons => rfl
      rw [← Height.counted?_succ, longer, Nat.add_comm] at chained
      exact chained

/-- What a store has of a given header is its place in the chain of these headers. -/
theorem Distinct.chained_of_enters {entry : KnownHeader} (distinct : Distinct given)
    (enters : (spanned given).Enters key entry)
    : Chained given key entry.height entry.chainWork.toNat := by
  obtain ⟨⟨_, height, work, chained⟩, own, sameHeight, sameWork⟩ := enters
  rw [own] at chained
  obtain ⟨rfl, rfl⟩ := distinct.spanned_eq chained
  rw [sameHeight, sameWork]
  exact chained

/-- Entries under one key agree in everything that does not depend on when they were made. -/
theorem Distinct.enters_unique {entry entry' : KnownHeader} (distinct : Distinct given)
    (enters : (spanned given).Enters key entry) (enters' : (spanned given).Enters key entry')
    : entry'.header = entry.header ∧ entry'.height = entry.height
      ∧ entry'.chainWork = entry.chainWork := by
  obtain ⟨covered, own, height, work⟩ := enters
  obtain ⟨covered', own', height', work'⟩ := enters'
  exact ⟨distinct.injective _ _ covered'.1 covered.1 (own'.trans own.symm), height'.trans height.symm,
    Work.toNat_inj.mp (work'.trans work.symm)⟩

/-- Every call keeps the entries in their places. Nothing is asked of the entries that are left when
others are forgotten.
-/
theorem Distinct.holds_upkept (distinct : Distinct given) (calls : List MemoryStore.Upkeep)
    (members : ∀ header firstSeen, .append header firstSeen ∈ calls → given header)
    : MemoryStore.Holds (spanned given).Enters (MemoryStore.upkept calls) := by
  induction calls using List.reverseRecOn with
  | nil =>
      intro key entry found
      cases found
  | append_singleton past call ih =>
      have held := ih fun header firstSeen among =>
        members header firstSeen (List.mem_append_left _ among)
      rw [MemoryStore.upkept_append]
      cases call with
      | append header firstSeen =>
          have member := members header firstSeen (List.mem_append_right _ List.mem_cons_self)
          exact distinct.lawful.enters_appended (spans_spanned given) member held firstSeen
      | forget gone =>
          rw [MemoryStore.Upkeep.next, MemoryStore.final_forget]
          split
          · exact held
          · intro key entry found
            rw [KeyedTable.get?_erase] at found
            split at found
            · cases found
            · exact held key entry found

/-- A header that is stored fits: the sum that its parent leads to is the work it is stored with. -/
theorem Distinct.not_overflows {store : MemoryStore} {header : Header} {entry : KnownHeader}
    (distinct : Distinct given) (member : given header)
    (held : MemoryStore.Holds (spanned given).Enters store)
    (stored : store.headers.get? header.hash = some entry)
    : ¬ store.Overflows header := by
  intro ⟨later, parent, found, exceeds⟩
  obtain ⟨covered, own, _, work⟩ := held header.hash entry stored
  obtain ⟨_, _, _, workAbove⟩ := held header.prev parent found
  obtain rfl := distinct.injective _ _ covered.1 member own
  have sum := (distinct.lawful.child entry.header covered later).2
  have bound := entry.chainWork.toNat_lt
  rw [work, sum, ← workAbove] at bound
  exact absurd bound (Nat.not_lt.mpr exceeds)

end ChainView

-----------------------------------------------------------------------------------------
-- The chain view of a store
-----------------------------------------------------------------------------------------

namespace MemoryStore

/-- After the given calls, every entry is filed under the hash of its header, and its height and its
work are those that the lineage of this hash counts and sums up to. There is one such lineage,
so other calls lead to the same. To append a stored header again changes at most its time. An append
fails for the reasons listed and no other, and leaves the entries as they are then; else it files the
header.
-/
structure OneChain (given : Header → Prop) (calls : List Upkeep) : Prop where
  filed : ∀ key entry, (upkept calls).headers.get? key = some entry → entry.header.hash = key
  counted
    : ∀ key entry,
        (upkept calls).headers.get? key = some entry
        → ∃ line,
            Header.Lineage given key line
            ∧ line.head? = some entry.header
            ∧ entry.height = Height.counted? (line.length - 1)
            ∧ entry.chainWork.toNat = Header.totalWork line
  single
    : ∀ key line line',
        Header.Lineage given key line
        → Header.Lineage given key line'
        → line = line'
  orderless
    : ∀ others key entry entry',
        (∀ header firstSeen, .append header firstSeen ∈ others → given header)
        → (upkept calls).headers.get? key = some entry
        → (upkept others).headers.get? key = some entry'
        → entry'.header = entry.header
          ∧ entry'.height = entry.height
          ∧ entry'.chainWork = entry.chainWork
  renewed
    : ∀ header firstSeen entry,
        given header
        → (upkept calls).headers.get? header.hash = some entry
        → let after := (upkept calls).appended header firstSeen
          after.poisoned = (upkept calls).poisoned
          ∧ (after.headers.get? header.hash = some entry
              ∨ after.headers.get? header.hash = some { entry with firstSeen })
          ∧ ∀ key,
              key ≠ header.hash
              → after.headers.get? key = (upkept calls).headers.get? key
  fails
    : ∀ header firstSeen,
        (∃ failure after, append header firstSeen (upkept calls) = .error failure after)
        ↔ (header.isGenesis = false ∧ (upkept calls).headers.get? header.prev = none)
          ∨ (upkept calls).Overflows header
          ∨ Overflowed calls
  unchanged
    : ∀ header firstSeen failure after,
        append header firstSeen (upkept calls) = .error failure after
        → after.headers = (upkept calls).headers
  accepted
    : ∀ header firstSeen hash after,
        append header firstSeen (upkept calls) = .ok hash after
        → hash = header.hash
          ∧ ∃ entry,
              entry.header = header
              ∧ entry.firstSeen = firstSeen
              ∧ ∀ key,
                  after.headers.get? key
                    = if key = header.hash then some entry
                      else (upkept calls).headers.get? key

/-- A memory store has one consistent view of the chain after any calls, the places that headers have
in it outliving the entries.
-/
theorem upkept_oneChain {given : Header → Prop} {calls : List Upkeep}
    (distinct : ChainView.Distinct given)
    (members : ∀ header firstSeen, .append header firstSeen ∈ calls → given header)
    : OneChain given calls := by
  have held := distinct.holds_upkept calls members
  refine
    { filed := fun key entry found => (held key entry found).2.1
      counted := ?_
      single := fun _ _ _ => Header.Line.lineage_unique distinct.injective
      orderless := ?_
      renewed := ?_
      fails := ?_
      unchanged := fun _ _ _ _ => headers_of_append_fails
      accepted := fun _ _ _ _ => stored_of_append }
  · intro key entry found
    have enters := held key entry found
    have chained := distinct.chained_of_enters enters
    obtain ⟨line, lineage⟩ := chained.exists_lineage
    obtain ⟨height, work⟩ :=
      chained.unique distinct.injective (ChainView.chained_of_lineage lineage)
    obtain ⟨header, first, own, member⟩ := lineage.exists_head?
    have same := distinct.injective _ _ member enters.1.1 (own.trans enters.2.1.symm)
    exact ⟨line, lineage, same ▸ first, height, work⟩
  · intro others key entry entry' members' found found'
    have held' := distinct.holds_upkept others members'
    exact distinct.enters_unique (held key entry found) (held' key entry' found')
  · intro header firstSeen entry member found
    refine ⟨?_, ?_⟩
    · rw [Bool.eq_iff_iff, poisoned_appended_iff]
      exact or_iff_left (distinct.not_overflows member held found)
    · have held' := distinct.lawful.enters_appended (ChainView.spans_spanned given) member held
        firstSeen
      rcases headers_appended header firstSeen (upkept calls) with same | ⟨new, _, seen, put⟩
      · rw [same]
        exact ⟨.inl found, fun _ _ => rfl⟩
      · have found' : ((upkept calls).appended header firstSeen).headers.get? header.hash
            = some new := by
          rw [put, KeyedTable.get?_put, if_pos rfl]
        obtain ⟨sameHeader, height, work⟩ :=
          distinct.enters_unique (held _ entry found) (held' _ new found')
        have renewed : new = { entry with firstSeen } := by
          cases new
          cases sameHeader
          cases height
          cases work
          cases seen
          rfl
        refine ⟨.inr (renewed ▸ found'), ?_⟩
        intro key different
        rw [put, KeyedTable.get?_put, if_neg different]
  · intro header firstSeen
    rw [append_fails_iff, poisoned_upkept_iff]

end MemoryStore

/-- The root comes, gets a child, goes and comes back, with an append that fails in between, and the
child is appended again.
-/
def Fork.revised : List MemoryStore.Upkeep :=
  [.append root 5, .append left 6, .forget root.hash, .append right 7, .append root 9,
    .append left 8]

theorem Fork.oneChain_revised
    : (∀ header firstSeen, .append header firstSeen ∈ revised → view.covers header)
      ∧ (MemoryStore.upkept revised).headers.get? root.hash = some { rootEntry with firstSeen := 9 }
      ∧ (MemoryStore.upkept revised).headers.get? left.hash = some { leftEntry with firstSeen := 8 }
      ∧ (MemoryStore.upkept revised).headers.get? right.hash = none
      ∧ MemoryStore.OneChain view.covers revised := by
  have members : ∀ header firstSeen, .append header firstSeen ∈ revised → view.covers header := by
    intro header firstSeen among
    simp only [revised, List.mem_cons, List.not_mem_nil, MemoryStore.Upkeep.append.injEq,
      reduceCtorEq, false_or, or_false] at among
    rcases among with ⟨rfl, _⟩ | ⟨rfl, _⟩ | ⟨rfl, _⟩ | ⟨rfl, _⟩ | ⟨rfl, _⟩
    · exact .inl rfl
    · exact .inr (.inl rfl)
    · exact .inr (.inr rfl)
    · exact .inl rfl
    · exact .inr (.inl rfl)
  have content
      : (MemoryStore.upkept revised).headers.get? root.hash = some { rootEntry with firstSeen := 9 }
        ∧ (MemoryStore.upkept revised).headers.get? left.hash
            = some { leftEntry with firstSeen := 8 }
        ∧ (MemoryStore.upkept revised).headers.get? right.hash = none := by
    decide +kernel
  exact ⟨members, content.1, content.2.1, content.2.2,
    MemoryStore.upkept_oneChain distinct_view members⟩

end HeaderChain
