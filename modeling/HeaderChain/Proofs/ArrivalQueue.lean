import HeaderChain.Proofs.Journal
import HeaderChain.Proofs.StoredHeaders

/-! Residency as a queue of keys. A record that is created goes to the back, the front is dropped
while the queue is longer than the ceiling, and a removal takes its key out wherever it stands.
Reads of resident records are nothing to the queue. Whatever the store does, what is resident is the
content of this queue, in its order.
-/

namespace HeaderChain

/-- What may happen to the queue: a record is created, by hydration or by being added, or removed.
-/
inductive QueueEvent
  | hydrated (key : BlockHash)
  | added (key : BlockHash)
  | removed (key : BlockHash)
  deriving DecidableEq

/-- What a change of the resident part is to the queue. Links are nothing to it, and neither is a
request to evict what exceeds the ceiling, since nothing does.
-/
def Change.queueEvent? : Change → Option QueueEvent
  | .hydrated key _ => some (.hydrated key)
  | .indexed record => some (.added record.hash)
  | .removed key => some (.removed key)
  | .linked _ _ => none
  | .trimmed => none

namespace ArrivalQueue

/-- Drops keys from the front while there are more than the limit. -/
def trim (limit : Nat) : List BlockHash → List BlockHash
  | [] => []
  | front :: rest => if limit < rest.length + 1 then trim limit rest else front :: rest

/-- Puts a key at the back and drops what exceeds the ceiling, if there is one. -/
def push (ceiling : Option Nat) (queue : List BlockHash) (key : BlockHash) : List BlockHash :=
  match ceiling with
  | none => queue ++ [key]
  | some limit => trim limit (queue ++ [key])

/-- The queue after an event. -/
def next (ceiling : Option Nat) (event : QueueEvent) (queue : List BlockHash) : List BlockHash :=
  match event with
  | .hydrated key => push ceiling queue key
  | .added key => push ceiling queue key
  | .removed key => queue.filter (· ≠ key)

/-- What a course of events, latest first, makes of an empty queue. -/
def replay (ceiling : Option Nat) (events : List QueueEvent) : List BlockHash :=
  events.foldr (next ceiling) []

/-- Trimming keeps as many keys from the back as the limit allows. -/
theorem trim_eq_drop (limit : Nat) (queue : List BlockHash)
    : trim limit queue = queue.drop (queue.length - limit) := by
  induction queue with
  | nil => simp [trim]
  | cons front rest ih =>
      rw [trim, List.length_cons]
      split
      · next longer =>
          have step : rest.length + 1 - limit = (rest.length - limit) + 1 := by omega
          rw [ih, step, List.drop_succ_cons]
      · next fits =>
          have step : rest.length + 1 - limit = 0 := by omega
          rw [step, List.drop_zero]

theorem push_eq_drop (ceiling : Option Nat) (queue : List BlockHash) (key : BlockHash)
    : push ceiling queue key
      = (queue ++ [key]).drop (ceiling.elim 0 fun limit => queue.length + 1 - limit) := by
  cases ceiling with
  | none => simp [push]
  | some limit => simp [push, trim_eq_drop]

/-- The queue is never longer than the limit. -/
theorem length_replay_le {limit : Nat} (events : List QueueEvent)
    : (replay (some limit) events).length ≤ limit := by
  induction events with
  | nil => simp [replay]
  | cons event earlier ih =>
      have pushed (key : BlockHash)
          : (push (some limit) (replay (some limit) earlier) key).length ≤ limit := by
        rw [push_eq_drop, List.length_drop, List.length_append, List.length_singleton]
        simp only [Option.elim_some]
        omega
      change (next (some limit) event (replay (some limit) earlier)).length ≤ limit
      cases event with
      | hydrated key => exact pushed key
      | added key => exact pushed key
      | removed key => exact Nat.le_trans (List.length_filter_le _ _) ih

end ArrivalQueue

theorem Config.ceiling_ne_zero {config : Config} {limit : Nat} (limited : config.ceiling = some limit)
    : limit ≠ 0 := by
  rw [ceiling] at limited
  split at limited
  · cases limited
  · next positive =>
      cases limited
      exact positive

-----------------------------------------------------------------------------------------
-- What is resident
-----------------------------------------------------------------------------------------

theorem Resident.config_replay (config : Config) (journal : List Change)
    : (replay config journal).config = config := by
  induction journal with
  | nil => rfl
  | cons change earlier ih => rw [replay_cons, config_apply, ih]

/-- Entering a record under a new key pushes the key. -/
theorem Resident.keys_enter_eq_push {resident : Resident} {key : BlockHash} (record : Record)
    (absent : resident.get? key = none)
    : (resident.enter key record).table.keys
      = ArrivalQueue.push resident.config.ceiling resident.table.keys key := by
  rw [keys_enter absent, ArrivalQueue.push_eq_drop, length_keys]

theorem Change.Fits.keys_eq_push {resident : Resident} {change : Change} {key : BlockHash}
    {record : Record} (fits : change.Fits resident) (entry : change.entry? = some (key, record))
    : (resident.apply change).table.keys
      = ArrivalQueue.push resident.config.ceiling resident.table.keys key := by
  cases fits with
  | hydrated absent =>
      cases entry
      exact Resident.keys_enter_eq_push _ absent
  | @indexed header height work firstSeen absent =>
      cases entry
      let record : Record := .unlinked header height work firstSeen
      let held : Resident := { resident with tips := resident.tips.insert record }
      have fresh : held.get? record.hash = none := absent
      exact Resident.keys_enter_eq_push record fresh
  | removed => cases entry
  | linked => cases entry
  | trimmed => cases entry

variable {config : Config} {journal past : List Change} {change : Change} {key : BlockHash}

/-- The keys of the resident records are the queue of the events, by induction on the journal. A
request to evict finds nothing, since the queue is never longer than the ceiling.
-/
theorem Recorded.keys_eq_replay (recorded : Recorded config journal)
    : (Resident.replay config journal).table.keys
      = ArrivalQueue.replay config.ceiling (journal.filterMap Change.queueEvent?) := by
  induction recorded with
  | nil => rfl
  | @cons change earlier before fits ih =>
      have settings := Resident.config_replay config earlier
      have created {key : BlockHash} {record : Record}
          (entry : change.entry? = some (key, record))
          : (Resident.replay config (change :: earlier)).table.keys
            = ArrivalQueue.push config.ceiling
                (ArrivalQueue.replay config.ceiling (earlier.filterMap Change.queueEvent?)) key := by
        rw [Resident.replay_cons, fits.keys_eq_push entry, settings, ih]
      rw [List.filterMap_cons]
      cases fits with
      | hydrated => exact created rfl
      | indexed => exact created rfl
      | removed found =>
          rw [Resident.replay_cons, Resident.apply, Resident.keys_remove found, ih]
          rfl
      | linked =>
          rw [Resident.replay_cons, Resident.apply, Resident.keys_link, ih]
          rfl
      | trimmed =>
          have none : (Resident.replay config earlier).excess = 0 := by
            rw [Resident.excess, settings, ← Resident.length_keys, ih]
            cases config.ceiling with
            | none => rfl
            | some limit => exact Nat.sub_eq_zero_of_le (ArrivalQueue.length_replay_le _)
          rw [Resident.replay_cons, Resident.apply, Resident.keys_evictToCeiling, none,
            List.drop_zero, ih]
          rfl

-----------------------------------------------------------------------------------------
-- Coming and going
-----------------------------------------------------------------------------------------

/-- A record that is created is the youngest one afterwards, since a ceiling leaves room for one. -/
theorem Change.Fits.getLast?_keys {resident : Resident} {record : Record}
    (fits : change.Fits resident) (entry : change.entry? = some (key, record))
    : (resident.apply change).table.keys.getLast? = some key := by
  rw [fits.keys_eq_push entry, ArrivalQueue.push_eq_drop, List.getLast?_drop, if_neg,
    List.getLast?_append, List.getLast?_singleton, Option.some_or]
  rw [List.length_append, List.length_singleton]
  cases limited : resident.config.ceiling with
  | none => simp
  | some limit =>
      have room := Config.ceiling_ne_zero limited
      rw [Option.elim_some]
      omega

/-- As long as a record stays, it is the same apart from its links, by induction on the changes in
between.
-/
theorem Recorded.unlinked?_eq {later : List Change} (recorded : Recorded config later)
    (earlier : past <:+ later)
    (stays
      : ∀ between,
          past <:+ between
          → between <:+ later
          → ∃ record, (Resident.replay config between).get? key = some record)
    : (Resident.replay config later).unlinked? key
      = (Resident.replay config past).unlinked? key := by
  induction recorded with
  | nil => rw [List.suffix_nil.mp earlier]
  | @cons change between before fits ih =>
      rcases List.suffix_cons_iff.mp earlier with rfl | inner
      · rfl
      · have kept := ih inner fun other start stop =>
          stays other start (stop.trans (List.suffix_cons change between))
        rw [← kept]
        obtain ⟨record, found⟩ := stays _ earlier List.suffix_rfl
        obtain ⟨record', found'⟩ := stays between inner (List.suffix_cons change between)
        have under := Resident.unlinked?_of_get? found
        rcases Resident.unlinked?_apply under with ⟨new, entry, _⟩ | was
        · rw [fits.absent_of_entry entry] at found'
          cases found'
        · exact under.trans was.symm

-----------------------------------------------------------------------------------------
-- Operations
-----------------------------------------------------------------------------------------

variable {σ : Type}

/-- What has happened to the queue of an index so far, latest first. -/
def Index.events (index : Index σ) : List QueueEvent :=
  index.journal.filterMap Change.queueEvent?

/-- Some records were hydrated, and then the given event has happened, if any. -/
def Index.Logged (event : Option QueueEvent) (before after : Index σ) : Prop :=
  ∃ keys : List BlockHash,
    after.events = event.toList ++ keys.map QueueEvent.hydrated ++ before.events

namespace Index.Logged

variable {before between after : Index σ} {event : Option QueueEvent}

theorem refl (index : Index σ) : Index.Logged none index index :=
  ⟨[], rfl⟩

theorem trans (first : Index.Logged none before between)
    (second : Index.Logged event between after)
    : Index.Logged event before after := by
  obtain ⟨keys, grown⟩ := first
  obtain ⟨keys', grown'⟩ := second
  refine ⟨keys' ++ keys, ?_⟩
  rw [grown', grown]
  simp

end Index.Logged

variable [HeaderSource σ]

/-- The steps of an operation that neither offers a header nor removes one hydrate at most. -/
theorem Index.Steps.logged {operation : Operation} {before after : Index σ}
    (steps : Index.Steps operation before after)
    (idle
      : ∀ resident header height baseline firstSeen,
          ¬ operation.Offers resident header height baseline firstSeen)
    (keeps : ∀ key, operation ≠ .remove key)
    : Index.Logged none before after := by
  induction steps with
  | refl => exact .refl before
  | tail _ step ih =>
      refine ih.trans ?_
      cases step with
      | fetched => exact .refl _
      | heightAsked => exact .refl _
      | workAsked => exact .refl _
      | @hydrated key => exact ⟨[key], rfl⟩
      | indexed offered => exact (idle _ _ _ _ _ offered).elim
      | removed asked => exact (keeps _ asked).elim
      | linked => exact ⟨[], rfl⟩
      | trimmed => exact ⟨[], rfl⟩

end HeaderChain
