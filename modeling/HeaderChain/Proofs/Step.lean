import HeaderChain.Proofs.Outcome
import HeaderChain.Proofs.Residence
import Mathlib.Logic.Relation

/-! The steps that operations are made of: reads of the store and changes of the resident part,
each with everything that holds when it is taken. Every operation, also one that fails, is a
sequence of its steps.
-/

namespace HeaderChain

open Relation (ReflTransGen)

variable {σ : Type} [HeaderSource σ]

/-- Where the height and the work of a hydrated header come from, given the resident record of its
parent and the store before and after the reads.
-/
inductive Derived (key : BlockHash) (work : Work)
    : Option Record → σ → Option Height → Work → σ → Prop
  | parent {parent : Record} {store : σ} {height : Height} {total : Work}
    (known : parent.childHeight? = some height) (sum : parent.work.add? work = some total)
    : Derived key work (some parent) store (some height) total store
  | parentWork {parent : Record} {store after : σ} {height : Option Height} {total : Work}
    (unknown : parent.childHeight? = none)
    (asked : HeaderSource.heightFor key store = .ok height after)
    (sum : parent.work.add? work = some total)
    : Derived key work (some parent) store height total after
  | stored {store between after : σ} {height : Option Height} {total : Work}
    (asked : HeaderSource.heightFor key store = .ok height between)
    (answered : HeaderSource.workThrough key between = .ok (some total) after)
    : Derived key work none store height total after

/-- The headers that an operation may add, with height, baseline and time: what the caller of an
insertion states, or what follows from the resident parent of an extension.
-/
inductive Operation.Offers
    : Operation → Resident → Header → Option Height → Work → UInt64 → Prop
  | stated {resident header height baseline firstSeen}
    : Offers (.insert header height baseline firstSeen) resident header height baseline firstSeen
  | first {resident header firstSeen} (genesis : header.isGenesis = true)
    : Offers (.extend header firstSeen) resident header (some 0) .zero firstSeen
  | child {resident header firstSeen parent} (later : header.isGenesis = false)
    (found : resident.get? header.prev = some parent)
    : Offers (.extend header firstSeen) resident header parent.childHeight? parent.work firstSeen

/-- A step of an operation: a read that changes only the store, or one change of the resident part
together with the reads that led to it.
-/
inductive Index.Step (operation : Operation) : Index σ → Index σ → Prop
  | fetched {index : Index σ} {after : σ} (key : BlockHash)
    (final : (HeaderSource.fetch key).final index.store = after)
    : Step operation index { index with store := after }
  | heightAsked {index : Index σ} {after : σ} (key : BlockHash)
    (final : (HeaderSource.heightFor key).final index.store = after)
    : Step operation index { index with store := after }
  | workAsked {index : Index σ} {after : σ} (key : BlockHash)
    (final : (HeaderSource.workThrough key).final index.store = after)
    : Step operation index { index with store := after }
  | hydrated {index : Index σ} {key header firstSeen height total} {served last : σ}
    (absent : index.resident.get? key = none)
    (answered : HeaderSource.fetch key index.store = .ok (some ⟨header, firstSeen⟩) served)
    (derived
      : Derived key (HeaderSource.workOf served header) (index.resident.get? header.prev) served
          height total last)
    : Step operation index
        ({ index with store := last }.changed
          (.hydrated key (.unlinked header height total firstSeen)))
  | indexed {index : Index σ} {header height baseline firstSeen total}
    (offered : operation.Offers index.resident header height baseline firstSeen)
    (absent : index.resident.get? header.hash = none)
    (sum : baseline.add? (HeaderSource.workOf index.store header) = some total)
    : Step operation index (index.changed (.indexed (.unlinked header height total firstSeen)))
  | removed {index : Index σ} {key record} (asked : operation = .remove key)
    (found : index.resident.get? key = some record)
    : Step operation index (index.changed (.removed key))
  | linked {index : Index σ} {child below above}
    (found : index.resident.get? child = some below)
    (later : below.header.isGenesis = false)
    (parent : index.resident.get? below.prev = some above)
    : Step operation index (index.changed (.linked child below.prev))
  | trimmed {index} (asked : operation = .evict) : Step operation index (index.changed .trimmed)

/-- A record that a step of an operation can bring in, with its key. -/
inductive Index.Admits (operation : Operation) (before : Index σ) : BlockHash → Record → Prop
  | hydrated {key header firstSeen height total} {served last : σ}
    (answered : HeaderSource.fetch key before.store = .ok (some ⟨header, firstSeen⟩) served)
    (derived
      : Derived key (HeaderSource.workOf served header) (before.resident.get? header.prev) served
          height total last)
    : Admits operation before key (.unlinked header height total firstSeen)
  | indexed {header height baseline firstSeen total}
    (offered : operation.Offers before.resident header height baseline firstSeen)
    (sum : baseline.add? (HeaderSource.workOf before.store header) = some total)
    : Admits operation before header.hash (.unlinked header height total firstSeen)

/-- What is resident after a step was resident before, apart from links, or was brought in by it. -/
theorem Index.Step.origin {operation : Operation} {before after : Index σ} {key : BlockHash}
    {entry : Record} (step : Index.Step operation before after)
    (found : after.resident.unlinked? key = some entry)
    : before.resident.unlinked? key = some entry ∨ Index.Admits operation before key entry := by
  have changed (change : Change)
      (admits
        : ∀ record,
            change.entry? = some (key, record)
            → Index.Admits operation before key record.withoutLinks)
      (held : (before.resident.apply change).unlinked? key = some entry)
      : before.resident.unlinked? key = some entry ∨ Index.Admits operation before key entry := by
    rcases Resident.unlinked?_apply held with ⟨record, new, rfl⟩ | kept
    · exact .inr (admits record new)
    · exact .inl kept
  cases step with
  | fetched => exact .inl found
  | heightAsked => exact .inl found
  | workAsked => exact .inl found
  | @hydrated other header firstSeen height total served last _ answered derived =>
      refine changed (.hydrated other (.unlinked header height total firstSeen)) ?_ found
      intro record new
      cases new
      exact .hydrated answered derived
  | @indexed header height baseline firstSeen total offered _ sum =>
      refine changed (.indexed (.unlinked header height total firstSeen)) ?_ found
      intro record new
      cases new
      exact .indexed offered sum
  | @removed other => exact changed (.removed other) (fun _ new => nomatch new) found
  | @linked child below => exact changed (.linked child below.prev) (fun _ new => nomatch new) found
  | trimmed => exact changed .trimmed (fun _ new => nomatch new) found

/-- A sequence of steps of one operation. -/
abbrev Index.Steps (operation : Operation) : Index σ → Index σ → Prop :=
  ReflTransGen (Index.Step operation)

/-- The index after a child has remembered the link to its parent, if it is still resident. -/
def Index.joined (index : Index σ) (child parent : BlockHash) : Index σ :=
  if index.resident.contains child then index.changed (.linked child parent) else index

omit [HeaderSource σ] in
@[simp] theorem Index.store_joined (index : Index σ) (child parent : BlockHash)
    : (index.joined child parent).store = index.store := by
  rw [joined]
  split <;> rfl

omit [HeaderSource σ] in
@[simp] theorem Index.config_joined (index : Index σ) (child parent : BlockHash)
    : (index.joined child parent).resident.config = index.resident.config := by
  rw [joined]
  split <;> rfl

omit [HeaderSource σ] in
@[simp] theorem Index.unlinked?_joined (index : Index σ) (child parent key : BlockHash)
    : (index.joined child parent).resident.unlinked? key = index.resident.unlinked? key := by
  rw [joined]
  split
  · exact Resident.unlinked?_link child parent key
  · rfl

omit [HeaderSource σ] in
/-- A resident record is resident after a link was remembered, the same apart from its links. -/
theorem Index.exists_get?_joined {index : Index σ} {key : BlockHash} {record : Record}
    (found : index.resident.get? key = some record) (child parent : BlockHash)
    : ∃ linked,
        (index.joined child parent).resident.get? key = some linked
        ∧ linked.withoutLinks = record.withoutLinks := by
  refine Option.map_eq_some_iff.mp ?_
  rw [← Resident.unlinked?, unlinked?_joined]
  exact Resident.unlinked?_of_get? found

/-- The steps of a lookup are steps of whatever operation it is part of. -/
theorem Index.Steps.widen {key : BlockHash} {before after : Index σ}
    (steps : Index.Steps (.lookup key) before after) (operation : Operation)
    : Index.Steps operation before after := by
  refine ReflTransGen.mono (fun _ _ step => ?_) _ _ steps
  cases step with
  | fetched key final => exact .fetched key final
  | heightAsked key final => exact .heightAsked key final
  | workAsked key final => exact .workAsked key final
  | hydrated absent answered derived => exact .hydrated absent answered derived
  | indexed offered => cases offered
  | removed asked => cases asked
  | linked found later parent => exact .linked found later parent
  | trimmed asked => cases asked

namespace IndexM

variable {index : Index σ}

/-- Height and work are derived from the parent or read from the store. Where they are not, only
reads of the store have happened.
-/
theorem chainPosition_meets (operation : Operation) (key : BlockHash) (work : Work)
    (parent : Option Record)
    : (chainPosition key work parent).Meets index
        (fun answer after =>
          ∃ last, after = { index with store := last }
            ∧ Derived key work parent index.store answer.1 answer.2 last)
        (fun _ after => Index.Steps operation index after) := by
  cases parent with
  | some parent =>
      rw [chainPosition]
      cases known : parent.childHeight? with
      | some height =>
          simp only [meets_bind, meets_pure, meets_sum]
          split
          · next sum => exact ⟨_, rfl, .parent known sum⟩
          · exact .refl
      | none =>
          simp only [meets_bind, meets_ofStore, meets_sum, meets_pure]
          split
          · next asked =>
              split
              · next sum => exact ⟨_, rfl, .parentWork known asked sum⟩
              · exact .single (.heightAsked key (StoreRead.final_of_ok asked))
          · next asked => exact .single (.heightAsked key (StoreRead.final_of_error asked))
  | none =>
      simp only [chainPosition, meets_bind, meets_ofStore]
      split
      · next asked =>
          have first : Index.Step operation index _ :=
            .heightAsked key (StoreRead.final_of_ok asked)
          split
          · next asked' =>
              split
              · exact ⟨_, rfl, .stored asked asked'⟩
              · exact .tail (.single first) (.workAsked key (StoreRead.final_of_ok asked'))
          · next asked' =>
              exact .tail (.single first) (.workAsked key (StoreRead.final_of_error asked'))
      · next asked => exact .single (.heightAsked key (StoreRead.final_of_error asked))

/-- Whether height and work are derived or not, nothing but the store can have changed. It is never
for lack of steps that they are not.
-/
theorem chainPosition_keeps (key : BlockHash) (work : Work) (parent : Option Record)
    : (chainPosition key work parent).Meets index
        (fun _ after => ∃ last, after = { index with store := last })
        (fun failure after =>
          failure ≠ .unfinished ∧ ∃ last, after = { index with store := last }) := by
  cases parent with
  | some parent =>
      rw [chainPosition]
      cases parent.childHeight? with
      | some height =>
          simp only [meets_bind, meets_pure, meets_sum]
          split
          · exact ⟨_, rfl⟩
          · exact ⟨Failure.noConfusion, _, rfl⟩
      | none =>
          simp only [meets_bind, meets_ofStore, meets_sum, meets_pure]
          split
          · split
            · exact ⟨_, rfl⟩
            · exact ⟨Failure.noConfusion, _, rfl⟩
          · exact ⟨Failure.noConfusion, _, rfl⟩
  | none =>
      simp only [chainPosition, meets_bind, meets_ofStore]
      split
      · split
        · split
          · exact ⟨_, rfl⟩
          · exact ⟨Failure.noConfusion, _, rfl⟩
        · exact ⟨Failure.noConfusion, _, rfl⟩
      · exact ⟨Failure.noConfusion, _, rfl⟩

/-- What a lookup that answers has done: it answers what is resident afterwards, a resident record
is answered without further ado, and no other record has entered.
-/
structure LookedUp (key : BlockHash) (before : Index σ) (answer : Option Record) (after : Index σ)
    : Prop where
  steps : Index.Steps (.lookup key) before after
  answered : answer = after.resident.get? key
  resident : ∀ record, before.resident.get? key = some record → after = before
  others
    : ∀ other entry,
        other ≠ key
        → after.resident.unlinked? other = some entry
        → before.resident.unlinked? other = some entry

theorem lookup_meets (key : BlockHash)
    : (lookup key).Meets index (LookedUp key index)
        (fun _ after => Index.Steps (.lookup key) index after) := by
  simp only [lookup, meets_bind, meets_resident]
  split
  · next record found =>
      exact ⟨.refl, found.symm, fun _ _ => rfl, fun _ _ _ => id⟩
  · next absent =>
      simp only [hydrate, meets_bind, meets_ofStore]
      split
      · next answer served asked =>
          have first : Index.Step (.lookup key) index _ :=
            .fetched key (StoreRead.final_of_ok asked)
          split
          · refine ⟨.single first, absent.symm, ?_, fun _ _ _ => id⟩
            intro record found
            rw [absent] at found
            cases found
          · next header firstSeen =>
              simp only [meets_bind, meets_workOf, meets_resident]
              refine (chainPosition_meets (.lookup key) key _ _).mono ?_ ?_
              · intro answer after positioned
                obtain ⟨height, total⟩ := answer
                obtain ⟨last, rfl, derived⟩ := positioned
                refine ⟨.single (.hydrated absent asked derived), rfl, ?_, ?_⟩
                · intro record found
                  rw [absent] at found
                  cases found
                · intro other entry different under
                  have kept := Resident.unlinked?_enter under
                  rwa [if_neg different] at kept
              · intro _ after failed
                exact .trans (.single first) failed
      · next asked => exact .single (.fetched key (StoreRead.final_of_error asked))

/-- A resident record is answered at once, and nothing changes. -/
theorem lookup_of_resident {key : BlockHash} {record : Record}
    (found : index.resident.get? key = some record)
    : lookup key index = .ok (some record) index := by
  simp only [lookup, bind, EStateM.bind, resident, found]
  rfl

/-- A lookup changes nothing but the store, unless it takes the one step that brings in what it
answers. It never fails for lack of steps.
-/
theorem lookup_keeps (key : BlockHash)
    : (lookup key).Meets index
        (fun answer after =>
          (∃ last, after = { index with store := last })
          ∨ (answer.isSome = true ∧ Index.Step (.lookup key) index after))
        (fun failure after =>
          failure ≠ .unfinished ∧ ∃ last, after = { index with store := last }) := by
  simp only [lookup, meets_bind, meets_resident]
  split
  · exact .inl ⟨index.store, rfl⟩
  · next absent =>
      simp only [hydrate, meets_bind, meets_ofStore]
      split
      · next answer served asked =>
          split
          · exact .inl ⟨served, rfl⟩
          · next header firstSeen =>
              simp only [meets_bind, meets_workOf, meets_resident]
              refine ((chainPosition_meets (.lookup key) key _ _).and
                (chainPosition_keeps key _ _)).mono ?_ fun _ _ => And.right
              intro answer after positioned
              obtain ⟨⟨last, rfl, derived⟩, _⟩ := positioned
              let record : Record := .unlinked header answer.1 answer.2 firstSeen
              obtain ⟨entered, stays, _⟩ := Resident.exists_get?_enter_self record absent
              refine .inr ⟨?_, .hydrated absent asked derived⟩
              exact Option.isSome_iff_exists.mpr ⟨entered, stays⟩
      · exact ⟨Failure.noConfusion, _, rfl⟩

/-- The only record that a lookup brings in is the one that was looked for. -/
theorem LookedUp.eq_of_entered {key other : BlockHash} {before after : Index σ}
    {answer : Option Record} (looked : LookedUp key before answer after)
    (absent : before.resident.get? other = none)
    (resident : after.resident.contains other = true)
    : other = key := by
  refine Decidable.byContradiction fun apart => ?_
  obtain ⟨record, under⟩ := Resident.contains_iff.mp resident
  have kept := looked.others other _ apart (Resident.unlinked?_of_get? under)
  rw [Resident.unlinked?_eq_none_iff.mpr absent] at kept
  cases kept

/-- After a key and then another key were looked up, a record that is still resident under the
first is the one that was found, apart from its links.
-/
theorem LookedUp.kept {key other : BlockHash} {before between after : Index σ} {record : Record}
    {answer : Option Record} (first : LookedUp key before (some record) between)
    (second : LookedUp other between answer after)
    (resident : after.resident.contains key = true)
    : ∃ below,
        after.resident.get? key = some below ∧ record.withoutLinks = below.withoutLinks := by
  obtain ⟨below, under⟩ := Resident.contains_iff.mp resident
  refine ⟨below, under, ?_⟩
  by_cases same : key = other
  · subst same
    have unchanged := second.resident record first.answered.symm
    rw [unchanged, ← first.answered] at under
    cases under
    rfl
  · have kept := second.others key _ same (Resident.unlinked?_of_get? under)
    rw [Resident.unlinked?_of_get? first.answered.symm] at kept
    exact Option.some.inj kept

/-- After a key and then the hash before its header were looked up, the link between the two that is
remembered is one between resident records.
-/
theorem LookedUp.joined {key : BlockHash} {before between after : Index σ} {record above : Record}
    (first : LookedUp key before (some record) between)
    (second : LookedUp record.prev between (some above) after)
    (later : record.header.isGenesis = false)
    : after.joined key record.prev = after
      ∨ ∃ below,
          after.resident.get? key = some below
          ∧ below.header.isGenesis = false
          ∧ after.resident.get? below.prev = some above
          ∧ after.joined key record.prev = after.changed (.linked key below.prev) := by
  rw [Index.joined]
  split
  · next resident =>
      obtain ⟨below, under, same⟩ := first.kept second resident
      have header := (Record.withoutLinks_inj.mp same).1
      have prev := Record.prev_eq_of_withoutLinks same
      refine .inr ⟨below, under, header ▸ later, ?_, by rw [prev]⟩
      rw [← prev]
      exact second.answered.symm
  · exact .inl rfl

/-- An insertion is refused for a resident header, or enters the header on the stated work. -/
theorem insert_meets {operation : Operation} {header : Header} {height : Option Height}
    {baseline : Work} {firstSeen : UInt64}
    (offered : operation.Offers index.resident header height baseline firstSeen)
    : (insert header height baseline firstSeen).Meets index
        (fun answer after =>
          (answer = false ∧ after = index)
          ∨ (answer = true
              ∧ ∃ total,
                  after = index.changed (.indexed (.unlinked header height total firstSeen))
                  ∧ Index.Step operation index after))
        (fun _ after => after = index) := by
  simp only [insert, meets_bind, meets_resident]
  split
  · exact .inl ⟨rfl, rfl⟩
  · next fresh =>
      have absent : index.resident.get? header.hash = none :=
        Resident.contains_eq_false_iff.mp (Bool.eq_false_iff.mpr fresh)
      simp only [meets_bind, meets_workOf, meets_sum, meets_commit, meets_pure]
      split
      · next total sum => exact .inr ⟨trivial, total, rfl, .indexed offered absent sum⟩
      · trivial

/-- What an extension has done: it has looked up the parent where there is one, and unless it was
refused it has entered the header on top.
-/
def Extended (header : Header) (firstSeen : UInt64) (before : Index σ) (answer : Bool)
    (after : Index σ)
    : Prop :=
  (answer = false ∧ Index.Steps (.lookup header.prev) before after)
  ∨ (answer = true
      ∧ ∃ between height total,
          Index.Steps (.lookup header.prev) before between
          ∧ after = between.changed (.indexed (.unlinked header height total firstSeen))
          ∧ Index.Step (.extend header firstSeen) between after)

/-- Entering a header after its parent was looked up completes an extension. -/
theorem insert_extended {header : Header} {height : Option Height} {baseline : Work}
    {firstSeen : UInt64} {between : Index σ}
    (steps : Index.Steps (.lookup header.prev) index between)
    (offered
      : (Operation.extend header firstSeen).Offers between.resident header height baseline
          firstSeen)
    : (insert header height baseline firstSeen).Meets between (Extended header firstSeen index)
        (fun _ after => Index.Steps (.lookup header.prev) index after) := by
  refine (insert_meets offered).mono ?_ ?_
  · intro answer after outcome
    rcases outcome with ⟨refused, rfl⟩ | ⟨new, total, same, step⟩
    · exact .inl ⟨refused, steps⟩
    · exact .inr ⟨new, between, height, total, steps, same, step⟩
  · intro failure after same
    exact same ▸ steps

theorem extend_meets (header : Header) (firstSeen : UInt64)
    : (extend header firstSeen).Meets index (Extended header firstSeen index)
        (fun _ after => Index.Steps (.lookup header.prev) index after) := by
  simp only [extend, meets_bind, meets_resident]
  split
  · exact .inl ⟨rfl, .refl⟩
  · split
    · next genesis => exact insert_extended .refl (.first genesis)
    · next later =>
        simp only [meets_bind]
        refine (lookup_meets header.prev).mono ?_ ?_
        · intro answer between looked
          split
          · exact looked.steps
          · next parent =>
              exact insert_extended looked.steps
                (.child (Bool.eq_false_iff.mpr later) looked.answered.symm)
        · intro _ _ steps
          exact steps

/-- A walk to the parent meets what its two lookups lead to. -/
theorem parent_meets_of_lookups {key : BlockHash} {answered : Option Record → Index σ → Prop}
    {failed : Failure → Index σ → Prop}
    (lookups
      : (lookup key).Meets index
          (fun found between =>
            match found with
            | none => answered none between
            | some record =>
                if record.header.isGenesis then answered none between
                else
                  (lookup record.prev).Meets between
                    (fun above after =>
                      match above with
                      | none => answered none after
                      | some _ =>
                          answered ((after.joined key record.prev).resident.get? record.prev)
                            (after.joined key record.prev))
                    failed)
          failed)
    : (parent key).Meets index answered failed := by
  rw [parent, meets_bind]
  refine lookups.mono ?_ fun _ _ => id
  intro found between rest
  cases found with
  | none => exact rest
  | some record =>
      dsimp only at rest ⊢
      split at rest
      · next genesis =>
          rw [if_pos genesis]
          exact rest
      · next later =>
          rw [if_neg later, meets_bind]
          refine rest.mono ?_ fun _ _ => id
          intro above after rest
          cases above with
          | none => exact rest
          | some above =>
              rw [Index.joined] at rest
              simp only [meets_bind, meets_resident]
              split
              · next resident =>
                  rw [if_pos resident] at rest
                  simpa only [meets_bind, meets_commit, meets_resident, meets_pure] using rest
              · next gone =>
                  rw [if_neg gone] at rest
                  simpa only [meets_bind, meets_resident, meets_pure] using rest

/-- The hash that is reached by going from one hash to the next a number of times. -/
def follow (above? : BlockHash → Option BlockHash) : Nat → BlockHash → Option BlockHash
  | 0, current => some current
  | steps + 1, current => (above? current).bind (follow above? steps)

/-- If walks to the parent keep a condition and lead from one hash to the next, a climb keeps it and
follows these hashes, by induction on the number of steps.
-/
theorem climb_meets_of_parents {above? : BlockHash → Option BlockHash} {kept : Index σ → Prop}
    {failed : Failure → Index σ → Prop}
    (parents
      : ∀ key index,
          kept index
          → (parent key).Meets index
              (fun answer after => kept after ∧ answer.map Record.hash = above? key)
              failed)
    (steps : Nat) (key : BlockHash) (start : kept index)
    : (climb steps key).Meets index
        (fun answer after => kept after ∧ answer = follow above? steps key)
        failed := by
  induction steps generalizing index key with
  | zero => exact ⟨start, rfl⟩
  | succ steps ih =>
      rw [climb, meets_bind]
      refine (parents key index start).mono ?_ fun _ _ => id
      intro found between walked
      obtain ⟨kept, above⟩ := walked
      rw [follow, ← above]
      cases found with
      | none => exact ⟨kept, rfl⟩
      | some record => exact ih record.hash kept

/-- Whatever index an action starts from, it takes steps of an operation, also if it fails. -/
def Takes {α : Type} (action : IndexM σ α) (operation : Operation) : Prop :=
  ∀ index,
    action.Meets index (fun _ after => Index.Steps operation index after)
      (fun _ after => Index.Steps operation index after)

section Takes

variable {α β : Type} {operation : Operation}

theorem Takes.pure (answer : α) : (Pure.pure answer : IndexM σ α).Takes operation :=
  fun _ => .refl

theorem Takes.throw (failure : Failure)
    : (MonadExcept.throw failure : IndexM σ α).Takes operation :=
  fun _ => .refl

theorem Takes.sum (left right : Work) : (IndexM.sum left right : IndexM σ Work).Takes operation := by
  intro index
  rw [meets_sum]
  split <;> exact .refl

/-- Steps of a sequence are those of its first part and then those of the second. -/
theorem Takes.bind {action : IndexM σ β} {next : β → IndexM σ α}
    (first : action.Takes operation) (rest : ∀ answer, (next answer).Takes operation)
    : (action >>= next).Takes operation := by
  intro index
  rw [meets_bind]
  refine (first index).mono ?_ fun _ _ => id
  intro answer between steps
  exact (rest answer between).mono (fun _ _ => steps.trans) fun _ _ => steps.trans

theorem takes_lookup (operation : Operation) (key : BlockHash)
    : (lookup key : IndexM σ (Option Record)).Takes operation := by
  intro index
  refine (lookup_meets key).mono ?_ fun _ _ steps => steps.widen operation
  intro found after looked
  exact looked.steps.widen operation

/-- A walk to the parent sets a link between resident records, and the child's header is the one
that named the parent.
-/
theorem takes_parent (operation : Operation) (key : BlockHash)
    : (parent key : IndexM σ (Option Record)).Takes operation := by
  intro index
  refine parent_meets_of_lookups ?_
  refine (lookup_meets key).mono ?_ fun _ _ steps => steps.widen operation
  intro found between looked
  have first := looked.steps.widen operation
  cases found with
  | none => exact first
  | some record =>
      dsimp only
      split
      · exact first
      · next later =>
          refine (lookup_meets record.prev).mono ?_ fun _ _ steps =>
            first.trans (steps.widen operation)
          intro above after looked'
          have second := first.trans (looked'.steps.widen operation)
          cases above with
          | none => exact second
          | some above =>
              dsimp only
              rcases looked.joined looked' (Bool.eq_false_iff.mpr later) with
                same | ⟨below, under, later', parent, same⟩
              · rw [same]
                exact second
              · rw [same]
                exact second.tail (.linked under later' parent)

theorem takes_climb (operation : Operation) (depth : Nat) (key : BlockHash)
    : (climb depth key : IndexM σ (Option BlockHash)).Takes operation := by
  induction depth generalizing key with
  | zero => exact .pure _
  | succ depth ih =>
      rw [climb]
      refine (takes_parent operation key).bind ?_
      intro found
      cases found with
      | none => exact .pure _
      | some above => exact ih above.hash

theorem takes_ancestor (operation : Operation) (key : BlockHash) (depth : Nat)
    : (ancestor key depth : IndexM σ (Option BlockHash)).Takes operation := by
  rw [ancestor]
  refine (takes_lookup operation key).bind ?_
  intro found
  cases found with
  | none => exact .pure _
  | some record => exact takes_climb operation depth record.hash

theorem takes_descend (operation : Operation) (budget : Nat) (left right : Branch)
    : (descend budget left right : IndexM σ (Option BlockHash)).Takes operation := by
  induction budget generalizing left right with
  | zero =>
      rw [descend]
      split
      · exact .pure _
      · split
        · exact .throw _
        · exact .pure _
  | succ budget ih =>
      rw [descend]
      split
      · exact .pure _
      · split
        · dsimp only
          split
          all_goals
            refine (takes_parent operation _).bind ?_
            intro found
            cases found with
            | none => exact .pure _
            | some above => exact ih _ _
        · exact .pure _

theorem takes_findFork (operation : Operation) (budget : Nat) (left right : BlockHash)
    : (findFork budget left right : IndexM σ (Option BlockHash)).Takes operation := by
  rw [findFork]
  refine (takes_lookup operation left).bind ?_
  intro found
  cases found with
  | none => exact .pure _
  | some leftRecord =>
      refine (takes_lookup operation right).bind ?_
      intro found
      cases found with
      | none => exact .pure _
      | some rightRecord => exact takes_descend operation budget _ _

theorem takes_isMoreWork (operation : Operation) (base other : Record) (newHash : BlockHash)
    (newWork : Work)
    : (isMoreWork base other newHash newWork : IndexM σ Bool).Takes operation := by
  rw [isMoreWork]
  refine (Takes.sum base.work newWork).bind ?_
  intro candidate
  split
  · exact .pure _
  · refine (takes_lookup operation newHash).bind ?_
    intro found
    cases found with
    | none => exact .pure _
    | some known => exact .pure _

theorem takes_remove (key : BlockHash)
    : (remove key : IndexM σ (Option Record)).Takes (.remove key) := by
  intro index
  rw [remove, meets_bind, meets_resident]
  split
  · exact .refl
  · next record found => exact .single (.removed rfl found)

theorem takes_insert (header : Header) (height : Option Height) (baseline : Work)
    (firstSeen : UInt64)
    : (insert header height baseline firstSeen : IndexM σ Bool).Takes
        (.insert header height baseline firstSeen) := by
  intro index
  refine (insert_meets .stated).mono ?_ ?_
  · intro answer after outcome
    rcases outcome with ⟨_, rfl⟩ | ⟨_, _, _, step⟩
    · exact .refl
    · exact .single step
  · intro failure after same
    exact same ▸ .refl

theorem takes_extend (header : Header) (firstSeen : UInt64)
    : (extend header firstSeen : IndexM σ Bool).Takes (.extend header firstSeen) := by
  intro index
  refine (extend_meets header firstSeen).mono ?_ fun _ _ steps => steps.widen _
  intro answer after outcome
  rcases outcome with ⟨_, steps⟩ | ⟨_, between, _, _, steps, _, step⟩
  · exact steps.widen _
  · exact (steps.widen _).tail step

end Takes

end IndexM

/-- Every operation takes its own steps, whether it has an answer or fails. -/
theorem Operation.takes_perform (operation : Operation)
    : (operation.perform : IndexM σ Answer).Takes operation := by
  cases operation with
  | insert header height baseline firstSeen =>
      exact (IndexM.takes_insert header height baseline firstSeen).bind fun _ => .pure _
  | extend header firstSeen => exact (IndexM.takes_extend header firstSeen).bind fun _ => .pure _
  | lookup key => exact (IndexM.takes_lookup _ key).bind fun _ => .pure _
  | parent key => exact (IndexM.takes_parent _ key).bind fun _ => .pure _
  | ancestor key depth => exact (IndexM.takes_ancestor _ key _).bind fun _ => .pure _
  | findFork budget left right =>
      exact (IndexM.takes_findFork _ budget left right).bind fun _ => .pure _
  | isMoreWork base other newHash newWork =>
      exact (IndexM.takes_isMoreWork _ base other newHash newWork).bind fun _ => .pure _
  | remove key => exact (IndexM.takes_remove key).bind fun _ => .pure _
  | evict => exact fun _ => .single (.trimmed rfl)

/-- What an operation brings about, whether it has an answer or fails, holds of the index after it. -/
theorem Operation.next_of_meets {operation : Operation} {index : Index σ} {kept : Index σ → Prop}
    (met : operation.perform.Meets index (fun _ after => kept after) (fun _ after => kept after))
    : kept (operation.next index) := by
  rw [IndexM.Meets] at met
  rw [next]
  split at met
  · next performed => rw [performed]; exact met
  · next performed => rw [performed]; exact met

theorem Operation.next_steps (operation : Operation) (index : Index σ)
    : Index.Steps operation index (operation.next index) :=
  next_of_meets (operation.takes_perform index)

end HeaderChain
