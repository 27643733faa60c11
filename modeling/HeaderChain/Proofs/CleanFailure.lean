import HeaderChain.Proofs.Bookkeeping

/-! What failures leave behind. Requests that need at most one hydration leave the resident part as
it was. A walk that fails halfway leaves what its lookups and links up to there have made of it, and
of the candidates exactly those are missing whose records these lookups have evicted.
-/

namespace HeaderChain

variable {σ : Type} [HeaderSource σ] {states : σ → Prop} {config : Config} {index : Index σ}

-----------------------------------------------------------------------------------------
-- Single requests
-----------------------------------------------------------------------------------------

namespace IndexM

theorem lookup_clean (key : BlockHash)
    : (lookup key).Meets index
        (fun answer after => answer = none → after.resident = index.resident)
        (fun _ after => after.resident = index.resident) := by
  refine (lookup_keeps key).mono ?_ ?_
  · intro answer after kept unknown
    rcases kept with ⟨last, rfl⟩ | ⟨isSome, _⟩
    · rfl
    · rw [unknown] at isSome
      cases isSome
  · intro failure after kept
    obtain ⟨_, last, rfl⟩ := kept
    rfl

/-- An insertion is refused only for a resident header, fails only where the work does not fit, and
changes nothing then.
-/
theorem insert_declines (header : Header) (height : Option Height) (baseline : Work)
    (firstSeen : UInt64)
    : (insert header height baseline firstSeen).Meets index
        (fun answer after =>
          answer = false → after = index ∧ index.resident.contains header.hash = true)
        (fun failure after =>
          failure = .workOverflow
          ∧ after = index
          ∧ baseline.add? (HeaderSource.workOf index.store header) = none) := by
  simp only [insert, meets_bind, meets_resident]
  split
  · next resident => exact fun _ => ⟨rfl, resident⟩
  · simp only [meets_bind, meets_workOf, meets_sum]
    split
    · intro refused
      cases refused
    · next overflow => exact ⟨trivial, trivial, overflow⟩

theorem insert_clean (header : Header) (height : Option Height) (baseline : Work)
    (firstSeen : UInt64)
    : (insert header height baseline firstSeen).Meets index
        (fun answer after => answer = false → after.resident = index.resident)
        (fun _ after => after.resident = index.resident) := by
  refine (insert_declines header height baseline firstSeen).mono ?_ ?_
  · intro answer after declined refused
    rw [(declined refused).1]
  · intro failure after declined
    rw [declined.2.1]

theorem isMoreWork_clean (base other : Record) (newHash : BlockHash) (newWork : Work)
    : (isMoreWork base other newHash newWork).Meets index (fun _ _ => True)
        (fun _ after => after.resident = index.resident) := by
  rw [isMoreWork, meets_bind, meets_sum]
  split
  · split
    · trivial
    · rw [meets_bind]
      refine (lookup_clean newHash).mono ?_ fun _ _ => id
      intro known after _
      cases known with
      | none => trivial
      | some known => trivial
  · rfl

/-- An extension that is refused or fails leaves the resident part as it was, with one exception for
each, which leaves the index as it is after the lookup of the parent: a header that names itself as
its parent is refused if that lookup has found it, and work that does not fit on top of the parent's
fails then.
-/
theorem extend_clean (header : Header) (firstSeen : UInt64)
    : (extend header firstSeen).Meets index
        (fun answer after =>
          answer = false
          → after.resident = index.resident
            ∨ (header.prev = header.hash
                ∧ ∃ parent, lookup header.prev index = .ok (some parent) after))
        (fun failure after =>
          (after.resident = index.resident
            ∧ (failure = .workOverflow
              → lookup header.prev index = .error .workOverflow after))
          ∨ (failure = .workOverflow
              ∧ ∃ parent,
                  lookup header.prev index = .ok (some parent) after
                  ∧ parent.work.add? (HeaderSource.workOf after.store header) = none)) := by
  simp only [extend, meets_bind, meets_resident]
  split
  · exact fun _ => .inl rfl
  · next fresh =>
      split
      · refine (insert_declines header (some 0) .zero firstSeen).mono ?_ ?_
        · intro answer after declined refused
          exact .inl (by rw [(declined refused).1])
        · intro failure after declined
          -- on no work at all there is room for any
          have exceeds := Work.add?_eq_none_iff.mp declined.2.2
          have fits := (HeaderSource.workOf index.store header).toNat_lt
          have zero : Work.zero.toNat = 0 := rfl
          omega
      · rw [meets_bind]
        refine (((lookup_clean header.prev).and (lookup_meets header.prev)).and
          (meets_outcome _ index)).mono ?_ ?_
        · intro found between met
          obtain ⟨⟨clean, looked⟩, run⟩ := met
          cases found with
          | none => exact .inl ⟨clean rfl, Failure.noConfusion⟩
          | some parent =>
              refine (insert_declines header parent.childHeight? parent.work firstSeen).mono ?_ ?_
              · intro answer after declined refused
                obtain ⟨rfl, resident⟩ := declined refused
                have absent := Resident.contains_eq_false_iff.mp (Bool.eq_false_iff.mpr fresh)
                exact .inr ⟨(looked.eq_of_entered absent resident).symm, parent, run⟩
              · intro failure after declined
                obtain ⟨overflow, rfl, exceeds⟩ := declined
                exact .inr ⟨overflow, parent, run, exceeds⟩
        · intro failure after met
          obtain ⟨⟨clean, _⟩, run⟩ := met
          exact .inl ⟨clean, fun overflow => overflow ▸ run⟩

/-- A new header that names itself as its parent is refused once the lookup of the parent has found
it.
-/
theorem extend_of_ownParent {header : Header} {parent : Record} {after : Index σ}
    (own : header.prev = header.hash) (later : header.isGenesis = false)
    (fresh : index.contains header.hash = false)
    (found : lookup header.prev index = .ok (some parent) after) (firstSeen : UInt64)
    : extend header firstSeen index = .ok false after := by
  have absent : index.resident.contains header.hash = false := fresh
  have answered := ((lookup_meets header.prev).of_ok found).answered
  have resident : after.resident.contains header.hash = true :=
    Resident.contains_iff.mpr ⟨parent, own ▸ answered.symm⟩
  have met
      : (extend header firstSeen).Meets index
          (fun answer last => answer = false ∧ last = after) (fun _ _ => False) := by
    simp only [extend, meets_bind, meets_resident, absent, later, Bool.false_eq_true, if_false]
    rw [Meets, found]
    simp only [insert, meets_bind, meets_resident, resident, if_true, meets_pure, and_self]
  obtain ⟨_, _, run, rfl, rfl⟩ := met.exists_ok
  exact run

end IndexM

-----------------------------------------------------------------------------------------
-- Walks
-----------------------------------------------------------------------------------------

/-- The keys of one index under which nothing is resident in another. -/
def Index.evicted (before after : Index σ) : List BlockHash :=
  before.resident.table.keys.filter fun key => !after.contains key

omit [HeaderSource σ] in
theorem Index.mem_evicted {before after : Index σ} {key : BlockHash}
    : key ∈ before.evicted after ↔ before.contains key = true ∧ after.contains key = false := by
  rw [evicted, List.mem_filter, ← KeyedTable.contains_iff, Bool.not_eq_true']
  rfl

/-- A sequence of lookups that found what they looked for, and of links from resident records to
their resident parents. The keys of all records that the lookups have evicted are listed.
-/
inductive Index.Walked (before : Index σ) : List BlockHash → Index σ → Prop
  | start : Walked before [] before
  | looked {gone between after key record} (walked : Walked before gone between)
    (found : IndexM.lookup key between = .ok (some record) after)
    : Walked before (gone ++ between.evicted after) after
  | linked {gone between child below above} (walked : Walked before gone between)
    (found : between.resident.get? child = some below)
    (later : below.header.isGenesis = false)
    (parent : between.resident.get? below.prev = some above)
    : Walked before gone (between.changed (.linked child below.prev))

/-- An index that lookups and links have led to. -/
def Index.Trail (before after : Index σ) : Prop :=
  ∃ gone, Index.Walked before gone after

/-- An index with the resident part of one that lookups and links have led to. -/
def Index.Stranded (before after : Index σ) : Prop :=
  ∃ gone between, Index.Walked before gone between ∧ after.resident = between.resident

namespace IndexM

variable {α β : Type}

/-- Wherever an action is on its way, it goes on by lookups and links as long as it finds what it
looks for, and if it fails, this is how far it has come.
-/
def Trails (action : IndexM σ (Option α)) : Prop :=
  ∀ before index,
    Index.Trail before index
    → action.Meets index (fun answer after => answer.isSome = true → Index.Trail before after)
        (fun _ after => Index.Stranded before after)

theorem Trails.pure (answer : Option α) : (Pure.pure answer : IndexM σ (Option α)).Trails :=
  fun _ _ trail _ => trail

theorem Trails.throw (failure : Failure)
    : (MonadExcept.throw failure : IndexM σ (Option α)).Trails := by
  intro before index trail
  obtain ⟨gone, walked⟩ := trail
  exact ⟨gone, index, walked, rfl⟩

/-- What is found is where the rest goes on, and there is no rest if nothing is. -/
theorem Trails.bind {action : IndexM σ (Option β)} {next : Option β → IndexM σ (Option α)}
    (first : action.Trails) (ended : next none = Pure.pure none)
    (rest : ∀ found, (next (some found)).Trails)
    : (action >>= next).Trails := by
  intro before index trail
  rw [meets_bind]
  refine (first before index trail).mono ?_ fun _ _ => id
  intro answer between reached
  cases answer with
  | none =>
      rw [ended]
      intro none
      cases none
  | some found => exact rest found before between (reached rfl)

theorem trails_lookup (key : BlockHash) : (lookup key : IndexM σ (Option Record)).Trails := by
  intro before index trail
  obtain ⟨gone, walked⟩ := trail
  refine ((meets_outcome (lookup key) index).and (lookup_clean key)).mono ?_ ?_
  · intro answer after met isSome
    obtain ⟨record, rfl⟩ := Option.isSome_iff_exists.mp isSome
    exact ⟨_, walked.looked met.1⟩
  · intro failure after met
    exact ⟨gone, index, walked, met.2⟩

theorem trails_parent (key : BlockHash) : (parent key : IndexM σ (Option Record)).Trails := by
  intro before index trail
  have ended {after : Index σ}
      : (none : Option Record).isSome = true → Index.Trail before after := by
    intro none
    cases none
  refine parent_meets_of_lookups ?_
  refine ((lookup_meets key).and (trails_lookup key before index trail)).mono ?_
    fun _ _ => And.right
  intro found between met
  obtain ⟨looked, trail'⟩ := met
  cases found with
  | none => exact ended
  | some record =>
      dsimp only
      split
      · exact ended
      · next later =>
          refine ((lookup_meets record.prev).and
            (trails_lookup record.prev before between (trail' rfl))).mono ?_ fun _ _ => And.right
          intro found' after met'
          obtain ⟨looked', trail''⟩ := met'
          cases found' with
          | none => exact ended
          | some above =>
              intro _
              rcases looked.joined looked' (Bool.eq_false_iff.mpr later) with
                same | ⟨below, under, later', parent, same⟩
              · rw [same]
                exact trail'' rfl
              · rw [same]
                obtain ⟨gone, walked⟩ := trail'' rfl
                exact ⟨gone, walked.linked under later' parent⟩

theorem trails_climb (depth : Nat) (key : BlockHash)
    : (climb depth key : IndexM σ (Option BlockHash)).Trails := by
  induction depth generalizing key with
  | zero => exact .pure _
  | succ depth ih =>
      rw [climb]
      exact (trails_parent key).bind rfl fun above => ih above.hash

theorem trails_ancestor (key : BlockHash) (depth : Nat)
    : (ancestor key depth : IndexM σ (Option BlockHash)).Trails := by
  rw [ancestor]
  exact (trails_lookup key).bind rfl fun record => trails_climb depth record.hash

theorem trails_descend (budget : Nat) (left right : Branch)
    : (descend budget left right : IndexM σ (Option BlockHash)).Trails := by
  induction budget generalizing left right with
  | zero =>
      rw [descend]
      split
      · exact .pure _
      · split
        · exact .throw _
        · exact .pure _
  | succ budget ih =>
      rw [descend]
      split
      · exact .pure _
      · split
        · dsimp only
          split
          · exact (trails_parent left.hash).bind rfl fun above => ih (.at above) right
          · exact (trails_parent right.hash).bind rfl fun above => ih left (.at above)
        · exact .pure _

theorem trails_findFork (budget : Nat) (left right : BlockHash)
    : (findFork budget left right : IndexM σ (Option BlockHash)).Trails := by
  rw [findFork]
  refine (trails_lookup left).bind rfl fun leftRecord => ?_
  exact (trails_lookup right).bind rfl fun rightRecord => trails_descend budget _ _

end IndexM

-----------------------------------------------------------------------------------------
-- Candidates
-----------------------------------------------------------------------------------------

namespace Resident

/-- Every record is filed under its own hash. -/
def Keyed (resident : Resident) : Prop :=
  ∀ key entry, resident.unlinked? key = some entry → entry.hash = key

/-- As long as all records stay, so do their candidacies. -/
theorem Tidy.filter_tips {before after : Resident} (tidy : before.Tidy)
    (stay : ∀ key, before.contains key = true → after.contains key = true)
    : before.tips.members.filter (fun tip => after.contains tip.hash) = before.tips.members := by
  refine List.filter_eq_self.mpr ?_
  intro tip member
  obtain ⟨record, found, _⟩ := tidy.record_of_mem member
  exact stay tip.hash (contains_iff.mpr ⟨record, found⟩)

/-- The oldest record takes its own candidacy with it and no other. -/
theorem Tidy.tips_evictOldest {resident : Resident} (tidy : resident.Tidy) (keyed : resident.Keyed)
    : resident.evictOldest.tips.members
      = resident.tips.members.filter fun tip => resident.evictOldest.contains tip.hash := by
  cases oldest : resident.table.oldest? with
  | none =>
      rw [evictOldest_of_empty oldest]
      exact (tidy.filter_tips fun _ => id).symm
  | some victim =>
      obtain ⟨key, gone⟩ := victim
      have found := KeyedTable.get?_of_oldest? oldest
      have under := unlinked?_of_get? found
      have own : gone.tip.hash = key := keyed key gone.withoutLinks under
      have tips : resident.evictOldest.tips.members = resident.tips.members.erase gone.tip := by
        rw [Resident.evictOldest, oldest]
        rfl
      rw [tips, tidy.nodup.erase_eq_filter]
      refine List.filter_congr ?_
      intro tip member
      obtain ⟨entry, held, same⟩ := tidy.backed tip member
      have stays := unlinked?_evictOldest oldest tip.hash
      by_cases victim : tip.hash = key
      · rw [if_pos victim, unlinked?_eq_none_iff, ← contains_eq_false_iff] at stays
        rw [victim, under] at held
        cases held
        rw [stays, ← same]
        exact bne_self_eq_false _
      · rw [if_neg victim, held] at stays
        obtain ⟨record, found', _⟩ := Option.map_eq_some_iff.mp stays
        have apart : tip ≠ gone.tip := fun equal => victim (equal ▸ own)
        rw [contains_iff.mpr ⟨record, found'⟩]
        exact bne_iff_ne.mpr apart

/-- What evictions take from the candidates are the ones whose records are gone, by induction on the
evictions.
-/
theorem Tidy.tips_evictToCeiling {resident : Resident} (tidy : resident.Tidy)
    (keyed : resident.Keyed)
    : resident.evictToCeiling.tips.members
      = resident.tips.members.filter fun tip => resident.evictToCeiling.contains tip.hash := by
  let property (after : Resident) : Prop :=
    after.Tidy
    ∧ resident.Shrinks after
    ∧ after.tips.members = resident.tips.members.filter fun tip => after.contains tip.hash
  have kept : property resident.evictToCeiling := by
    refine evictToCeiling_keeps property ?_ ⟨tidy, .refl resident, ?_⟩
    · intro after before
      obtain ⟨tidy', shrinks, tips⟩ := before
      have less := shrinks_evictOldest after
      refine ⟨tidy'.evictOldest, shrinks.trans less, ?_⟩
      have keyed' : after.Keyed := fun key entry held => keyed key entry (shrinks key entry held)
      rw [tidy'.tips_evictOldest keyed', tips, List.filter_filter]
      refine List.filter_congr ?_
      intro tip _
      cases stays : after.evictOldest.contains tip.hash with
      | false => rfl
      | true =>
          obtain ⟨record, found⟩ := contains_iff.mp stays
          obtain ⟨old, was, _⟩ :=
            Option.map_eq_some_iff.mp (less tip.hash _ (unlinked?_of_get? found))
          rw [contains_iff.mpr ⟨old, was⟩]
          rfl
    · exact (tidy.filter_tips fun _ => id).symm
  exact kept.2.2

/-- A record that enters under its own hash evicts other candidates with their records. -/
theorem Tidy.tips_enter {resident : Resident} {key : BlockHash} {record : Record}
    (tidy : resident.Tidy) (keyed : resident.Keyed) (absent : resident.get? key = none)
    (new : record.Tidy) (own : record.hash = key)
    : (resident.enter key record).tips.members
      = resident.tips.members.filter fun tip =>
          (resident.enter key record).contains tip.hash := by
  refine (tidy.put absent new tidy.sorted fun _ => .inr).tips_evictToCeiling ?_
  intro other entry held
  rw [unlinked?_put] at held
  split at held
  · next same =>
      cases held
      exact own.trans same.symm
  · exact keyed other entry held

end Resident

/-- The journal is in order and tells what is resident, and all that was hydrated was hydrated under
its own hash.
-/
structure Index.Documented (config : Config) (states : σ → Prop) (index : Index σ) : Prop where
  state : states index.store
  recorded
    : index.resident = Resident.replay config index.journal ∧ Recorded config index.journal
  keyed : ∀ change ∈ index.journal, change.Keyed

namespace Index.Documented

variable {before after : Index σ}

omit [HeaderSource σ] in
theorem tidy (documented : index.Documented config states) : index.resident.Tidy :=
  documented.recorded.1 ▸ documented.recorded.2.tidy

omit [HeaderSource σ] in
theorem own (documented : index.Documented config states) : index.resident.Keyed := by
  intro key entry held
  rw [documented.recorded.1] at held
  exact documented.recorded.2.hash_eq documented.keyed held

theorem step {operation : Operation} (documented : before.Documented config states)
    (wellKeyed : WellKeyed states) (step : Index.Step operation before after)
    : after.Documented config states where
  state := step.states_kept wellKeyed.toReadClosed documented.state
  recorded := step.recorded documented.recorded
  keyed := step.keyed wellKeyed documented.state documented.keyed

theorem steps {operation : Operation} (documented : before.Documented config states)
    (wellKeyed : WellKeyed states) (steps : Index.Steps operation before after)
    : after.Documented config states := by
  induction steps with
  | refl => exact documented
  | tail _ step ih => exact ih.step wellKeyed step

/-- A lookup takes those candidates whose records it evicts. -/
theorem tips_lookup {key : BlockHash} {record : Record}
    (documented : before.Documented config states) (wellKeyed : WellKeyed states)
    (found : IndexM.lookup key before = .ok (some record) after)
    : after.resident.tips.members
      = before.resident.tips.members.filter fun tip => after.contains tip.hash := by
  have idle := documented.tidy.filter_tips (fun _ => id)
  rcases (IndexM.lookup_keeps key).of_ok found with ⟨last, rfl⟩ | ⟨_, step⟩
  · exact idle.symm
  · cases step with
    | fetched => exact idle.symm
    | heightAsked => exact idle.symm
    | workAsked => exact idle.symm
    | @hydrated key header _ height total _ _ absent answered derived =>
        have own : header.hash = key := wellKeyed.served _ _ _ _ _ documented.state answered
        exact documented.tidy.tips_enter documented.own absent
          (Record.tidy_unlinked header height total _) own
    | indexed offered => cases offered
    | removed asked => cases asked
    | @linked child below =>
        refine (documented.tidy.filter_tips ?_).symm
        intro other held
        exact Resident.contains_link.trans held
    | trimmed asked => cases asked

end Index.Documented

namespace Index.Walked

variable {before after : Index σ} {gone : List BlockHash}

/-- Lookups and links are steps of any operation. -/
theorem steps (walked : Index.Walked before gone after) (operation : Operation)
    : Index.Steps operation before after := by
  induction walked with
  | start => exact .refl
  | @looked _ _ _ key _ _ found ih =>
      exact ih.trans (((IndexM.lookup_meets key).of_ok found).steps.widen operation)
  | linked _ found later parent ih => exact ih.tail (.linked found later parent)

/-- On a walk, candidates are lost exactly with their records, by induction on the walk. -/
theorem tips_eq (walked : Index.Walked before gone after) (wellKeyed : WellKeyed states)
    (documented : before.Documented config states)
    : after.resident.tips.members
      = before.resident.tips.members.filter fun tip => tip.hash ∉ gone := by
  induction walked with
  | start => simp
  | @looked gone between after key record walked found ih =>
      have documented' := documented.steps wellKeyed (walked.steps .evict)
      rw [documented'.tips_lookup wellKeyed found, ih, List.filter_filter]
      refine List.filter_congr ?_
      intro tip member
      by_cases lost : tip.hash ∈ gone
      · simp [lost]
      · have candidate : tip ∈ between.resident.tips.members := by
          rw [ih]
          exact List.mem_filter.mpr ⟨member, decide_eq_true lost⟩
        obtain ⟨record, held, _⟩ := documented'.tidy.record_of_mem candidate
        have resident : between.contains tip.hash = true := Resident.contains_iff.mpr ⟨record, held⟩
        simp [lost, Index.mem_evicted, resident]
  | linked _ _ _ _ ih => exact ih

end Index.Walked

-----------------------------------------------------------------------------------------
-- Runs
-----------------------------------------------------------------------------------------

/-- What is resident, links, order and candidates included, is the same after a lookup or a
comparison that fails, after a lookup that finds nothing and after an addition that is refused or
fails. An extension whose own work does not fit leaves the index as it is after the lookup of the
parent. A walk that fails leaves what lookups and links up to there have made of the resident part;
where headers are served under their own hashes, just the candidates are lost whose records these
lookups have evicted, and none is new.

Extensions with a header that names itself as its parent are told apart: where the lookup of the
parent hydrates the header itself, it is refused with this lookup done.
-/
structure Index.FailsCleanly (states : σ → Prop) (index : Index σ) : Prop where
  lookup
    : ∀ key,
        (IndexM.lookup key).Meets index
          (fun answer after => answer = none → after.resident = index.resident)
          (fun _ after => after.resident = index.resident)
  insert
    : ∀ header height baseline firstSeen,
        (IndexM.insert header height baseline firstSeen).Meets index
          (fun answer after => answer = false → after.resident = index.resident)
          (fun _ after => after.resident = index.resident)
  extend
    : ∀ header firstSeen,
        (IndexM.extend header firstSeen).Meets index
          (fun answer after =>
            answer = false → header.prev ≠ header.hash → after.resident = index.resident)
          (fun failure after =>
            (after.resident = index.resident
              ∧ (failure = .workOverflow
                → IndexM.lookup header.prev index = .error .workOverflow after))
            ∨ (failure = .workOverflow
                ∧ ∃ parent,
                    IndexM.lookup header.prev index = .ok (some parent) after
                    ∧ parent.work.add? (HeaderSource.workOf after.store header) = none))
  extendOwnParent
    : ∀ header firstSeen,
        header.prev = header.hash
        → (IndexM.extend header firstSeen).Meets index
            (fun answer after =>
              answer = false
              → after.resident = index.resident
                ∨ ∃ parent, IndexM.lookup header.prev index = .ok (some parent) after)
            (fun _ _ => True)
  refusedOwnParent
    : ∀ header firstSeen parent after,
        header.prev = header.hash
        → header.isGenesis = false
        → index.contains header.hash = false
        → IndexM.lookup header.prev index = .ok (some parent) after
        → IndexM.extend header firstSeen index = .ok false after
  isMoreWork
    : ∀ base other newHash newWork,
        (IndexM.isMoreWork base other newHash newWork).Meets index (fun _ _ => True)
          (fun _ after => after.resident = index.resident)
  parent
    : ∀ key,
        (IndexM.parent key).Meets index (fun _ _ => True) (fun _ after => index.Stranded after)
  ancestor
    : ∀ key depth,
        (IndexM.ancestor key depth).Meets index (fun _ _ => True)
          (fun _ after => index.Stranded after)
  findFork
    : ∀ budget left right,
        (IndexM.findFork budget left right).Meets index (fun _ _ => True)
          (fun _ after => index.Stranded after)
  candidates
    : WellKeyed states
      → ∀ gone after,
          Index.Walked index gone after
          → after.resident.tips.members
            = index.resident.tips.members.filter fun tip => tip.hash ∉ gone

/-- Whatever the store does, every index that is reached fails cleanly. -/
theorem Index.Reached.failsCleanly {allowed : Operation → Prop}
    (reached : Index.Reached states allowed config index)
    : index.FailsCleanly states := by
  have stranded {α : Type} {action : IndexM σ (Option α)} (trails : action.Trails)
      : action.Meets index (fun _ _ => True) (fun _ after => index.Stranded after) :=
    (trails index index ⟨[], .start⟩).mono (fun _ _ _ => trivial) fun _ _ => id
  exact
    { lookup := IndexM.lookup_clean
      insert := IndexM.insert_clean
      extend := fun header firstSeen =>
        (IndexM.extend_clean header firstSeen).mono
          (fun _ _ clean refused apart =>
            (clean refused).resolve_right fun own => apart own.1)
          fun _ _ => id
      extendOwnParent := fun header firstSeen _ =>
        (IndexM.extend_clean header firstSeen).mono
          (fun _ _ clean refused => (clean refused).imp_right And.right)
          fun _ _ _ => trivial
      refusedOwnParent := fun _ firstSeen _ _ own later fresh found =>
        IndexM.extend_of_ownParent own later fresh found firstSeen
      isMoreWork := IndexM.isMoreWork_clean
      parent := fun key => stranded (IndexM.trails_parent key)
      ancestor := fun key depth => stranded (IndexM.trails_ancestor key depth)
      findFork := fun budget left right => stranded (IndexM.trails_findFork budget left right)
      candidates := fun wellKeyed gone after walked =>
        walked.tips_eq wellKeyed
          { state := reached.state wellKeyed.toReadClosed
            recorded := reached.recorded wellKeyed.toReadClosed
            keyed := reached.keyed wellKeyed } }

/-- Written answers do not change with reads. -/
theorem Script.final_answer {α : Type} (written : Script → Except StoreError α) (script : Script)
    : (answer written).final script = script := by
  rw [StoreRead.final, answer]
  cases written script <;> rfl

theorem Script.fetch_of_ok {key : BlockHash} {script after : Script} {seen : Option SeenHeader}
    (asked : HeaderSource.fetch key script = .ok seen after)
    : (script.entry key).fetch = .ok seen := by
  change answer (fun script => (script.entry key).fetch) script = .ok seen after at asked
  rw [answer] at asked
  split at asked
  · next told =>
      cases asked
      exact told
  · cases asked

/-- A store that has the children of the root and fails when it is asked for the root. -/
def Fork.torn : Script :=
  let empty : Script := ⟨.empty, .empty⟩
  let below := empty.put left.hash ⟨.ok (some ⟨left, 6⟩), .ok (some 1), .ok (some (.ofNat 4))⟩
  let both := below.put right.hash ⟨.ok (some ⟨right, 7⟩), .ok (some 1), .ok (some (.ofNat 4))⟩
  both.put root.hash ⟨.error .poisoned, .ok none, .ok none⟩

theorem Fork.wellKeyed_torn : WellKeyed (· = torn) where
  fetch store key state := (Script.final_answer _ store).trans state
  heightFor store key state := (Script.final_answer _ store).trans state
  workThrough store key state := (Script.final_answer _ store).trans state
  served store key header firstSeen after state asked := by
    obtain rfl : store = torn := state
    have told := Script.fetch_of_ok asked
    simp only [Script.entry, torn, Script.put, KeyedTable.get?_put] at told
    split at told
    · cases told
    · split at told
      · next same =>
          cases told
          exact same.symm
      · split at told
        · next same =>
            cases told
            exact same.symm
        · cases told

/-- An index with room for one record, to which one of the children was added. -/
def Fork.cramped : Index Script :=
  (Operation.insert right (some 1) (.ofNat 2) 7).next (.new torn ⟨1⟩)

-- The search hydrates each child in the place of the other before it fails, and the candidate that
-- was there has left with its record.
theorem Fork.failsCleanly_cramped
    : cramped.tips = [right.hash]
      ∧ (IndexM.findFork 9 left.hash right.hash).Meets cramped (fun _ _ => False)
          (fun failure after =>
            failure = .storage .poisoned
            ∧ after.resident.table.keys = [left.hash]
            ∧ after.tips = [])
      ∧ WellKeyed (· = torn)
      ∧ cramped.FailsCleanly (· = torn) := by
  have content : cramped.tips = [right.hash]
      ∧ (IndexM.findFork 9 left.hash right.hash).Meets cramped (fun _ _ => False)
          (fun failure after =>
            failure = .storage .poisoned
            ∧ after.resident.table.keys = [left.hash]
            ∧ after.tips = []) := by
    decide +kernel
  have reached : Index.Reached (· = torn) (fun _ => True) ⟨1⟩ cramped :=
    .performed _ trivial (.new rfl)
  exact ⟨content.1, content.2, wellKeyed_torn, Index.Reached.failsCleanly reached⟩

end HeaderChain
