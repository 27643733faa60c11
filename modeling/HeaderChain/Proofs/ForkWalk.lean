import HeaderChain.Proofs.ChainView
import HeaderChain.Proofs.Filing
import HeaderChain.Proofs.StoredRows
import Mathlib.Order.GameAdd

/-! Walks to a fork that heights steer, whatever these heights are. Both branches only ever move
along the headers that are filed, so they end where the filing ends, and where they meet there is a
line of headers from either end. A header that is filed as its own parent is where a walk hangs.
-/

namespace HeaderChain

-----------------------------------------------------------------------------------------
-- Walks that end
-----------------------------------------------------------------------------------------

namespace IndexM

variable {σ α β : Type} {index : Index σ} {walk : Nat → IndexM σ α}

/-- From some number of steps on, a walk has one outcome, and it is not that of too few steps. -/
def Finishes (walk : Nat → IndexM σ α) (index : Index σ) : Prop :=
  ∃ steps outcome,
    (∀ after, outcome ≠ .error .unfinished after)
    ∧ ∀ budget, steps ≤ budget → walk budget index = outcome

theorem Finishes.of_meets {action : IndexM σ α}
    (met : action.Meets index (fun _ _ => True) fun failure _ => failure ≠ .unfinished)
    : Finishes (fun _ => action) index := by
  refine ⟨0, action index, ?_, fun _ _ => rfl⟩
  intro after failed
  exact met.of_error failed rfl

/-- A walk ends if it ends wherever a first part of it leads that needs no budget. -/
theorem Finishes.bind {action : IndexM σ β} {next : Nat → β → IndexM σ α}
    (met
      : action.Meets index
          (fun answer after => Finishes (fun budget => next budget answer) after)
          fun failure _ => failure ≠ .unfinished)
    : Finishes (fun budget => action >>= next budget) index := by
  rw [Meets] at met
  split at met
  · next answer between done =>
      obtain ⟨steps, outcome, finished, settled⟩ := met
      refine ⟨steps, outcome, finished, ?_⟩
      intro budget enough
      rw [← settled budget enough]
      simp only [Bind.bind, EStateM.bind, done]
  · next failure after done =>
      refine ⟨0, .error failure after, ?_, ?_⟩
      · intro other same
        cases same
        exact met rfl
      · intro budget _
        simp only [Bind.bind, EStateM.bind, done]

/-- A walk that takes a step ends if the rest of it does. -/
theorem Finishes.step (rest : Finishes (fun budget => walk (budget + 1)) index)
    : Finishes walk index := by
  obtain ⟨steps, outcome, finished, settled⟩ := rest
  refine ⟨steps + 1, outcome, finished, ?_⟩
  intro budget enough
  cases budget with
  | zero => exact (Nat.not_succ_le_zero _ enough).elim
  | succ budget => exact settled budget (Nat.le_of_succ_le_succ enough)

end IndexM

namespace Filing

variable {σ : Type} [HeaderSource σ] {filing : Filing} {states : σ → Prop} {index : Index σ}

/-- With every step one of the two branches goes on along the filing, and the other stays where it
is. Since walks along the filing are finite, this ends.
-/
theorem Holds.descend_finishes (holds : filing.Holds states index)
    (serves : filing.Serves states) (finite : WellFounded (flip filing.Leads))
    (left right : IndexM.Branch)
    : IndexM.Finishes (fun budget => IndexM.descend budget left right) index := by
  let Ends (leftHash rightHash : BlockHash) : Prop :=
    ∀ index leftHeight rightHeight,
      filing.Holds states index
      → IndexM.Finishes
          (fun budget : Nat =>
            (IndexM.descend budget ⟨leftHash, leftHeight⟩ ⟨rightHash, rightHeight⟩
              : IndexM σ (Option BlockHash)))
          index
  have ends : ∀ leftHash rightHash, Ends leftHash rightHash := by
    refine Prod.GameAdd.recursion finite finite ?_
    intro leftHash rightHash ih index leftHeight rightHeight holds
    refine .step ?_
    conv =>
      arg 1
      ext budget
      rw [IndexM.descend]
    split
    · exact .of_meets trivial
    · split
      · dsimp only
        split
        · refine .bind ((holds.parent_meets serves leftHash).mono ?_ fun _ _ => id)
          intro found between walked
          obtain ⟨holds', leads⟩ := walked
          cases found with
          | none => exact .of_meets trivial
          | some above => exact ih _ _ (.fst (leads above rfl)) between above.height _ holds'
        · refine .bind ((holds.parent_meets serves rightHash).mono ?_ fun _ _ => id)
          intro found between walked
          obtain ⟨holds', leads⟩ := walked
          cases found with
          | none => exact .of_meets trivial
          | some above => exact ih _ _ (.snd (leads above rfl)) between _ above.height holds'
      · exact .of_meets trivial
  exact ends left.hash right.hash index left.height right.height holds

/-- The search for a fork ends, whatever the heights and works, the index and the ceiling, and also
over a store that forgets headers and fails, as long as no walk along the filed headers leads back
to where it came from.
-/
theorem Holds.findFork_finishes (holds : filing.Holds states index)
    (serves : filing.Serves states)
    (acyclic : ∀ key, ¬ Relation.TransGen filing.Leads key key) (left right : BlockHash)
    : IndexM.Finishes (fun budget => IndexM.findFork budget left right) index := by
  have finite := wellFounded_leads acyclic
  simp only [IndexM.findFork]
  refine .bind ((holds.lookup_meets serves left).mono ?_ fun _ _ => id)
  intro found between looked
  cases found with
  | none => exact .of_meets trivial
  | some leftRecord =>
      refine .bind ((looked.1.lookup_meets serves right).mono ?_ fun _ _ => id)
      intro found' after looked'
      cases found' with
      | none => exact .of_meets trivial
      | some rightRecord => exact looked'.1.descend_finishes serves finite _ _

end Filing

namespace Fork

theorem leads_root {key next : BlockHash} (leads : (Filing.own view.covers).Leads key next)
    : next = root.hash ∧ key ≠ root.hash := by
  cases leads with
  | up member later member' =>
      obtain ⟨covered, rfl⟩ := member
      rcases covered with rfl | rfl | rfl
      · cases later
      · exact ⟨member'.2, left_ne_root⟩
      · exact ⟨member'.2, right_ne_root⟩

theorem acyclic_leads (key : BlockHash)
    : ¬ Relation.TransGen (Filing.own view.covers).Leads key key := by
  intro cycle
  obtain ⟨_, first, _⟩ := Relation.TransGen.head'_iff.mp cycle
  obtain ⟨_, _, last⟩ := Relation.TransGen.tail'_iff.mp cycle
  exact (leads_root first).2 (leads_root last).1

/-- An index with room for two records, to which a child of the root was added at a height that it
does not have.
-/
def crooked : Index MemoryStore :=
  (Operation.insert left (some 40) .zero 3).next (.new store ⟨2⟩)

theorem holds_own
    : MemoryStore.Holds (fun key entry => Filing.own view.covers key entry.header) store :=
  holds_store ⟨.inl rfl, rfl⟩ ⟨.inr (.inl rfl), rfl⟩ ⟨.inr (.inr rfl), rfl⟩

theorem reached_crooked
    : Index.Reached
        (MemoryStore.Holds fun key entry => Filing.own view.covers key entry.header)
        (Filing.own view.covers).Allows ⟨2⟩ crooked :=
  .performed _ (show Filing.own view.covers left.hash left from ⟨.inr (.inl rfl), rfl⟩)
    (.new holds_own)

-- The walk starts from a height of 40 on one side, and of 1 on the other.
theorem findFork_finishes_crooked
    : IndexM.Finishes (fun budget => IndexM.findFork budget left.hash right.hash) crooked := by
  have serves := Filing.serves_memory (Filing.own view.covers)
  have holds := Filing.holds_of_reached serves reached_crooked
  exact holds.findFork_finishes serves acyclic_leads left.hash right.hash

end Fork

namespace Filing

variable {σ : Type} [HeaderSource σ] {filing : Filing} {states : σ → Prop} {index : Index σ}

-----------------------------------------------------------------------------------------
-- Where branches meet
-----------------------------------------------------------------------------------------

/-- Where the branches meet, both conditions hold that the filing keeps from the starts on, by
induction on the budget.
-/
theorem Holds.descend_meets {onLeft onRight : BlockHash → Prop}
    (holds : filing.Holds states index) (serves : filing.Serves states)
    (leftKept : ∀ key next, filing.Leads key next → onLeft key → onLeft next)
    (rightKept : ∀ key next, filing.Leads key next → onRight key → onRight next)
    (budget : Nat) (left right : IndexM.Branch) (startLeft : onLeft left.hash)
    (startRight : onRight right.hash)
    : (IndexM.descend budget left right).Meets index
        (fun answer _ => ∀ fork, answer = some fork → onLeft fork ∧ onRight fork)
        (fun _ _ => True) := by
  have ended : ∀ fork, (none : Option BlockHash) = some fork → onLeft fork ∧ onRight fork := by
    intro fork found
    cases found
  have met {key key' : BlockHash} (same : key = key') (goes : onLeft key) (goes' : onRight key')
      : ∀ fork, some key = some fork → onLeft fork ∧ onRight fork := by
    intro fork found
    cases found
    exact ⟨goes, same ▸ goes'⟩
  induction budget generalizing index left right with
  | zero =>
      rw [IndexM.descend]
      split
      · next same => exact met same startLeft startRight
      · split
        · trivial
        · exact ended
  | succ budget ih =>
      rw [IndexM.descend]
      split
      · next same => exact met same startLeft startRight
      · split
        · dsimp only
          split
          · rw [IndexM.meets_bind]
            refine (holds.parent_meets serves left.hash).mono ?_ fun _ _ _ => trivial
            intro found between walked
            obtain ⟨holds', leads⟩ := walked
            cases found with
            | none => exact ended
            | some above =>
                have goes := leftKept _ _ (leads above rfl) startLeft
                exact ih holds' (.at above) right goes startRight
          · rw [IndexM.meets_bind]
            refine (holds.parent_meets serves right.hash).mono ?_ fun _ _ _ => trivial
            intro found between walked
            obtain ⟨holds', leads⟩ := walked
            cases found with
            | none => exact ended
            | some above =>
                have goes := rightKept _ _ (leads above rfl) startRight
                exact ih holds' left (.at above) startLeft goes
        · exact ended

/-- Where headers are filed under their own hashes, walks go along lines of headers. -/
theorem lineTo_of_leads {given : Header → Prop} {start key next : BlockHash}
    (leads : (own given).Leads key next) (line : ∃ line, Header.LineTo given key start line)
    : ∃ line, Header.LineTo given next start line := by
  cases leads with
  | up member later member' =>
      obtain ⟨covered, rfl⟩ := member
      obtain ⟨line, joined⟩ := line
      exact joined.extend covered later member'.1 member'.2

/-- A header that is found under a hash is a line of its own. -/
theorem lineTo_self {given : Header → Prop} {key : BlockHash} {header : Header}
    (member : own given key header)
    : ∃ line, Header.LineTo given header.hash key line :=
  ⟨[header], .last member.2 member.1 rfl⟩

/-- What a search for a fork answers is reached from both ends. -/
theorem Holds.findFork_meets {given : Header → Prop} (holds : (own given).Holds states index)
    (serves : (own given).Serves states) (budget : Nat) (left right : BlockHash)
    : (IndexM.findFork budget left right).Meets index
        (fun answer _ =>
          ∀ fork,
            answer = some fork
            → (∃ line, Header.LineTo given fork left line)
              ∧ ∃ line, Header.LineTo given fork right line)
        (fun _ _ => True) := by
  rw [IndexM.findFork, IndexM.meets_bind]
  refine (holds.lookup_meets serves left).mono ?_ fun _ _ _ => trivial
  intro found between looked
  obtain ⟨holds', answered⟩ := looked
  cases found with
  | none =>
      intro fork none
      cases none
  | some leftRecord =>
      dsimp only
      rw [IndexM.meets_bind]
      refine (holds'.lookup_meets serves right).mono ?_ fun _ _ _ => trivial
      intro found' after looked'
      obtain ⟨holds'', answered'⟩ := looked'
      cases found' with
      | none =>
          intro fork none
          cases none
      | some rightRecord =>
          have startLeft := lineTo_self (holds'.of_get? answered.symm)
          have startRight := lineTo_self (holds''.of_get? answered'.symm)
          exact holds''.descend_meets serves (fun _ _ => lineTo_of_leads)
            (fun _ _ => lineTo_of_leads) budget (.at leftRecord) (.at rightRecord) startLeft
            startRight

end Filing

/-- A fork that is found is shared. Lines of headers lead to it from both ends, each header the one
that the header before it names, and all of them were served or added. The store may fail, forget
headers and tell any heights and works, as long as it serves headers under their own hashes, and
insertions may state any height and baseline.
-/
theorem Index.Reached.forkShared {σ : Type} [HeaderSource σ] {states : σ → Prop}
    {given : Header → Prop} {config : Config} {index after : Index σ} {budget : Nat}
    {left right fork : BlockHash} (serves : (Filing.own given).Serves states)
    (reached : Index.Reached states (Filing.own given).Allows config index)
    (found : IndexM.findFork budget left right index = .ok (some fork) after)
    : ∃ leftLine rightLine,
        Header.LineTo given fork left leftLine ∧ Header.LineTo given fork right rightLine := by
  have holds := Filing.holds_of_reached serves reached
  obtain ⟨⟨leftLine, fromLeft⟩, rightLine, fromRight⟩ :=
    (holds.findFork_meets serves budget left right).of_ok found fork rfl
  exact ⟨leftLine, rightLine, fromLeft, fromRight⟩

-- The search goes up from both children to the root.
theorem Fork.forkShared_crooked
    : ∃ after,
        IndexM.findFork 2 left.hash right.hash crooked = .ok (some root.hash) after
        ∧ ∃ leftLine rightLine,
            Header.LineTo view.covers root.hash left.hash leftLine
            ∧ Header.LineTo view.covers root.hash right.hash rightLine := by
  have met : (IndexM.findFork 2 left.hash right.hash).Meets crooked
      (fun answer _ => answer = some root.hash) (fun _ _ => False) := by
    decide +kernel
  obtain ⟨_, after, found, rfl⟩ := met.exists_ok
  have serves := Filing.serves_memory (Filing.own view.covers)
  exact ⟨after, found, Index.Reached.forkShared serves reached_crooked found⟩

-----------------------------------------------------------------------------------------
-- A header filed as its own parent
-----------------------------------------------------------------------------------------

namespace Catalog

variable {σ : Type} [HeaderSource σ] {catalog : Catalog} {states : σ → Prop} {index : Index σ}
  {key : BlockHash} {entry below other : KnownHeader}

/-- Over an index without ceiling, a lookup of a known header with no resident parent brings in what
the catalog has, and nothing leaves.
-/
theorem Supplies.lookup_meets_apart (supplies : catalog.Supplies states)
    (state : states index.store) (unlimited : index.resident.config.ceiling = none)
    (known : catalog.entry key = some entry)
    (apart : index.resident.get? key = none → index.resident.get? entry.header.prev = none)
    : (IndexM.lookup key).Meets index
        (fun answer after =>
          states after.store
          ∧ after.resident.config = index.resident.config
          ∧ answer = after.resident.get? key
          ∧ ∀ other,
              after.resident.unlinked? other
                = if other = key then (index.resident.unlinked? key).or (some entry.record)
                  else index.resident.unlinked? other)
        (fun _ _ => False) := by
  cases found : index.resident.get? key with
  | some record =>
      rw [IndexM.lookup, IndexM.meets_bind, IndexM.meets_resident, found]
      refine ⟨state, rfl, found.symm, ?_⟩
      intro other
      split
      · next same => rw [same, Resident.unlinked?_of_get? found, Option.some_or]
      · rfl
  | none =>
      refine (supplies.lookup_meets state key).mono ?_ ?_
      · intro answer after looked
        cases looked with
        | resident found' => cases found.symm.trans found'
        | unknown _ unknown => cases known.symm.trans unknown
        | hydrated absent known' position state' entered =>
            cases known.symm.trans known'
            rw [apart absent] at position
            cases position
            refine ⟨state', Resident.config_apply _ _, entered.symm, ?_⟩
            intro other
            change (index.resident.enter key entry.record).unlinked? other = _
            rw [Resident.unlinked?, Resident.get?_enter_of_unlimited unlimited]
            split
            · rw [Resident.unlinked?_eq_none_iff.mpr absent]
              rfl
            · rfl
      · intro failure after overflow
        obtain ⟨_, entry', known', none⟩ := overflow
        cases known.symm.trans known'
        rw [apart found] at none
        cases none

/-- Two known headers with one parent, of which the first is filed as that parent as well. Its
height is known, and the other's is no greater.
-/
structure Loops (catalog : Catalog) (below other : KnownHeader) : Prop where
  known : catalog.entry below.header.hash = some below
  knownOther : catalog.entry other.header.hash = some other
  misfiled : catalog.entry below.header.prev = some below
  siblings : other.header.prev = below.header.prev
  later : below.header.isGenesis = false
  different : below.header.hash ≠ other.header.hash
  apart : below.header.prev ≠ below.header.hash
  heights
    : ∃ height height',
        below.height = some height ∧ other.height = some height' ∧ height' ≤ height

/-- The misfiled header is resident under its own hash, and if anything is under the hash of the
header before, it is the misfiled one again.
-/
structure Trapped (states : σ → Prop) (below : KnownHeader) (index : Index σ) : Prop where
  state : states index.store
  unlimited : index.resident.config.ceiling = none
  resident : index.resident.unlinked? below.header.hash = some below.record
  above
    : ∀ entry, index.resident.unlinked? below.header.prev = some entry → entry = below.record

/-- Where an entry's record is held, a branch stands at the entry. -/
theorem exists_branch {resident : Resident} (held : resident.unlinked? key = some entry.record)
    : ∃ record,
        resident.get? key = some record
        ∧ record.header = entry.header
        ∧ IndexM.Branch.at record = ⟨entry.header.hash, entry.height⟩ := by
  obtain ⟨record, found, same⟩ := Option.map_eq_some_iff.mp held
  have header : record.header = entry.header := congrArg Record.header same
  have height : record.height = entry.height := congrArg Record.height same
  exact ⟨record, found, header, by rw [IndexM.Branch.at, Record.hash, header, height]⟩

/-- A walk to the parent of the misfiled header leads back to it. -/
theorem Trapped.parent_meets (trapped : Trapped states below index)
    (supplies : catalog.Supplies states) (loops : catalog.Loops below other)
    : (IndexM.parent below.header.hash).Meets index
        (fun answer after =>
          Trapped states below after
          ∧ ∃ above,
              answer = some above
              ∧ IndexM.Branch.at above = ⟨below.header.hash, below.height⟩)
        (fun _ _ => False) := by
  obtain ⟨below', found, header, _⟩ := exists_branch trapped.resident
  have prev : below'.prev = below.header.prev := congrArg Header.prev header
  refine IndexM.parent_meets_of_lookups ?_
  rw [IndexM.lookup, IndexM.meets_bind, IndexM.meets_resident, found]
  simp only [IndexM.meets_pure, header, prev, loops.later, Bool.false_eq_true, if_false]
  refine (supplies.lookup_meets_apart trapped.state trapped.unlimited loops.misfiled id).mono ?_
    fun _ _ => id
  intro found' after looked
  obtain ⟨state, config, answered, others⟩ := looked
  have above : after.resident.unlinked? below.header.prev = some below.record := by
    rw [others, if_pos rfl]
    cases under : index.resident.unlinked? below.header.prev with
    | none => rfl
    | some entry => rw [trapped.above entry under, Option.some_or]
  obtain ⟨record, under, _⟩ := exists_branch above
  rw [under] at answered
  subst answered
  dsimp only
  have joined := Index.unlinked?_joined after below.header.hash below.header.prev
  refine ⟨⟨?_, ?_, ?_, ?_⟩, ?_⟩
  · rw [Index.store_joined]
    exact state
  · rw [Index.config_joined, config]
    exact trapped.unlimited
  · rw [joined, others, if_neg (Ne.symm loops.apart)]
    exact trapped.resident
  · intro entry under'
    rw [joined, above] at under'
    exact (Option.some.inj under').symm
  · obtain ⟨linked, stays, _, back⟩ := exists_branch ((joined _).trans above)
    exact ⟨linked, stays, back⟩

/-- The walk never ends, by induction on the budget. -/
theorem Trapped.descend_meets {height height' : Height} (trapped : Trapped states below index)
    (supplies : catalog.Supplies states) (loops : catalog.Loops below other)
    (told : below.height = some height) (lower : height' ≤ height) (budget : Nat)
    : (IndexM.descend budget ⟨below.header.hash, some height⟩
        ⟨other.header.hash, some height'⟩).Meets index
        (fun _ _ => False) (fun failure _ => failure = .unfinished) := by
  induction budget generalizing index with
  | zero =>
      rw [IndexM.descend, if_neg loops.different]
      rfl
  | succ budget ih =>
      rw [IndexM.descend, if_neg loops.different]
      dsimp only
      rw [if_pos lower, IndexM.meets_bind]
      refine (trapped.parent_meets supplies loops).mono ?_ fun _ _ => False.elim
      intro found after walked
      obtain ⟨trapped', above, rfl, back⟩ := walked
      dsimp only
      rw [back, told]
      exact ih trapped'

/-- With the misfiled header resident and nothing else, a lookup of the other one leaves it trapped. -/
theorem Loops.lookup_meets (loops : catalog.Loops below other)
    (supplies : catalog.Supplies states) (state : states index.store)
    (unlimited : index.resident.config.ceiling = none)
    (held
      : ∀ key,
          index.resident.unlinked? key
            = if key = below.header.hash then some below.record else none)
    : (IndexM.lookup other.header.hash).Meets index
        (fun answer after =>
          Trapped states below after
          ∧ ∃ record,
              answer = some record
              ∧ IndexM.Branch.at record = ⟨other.header.hash, other.height⟩)
        (fun _ _ => False) := by
  have absent : index.resident.get? other.header.prev = none := by
    rw [← Resident.unlinked?_eq_none_iff, loops.siblings, held, if_neg loops.apart]
  have prev : below.header.prev ≠ other.header.hash := by
    intro same
    have known := loops.misfiled
    rw [same, loops.knownOther] at known
    cases known
    exact loops.different rfl
  refine (supplies.lookup_meets_apart state unlimited loops.knownOther fun _ => absent).mono ?_
    fun _ _ => id
  intro found after looked
  obtain ⟨state', config, answered, others⟩ := looked
  have entered : after.resident.unlinked? other.header.hash = some other.record := by
    rw [others, if_pos rfl, held, if_neg (Ne.symm loops.different), Option.none_or]
  obtain ⟨record, under, _, standing⟩ := exists_branch entered
  refine ⟨⟨state', config ▸ unlimited, ?_, ?_⟩, record, answered.trans under, standing⟩
  · rw [others, if_neg loops.different, held, if_pos rfl]
  · intro entry under
    rw [others, if_neg prev, held, if_neg loops.apart] at under
    cases under

/-- The search for the fork of a header that is filed as its own parent with a sibling exceeds every
number of steps.
-/
theorem Supplies.forkEndless (supplies : catalog.Supplies states)
    (loops : catalog.Loops below other) {store : σ} (state : states store) {config : Config}
    (unlimited : config.ceiling = none) (budget : Nat)
    : ∃ after,
        IndexM.findFork budget below.header.hash other.header.hash (.new store config)
          = .error .unfinished after := by
  obtain ⟨height, height', told, told', lower⟩ := loops.heights
  have met : (IndexM.findFork budget below.header.hash other.header.hash).Meets
      (.new store config) (fun _ _ => False) (fun failure _ => failure = .unfinished) := by
    rw [IndexM.findFork, IndexM.meets_bind]
    refine (supplies.lookup_meets_apart state unlimited loops.known fun _ => rfl).mono ?_
      fun _ _ => False.elim
    intro found between looked
    obtain ⟨state', config', answered, others⟩ := looked
    obtain ⟨record, under, _, standing⟩ := exists_branch ((others _).trans (if_pos rfl))
    rw [answered, under]
    dsimp only
    rw [standing, told, IndexM.meets_bind]
    refine (loops.lookup_meets supplies state' (config' ▸ unlimited) others).mono ?_
      fun _ _ => False.elim
    intro found' after looked'
    obtain ⟨trapped, record', rfl, standing'⟩ := looked'
    dsimp only
    rw [standing', told']
    exact trapped.descend_meets supplies loops told lower budget
  obtain ⟨_, after, failed, rfl⟩ := met.exists_error
  exact ⟨after, failed⟩

end Catalog

/-- Rows of the fork's children, one of which is filed under the hash of the root as well. -/
def Fork.overwritten : RowStore :=
  ((RowStore.empty.file left.hash leftEntry).file right.hash rightEntry).file root.hash leftEntry

/-- What these rows tell. -/
def Fork.misread : Catalog where
  entry key :=
    if key = root.hash then some leftEntry
    else if key = right.hash then some rightEntry
    else if key = left.hash then some leftEntry
    else none
  workOf := Header.work

theorem Fork.loops_misread : misread.Loops leftEntry rightEntry where
  known := by simp [misread, leftEntry, left_ne_root, left_ne_right]
  knownOther := by simp [misread, leftEntry, rightEntry, right_ne_root]
  misfiled := by simp [misread, leftEntry, left]
  siblings := rfl
  later := decide_eq_false root_ne_zero
  different := left_ne_right
  apart := left_ne_root.symm
  heights := ⟨1, 1, rfl, rfl, le_refl 1⟩

theorem Fork.serves_misread : misread.Serves (· = overwritten) := by
  let memory : MemoryStore :=
    { MemoryStore.empty with
      headers :=
        ((MemoryStore.empty.headers.put left.hash leftEntry).put right.hash rightEntry).put
          root.hash leftEntry }
  have inRange : leftEntry.InRange ∧ rightEntry.InRange := by decide
  have mirrors : overwritten.Mirrors memory :=
    ((RowStore.mirrors_empty.file inRange.1 left.hash).file inRange.2 right.hash).file inRange.1
      root.hash
  have told (key : BlockHash) : memory.headers.get? key = misread.entry key := by
    simp only [memory, KeyedTable.get?_put]
    rfl
  have same : memory.catalog = misread := congrArg (Catalog.mk · Header.work) (funext told)
  exact same ▸ mirrors.serves

-- No read fails, but the walk from the left child leads back to it.
theorem Fork.forkEndless_overwritten
    : misread.Serves (· = overwritten)
      ∧ ∀ budget,
          ∃ after,
            IndexM.findFork budget left.hash right.hash (.new overwritten .unbounded)
              = .error .unfinished after :=
  ⟨serves_misread, fun budget => serves_misread.supplies.forkEndless loops_misread rfl rfl budget⟩

end HeaderChain
