import HeaderChain.Proofs.Catalog

/-! The last common header of two branches. The walk moves the branch that is not lower. A header
that both branches share is no higher than either, so the walk never steps past the last one; and
every step lowers the sum of the heights.
-/

namespace HeaderChain.Catalog

/-- The second header lies on the branch that ends in the first: it is that header or one that is
reached from it along the links of known headers.
-/
inductive Descends (catalog : Catalog) : BlockHash → BlockHash → Prop
  | self {key entry} (known : catalog.entry key = some entry) : Descends catalog key key
  | later {key entry above} (known : catalog.entry key = some entry)
    (rest : Descends catalog entry.header.prev above)
    : Descends catalog key above

/-- The height of a known header. -/
def depth (catalog : Catalog) (key : BlockHash) : Nat :=
  ((catalog.entry key).bind KnownHeader.height).elim 0 UInt32.toNat

/-- A consistent catalog that has a height for every header, so that each is one above its parent,
and no header with the hash that stands for the lack of a predecessor.
-/
structure Measured (catalog : Catalog) : Prop extends Consistent catalog where
  nonzero : ∀ key entry, catalog.entry key = some entry → key ≠ .zero
  measured : ∀ key entry, catalog.entry key = some entry → ∃ height, entry.height = some height

/-- A header on both branches. -/
def Common (catalog : Catalog) (left right key : BlockHash) : Prop :=
  catalog.Descends left key ∧ catalog.Descends right key

/-- An answer is the last common header of two branches: all others lie above it. There is no
answer if the branches have nothing in common.
-/
def Settles (catalog : Catalog) (left right : BlockHash) : Option BlockHash → Prop
  | none => ∀ key, ¬ catalog.Common left right key
  | some key =>
      catalog.Common left right key
      ∧ ∀ other, catalog.Common left right other → catalog.Descends key other

variable {catalog : Catalog} {left right key : BlockHash}

-----------------------------------------------------------------------------------------
-- Branches
-----------------------------------------------------------------------------------------

theorem Descends.trans {first second third : BlockHash}
    (lower : catalog.Descends first second) (upper : catalog.Descends second third)
    : catalog.Descends first third := by
  induction lower with
  | self => exact upper
  | later known _ ih => exact .later known (ih upper)

theorem Descends.knows_above {above : BlockHash} (descends : catalog.Descends key above)
    : catalog.knows above = true := by
  induction descends with
  | self known => exact knows_iff.mpr ⟨_, known⟩
  | later _ _ ih => exact ih

theorem Descends.knows_below {above : BlockHash} (descends : catalog.Descends key above)
    : catalog.knows key = true := by
  cases descends with
  | self known => exact knows_iff.mpr ⟨_, known⟩
  | later known => exact knows_iff.mpr ⟨_, known⟩

/-- A known parent is one lower than a header whose height is known. -/
theorem Consistent.depth_prev {entry parent : KnownHeader} {height : Height}
    (consistent : catalog.Consistent) (known : catalog.entry key = some entry)
    (knownParent : catalog.entry entry.header.prev = some parent)
    (told : entry.height = some height)
    : catalog.depth key = catalog.depth entry.header.prev + 1 := by
  obtain ⟨height', told', next⟩ :=
    Option.bind_eq_some_iff.mp
      ((consistent.height key entry parent known knownParent).symm.trans told)
  simp only [depth, known, knownParent, Option.bind_some, told, told', Option.elim_some]
  exact Height.next?_eq_some_iff.mp next

theorem Measured.depth_prev {entry parent : KnownHeader} (measured : catalog.Measured)
    (known : catalog.entry key = some entry)
    (knownParent : catalog.entry entry.header.prev = some parent)
    : catalog.depth key = catalog.depth entry.header.prev + 1 := by
  obtain ⟨height, told⟩ := measured.measured key entry known
  exact measured.toConsistent.depth_prev known knownParent told

/-- Apart from the header itself, a branch is that of the known parent. -/
theorem Measured.descends_iff {above : BlockHash} (measured : catalog.Measured)
    (knows : catalog.knows key = true)
    : catalog.Descends key above
      ↔ above = key ∨ ∃ prev, catalog.parent? key = some prev ∧ catalog.Descends prev above := by
  constructor
  · intro descends
    cases descends with
    | self => exact .inl rfl
    | @later _ entry _ known rest =>
        obtain ⟨parent, knownParent⟩ := knows_iff.mp rest.knows_below
        have later : entry.header.isGenesis = false := by
          refine Bool.eq_false_iff.mpr fun genesis => ?_
          exact measured.nonzero _ parent knownParent (of_decide_eq_true genesis)
        refine .inr ⟨entry.header.prev, ?_, rest⟩
        exact parent?_eq_some_iff.mpr ⟨entry, known, later, rfl, rest.knows_below⟩
  · intro lies
    rcases lies with rfl | ⟨prev, parent, rest⟩
    · obtain ⟨entry, known⟩ := knows_iff.mp knows
      exact .self known
    · obtain ⟨entry, known, _, rfl, _⟩ := parent?_eq_some_iff.mp parent
      exact .later known rest

theorem Measured.depth_of_parent? {prev : BlockHash} (measured : catalog.Measured)
    (parent : catalog.parent? key = some prev)
    : catalog.depth key = catalog.depth prev + 1 ∧ catalog.knows prev = true := by
  obtain ⟨entry, known, _, rfl, knows⟩ := parent?_eq_some_iff.mp parent
  obtain ⟨above, knownAbove⟩ := knows_iff.mp knows
  exact ⟨measured.depth_prev known knownAbove, knows⟩

/-- Every other header on a branch is lower than its end. -/
theorem Measured.depth_lt {above : BlockHash} (measured : catalog.Measured)
    (descends : catalog.Descends key above) (different : above ≠ key)
    : catalog.depth above < catalog.depth key := by
  induction descends with
  | self => exact (different rfl).elim
  | @later key entry above known rest ih =>
      obtain ⟨parent, knownParent⟩ := knows_iff.mp rest.knows_below
      have step := measured.depth_prev known knownParent
      by_cases same : above = entry.header.prev
      · rw [same]
        omega
      · have further := ih same
        omega

-----------------------------------------------------------------------------------------
-- Last common headers
-----------------------------------------------------------------------------------------

theorem Common.symm (common : catalog.Common left right key) : catalog.Common right left key :=
  ⟨common.2, common.1⟩

theorem Settles.symm {answer : Option BlockHash} (settles : catalog.Settles left right answer)
    : catalog.Settles right left answer := by
  cases answer with
  | none =>
      intro key common
      exact settles key common.symm
  | some key =>
      obtain ⟨common, last⟩ := settles
      exact ⟨common.symm, fun other common => last other common.symm⟩

/-- A branch and one of the headers on it have that header in common last. -/
theorem Descends.settles {above : BlockHash} (descends : catalog.Descends key above)
    : catalog.Settles key above (some above) := by
  obtain ⟨entry, known⟩ := knows_iff.mp descends.knows_above
  exact ⟨⟨descends, .self known⟩, fun other common => common.2⟩

/-- The branch that is not lower shares with the other exactly what its parent's branch shares with
it, since what the two have in common is no higher than the other.
-/
theorem Measured.common_iff (measured : catalog.Measured) (knows : catalog.knows left = true)
    (different : left ≠ right) (lower : catalog.depth right ≤ catalog.depth left)
    : catalog.Common left right key
      ↔ ∃ prev, catalog.parent? left = some prev ∧ catalog.Common prev right key := by
  constructor
  · intro ⟨onLeft, onRight⟩
    rcases (measured.descends_iff knows).mp onLeft with rfl | ⟨prev, parent, rest⟩
    · have higher := measured.depth_lt onRight different
      omega
    · exact ⟨prev, parent, rest, onRight⟩
  · intro ⟨prev, parent, rest, onRight⟩
    exact ⟨(measured.descends_iff knows).mpr (.inr ⟨prev, parent, rest⟩), onRight⟩

theorem Measured.settles_none (measured : catalog.Measured) (knows : catalog.knows left = true)
    (different : left ≠ right) (lower : catalog.depth right ≤ catalog.depth left)
    (rootless : catalog.parent? left = none)
    : catalog.Settles left right none := by
  intro key common
  obtain ⟨prev, parent, _⟩ := (measured.common_iff knows different lower).mp common
  rw [rootless] at parent
  cases parent

theorem Measured.settles_parent {prev : BlockHash} {answer : Option BlockHash}
    (measured : catalog.Measured) (knows : catalog.knows left = true) (different : left ≠ right)
    (lower : catalog.depth right ≤ catalog.depth left)
    (parent : catalog.parent? left = some prev) (settles : catalog.Settles prev right answer)
    : catalog.Settles left right answer := by
  have same (key : BlockHash) : catalog.Common left right key ↔ catalog.Common prev right key := by
    rw [measured.common_iff knows different lower, parent]
    simp
  cases answer with
  | none =>
      intro key common
      exact settles key ((same key).mp common)
  | some key =>
      obtain ⟨common, last⟩ := settles
      exact ⟨(same key).mpr common, fun other common => last other ((same other).mp common)⟩

-----------------------------------------------------------------------------------------
-- The walk
-----------------------------------------------------------------------------------------

/-- The branch that ends in a header, as the walk sees it. -/
def branch (catalog : Catalog) (key : BlockHash) : IndexM.Branch :=
  ⟨key, (catalog.entry key).bind KnownHeader.height⟩

variable {σ : Type} [HeaderSource σ] {states : σ → Prop} {index : Index σ}

omit [HeaderSource σ] in
theorem Fits.branch_at {record : Record} (fits : catalog.Fits states index)
    (consistent : catalog.Consistent) (found : index.resident.get? key = some record)
    : IndexM.Branch.at record = catalog.branch key := by
  obtain ⟨entry, known, same⟩ := fits.agrees key record found
  rw [IndexM.Branch.at, branch, known, Record.hash, same.header, consistent.keyed key entry known,
    same.height, Option.bind_some]

theorem Measured.exists_height (measured : catalog.Measured) (knows : catalog.knows key = true)
    : ∃ height,
        (catalog.branch key).height = some height ∧ catalog.depth key = height.toNat := by
  obtain ⟨entry, known⟩ := knows_iff.mp knows
  obtain ⟨height, told⟩ := measured.measured key entry known
  refine ⟨height, ?_, ?_⟩
  · rw [branch, known, Option.bind_some, told]
  · rw [depth, known, Option.bind_some, told, Option.elim_some]

/-- A walk that moves the branch that is not lower to its parent settles what the rest of the walk
settles from there.
-/
theorem Measured.move_meets (measured : catalog.Measured) (serves : catalog.Serves states)
    (rest : IndexM.Branch → IndexM σ (Option BlockHash))
    (fits : catalog.Fits states index) (knows : catalog.knows left = true)
    (different : left ≠ right) (lower : catalog.depth right ≤ catalog.depth left)
    (continued
      : ∀ prev between,
          catalog.parent? left = some prev
          → catalog.Fits states between
          → (rest (catalog.branch prev)).Meets between
              (fun answer after =>
                catalog.Kept states between after ∧ catalog.Settles prev right answer)
              (fun _ _ => False))
    : (do
        match ← IndexM.parent left with
        | none => return none
        | some above => rest (.at above) : IndexM σ (Option BlockHash)).Meets index
        (fun answer after =>
          catalog.Kept states index after ∧ catalog.Settles left right answer)
        (fun _ _ => False) := by
  rw [IndexM.meets_bind]
  refine (measured.toConsistent.parent_meets serves.supplies fits left).mono ?_ fun _ _ => id
  intro found between walked
  obtain ⟨kept, walked⟩ := walked
  cases parent : catalog.parent? left with
  | none =>
      rw [parent] at walked
      subst walked
      exact ⟨kept, measured.settles_none knows different lower parent⟩
  | some prev =>
      rw [parent] at walked
      obtain ⟨answered, isSome⟩ := walked
      obtain ⟨above, rfl⟩ := Option.isSome_iff_exists.mp isSome
      have fits' := fits.kept kept
      dsimp only
      rw [fits'.branch_at measured.toConsistent answered.symm]
      refine (continued prev between parent fits').mono ?_ fun _ _ => id
      intro answer after settled
      obtain ⟨kept', settles⟩ := settled
      exact ⟨kept.trans kept', measured.settles_parent knows different lower parent settles⟩

/-- The walk does not fail and finds the last common header, by induction on the budget, which is
greater than the sum of the heights.
-/
theorem Measured.descend_meets (measured : catalog.Measured) (serves : catalog.Serves states)
    (fits : catalog.Fits states index) (knowsLeft : catalog.knows left = true)
    (knowsRight : catalog.knows right = true) (budget : Nat)
    (room : catalog.depth left + catalog.depth right < budget)
    : (IndexM.descend budget (catalog.branch left) (catalog.branch right)).Meets index
        (fun answer after =>
          catalog.Kept states index after ∧ catalog.Settles left right answer)
        (fun _ _ => False) := by
  induction budget generalizing index left right with
  | zero => exact (Nat.not_lt_zero _ room).elim
  | succ budget ih =>
      obtain ⟨height, told, depth⟩ := measured.exists_height knowsLeft
      obtain ⟨height', told', depth'⟩ := measured.exists_height knowsRight
      rw [IndexM.descend, told, told']
      split
      · next same =>
          obtain rfl : left = right := same
          obtain ⟨entry, known⟩ := knows_iff.mp knowsLeft
          exact ⟨⟨fits.state, .refl _⟩, Descends.settles (.self known)⟩
      · next different =>
          replace different : left ≠ right := different
          dsimp only
          split
          · next lower =>
              rw [UInt32.le_iff_toNat_le, ← depth, ← depth'] at lower
              refine measured.move_meets serves
                (fun branch => IndexM.descend budget branch (catalog.branch right)) fits knowsLeft
                different lower ?_
              intro prev between (parent : catalog.parent? left = some prev) fits'
              obtain ⟨step, knows⟩ := measured.depth_of_parent? parent
              exact ih fits' knows knowsRight (by omega)
          · next higher =>
              rw [UInt32.le_iff_toNat_le, ← depth, ← depth'] at higher
              refine (measured.move_meets serves
                (fun branch => IndexM.descend budget (catalog.branch left) branch) fits knowsRight
                (Ne.symm different) (Nat.le_of_not_le higher) ?_).mono ?_ fun _ _ => id
              · intro prev between (parent : catalog.parent? right = some prev) fits'
                obtain ⟨step, knows⟩ := measured.depth_of_parent? parent
                refine (ih fits' knowsLeft knows (by omega)).mono ?_ fun _ _ => id
                intro answer after settled
                exact ⟨settled.1, settled.2.symm⟩
              · intro answer after settled
                exact ⟨settled.1, settled.2.symm⟩

theorem Measured.findFork_meets (measured : catalog.Measured) (serves : catalog.Serves states)
    (fits : catalog.Fits states index) (knowsLeft : catalog.knows left = true)
    (knowsRight : catalog.knows right = true) {budget : Nat}
    (room : catalog.depth left + catalog.depth right < budget)
    : (IndexM.findFork budget left right).Meets index
        (fun answer after =>
          catalog.Kept states index after ∧ catalog.Settles left right answer)
        (fun _ _ => False) := by
  have consistent := measured.toConsistent
  rw [IndexM.findFork, IndexM.meets_bind]
  refine (consistent.lookup_meets serves.supplies fits left).mono ?_ fun _ _ => id
  intro found between looked
  obtain ⟨kept, answered, known⟩ := looked
  obtain ⟨leftRecord, rfl⟩ := Option.isSome_iff_exists.mp (known.trans knowsLeft)
  have fits' := fits.kept kept
  dsimp only
  rw [IndexM.meets_bind]
  refine (consistent.lookup_meets serves.supplies fits' right).mono ?_ fun _ _ => id
  intro found' after looked'
  obtain ⟨kept', answered', known'⟩ := looked'
  obtain ⟨rightRecord, rfl⟩ := Option.isSome_iff_exists.mp (known'.trans knowsRight)
  have fits'' := fits'.kept kept'
  dsimp only
  rw [fits'.branch_at consistent answered.symm, fits''.branch_at consistent answered'.symm]
  refine (measured.descend_meets serves fits'' knowsLeft knowsRight budget room).mono ?_
    fun _ _ => id
  intro answer last settled
  exact ⟨(kept.trans kept').trans settled.1, settled.2⟩

-----------------------------------------------------------------------------------------
-- One answer
-----------------------------------------------------------------------------------------

theorem Measured.exists_settles_of_parent (measured : catalog.Measured)
    (knows : catalog.knows left = true) (different : left ≠ right)
    (lower : catalog.depth right ≤ catalog.depth left)
    (above
      : ∀ prev,
          catalog.parent? left = some prev → ∃ answer, catalog.Settles prev right answer)
    : ∃ answer, catalog.Settles left right answer := by
  cases parent : catalog.parent? left with
  | none => exact ⟨none, measured.settles_none knows different lower parent⟩
  | some prev =>
      obtain ⟨answer, settles⟩ := above prev parent
      exact ⟨answer, measured.settles_parent knows different lower parent settles⟩

/-- Two branches have one last common header or none, by induction on a bound on the sum of their
heights.
-/
theorem Measured.exists_settles (measured : catalog.Measured)
    (knowsLeft : catalog.knows left = true) (knowsRight : catalog.knows right = true)
    (bound : Nat) (room : catalog.depth left + catalog.depth right < bound)
    : ∃ answer, catalog.Settles left right answer := by
  induction bound generalizing left right with
  | zero => exact (Nat.not_lt_zero _ room).elim
  | succ bound ih =>
      by_cases same : left = right
      · obtain ⟨entry, known⟩ := knows_iff.mp knowsLeft
        exact ⟨some left, same ▸ Descends.settles (.self known)⟩
      · rcases Nat.le_total (catalog.depth right) (catalog.depth left) with lower | higher
        · refine measured.exists_settles_of_parent knowsLeft same lower ?_
          intro prev parent
          obtain ⟨step, knows⟩ := measured.depth_of_parent? parent
          exact ih knows knowsRight (by omega)
        · have settles : ∃ answer, catalog.Settles right left answer := by
            refine measured.exists_settles_of_parent knowsRight (Ne.symm same) higher ?_
            intro prev parent
            obtain ⟨step, knows⟩ := measured.depth_of_parent? parent
            exact ih knows knowsLeft (by omega)
          obtain ⟨answer, settles⟩ := settles
          exact ⟨answer, settles.symm⟩

theorem Measured.settles_unique {answer answer' : Option BlockHash} (measured : catalog.Measured)
    (settles : catalog.Settles left right answer)
    (settles' : catalog.Settles left right answer')
    : answer = answer' := by
  cases answer with
  | none =>
      cases answer' with
      | none => rfl
      | some key => exact (settles key settles'.1).elim
  | some key =>
      cases answer' with
      | none => exact (settles' key settles.1).elim
      | some key' =>
          by_cases same : key = key'
          · rw [same]
          · have lower := measured.depth_lt (settles.2 key' settles'.1) (Ne.symm same)
            have higher := measured.depth_lt (settles'.2 key settles.1) same
            omega

/-- The answer to a search for a fork, whatever is resident and whatever the ceiling, as long as the
budget of steps exceeds the sum of the heights.
-/
def Answers (catalog : Catalog) (states : σ → Prop) (left right : BlockHash)
    (answer : Option BlockHash)
    : Prop :=
  ∀ (index : Index σ) (budget : Nat),
    catalog.Fits states index
    → catalog.depth left + catalog.depth right < budget
    → ∃ after,
        IndexM.findFork budget left right index = .ok answer after
        ∧ catalog.Fits states after

/-- The search for a fork has one answer: the last common header where there is a common one. It is
the same from the other side, and a header on a branch is its own fork with it.
-/
structure ForkFound (catalog : Catalog) (states : σ → Prop) (left right : BlockHash)
    (answer : Option BlockHash)
    : Prop where
  answers : catalog.Answers states left right answer
  swapped : catalog.Answers states right left answer
  found_iff : answer.isSome = true ↔ ∃ key, catalog.Common left right key
  last
    : ∀ key,
        answer = some key
        → catalog.Common left right key
          ∧ ∀ other, catalog.Common left right other → catalog.Descends key other
  onBranch
    : ∀ above, catalog.Descends left above → catalog.Answers states left above (some above)

theorem Measured.answers {answer : Option BlockHash} (measured : catalog.Measured)
    (serves : catalog.Serves states) (knowsLeft : catalog.knows left = true)
    (knowsRight : catalog.knows right = true) (settles : catalog.Settles left right answer)
    : catalog.Answers states left right answer := by
  intro index budget fits room
  have met := measured.findFork_meets serves fits knowsLeft knowsRight room
  obtain ⟨answer', after, run, kept, settles'⟩ := met.exists_ok
  obtain rfl := measured.settles_unique settles settles'
  exact ⟨after, run, fits.kept kept⟩

/-- Over a store that serves a measured catalog, the search for the fork of two known headers always
ends, with their last common header.
-/
theorem Measured.forkFound (measured : catalog.Measured) (serves : catalog.Serves states)
    (knowsLeft : catalog.knows left = true) (knowsRight : catalog.knows right = true)
    : ∃ answer, catalog.ForkFound states left right answer := by
  obtain ⟨answer, settles⟩ := measured.exists_settles knowsLeft knowsRight _ (Nat.lt_succ_self _)
  refine
    ⟨answer,
      { answers := measured.answers serves knowsLeft knowsRight settles
        swapped := measured.answers serves knowsRight knowsLeft settles.symm
        found_iff := ?_
        last := ?_
        onBranch := ?_ }⟩
  · cases answer with
    | none =>
        constructor
        · intro none
          cases none
        · intro ⟨key, common⟩
          exact (settles key common).elim
    | some key =>
        constructor
        · intro _
          exact ⟨key, settles.1⟩
        · intro _
          rfl
  · intro key same
    subst same
    exact settles
  · intro above descends
    exact measured.answers serves knowsLeft descends.knows_above descends.settles

end HeaderChain.Catalog

namespace HeaderChain

theorem Fork.measured_catalog : store.catalog.Measured where
  toConsistent := consistent_catalog
  nonzero := holds_store root_ne_zero left_ne_zero right_ne_zero
  measured := holds_store ⟨0, rfl⟩ ⟨1, rfl⟩ ⟨1, rfl⟩

theorem Fork.forkFound_root
    : store.catalog.knows left.hash = true
      ∧ store.catalog.knows right.hash = true
      ∧ store.catalog.ForkFound
          (fun other : MemoryStore => other.headers = store.headers ∧ other.poisoned = false)
          left.hash right.hash (some root.hash) := by
  have knownLeft : store.headers.get? left.hash = some leftEntry := by
    rw [get?_store, if_neg left_ne_right, if_pos rfl]
  have knownRight : store.headers.get? right.hash = some rightEntry := by
    rw [get?_store, if_pos rfl]
  have knowsLeft : store.catalog.knows left.hash = true :=
    Catalog.knows_iff.mpr ⟨leftEntry, knownLeft⟩
  have knowsRight : store.catalog.knows right.hash = true :=
    Catalog.knows_iff.mpr ⟨rightEntry, knownRight⟩
  obtain ⟨answer, found⟩ :=
    Catalog.Measured.forkFound measured_catalog store.serves_catalog knowsLeft knowsRight
  have room : store.catalog.depth left.hash + store.catalog.depth right.hash < 3 := by
    simp only [Catalog.depth, MemoryStore.catalog, knownLeft, knownRight]
    decide
  have nothing : store.catalog.Agrees (Resident.empty ⟨1⟩) := by
    intro key record resident
    cases resident
  -- With room for one record, every step of the walk evicts.
  obtain ⟨after, run, _⟩ := found.answers (.new store ⟨1⟩) 3 ⟨⟨rfl, rfl⟩, nothing⟩ room
  have met : (IndexM.findFork 3 left.hash right.hash).Meets (.new store ⟨1⟩)
      (fun answer _ => answer = some root.hash) (fun _ _ => False) := by
    decide +kernel
  rw [met.of_ok run] at found
  exact ⟨knowsLeft, knowsRight, found⟩

end HeaderChain
