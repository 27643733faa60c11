import HeaderChain.Proofs.CommonAncestor

/-! What readers see of caching and eviction: nothing. Over a consistent catalog every resident record
is what hydration would make of its entry, so each query is answered from the catalog alone.
-/

namespace HeaderChain

/-- The operations that only read: what they change is no more than a cache. -/
def Operation.isQuery : Operation → Bool
  | .lookup _ => true
  | .parent _ => true
  | .ancestor _ _ => true
  | .findFork _ _ _ => true
  | .isMoreWork _ _ _ _ => true
  | _ => false

/-- The operations that add a header. -/
def Operation.isAddition : Operation → Bool
  | .insert _ _ _ _ => true
  | .extend _ _ => true
  | _ => false

/-- The answer without the links of its record. -/
def Answer.withoutLinks : Answer → Answer
  | .record found => .record (found.map Record.withoutLinks)
  | answer => answer

/-- What the caller of an operation learns, apart from the links resolved so far. -/
def Operation.outcome {σ : Type} [HeaderSource σ] (operation : Operation) (index : Index σ)
    : Except Failure Answer :=
  match operation.perform index with
  | .ok answer _ => .ok answer.withoutLinks
  | .error failure _ => .error failure

namespace Catalog

/-- The record that the catalog has under a key. -/
def record? (catalog : Catalog) (key : BlockHash) : Option Record :=
  (catalog.entry key).map KnownHeader.record

/-- The hash that lies a number of links above a known key. -/
def ancestor? (catalog : Catalog) (key : BlockHash) (depth : Nat) : Option BlockHash :=
  if catalog.knows key then IndexM.follow catalog.parent? depth key else none

/-- Where two branches meet when the one that is not lower moves to its parent. -/
def meet (catalog : Catalog) : Nat → BlockHash → BlockHash → Except Failure (Option BlockHash)
  | budget, left, right =>
      if left = right then .ok (some left)
      else
        match (catalog.branch left).height, (catalog.branch right).height with
        | some leftHeight, some rightHeight =>
            match budget with
            | 0 => .error .unfinished
            | budget + 1 =>
                if rightHeight ≤ leftHeight then
                  match catalog.parent? left with
                  | none => .ok none
                  | some above => meet catalog budget above right
                else
                  match catalog.parent? right with
                  | none => .ok none
                  | some above => meet catalog budget left above
        | _, _ => .ok none

/-- The last common header of the branches that end in two known headers. -/
def fork (catalog : Catalog) (budget : Nat) (left right : BlockHash)
    : Except Failure (Option BlockHash) :=
  if catalog.knows left && catalog.knows right then catalog.meet budget left right else .ok none

/-- Whether a header that the catalog may know wins over a record with the given work on a base. -/
def moreWork (catalog : Catalog) (base other : Record) (newHash : BlockHash) (newWork : Work)
    : Except Failure Bool :=
  match base.work.add? newWork with
  | none => .error .workOverflow
  | some candidate =>
      if candidate ≠ other.work then .ok (decide (other.work < candidate))
      else .ok ((catalog.record? newHash).any fun known => known.firstSeen < other.firstSeen)

/-- What a query is answered from the catalog alone. -/
def answer (catalog : Catalog) : Operation → Except Failure Answer
  | .lookup key => .ok (.record (catalog.record? key))
  | .parent key => .ok (.record ((catalog.parent? key).bind catalog.record?))
  | .ancestor key depth => .ok (.hash (catalog.ancestor? key depth.toNat))
  | .findFork budget left right => (catalog.fork budget left right).map Answer.hash
  | .isMoreWork base other newHash newWork =>
      (catalog.moreWork base other newHash newWork).map Answer.flag
  | _ => .ok .done

/-- A query with room for its sum and with steps to spare for the heights of its branches. -/
def Suffices (catalog : Catalog) : Operation → Prop
  | .findFork budget left right => catalog.depth left + catalog.depth right < budget
  | .isMoreWork base _ _ newWork => ∃ total, base.work.add? newWork = some total
  | _ => True

/-- Every resident record is what hydration makes of the entry under its key, apart from links. -/
def Mirrored (catalog : Catalog) (resident : Resident) : Prop :=
  ∀ key record, resident.unlinked? key = some record → catalog.record? key = some record

/-- The store is in one of its states, and what is resident mirrors the catalog. -/
structure Mirrors {σ : Type} (catalog : Catalog) (states : σ → Prop) (index : Index σ) : Prop where
  state : states index.store
  mirrored : catalog.Mirrored index.resident

variable {catalog : Catalog}

-----------------------------------------------------------------------------------------
-- What mirrors the catalog
-----------------------------------------------------------------------------------------

theorem Mirrored.agrees {resident : Resident} (mirrored : catalog.Mirrored resident)
    : catalog.Agrees resident := by
  intro key record found
  obtain ⟨entry, known, same⟩ :=
    Option.map_eq_some_iff.mp (mirrored key _ (Resident.unlinked?_of_get? found))
  have unlinked : record.withoutLinks = entry.record.withoutLinks := same.symm
  obtain ⟨header, height, work, _⟩ := Record.withoutLinks_inj.mp unlinked
  exact ⟨entry, known, header, height, work⟩

theorem Mirrored.fills {before after : Resident} (mirrored : catalog.Mirrored before)
    (fills : catalog.Fills before after)
    : catalog.Mirrored after := by
  intro key record found
  rcases fills key record found with kept | ⟨entry, known, rfl⟩
  · exact mirrored key record kept
  · rw [record?, known, Option.map_some]

theorem Mirrored.shrinks {before after : Resident} (mirrored : catalog.Mirrored before)
    (shrinks : before.Shrinks after)
    : catalog.Mirrored after :=
  fun key record found => mirrored key record (shrinks key record found)

variable {σ : Type} {states : σ → Prop} {index : Index σ}

theorem Mirrors.fits (mirrors : catalog.Mirrors states index) : catalog.Fits states index :=
  ⟨mirrors.state, mirrors.mirrored.agrees⟩

theorem Mirrors.kept {before after : Index σ} (mirrors : catalog.Mirrors states before)
    (kept : catalog.Kept states before after)
    : catalog.Mirrors states after :=
  ⟨kept.state, mirrors.mirrored.fills kept.fills⟩

theorem Mirrors.record_eq {key : BlockHash} {record : Record}
    (mirrors : catalog.Mirrors states index) (found : index.resident.get? key = some record)
    : catalog.record? key = some record.withoutLinks :=
  mirrors.mirrored key _ (Resident.unlinked?_of_get? found)

theorem record?_isSome (key : BlockHash) : (catalog.record? key).isSome = catalog.knows key :=
  Option.isSome_map

theorem Consistent.hash_of_record? {key : BlockHash} {record : Record}
    (consistent : catalog.Consistent) (known : catalog.record? key = some record)
    : record.hash = key := by
  obtain ⟨entry, found, rfl⟩ := Option.map_eq_some_iff.mp known
  exact consistent.keyed key entry found

-----------------------------------------------------------------------------------------
-- Queries
-----------------------------------------------------------------------------------------

variable [HeaderSource σ]

/-- On every index that mirrors the catalog, an action has the given outcome, and it leaves an index
that mirrors the catalog.
-/
def Yields {α : Type} (catalog : Catalog) (states : σ → Prop) (action : IndexM σ α)
    (outcome : Except Failure α)
    : Prop :=
  ∀ index,
    catalog.Mirrors states index
    → action.Meets index
        (fun answer after => catalog.Mirrors states after ∧ outcome = .ok answer)
        (fun failure after => catalog.Mirrors states after ∧ outcome = .error failure)

theorem Mirrors.lookup_meets (mirrors : catalog.Mirrors states index)
    (consistent : catalog.Consistent) (supplies : catalog.Supplies states) (key : BlockHash)
    : (IndexM.lookup key).Meets index
        (fun answer after =>
          catalog.Mirrors states after
          ∧ answer.map Record.withoutLinks = catalog.record? key
          ∧ ∀ record, answer = some record → IndexM.Branch.at record = catalog.branch key)
        (fun _ _ => False) := by
  refine (consistent.lookup_meets supplies mirrors.fits key).mono ?_ fun _ _ => id
  intro answer after looked
  obtain ⟨kept, answered, known⟩ := looked
  have mirrors' := mirrors.kept kept
  refine ⟨mirrors', ?_, ?_⟩
  · cases answer with
    | none =>
        have unknown : (catalog.record? key).isSome = false := (record?_isSome key).trans known.symm
        exact (Option.isNone_iff_eq_none.mp (Option.isSome_eq_false_iff.mp unknown)).symm
    | some record => exact (mirrors'.record_eq answered.symm).symm
  · intro record same
    exact mirrors'.fits.branch_at consistent (answered.symm.trans same)

theorem Mirrors.parent_meets (mirrors : catalog.Mirrors states index)
    (consistent : catalog.Consistent) (supplies : catalog.Supplies states) (key : BlockHash)
    : (IndexM.parent key).Meets index
        (fun answer after =>
          catalog.Mirrors states after
          ∧ answer.map Record.withoutLinks = (catalog.parent? key).bind catalog.record?
          ∧ answer.map IndexM.Branch.at = (catalog.parent? key).map catalog.branch)
        (fun _ _ => False) := by
  refine (consistent.parent_meets supplies mirrors.fits key).mono ?_ fun _ _ => id
  intro answer after walked
  obtain ⟨kept, walked⟩ := walked
  have mirrors' := mirrors.kept kept
  refine ⟨mirrors', ?_⟩
  cases parent : catalog.parent? key with
  | none =>
      rw [parent] at walked
      subst walked
      exact ⟨rfl, rfl⟩
  | some prev =>
      rw [parent] at walked
      obtain ⟨answered, isSome⟩ := walked
      obtain ⟨record, rfl⟩ := Option.isSome_iff_exists.mp isSome
      refine ⟨(mirrors'.record_eq answered.symm).symm, ?_⟩
      exact congrArg some (mirrors'.fits.branch_at consistent answered.symm)

theorem Consistent.ancestor_yields (consistent : catalog.Consistent)
    (supplies : catalog.Supplies states) (key : BlockHash) (depth : Nat)
    : catalog.Yields states (IndexM.ancestor key depth) (.ok (catalog.ancestor? key depth)) := by
  intro index mirrors
  rw [IndexM.ancestor, IndexM.meets_bind]
  refine (mirrors.lookup_meets consistent supplies key).mono ?_ fun _ _ => False.elim
  intro found between looked
  obtain ⟨mirrors', answered, _⟩ := looked
  rw [ancestor?, ← record?_isSome, ← answered]
  cases found with
  | none => exact ⟨mirrors', rfl⟩
  | some record =>
      have own := consistent.hash_of_record? answered.symm
      have same : record.hash = key := own
      let kept := catalog.Mirrors states
      have climbed : (IndexM.climb depth record.hash).Meets between
          (fun answer after => kept after ∧ answer = IndexM.follow catalog.parent? depth record.hash)
          (fun _ _ => False) := by
        refine IndexM.climb_meets_of_parents ?_ depth record.hash mirrors'
        intro key index mirrors
        refine (mirrors.parent_meets consistent supplies key).mono ?_ fun _ _ => id
        intro answer after walked
        obtain ⟨mirrors', _, above⟩ := walked
        refine ⟨mirrors', ?_⟩
        have hashes := congrArg (Option.map IndexM.Branch.hash) above
        rw [Option.map_map, Option.map_map] at hashes
        exact hashes.trans Option.map_id'
      refine climbed.mono ?_ fun _ _ => False.elim
      intro answer after reached
      rw [← same]
      exact ⟨reached.1, congrArg Except.ok reached.2.symm⟩

/-- A walk that moves one branch to its parent yields what the rest of the walk yields from there. -/
theorem Consistent.move_yields (consistent : catalog.Consistent)
    (supplies : catalog.Supplies states) (key : BlockHash)
    (rest : IndexM.Branch → IndexM σ (Option BlockHash))
    (onward : BlockHash → Except Failure (Option BlockHash))
    (continued : ∀ prev, catalog.Yields states (rest (catalog.branch prev)) (onward prev))
    : catalog.Yields states
        (do
          match ← IndexM.parent key with
          | none => return none
          | some above => rest (.at above))
        (match catalog.parent? key with
          | none => .ok none
          | some above => onward above) := by
  intro index mirrors
  rw [IndexM.meets_bind]
  refine (mirrors.parent_meets consistent supplies key).mono ?_ fun _ _ => False.elim
  intro found between walked
  obtain ⟨mirrors', _, above⟩ := walked
  cases found with
  | none =>
      rw [Option.map_eq_none_iff.mp above.symm]
      exact ⟨mirrors', rfl⟩
  | some record =>
      obtain ⟨prev, parent, branch⟩ := Option.map_eq_some_iff.mp above.symm
      dsimp only
      rw [parent, ← branch]
      exact continued prev between mirrors'

theorem Consistent.descend_yields (consistent : catalog.Consistent)
    (supplies : catalog.Supplies states) (budget : Nat) (left right : BlockHash)
    : catalog.Yields states
        (IndexM.descend budget (catalog.branch left) (catalog.branch right))
        (catalog.meet budget left right) := by
  induction budget generalizing left right with
  | zero =>
      intro index mirrors
      rw [IndexM.descend, meet]
      split
      · next same => exact ⟨mirrors, if_pos same⟩
      · next different =>
          replace different : left ≠ right := different
          rw [if_neg different]
          cases (catalog.branch left).height with
          | none => exact ⟨mirrors, rfl⟩
          | some leftHeight =>
              cases (catalog.branch right).height with
              | none => exact ⟨mirrors, rfl⟩
              | some rightHeight => exact ⟨mirrors, rfl⟩
  | succ budget ih =>
      intro index mirrors
      rw [IndexM.descend, meet]
      split
      · next same => exact ⟨mirrors, if_pos same⟩
      · next different =>
          replace different : left ≠ right := different
          rw [if_neg different]
          cases (catalog.branch left).height with
          | none => exact ⟨mirrors, rfl⟩
          | some leftHeight =>
              cases (catalog.branch right).height with
              | none => exact ⟨mirrors, rfl⟩
              | some rightHeight =>
                  dsimp only
                  by_cases lower : rightHeight ≤ leftHeight
                  · simp only [if_pos lower]
                    exact consistent.move_yields supplies left
                      (fun branch => IndexM.descend budget branch (catalog.branch right))
                      (fun prev => catalog.meet budget prev right)
                      (fun prev => ih prev right) index mirrors
                  · simp only [if_neg lower]
                    exact consistent.move_yields supplies right
                      (fun branch => IndexM.descend budget (catalog.branch left) branch)
                      (fun prev => catalog.meet budget left prev)
                      (fun prev => ih left prev) index mirrors

theorem Consistent.findFork_yields (consistent : catalog.Consistent)
    (supplies : catalog.Supplies states) (budget : Nat) (left right : BlockHash)
    : catalog.Yields states (IndexM.findFork budget left right)
        (catalog.fork budget left right) := by
  intro index mirrors
  rw [IndexM.findFork, IndexM.meets_bind]
  refine (mirrors.lookup_meets consistent supplies left).mono ?_ fun _ _ => False.elim
  intro found between looked
  obtain ⟨mirrors', answered, branch⟩ := looked
  rw [fork, ← record?_isSome, ← answered]
  cases found with
  | none => exact ⟨mirrors', rfl⟩
  | some leftRecord =>
      dsimp only
      rw [IndexM.meets_bind]
      refine (mirrors'.lookup_meets consistent supplies right).mono ?_ fun _ _ => False.elim
      intro found after looked
      obtain ⟨mirrors'', answered', branch'⟩ := looked
      rw [← record?_isSome, ← answered']
      cases found with
      | none => exact ⟨mirrors'', rfl⟩
      | some rightRecord =>
          dsimp only
          rw [branch leftRecord rfl, branch' rightRecord rfl]
          exact consistent.descend_yields supplies budget left right after mirrors''

theorem Consistent.isMoreWork_yields (consistent : catalog.Consistent)
    (supplies : catalog.Supplies states) (base other : Record) (newHash : BlockHash)
    (newWork : Work)
    : catalog.Yields states (IndexM.isMoreWork base other newHash newWork)
        (catalog.moreWork base other newHash newWork) := by
  intro index mirrors
  rw [IndexM.isMoreWork, moreWork, IndexM.meets_bind, IndexM.meets_sum]
  cases base.work.add? newWork with
  | none => exact ⟨mirrors, rfl⟩
  | some candidate =>
      dsimp only
      by_cases different : candidate ≠ other.work
      · rw [if_pos different, if_pos different]
        exact ⟨mirrors, rfl⟩
      · rw [if_neg different, if_neg different, IndexM.meets_bind]
        refine (mirrors.lookup_meets consistent supplies newHash).mono ?_ fun _ _ => False.elim
        intro found after looked
        obtain ⟨mirrors', answered, _⟩ := looked
        rw [← answered]
        cases found with
        | none => exact ⟨mirrors', rfl⟩
        | some known => exact ⟨mirrors', rfl⟩

omit [HeaderSource σ] in
/-- What an action yields is what an operation answers that only wraps it. -/
theorem Yields.wrapped {α : Type} {action : IndexM σ α} {outcome : Except Failure α}
    (yields : catalog.Yields states action outcome) (mirrors : catalog.Mirrors states index)
    {wrap : α → Answer} (bare : ∀ answer, (wrap answer).withoutLinks = wrap answer)
    : (do return wrap (← action) : IndexM σ Answer).Meets index
        (fun answer after =>
          catalog.Mirrors states after ∧ outcome.map wrap = .ok answer.withoutLinks)
        (fun failure after =>
          catalog.Mirrors states after ∧ outcome.map wrap = .error failure) := by
  rw [IndexM.meets_bind]
  refine (yields index mirrors).mono ?_ ?_
  · intro answer after yielded
    obtain ⟨mirrors', rfl⟩ := yielded
    exact ⟨mirrors', congrArg Except.ok (bare answer).symm⟩
  · intro failure after yielded
    obtain ⟨mirrors', rfl⟩ := yielded
    exact ⟨mirrors', rfl⟩

/-- Every query is answered as from the catalog alone. -/
theorem Consistent.perform_meets {query : Operation} (consistent : catalog.Consistent)
    (supplies : catalog.Supplies states) (mirrors : catalog.Mirrors states index)
    (asks : query.isQuery = true)
    : query.perform.Meets index
        (fun answer after =>
          catalog.Mirrors states after ∧ catalog.answer query = .ok answer.withoutLinks)
        (fun failure after =>
          catalog.Mirrors states after ∧ catalog.answer query = .error failure) := by
  cases query with
  | lookup key =>
      refine IndexM.meets_bind.mpr ?_
      refine (mirrors.lookup_meets consistent supplies key).mono ?_ fun _ _ => False.elim
      intro answer after looked
      refine ⟨looked.1, ?_⟩
      rw [Catalog.answer, ← looked.2.1]
      rfl
  | parent key =>
      refine IndexM.meets_bind.mpr ?_
      refine (mirrors.parent_meets consistent supplies key).mono ?_ fun _ _ => False.elim
      intro answer after walked
      refine ⟨walked.1, ?_⟩
      rw [Catalog.answer, ← walked.2.1]
      rfl
  | ancestor key depth =>
      exact (consistent.ancestor_yields supplies key depth.toNat).wrapped mirrors fun _ => rfl
  | findFork budget left right =>
      exact (consistent.findFork_yields supplies budget left right).wrapped mirrors fun _ => rfl
  | isMoreWork base other newHash newWork =>
      exact (consistent.isMoreWork_yields supplies base other newHash newWork).wrapped mirrors
        fun _ => rfl
  | insert | extend | remove | evict => cases asks

theorem Consistent.outcome_eq {query : Operation} (consistent : catalog.Consistent)
    (supplies : catalog.Supplies states) (mirrors : catalog.Mirrors states index)
    (asks : query.isQuery = true)
    : query.outcome index = catalog.answer query := by
  have met := consistent.perform_meets supplies mirrors asks
  rw [IndexM.Meets] at met
  rw [Operation.outcome]
  split at met
  · next performed => rw [performed, met.2]
  · next performed => rw [performed, met.2]

/-- Queries, removals and evictions keep what is resident a mirror of the catalog. -/
theorem Consistent.mirrors_of_reached {config : Config} (consistent : catalog.Consistent)
    (supplies : catalog.Supplies states)
    (reached
      : Index.Reached states (fun operation => operation.isAddition = false) config index)
    : catalog.Mirrors states index := by
  induction reached with
  | new state => exact ⟨state, fun _ _ found => nomatch found⟩
  | @performed index operation allows _ ih =>
      refine operation.next_of_meets ?_
      have asked (asks : operation.isQuery = true)
          : operation.perform.Meets index
              (fun _ after => catalog.Mirrors states after)
              (fun _ after => catalog.Mirrors states after) :=
        (consistent.perform_meets supplies ih asks).mono (fun _ _ => And.left)
          fun _ _ => And.left
      cases operation with
      | insert => cases allows
      | extend => cases allows
      | lookup | parent | ancestor | findFork | isMoreWork => exact asked rfl
      | remove key =>
          refine IndexM.meets_bind.mpr ?_
          rw [IndexM.remove, IndexM.meets_bind, IndexM.meets_resident]
          split
          · exact ih
          · exact ⟨ih.state, ih.mirrored.shrinks (Resident.shrinks_remove _ key)⟩
      | evict => exact ⟨ih.state, ih.mirrored.shrinks (Resident.shrinks_evictToCeiling _)⟩
  | restocked store state _ ih => exact ⟨state, ih.mirrored⟩

-----------------------------------------------------------------------------------------
-- Enough steps
-----------------------------------------------------------------------------------------

theorem Consistent.depth_of_parent? {key prev : BlockHash} {height : Height}
    (consistent : catalog.Consistent) (parent : catalog.parent? key = some prev)
    (told : (catalog.branch key).height = some height)
    : catalog.depth key = catalog.depth prev + 1 := by
  obtain ⟨entry, known, _, rfl, knows⟩ := parent?_eq_some_iff.mp parent
  obtain ⟨above, knownAbove⟩ := knows_iff.mp knows
  rw [branch, known, Option.bind_some] at told
  exact consistent.depth_prev known knownAbove told

/-- Two branches meet or run out before the sum of their heights is used up, by induction on the
budget: a walk goes on only from where the height is known, and then the parent is one lower.
-/
theorem Consistent.exists_meet (consistent : catalog.Consistent) (budget : Nat)
    {left right : BlockHash} (room : catalog.depth left + catalog.depth right < budget)
    : ∃ answer, catalog.meet budget left right = .ok answer := by
  induction budget generalizing left right with
  | zero => exact (Nat.not_lt_zero _ room).elim
  | succ budget ih =>
      rw [meet]
      split
      · exact ⟨_, rfl⟩
      · cases told : (catalog.branch left).height with
        | none => exact ⟨_, rfl⟩
        | some leftHeight =>
            cases told' : (catalog.branch right).height with
            | none => exact ⟨_, rfl⟩
            | some rightHeight =>
                dsimp only
                split
                · cases parent : catalog.parent? left with
                  | none => exact ⟨_, rfl⟩
                  | some prev =>
                      have step := consistent.depth_of_parent? parent told
                      exact ih (by omega)
                · cases parent : catalog.parent? right with
                  | none => exact ⟨_, rfl⟩
                  | some prev =>
                      have step := consistent.depth_of_parent? parent told'
                      exact ih (by omega)

theorem Consistent.exists_answer (consistent : catalog.Consistent) {query : Operation}
    (enough : catalog.Suffices query)
    : ∃ answer, catalog.answer query = .ok answer := by
  cases query with
  | findFork budget left right =>
      rw [Catalog.answer, fork]
      split
      · obtain ⟨answer, met⟩ := consistent.exists_meet budget enough
        exact ⟨_, by rw [met]; rfl⟩
      · exact ⟨_, rfl⟩
  | isMoreWork base other newHash newWork =>
      obtain ⟨total, sum⟩ := enough
      rw [Catalog.answer, moreWork, sum]
      dsimp only
      split
      · exact ⟨_, rfl⟩
      · exact ⟨_, rfl⟩
  | _ => exact ⟨_, rfl⟩

end Catalog

/-- Whatever was looked up, removed or evicted before, and whatever the ceilings, two indexes over one
consistent catalog give the same outcome to every query. It is an answer unless the query's own sum
of work overflows or it allows too few steps.
-/
theorem Index.Reached.transparent {σ : Type} [HeaderSource σ] {states : σ → Prop}
    {catalog : Catalog} {config config' : Config} {index index' : Index σ} {query : Operation}
    (consistent : catalog.Consistent) (supplies : catalog.Supplies states)
    (reached
      : Index.Reached states (fun operation => operation.isAddition = false) config index)
    (reached'
      : Index.Reached states (fun operation => operation.isAddition = false) config' index')
    (asks : query.isQuery = true)
    : query.outcome index = query.outcome index'
      ∧ (catalog.Suffices query → ∃ answer, query.outcome index = .ok answer) := by
  have mirrors := consistent.mirrors_of_reached supplies reached
  have mirrors' := consistent.mirrors_of_reached supplies reached'
  rw [consistent.outcome_eq supplies mirrors asks, consistent.outcome_eq supplies mirrors' asks]
  exact ⟨rfl, consistent.exists_answer⟩

/-- An index with room for one record, after a step from a child to the root. -/
def Fork.stepped : Index MemoryStore :=
  (Operation.parent left.hash).next (.new Fork.store ⟨1⟩)

/-- An index without ceiling, after a step from the other child and the removal of the root. -/
def Fork.pruned : Index MemoryStore :=
  (Operation.remove root.hash).next ((Operation.ancestor right.hash 1).next (.new Fork.store ⟨0⟩))

-- The two indexes have nothing in common.
theorem Fork.transparent_findFork
    : stepped.resident.table.keys = [root.hash]
      ∧ pruned.resident.table.keys = [right.hash]
      ∧ (Operation.findFork 3 left.hash right.hash).outcome stepped
        = (Operation.findFork 3 left.hash right.hash).outcome pruned
      ∧ (Operation.findFork 3 left.hash right.hash).outcome stepped
        = .ok (.hash (some root.hash)) := by
  have keys : stepped.resident.table.keys = [root.hash]
      ∧ pruned.resident.table.keys = [right.hash] := by
    decide +kernel
  have serves := store.serves_catalog
  let states (other : MemoryStore) : Prop :=
    other.headers = store.headers ∧ other.poisoned = false
  let quiet (operation : Operation) : Prop := operation.isAddition = false
  have reached : Index.Reached states quiet ⟨1⟩ stepped := .performed _ rfl (.new ⟨rfl, rfl⟩)
  have reached' : Index.Reached states quiet ⟨0⟩ pruned :=
    .performed _ rfl (.performed _ rfl (.new ⟨rfl, rfl⟩))
  have met : (Operation.findFork 3 left.hash right.hash).perform.Meets stepped
      (fun answer _ => answer.withoutLinks = .hash (some root.hash)) (fun _ _ => False) := by
    decide +kernel
  obtain ⟨answer, after, run, found⟩ := met.exists_ok
  have answered : (Operation.findFork 3 left.hash right.hash).outcome stepped
      = .ok (.hash (some root.hash)) := by
    rw [Operation.outcome, run, ← found]
  exact ⟨keys.1, keys.2,
    (Index.Reached.transparent consistent_catalog serves.supplies reached reached' rfl).1, answered⟩

end HeaderChain
