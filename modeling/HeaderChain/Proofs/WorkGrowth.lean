import HeaderChain.Proofs.Bookkeeping
import HeaderChain.Proofs.ChainView

/-! Work grows towards the tips. Every header adds at least one attempt, whatever its bits stand
for, so a header has more work than any header before it, and the best candidate is never before
another one. The headers in between need not be resident.
-/

namespace HeaderChain

open Relation (TransGen)

/-- No header is free. -/
theorem Header.work_pos (header : Header) : 0 < header.work.toNat :=
  Work.ofTarget_pos _

namespace ChainView

/-- A covered header links one hash to the next. -/
inductive Link (view : ChainView) : BlockHash → BlockHash → Prop
  | header {header} (covered : view.covers header) : Link view header.prev header.hash

/-- The way from one hash down to another follows one link or more. -/
def Ancestor (view : ChainView) : BlockHash → BlockHash → Prop :=
  TransGen view.Link

variable {view : ChainView} {above below : BlockHash}

-----------------------------------------------------------------------------------------
-- Along the links
-----------------------------------------------------------------------------------------

/-- Whatever has a header before it is a header itself, so its hash is not zero. -/
theorem Lawful.below_ne_zero (lawful : view.Lawful) (ancestor : view.Ancestor above below)
    : below ≠ .zero := by
  obtain ⟨_, _, link⟩ := TransGen.tail'_iff.mp ancestor
  cases link with
  | header covered => exact lawful.nonzero _ covered

/-- Along a link heights count and the work of one header is added. -/
theorem Lawful.link (lawful : view.Lawful) (link : view.Link above below) (nonzero : above ≠ .zero)
    : view.height below = (view.height above).bind Height.next?
      ∧ ∃ header,
          view.covers header
          ∧ view.work below = view.work above + (view.workOf header).toNat := by
  cases link with
  | @header header covered =>
      obtain ⟨height, work⟩ := lawful.child header covered (decide_eq_false nonzero)
      exact ⟨height, header, covered, work⟩

/-- Work grows along every way down, by induction on its links. -/
theorem Lawful.work_lt (lawful : view.Lawful)
    (ownWork : ∀ header, view.covers header → view.workOf header = header.work)
    (ancestor : view.Ancestor above below) (nonzero : above ≠ .zero)
    : view.work above < view.work below := by
  have grows {above below : BlockHash} (link : view.Link above below) (nonzero : above ≠ .zero)
      : view.work above < view.work below := by
    obtain ⟨_, header, covered, work⟩ := lawful.link link nonzero
    have more := header.work_pos
    rw [ownWork header covered] at work
    omega
  induction ancestor with
  | single link => exact grows link nonzero
  | tail before link ih => exact Nat.lt_trans ih (grows link (lawful.below_ne_zero before))

/-- Heights grow along every way down as far as they are known: once past the greatest one, they
stay unknown.
-/
theorem Lawful.height_lt {height height' : Height} (lawful : view.Lawful)
    (ancestor : view.Ancestor above below) (nonzero : above ≠ .zero)
    (known : view.height above = some height) (known' : view.height below = some height')
    : height < height' := by
  induction ancestor generalizing height' with
  | single link =>
      rw [(lawful.link link nonzero).1, known] at known'
      have next := Height.next?_eq_some_iff.mp known'
      exact UInt32.lt_iff_toNat_lt.mpr (by omega)
  | tail before link ih =>
      rw [(lawful.link link (lawful.below_ne_zero before)).1] at known'
      obtain ⟨between, knownBetween, after⟩ := Option.bind_eq_some_iff.mp known'
      have next := Height.next?_eq_some_iff.mp after
      have earlier := UInt32.lt_iff_toNat_lt.mp (ih knownBetween)
      exact UInt32.lt_iff_toNat_lt.mpr (by omega)

-----------------------------------------------------------------------------------------
-- What is resident
-----------------------------------------------------------------------------------------

variable {σ : Type} [HeaderSource σ] {states : σ → Prop} {config : Config} {index : Index σ}

/-- Whatever is resident after a run that follows the chain is in its place. -/
theorem Lawful.placed_of_reached (lawful : view.Lawful) (answered : view.Answered states)
    (reached : Index.Reached states view.Follows config index)
    : view.Placed index.resident :=
  (reached.invariant (fun index => view.Placed index.resident) answered.toReadClosed
    (fun _ _ _ found => nomatch found) (fun _ _ placed => placed)
    fun _ _ _ follows state placed step => lawful.step answered follows state placed step).2

end ChainView

/-- A candidate does not have less work than one that it precedes. -/
theorem Tip.Precedes.work_le {left right : Tip} (precedes : left.Precedes right)
    : right.position.work.toNat ≤ left.position.work.toNat := by
  rcases precedes with (more | ⟨same, _⟩) | ⟨same, _⟩
  · exact Nat.le_of_lt more
  · exact Nat.le_of_eq (congrArg Work.toNat same.symm)
  · exact Nat.le_of_eq (congrArg (fun position => position.work.toNat) same.symm)

/-- No candidate has more work than the best one. -/
theorem Resident.Tidy.work_le_best {resident : Resident} (tidy : resident.Tidy)
    {best other : BlockHash} (ahead : resident.tips.best? = some best)
    (listed : other ∈ resident.tips.hashes)
    : ∃ first second,
        resident.get? best = some first
        ∧ resident.get? other = some second
        ∧ second.work.toNat ≤ first.work.toNat := by
  rw [Tips.best?, Tips.hashes, List.head?_map] at ahead
  obtain ⟨tip, head, rfl⟩ := Option.map_eq_some_iff.mp ahead
  obtain ⟨tip', member, rfl⟩ := List.mem_map.mp listed
  obtain ⟨first, found, rfl⟩ := tidy.record_of_mem (List.mem_of_head? head)
  obtain ⟨second, found', rfl⟩ := tidy.record_of_mem member
  refine ⟨first, second, found, found', ?_⟩
  obtain ⟨rest, members⟩ := List.head?_eq_some_iff.mp head
  have sorted := tidy.sorted
  rw [members] at sorted member
  rcases List.mem_cons.mp member with same | later
  · exact Nat.le_of_eq (congrArg (fun tip => tip.position.work.toNat) same)
  · exact ((List.pairwise_cons.mp sorted).1 _ later).work_le

/-- The work of what is resident grows along the chain, and so do the heights that are known. The
best candidate is before no other.
-/
structure Index.WorkClimbs {σ : Type} (view : ChainView) (index : Index σ) : Prop where
  work
    : ∀ above below upper lower,
        index.get? above = some upper
        → index.get? below = some lower
        → view.Ancestor above below
        → upper.work < lower.work
  height
    : ∀ above below upper lower height height',
        index.get? above = some upper
        → index.get? below = some lower
        → view.Ancestor above below
        → upper.height = some height
        → lower.height = some height'
        → height < height'
  best
    : ∀ best other,
        index.bestTip? = some best
        → other ∈ index.tips
        → ¬ view.Ancestor best other

/-- Where the work of headers comes from their own bits and everything that the store answers and
that is inserted agrees with one chain, work climbs after every run of operations, also across
headers that were evicted or have never been resident.
-/
theorem Index.Reached.workClimbs {σ : Type} [HeaderSource σ] {view : ChainView} {states : σ → Prop}
    {config : Config} {index : Index σ} (lawful : view.Lawful) (answered : view.Answered states)
    (ownWork : ∀ header, view.covers header → view.workOf header = header.work)
    (reached : Index.Reached states view.Follows config index)
    : index.WorkClimbs view := by
  have placed := lawful.placed_of_reached answered reached
  have nonzero {key : BlockHash} {record : Record} (found : index.get? key = some record)
      : key ≠ .zero := by
    have places := placed.of_get? found
    exact places.hash ▸ lawful.nonzero record.header places.covers
  have climbs (above below : BlockHash) (upper lower : Record)
      (found : index.get? above = some upper) (found' : index.get? below = some lower)
      (ancestor : view.Ancestor above below)
      : upper.work < lower.work := by
    have more := lawful.work_lt ownWork ancestor (nonzero found)
    rw [← (placed.of_get? found).work, ← (placed.of_get? found').work] at more
    exact more
  refine ⟨climbs, ?_, ?_⟩
  · intro above below upper lower height height' found found' ancestor known known'
    rw [(placed.of_get? found).height] at known
    rw [(placed.of_get? found').height] at known'
    exact lawful.height_lt ancestor (nonzero found) known known'
  · intro best other ahead listed ancestor
    obtain ⟨replayed, recorded⟩ := reached.recorded answered.toReadClosed
    have tidy : index.resident.Tidy := replayed ▸ recorded.tidy
    obtain ⟨first, second, found, found', notMore⟩ := tidy.work_le_best ahead listed
    exact Nat.not_lt.mpr notMore (climbs best other first second found found' ancestor)

-----------------------------------------------------------------------------------------
-- A run that loses a header in between
-----------------------------------------------------------------------------------------

namespace Fork

/-- A child of the left child whose bits stand for the least work. -/
def leaf : Header := ⟨2, left.hash, .zero, 2, 0x2100ffff, 3⟩

theorem hash_leaf
    : leaf.hash
      = ⟨0x06c0948ef3754c112fa34534be114af772ac972cdc18cbff54b7ae5d635e879d⟩ := by
  rw [leaf, hash_left]
  decide +kernel

theorem leaf_ne_zero : leaf.hash ≠ .zero := by
  rw [hash_leaf]
  decide

theorem leaf_ne_root : leaf.hash ≠ root.hash := by
  rw [hash_leaf, hash_root]
  decide

theorem leaf_ne_left : leaf.hash ≠ left.hash := by
  rw [hash_leaf, hash_left]
  decide

theorem leaf_ne_right : leaf.hash ≠ right.hash := by
  rw [hash_leaf, hash_right]
  decide

/-- The fork with the leaf as a chain. -/
def leafView : ChainView where
  covers header := view.covers header ∨ header = leaf
  workOf := Header.work
  height key := if key = leaf.hash then some 2 else view.height key
  work key := if key = leaf.hash then 5 else view.work key

/-- The leaf changes nothing for the headers before it. -/
theorem leafView_eq {key : BlockHash} (other : key ≠ leaf.hash)
    : leafView.height key = view.height key ∧ leafView.work key = view.work key :=
  ⟨if_neg other, if_neg other⟩

theorem hash_ne_leaf {header : Header} (covered : view.covers header)
    : header.hash ≠ leaf.hash := by
  rcases covered with rfl | rfl | rfl
  · exact leaf_ne_root.symm
  · exact leaf_ne_left.symm
  · exact leaf_ne_right.symm

theorem lawful_leafView : leafView.Lawful where
  nonzero header covered := by
    rcases covered with covered | rfl
    · exact lawful_view.nonzero header covered
    · exact leaf_ne_zero
  genesis header covered genesis := by
    rcases covered with covered | rfl
    · obtain ⟨height, work⟩ := leafView_eq (hash_ne_leaf covered)
      rw [height, work]
      exact lawful_view.genesis header covered genesis
    · exact absurd (of_decide_eq_true genesis) left_ne_zero
  child header covered later := by
    rcases covered with covered | rfl
    · obtain ⟨height, work⟩ := leafView_eq (hash_ne_leaf covered)
      have before : header.prev ≠ leaf.hash := by
        rcases covered with rfl | rfl | rfl
        · exact leaf_ne_zero.symm
        · exact leaf_ne_root.symm
        · exact leaf_ne_root.symm
      obtain ⟨height', work'⟩ := leafView_eq before
      rw [height, work, height', work']
      exact lawful_view.child header covered later
    · have prev : leaf.prev = left.hash := rfl
      have work : leaf.work.toNat = 1 := by decide
      have next : Height.next? 1 = some 2 := by decide
      simp [leafView, view, prev, work, next, leaf_ne_left.symm, left_ne_root]

theorem holds_leafView : MemoryStore.Holds leafView.Enters store := by
  intro key entry found
  obtain ⟨covered, own, height, work⟩ := holds_view key entry found
  obtain ⟨height', work'⟩ := leafView_eq (hash_ne_leaf covered)
  rw [own] at height' work'
  exact ⟨.inl covered, own, height.trans height'.symm, work.trans work'.symm⟩

/-- An index with room for two records, after a lookup of the left child, an extension with the leaf
and a lookup of the root, which evicts the child between them.
-/
def gapped : Index MemoryStore :=
  (Operation.lookup root.hash).next
    ((Operation.extend leaf 8).next ((Operation.lookup left.hash).next (.new store ⟨2⟩)))

theorem workClimbs_gapped
    : gapped.resident.table.keys = [leaf.hash, root.hash]
      ∧ (gapped.get? root.hash).map Record.work = some (.ofNat 2)
      ∧ (gapped.get? leaf.hash).map Record.work = some (.ofNat 5)
      ∧ leafView.Ancestor root.hash leaf.hash
      ∧ gapped.WorkClimbs leafView := by
  have content
      : gapped.resident.table.keys = [leaf.hash, root.hash]
        ∧ (gapped.get? root.hash).map Record.work = some (.ofNat 2)
        ∧ (gapped.get? leaf.hash).map Record.work = some (.ofNat 5) := by
    decide +kernel
  have covered : leafView.covers left := .inl (.inr (.inl rfl))
  have covered' : leafView.covers leaf := .inr rfl
  have ancestor : leafView.Ancestor root.hash leaf.hash :=
    .tail (.single (.header covered)) (.header covered')
  have reached : Index.Reached _ leafView.Follows ⟨2⟩ gapped :=
    .performed _ trivial (.performed _ covered' (.performed _ trivial (.new holds_leafView)))
  exact ⟨content.1, content.2.1, content.2.2, ancestor,
    Index.Reached.workClimbs lawful_leafView (ChainView.answered_memory fun _ => rfl)
      (fun _ _ => rfl) reached⟩

end Fork

end HeaderChain
