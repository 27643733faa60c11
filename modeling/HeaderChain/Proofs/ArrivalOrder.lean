import HeaderChain.Proofs.AppendedChain
import HeaderChain.Proofs.Candidacy

/-! Headers that arrive at an index in different orders. As long as each comes after the one before
it, what the index makes of a header is its place in the chain of all of them, so the same headers
end up with the same records and are listed in the same order.
-/

namespace HeaderChain

open ChainView (Chained)

/-- Each header comes after the one it links to, or has no predecessor. -/
def ParentsFirst : (known : List BlockHash) → List SeenHeader → Prop
  | _, [] => True
  | known, arrival :: rest =>
      (arrival.header.isGenesis = true ∨ arrival.header.prev ∈ known)
      ∧ ParentsFirst (arrival.header.hash :: known) rest

/-- Extends an index with headers as they arrive. -/
def IndexM.extendAll {σ : Type} [HeaderSource σ] (arrivals : List SeenHeader)
    : IndexM σ (List Bool) :=
  arrivals.mapM fun arrival => extend arrival.header arrival.firstSeen

/-- The headers that arrive. -/
def SeenHeader.Among (arrivals : List SeenHeader) (header : Header) : Prop :=
  ∃ arrival ∈ arrivals, arrival.header = header

/-- The sums of work along the chain of the given headers all fit. -/
def ChainView.Bounded (given : Header → Prop) : Prop :=
  ∀ key height work, Chained given key height work → work < Work.capacity

-----------------------------------------------------------------------------------------
-- One more header
-----------------------------------------------------------------------------------------

section Extend

variable {σ : Type} [HeaderSource σ] {index : Index σ} {header : Header} {height : Option Height}
  {baseline total : Work} {firstSeen : UInt64}

/-- A header that is not resident is inserted if its work fits. -/
theorem IndexM.insert_meets_new (absent : index.resident.get? header.hash = none)
    (sum : baseline.add? (HeaderSource.workOf index.store header) = some total)
    : (insert header height baseline firstSeen).Meets index
        (fun answer after =>
          answer = true
          ∧ after = index.changed (.indexed (.unlinked header height total firstSeen)))
        (fun _ _ => False) := by
  have fresh := Resident.contains_eq_false_iff.mpr absent
  simp only [insert, meets_bind, meets_resident, fresh, Bool.false_eq_true, if_false,
    meets_workOf, meets_sum, sum, meets_commit, meets_pure, and_self]

/-- A header that has no predecessor or a resident one extends the index if its work fits. -/
theorem IndexM.extend_eq_new (absent : index.resident.get? header.hash = none)
    (offered
      : (Operation.extend header firstSeen).Offers index.resident header height baseline firstSeen)
    (sum : baseline.add? (HeaderSource.workOf index.store header) = some total)
    : extend header firstSeen index
      = .ok true (index.changed (.indexed (.unlinked header height total firstSeen))) := by
  have fresh := Resident.contains_eq_false_iff.mpr absent
  have met
      : (extend header firstSeen).Meets index
          (fun answer after =>
            answer = true
            ∧ after = index.changed (.indexed (.unlinked header height total firstSeen)))
          (fun _ _ => False) := by
    cases offered with
    | first genesis =>
        simp only [extend, meets_bind, meets_resident, fresh, Bool.false_eq_true, if_false,
          genesis, if_true]
        exact insert_meets_new absent sum
    | child later found =>
        simp only [extend, lookup, meets_bind, meets_resident, fresh, Bool.false_eq_true, if_false,
          later, found, meets_pure]
        exact insert_meets_new absent sum
  obtain ⟨_, _, run, rfl, rfl⟩ := met.exists_ok
  exact run

end Extend

-----------------------------------------------------------------------------------------
-- What has arrived
-----------------------------------------------------------------------------------------

variable {σ : Type}

/-- An index without store and ceiling that was extended with headers: each of them has its place in
the chain, all are candidates, and nothing else is resident.
-/
structure Index.Assembled (given : Header → Prop) (arrivals : List SeenHeader)
    (index : Index (Option σ))
    : Prop where
  storeless : index.store = none
  unlimited : index.resident.config.ceiling = none
  entered
    : ∀ arrival ∈ arrivals,
        ∃ height work,
          Chained given arrival.header.hash height work.toNat
          ∧ index.get? arrival.header.hash
            = some (.unlinked arrival.header height work arrival.firstSeen)
  within : ∀ key, index.contains key = true → ∃ arrival ∈ arrivals, arrival.header.hash = key
  candidates : index.resident.Candidates fun _ => True

namespace Index.Assembled

variable {given : Header → Prop} {arrivals : List SeenHeader} {index : Index (Option σ)}

theorem new (given : Header → Prop)
    : Index.Assembled given [] (.new (none : Option σ) .unbounded) where
  storeless := rfl
  unlimited := rfl
  entered _ member := nomatch member
  within _ resident := nomatch resident
  candidates := by
    refine Resident.Candidates.congr (Recorded.candidates .nil fun _ member => nomatch member) ?_
    intro key entry found
    cases found

/-- The order of the arrivals does not matter. -/
theorem perm {arrivals' : List SeenHeader} (assembled : index.Assembled given arrivals)
    (same : arrivals.Perm arrivals')
    : index.Assembled given arrivals' where
  storeless := assembled.storeless
  unlimited := assembled.unlimited
  entered arrival member := assembled.entered arrival (same.mem_iff.mpr member)
  within key resident := by
    obtain ⟨arrival, member, own⟩ := assembled.within key resident
    exact ⟨arrival, same.mem_iff.mp member, own⟩
  candidates := assembled.candidates

/-- A record that was entered in its place is one more arrival. -/
theorem changed (assembled : index.Assembled given arrivals) {arrival : SeenHeader}
    {height : Option Height} {work : Work}
    (absent : index.get? arrival.header.hash = none)
    (chained : Chained given arrival.header.hash height work.toNat)
    : (index.changed
        (.indexed (.unlinked arrival.header height work arrival.firstSeen))).Assembled given
        (arrival :: arrivals) := by
  let record : Record := .unlinked arrival.header height work arrival.firstSeen
  let listed : Resident := { index.resident with tips := index.resident.tips.insert record }
  have entered (key : BlockHash)
      : (index.changed (.indexed record)).get? key
        = if key = arrival.header.hash then some record else index.get? key :=
    listed.get?_enter_of_unlimited assembled.unlimited arrival.header.hash key record
  refine
    { storeless := assembled.storeless
      unlimited := ?_
      entered := ?_
      within := ?_
      candidates := ?_ }
  · exact (congrArg Config.ceiling (Resident.config_apply _ _)).trans assembled.unlimited
  · intro other member
    rcases List.mem_cons.mp member with rfl | member
    · exact ⟨height, work, chained, (entered _).trans (if_pos rfl)⟩
    · obtain ⟨height', work', chained', found⟩ := assembled.entered other member
      refine ⟨height', work', chained', ?_⟩
      rw [entered, if_neg, found]
      intro same
      rw [same, absent] at found
      cases found
  · intro key resident
    obtain ⟨found, under⟩ := Resident.contains_iff.mp resident
    have kept := (entered key).symm.trans under
    split at kept
    · next same => exact ⟨arrival, List.mem_cons_self, same.symm⟩
    · obtain ⟨other, member, own⟩ := assembled.within key (Resident.contains_iff.mpr ⟨_, kept⟩)
      exact ⟨other, List.mem_cons_of_mem _ member, own⟩
  · refine (assembled.candidates.enterTip record absent).congr ?_
    intro key entry found
    simp

/-- A header that has no predecessor or one that has arrived extends the index, and takes its place
in the chain.
-/
theorem extend [HeaderSource σ] (assembled : index.Assembled given arrivals)
    (bounded : ChainView.Bounded given) {arrival : SeenHeader} (member : given arrival.header)
    (absent : ∀ other ∈ arrivals, other.header.hash ≠ arrival.header.hash)
    (linked
      : arrival.header.isGenesis = true
        ∨ arrival.header.prev ∈ arrivals.map fun other => other.header.hash)
    : ∃ after,
        IndexM.extend arrival.header arrival.firstSeen index = .ok true after
        ∧ after.Assembled given (arrival :: arrivals) := by
  have fresh : index.get? arrival.header.hash = none := by
    refine Resident.contains_eq_false_iff.mp (Bool.eq_false_iff.mpr fun resident => ?_)
    obtain ⟨other, member, own⟩ := assembled.within _ resident
    exact absent other member own
  have workOf : HeaderSource.workOf index.store arrival.header = arrival.header.work := by
    rw [assembled.storeless]
    rfl
  -- the extension makes the sum that the header has in the chain, and that fits
  have placed {height : Option Height} {baseline : Work}
      (offered
        : (Operation.extend arrival.header arrival.firstSeen).Offers index.resident arrival.header
            height baseline arrival.firstSeen)
      (chained
        : Chained given arrival.header.hash height (baseline.toNat + arrival.header.work.toNat))
      : ∃ after,
          IndexM.extend arrival.header arrival.firstSeen index = .ok true after
          ∧ after.Assembled given (arrival :: arrivals) := by
    have fits := bounded _ _ _ chained
    cases sum : baseline.add? arrival.header.work with
    | none => exact absurd fits (Nat.not_lt.mpr (Work.add?_eq_none_iff.mp sum))
    | some total =>
        rw [← Work.add?_eq_some_iff.mp sum] at chained
        rw [← workOf] at sum
        exact ⟨_, IndexM.extend_eq_new fresh offered sum, assembled.changed fresh chained⟩
  cases genesis : arrival.header.isGenesis with
  | true =>
      refine placed (.first genesis) ?_
      have zero : Work.zero.toNat = 0 := rfl
      rw [zero, Nat.zero_add]
      exact .genesis rfl member genesis
  | false =>
      rw [genesis] at linked
      obtain ⟨parent, arrived, own⟩ := List.mem_map.mp (linked.resolve_left Bool.false_ne_true)
      obtain ⟨height, work, chained, found⟩ := assembled.entered parent arrived
      rw [own] at chained found
      exact placed (.child genesis found) (.child rfl member genesis chained)

/-- Headers of different hashes extend the index one after the other, by induction on them. -/
theorem extendAll [HeaderSource σ] (assembled : index.Assembled given arrivals)
    (bounded : ChainView.Bounded given) {coming : List SeenHeader}
    (members : ∀ arrival ∈ coming, given arrival.header)
    (distinct : ((coming ++ arrivals).map fun arrival => arrival.header.hash).Nodup)
    (ordered : ParentsFirst (arrivals.map fun arrival => arrival.header.hash) coming)
    : ∃ after,
        IndexM.extendAll coming index = .ok (coming.map fun _ => true) after
        ∧ after.Assembled given (coming ++ arrivals) := by
  induction coming generalizing index arrivals with
  | nil => exact ⟨index, rfl, assembled⟩
  | cons arrival rest ih =>
      have different := List.nodup_cons.mp distinct
      obtain ⟨between, new, assembled'⟩ :=
        assembled.extend bounded (members arrival List.mem_cons_self) (fun other member same =>
          different.1 (List.mem_map.mpr ⟨other, List.mem_append_right _ member, same⟩)) ordered.1
      have distinct'
          : ((rest ++ arrival :: arrivals).map fun arrival => arrival.header.hash).Nodup := by
        rw [List.map_append, List.map_cons, List.nodup_middle, ← List.map_append]
        exact distinct
      obtain ⟨after, later, assembled''⟩ := ih assembled'
        (fun other member => members other (List.mem_cons_of_mem _ member)) distinct' ordered.2
      refine ⟨after, ?_, ?_⟩
      · rw [IndexM.extendAll] at later ⊢
        rw [List.mapM_cons]
        simp only [bind, EStateM.bind, new, later]
        rfl
      · exact assembled''.perm List.perm_middle

end Index.Assembled

-----------------------------------------------------------------------------------------
-- Two orders
-----------------------------------------------------------------------------------------

/-- The listing of the candidates depends only on what is resident, since no two are in one place. -/
theorem Resident.Candidates.members_eq {left right : Resident} {standing : BlockHash → Prop}
    (first : left.Candidates standing) (second : right.Candidates standing)
    (same : ∀ key, left.get? key = right.get? key)
    : left.tips.members = right.tips.members := by
  have members (tip : Tip) : tip ∈ left.tips.members ↔ tip ∈ right.tips.members := by
    rw [first.members, second.members, unlinked?, unlinked?, same]
  have perm := (List.perm_ext_iff_of_nodup first.listing.nodup second.listing.nodup).mpr members
  refine perm.eq_of_pairwise ?_ first.sorted second.sorted
  intro tip other _ _ before after
  exact (tip.precedes_irrefl (Tip.precedes_trans before after)).elim

/-- Two indexes have the records of the same arrivals and the same listing of candidates. -/
structure Index.Agrees (arrivals : List SeenHeader) (left right : Index (Option σ)) : Prop where
  resident
    : ∀ key, left.contains key = true ↔ key ∈ arrivals.map fun arrival => arrival.header.hash
  entered
    : ∀ arrival ∈ arrivals,
        ∃ height work,
          left.get? arrival.header.hash
          = some (.unlinked arrival.header height work arrival.firstSeen)
  records : ∀ key, left.get? key = right.get? key
  tips : left.tips = right.tips
  best : left.bestTip? = right.bestTip?

namespace Index.Assembled

variable {given : Header → Prop} {arrivals : List SeenHeader} {left right : Index (Option σ)}

theorem contains_iff (assembled : left.Assembled given arrivals) {key : BlockHash}
    : left.contains key = true ↔ ∃ arrival ∈ arrivals, arrival.header.hash = key := by
  refine ⟨assembled.within key, ?_⟩
  rintro ⟨arrival, member, rfl⟩
  obtain ⟨height, work, _, found⟩ := assembled.entered arrival member
  exact Resident.contains_iff.mpr ⟨_, found⟩

/-- The same arrivals have the same records: the place of each in the chain is one. -/
theorem get?_eq (first : left.Assembled given arrivals) (second : right.Assembled given arrivals)
    (injective : ∀ left right, given left → given right → left.hash = right.hash → left = right)
    (key : BlockHash)
    : left.get? key = right.get? key := by
  cases resident : left.contains key with
  | true =>
      obtain ⟨arrival, member, rfl⟩ := first.within key resident
      obtain ⟨height, work, chained, found⟩ := first.entered arrival member
      obtain ⟨height', work', chained', found'⟩ := second.entered arrival member
      obtain ⟨rfl, equal⟩ := chained.unique injective chained'
      obtain rfl := Work.toNat_inj.mp equal
      rw [found, found']
  | false =>
      have resident' : right.contains key = false := by
        refine Bool.eq_false_iff.mpr fun found => ?_
        rw [first.contains_iff.mpr (second.within key found)] at resident
        cases resident
      exact (Resident.contains_eq_false_iff.mp resident).trans
        (Resident.contains_eq_false_iff.mp resident').symm

theorem agrees (first : left.Assembled given arrivals) (second : right.Assembled given arrivals)
    (injective : ∀ left right, given left → given right → left.hash = right.hash → left = right)
    : left.Agrees arrivals right := by
  have records := first.get?_eq second injective
  have members := first.candidates.members_eq second.candidates records
  have tips : left.tips = right.tips := congrArg (List.map Tip.hash) members
  refine ⟨fun key => ?_, ?_, records, tips, congrArg List.head? tips⟩
  · rw [first.contains_iff, List.mem_map]
  · intro arrival member
    obtain ⟨height, work, _, found⟩ := first.entered arrival member
    exact ⟨height, work, found⟩

end Index.Assembled

/-- Headers of different hashes, each with its time, extend an empty index without store and ceiling
one after the other. In whichever order they arrive, as long as each comes after the one it links to
and no sum of work exceeds the capacity, all of them are new, and the index has the same records
and the same listing of candidates in the end.
-/
theorem IndexM.extendAll_perm {σ : Type} [HeaderSource σ] {left right : List SeenHeader}
    (distinct : (left.map fun arrival => arrival.header.hash).Nodup) (same : left.Perm right)
    (ordered : ParentsFirst [] left) (ordered' : ParentsFirst [] right)
    (bounded : ChainView.Bounded (SeenHeader.Among left))
    : ∃ first second : Index (Option σ),
        extendAll left (.new none .unbounded) = .ok (left.map fun _ => true) first
        ∧ extendAll right (.new none .unbounded) = .ok (right.map fun _ => true) second
        ∧ first.Agrees left second := by
  have start : (Index.new (none : Option σ) .unbounded).Assembled (SeenHeader.Among left) [] :=
    .new _
  have distinct' : (right.map fun arrival => arrival.header.hash).Nodup :=
    (same.map _).nodup_iff.mp distinct
  have injective (header header' : Header) (member : SeenHeader.Among left header)
      (member' : SeenHeader.Among left header') (equal : header.hash = header'.hash)
      : header = header' := by
    obtain ⟨arrival, arrived, rfl⟩ := member
    obtain ⟨arrival', arrived', rfl⟩ := member'
    exact congrArg _ (List.inj_on_of_nodup_map distinct arrived arrived' equal)
  obtain ⟨first, run, assembled⟩ := start.extendAll bounded
    (fun arrival member => ⟨arrival, member, rfl⟩) (by simpa using distinct) ordered
  obtain ⟨second, run', assembled'⟩ := start.extendAll bounded
    (fun arrival member => ⟨arrival, same.mem_iff.mpr member, rfl⟩) (by simpa using distinct')
    ordered'
  rw [List.append_nil] at assembled assembled'
  exact ⟨first, second, run, run', assembled.agrees (assembled'.perm same.symm) injective⟩

/-- A lawful view of given headers has each of them in its place, by induction along the chain. -/
theorem ChainView.Lawful.chained_eq {view : ChainView} {given : Header → Prop} {key : BlockHash}
    {height : Option Height} {work : Nat} (lawful : view.Lawful)
    (covers : ∀ header, given header → view.covers header)
    (ownWork : ∀ header, view.workOf header = header.work) (chained : Chained given key height work)
    : view.height key = height ∧ view.work key = work := by
  induction chained with
  | @genesis key header own member first =>
      rw [← own, ← ownWork]
      exact lawful.genesis header (covers header member) first
  | @child key header height work own member later _ ih =>
      obtain ⟨rfl, rfl⟩ := ih
      rw [← own, ← ownWork]
      exact lawful.child header (covers header member) later

namespace Fork

/-- The fork as it arrives, the children at the same time. -/
def arrivals : List SeenHeader :=
  [⟨root, 5⟩, ⟨left, 7⟩, ⟨right, 7⟩]

/-- The fork as it arrives with its children the other way round. -/
def arrivals' : List SeenHeader :=
  [⟨root, 5⟩, ⟨right, 7⟩, ⟨left, 7⟩]

theorem bounded_arrivals : ChainView.Bounded (SeenHeader.Among arrivals) := by
  intro key height work chained
  have covers (header : Header) (member : SeenHeader.Among arrivals header)
      : view.covers header := by
    simpa [SeenHeader.Among, arrivals, view, eq_comm] using member
  obtain ⟨_, rfl⟩ := lawful_view.chained_eq covers (fun _ => rfl) chained
  have small : view.work key ≤ 4 := by
    rw [view]
    dsimp only
    split <;> decide
  exact Nat.lt_of_le_of_lt small (by decide)

-- The children have equal work and came at the same time, so their hashes decide.
theorem extendAll_perm_siblings
    : ∃ first second : Index (Option MemoryStore),
        IndexM.extendAll arrivals (.new none .unbounded) = .ok [true, true, true] first
        ∧ IndexM.extendAll arrivals' (.new none .unbounded) = .ok [true, true, true] second
        ∧ first.Agrees arrivals second
        ∧ first.tips = [left.hash, right.hash, root.hash] := by
  have distinct : (arrivals.map fun arrival => arrival.header.hash).Nodup := by
    simp [arrivals, left_ne_root.symm, right_ne_root.symm, left_ne_right]
  have ordered : ParentsFirst [] arrivals := by
    simp [ParentsFirst, arrivals, Header.isGenesis, root, left, right]
  have ordered' : ParentsFirst [] arrivals' := by
    simp [ParentsFirst, arrivals', Header.isGenesis, root, left, right]
  have same : arrivals.Perm arrivals' := .cons _ (.swap _ _ _)
  have listed
      : (IndexM.extendAll arrivals).Meets (.new (none : Option MemoryStore) .unbounded)
          (fun _ after => after.tips = [left.hash, right.hash, root.hash])
          (fun _ _ => False) := by
    decide +kernel
  obtain ⟨first, second, run, run', agrees⟩ :=
    IndexM.extendAll_perm (σ := MemoryStore) distinct same ordered ordered' bounded_arrivals
  exact ⟨first, second, run, run', agrees, listed.of_ok run⟩

end Fork

end HeaderChain
