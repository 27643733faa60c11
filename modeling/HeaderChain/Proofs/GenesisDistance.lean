import HeaderChain.Proofs.Extension
import HeaderChain.Proofs.Filing
import HeaderChain.Proofs.PlainWalk
import HeaderChain.Proofs.StoreUpkeep
import HeaderChain.Proofs.Transparency

/-! Heights as distances to genesis. An index without store and ceiling that is only read and
extended holds every record on top of one that was there before, so walks down from a header end at
one without predecessor after as many steps as its height says.
-/

namespace HeaderChain

open ChainView (Chained)
open Relation (TransGen)

variable {σ : Type}

/-- Operations that read, and extensions. -/
def Operation.Builds : Operation → Prop
  | .extend _ _ => True
  | operation => operation.isQuery = true

/-- A header is resident. -/
def Index.Resides (index : Index σ) (header : Header) : Prop :=
  ∃ record, index.get? header.hash = some record ∧ record.header = header

theorem Index.resides_iff {index : Index σ} {header : Header}
    : index.Resides header
      ↔ ∃ entry, index.resident.unlinked? header.hash = some entry ∧ entry.header = header := by
  constructor
  · rintro ⟨record, found, same⟩
    exact ⟨record.withoutLinks, Resident.unlinked?_of_get? found, same⟩
  · rintro ⟨entry, under, same⟩
    obtain ⟨record, found, rfl⟩ := Option.map_eq_some_iff.mp under
    exact ⟨record, found, same⟩

/-- Only one header is resident under a hash. -/
theorem Index.resides_injective {index : Index σ} {left right : Header}
    (resides : index.Resides left) (resides' : index.Resides right) (same : left.hash = right.hash)
    : left = right := by
  obtain ⟨record, found, rfl⟩ := resides
  obtain ⟨record', found', rfl⟩ := resides'
  rw [same] at found
  cases found.symm.trans found'
  rfl

-----------------------------------------------------------------------------------------
-- Growth
-----------------------------------------------------------------------------------------

/-- The place of a header stays as it is when more headers are given. -/
theorem ChainView.Chained.mono {given given' : Header → Prop} {key : BlockHash}
    {height : Option Height} {work : Nat} (more : ∀ header, given header → given' header)
    (chained : Chained given key height work)
    : Chained given' key height work := by
  induction chained with
  | genesis own member first => exact .genesis own (more _ member) first
  | child own member later _ ih => exact .child own (more _ member) later ih

/-- Nothing is ever evicted, and every record is in its place in the chain of the resident headers.
-/
structure Index.Grounded (index : Index σ) : Prop where
  unlimited : index.resident.config.ceiling = none
  own : ∀ key entry, index.resident.unlinked? key = some entry → entry.hash = key
  chained
    : ∀ key entry,
        index.resident.unlinked? key = some entry
        → Chained index.Resides key entry.height entry.work.toNat

/-- Only the records apart from their links matter. -/
theorem Index.Grounded.congr {before after : Index σ} (grounded : before.Grounded)
    (config : after.resident.config = before.resident.config)
    (same : ∀ key, after.resident.unlinked? key = before.resident.unlinked? key)
    : after.Grounded where
  unlimited := config ▸ grounded.unlimited
  own key entry under := grounded.own key entry (same key ▸ under)
  chained key entry under := by
    refine (grounded.chained key entry (same key ▸ under)).mono fun header resides => ?_
    rw [resides_iff] at resides ⊢
    rwa [same]

theorem Index.unlinked?_indexed {index : Index σ} (unlimited : index.resident.config.ceiling = none)
    (record : Record) (key : BlockHash)
    : (index.changed (.indexed record)).resident.unlinked? key
      = if key = record.hash then some record.withoutLinks
        else index.resident.unlinked? key := by
  let listed : Resident := { index.resident with tips := index.resident.tips.insert record }
  have found := listed.get?_enter_of_unlimited unlimited record.hash key record
  change ((listed.enter record.hash record).get? key).map Record.withoutLinks = _
  rw [found]
  split <;> rfl

/-- A record is where its header belongs: at the start without predecessor, or on top of a resident
one.
-/
inductive Record.Fits (index : Index σ) (record : Record) : Prop
  | first (genesis : record.header.isGenesis = true) (height : record.height = some 0)
    (work : record.work = record.header.work)
  | child {parent : Record} (later : record.header.isGenesis = false)
    (found : index.get? record.prev = some parent) (height : record.height = parent.childHeight?)
    (work : record.work.toNat = parent.work.toNat + record.header.work.toNat)

/-- A new record that is entered where its header belongs is in its place. -/
theorem Index.Grounded.indexed {before : Index σ} {record : Record} (grounded : before.Grounded)
    (absent : before.get? record.hash = none) (fits : record.Fits before)
    : (before.changed (.indexed record)).Grounded := by
  have held := unlinked?_indexed grounded.unlimited record
  have more (other : Header) (resides : before.Resides other)
      : (before.changed (.indexed record)).Resides other := by
    rw [resides_iff] at resides ⊢
    obtain ⟨entry, under, same⟩ := resides
    refine ⟨entry, ?_, same⟩
    rw [held, if_neg, under]
    intro equal
    rw [equal, Resident.unlinked?_eq_none_iff.mpr absent] at under
    cases under
  have new : (before.changed (.indexed record)).Resides record.header := by
    refine resides_iff.mpr ⟨record.withoutLinks, ?_, rfl⟩
    rw [held]
    exact if_pos rfl
  have placed
      : Chained (before.changed (.indexed record)).Resides record.hash record.height
          record.work.toNat := by
    cases fits with
    | first genesis height work =>
        rw [height, work]
        exact .genesis rfl new genesis
    | child later found height work =>
        rw [height, work]
        have above := grounded.chained _ _ (Resident.unlinked?_of_get? found)
        exact .child rfl new later (above.mono more)
  refine ⟨?_, fun key entry under => ?_, fun key entry under => ?_⟩
  · exact (congrArg Config.ceiling (Resident.config_apply _ _)).trans grounded.unlimited
  · rw [held] at under
    split at under
    · next same =>
        cases under
        exact same.symm
    · exact grounded.own key entry under
  · rw [held] at under
    split at under
    · next same =>
        cases under
        exact same ▸ placed
    · exact (grounded.chained key entry under).mono more

variable [HeaderSource σ]

/-- Without a store, a step leaves all records as they are, apart from their links, or else it is
that of an extension, which enters its header where it belongs.
-/
theorem Index.Step.keeps_or_enters {operation : Operation} {before after : Index (Option σ)}
    (step : Index.Step operation before after) (builds : operation.Builds)
    (storeless : before.store = none)
    : (after.resident.config = before.resident.config
        ∧ ∀ key, after.resident.unlinked? key = before.resident.unlinked? key)
      ∨ ∃ record,
          operation.isQuery = false
          ∧ before.get? record.hash = none
          ∧ record.Fits before
          ∧ after = before.changed (.indexed record) := by
  cases step with
  | fetched => exact .inl ⟨rfl, fun _ => rfl⟩
  | heightAsked => exact .inl ⟨rfl, fun _ => rfl⟩
  | workAsked => exact .inl ⟨rfl, fun _ => rfl⟩
  | hydrated _ answered =>
      rw [storeless] at answered
      cases answered
  | @indexed header height baseline firstSeen total offered absent sum =>
      have own : HeaderSource.workOf before.store header = header.work := by
        rw [storeless]
        rfl
      rw [own, Work.add?_eq_some_iff] at sum
      cases offered with
      | stated => cases builds
      | first genesis =>
          have work := Work.toNat_inj.mp (sum.trans (Nat.zero_add _))
          refine .inr ⟨.unlinked header (some 0) total firstSeen, rfl, absent, ?_, rfl⟩
          exact .first genesis rfl work
      | child later found =>
          refine .inr ⟨.unlinked header _ total firstSeen, rfl, absent, ?_, rfl⟩
          exact .child later found rfl sum
  | removed asked =>
      subst asked
      cases builds
  | linked => exact .inl ⟨rfl, fun key => Resident.unlinked?_link _ _ key⟩
  | trimmed asked =>
      subst asked
      cases builds

theorem Index.Step.grounded {operation : Operation} {before after : Index (Option σ)}
    (step : Index.Step operation before after) (builds : operation.Builds)
    (storeless : before.store = none) (grounded : before.Grounded)
    : after.Grounded := by
  rcases step.keeps_or_enters builds storeless with ⟨config, same⟩ | ⟨record, _, absent, fits, rfl⟩
  · exact grounded.congr config same
  · exact grounded.indexed absent fits

/-- However an index was built, it is grounded. -/
theorem Index.Reached.grounded {config : Config} {index : Index (Option σ)}
    (unlimited : config.ceiling = none)
    (reached : Index.Reached (fun store => store = none) Operation.Builds config index)
    : index.Grounded := by
  refine (reached.invariant Index.Grounded reliable_absent.toReadClosed ?_ ?_ ?_).2
  · intro store
    refine ⟨unlimited, fun key entry under => ?_, fun key entry under => ?_⟩
    · cases under
    · cases under
  · intro index store grounded
    exact grounded.congr rfl fun _ => rfl
  · intro operation before after builds storeless grounded step
    exact step.grounded builds storeless grounded

-----------------------------------------------------------------------------------------
-- Lineages
-----------------------------------------------------------------------------------------

section Lineage

variable {given : Header → Prop} {key top : BlockHash} {headers : List Header}

/-- Along a lineage of available headers, the walk passes from each to the next, by induction along
it.
-/
theorem Header.Line.walk_eq {available : BlockHash → Option Header}
    (lineage : Header.Lineage given key headers)
    (supplied : ∀ header, given header → available header.hash = some header) (depth : Nat)
    : walk available depth key = headers[depth]?.map Header.hash := by
  induction lineage generalizing depth with
  | last own member genesis =>
      have found := supplied _ member
      rw [own] at found
      cases depth with
      | zero => simp [walk, found, own]
      | succ depth => simp [walk, found, genesis]
  | cons own member later _ ih =>
      have found := supplied _ member
      rw [own] at found
      cases depth with
      | zero => simp [walk, found, own]
      | succ depth => simp [walk, found, later, ih]

/-- Where different headers have different hashes, a walk that leads from one hash to another makes
the lineage shorter, by induction on the walk.
-/
theorem Filing.exists_shorter
    (injective : ∀ left right, given left → given right → left.hash = right.hash → left = right)
    (leads : TransGen (Filing.own given).Leads key top) (lineage : Header.Lineage given key headers)
    : ∃ shorter, Header.Lineage given top shorter ∧ shorter.length < headers.length := by
  have once {key next : BlockHash} {headers : List Header}
      (leads : (Filing.own given).Leads key next) (lineage : Header.Lineage given key headers)
      : ∃ shorter, Header.Lineage given next shorter ∧ shorter.length < headers.length := by
    obtain ⟨⟨member, own⟩, later, ⟨_, named⟩⟩ := leads
    cases lineage with
    | last own' member' genesis =>
        rw [injective _ _ member' member (own'.trans own.symm), later] at genesis
        cases genesis
    | @cons _ header rest own' member' _ higher =>
        rw [injective _ _ member' member (own'.trans own.symm), ← named] at higher
        exact ⟨rest, higher, Nat.lt_succ_self _⟩
  induction leads with
  | single leads => exact once leads lineage
  | tail _ leads ih =>
      obtain ⟨between, lineage', less⟩ := ih
      obtain ⟨shorter, lineage'', less'⟩ := once leads lineage'
      exact ⟨shorter, lineage'', Nat.lt_trans less' less⟩

end Lineage

namespace Index.Grounded

variable {index : Index (Option σ)} {key : BlockHash} {entry : Record} {headers : List Header}

omit [HeaderSource σ] in
/-- Height and work of a record are those of its lineage. -/
theorem place_eq (grounded : index.Grounded) (under : index.resident.unlinked? key = some entry)
    (lineage : Header.Lineage index.Resides key headers)
    : entry.height = Height.counted? (headers.length - 1)
      ∧ entry.work.toNat = Header.totalWork headers :=
  (grounded.chained key entry under).unique (fun _ _ => resides_injective)
    (ChainView.chained_of_lineage lineage)

omit [HeaderSource σ] in
theorem exists_lineage (grounded : index.Grounded)
    (under : index.resident.unlinked? key = some entry)
    : ∃ headers, Header.Lineage index.Resides key headers ∧ headers.head? = some entry.header := by
  obtain ⟨headers, lineage⟩ := (grounded.chained key entry under).exists_lineage
  obtain ⟨header, first, own, member⟩ := lineage.exists_head?
  have own' : entry.header.hash = key := grounded.own key entry under
  have member' : index.Resides entry.header := resides_iff.mpr ⟨entry, own' ▸ under, rfl⟩
  exact ⟨headers, lineage, resides_injective member member' (own.trans own'.symm) ▸ first⟩

omit [HeaderSource σ] in
/-- No walk leads back to where it came from. -/
theorem acyclic (grounded : index.Grounded) (key : BlockHash)
    : ¬ TransGen (Filing.own index.Resides).Leads key key := by
  intro cycle
  obtain ⟨next, leads, _⟩ := TransGen.head'_iff.mp cycle
  obtain ⟨⟨member, own⟩, _, _⟩ := leads
  obtain ⟨entry, under, _⟩ := resides_iff.mp member
  rw [own] at under
  obtain ⟨headers, lineage, _⟩ := grounded.exists_lineage under
  obtain ⟨shorter, lineage', less⟩ :=
    Filing.exists_shorter (fun _ _ => resides_injective) cycle lineage
  rw [lineage.lineage_unique (fun _ _ => resides_injective) lineage'] at less
  exact Nat.lt_irrefl _ less

end Index.Grounded

-----------------------------------------------------------------------------------------
-- Walks
-----------------------------------------------------------------------------------------

/-- The catalog of a store that knows nothing. -/
def Catalog.empty : Catalog :=
  ⟨fun _ => none, Header.work⟩

theorem Catalog.empty_supplies : Catalog.empty.Supplies fun store : Option σ => store = none where
  fetch store key absent := by
    subst absent
    exact ⟨none, rfl, rfl⟩
  heightFor _ _ _ _ known := nomatch known
  workThrough _ _ _ _ known := nomatch known
  workOf store header absent := by
    subst absent
    rfl

/-- Without a store, lookups and links leave all records as they are, apart from their links. -/
theorem Index.Steps.unlinked?_eq {key : BlockHash} {before after : Index (Option σ)}
    (steps : Index.Steps (.lookup key) before after) (storeless : before.store = none)
    (other : BlockHash)
    : after.resident.unlinked? other = before.resident.unlinked? other := by
  induction steps with
  | refl => rfl
  | @tail between after steps step ih =>
      have storeless' := Index.Steps.states_kept steps reliable_absent.toReadClosed storeless
      rcases step.keeps_or_enters rfl storeless' with ⟨_, same⟩ | ⟨_, enters, _⟩
      · exact (same other).trans ih
      · cases enters

omit [HeaderSource σ] in
theorem Index.Grounded.upholds {index : Index (Option σ)} (grounded : index.Grounded)
    (storeless : index.store = none)
    : Catalog.empty.Upholds (fun store => store = none) index.resident index where
  state := storeless
  backs :=
    { keyed := fun _ _ known => nomatch known
      own := grounded.own
      same := fun _ _ _ _ known => nomatch known
      backed := .inl fun _ => rfl }
  available := rfl
  arises key record under := by
    obtain ⟨held, found, rfl⟩ := Option.map_eq_some_iff.mp under
    have arises : Catalog.empty.Arises index.resident key held.work := .resident found
    exact arises

/-- A record of a known height has another one a number of links above it, as much lower as there
are links in between. The work of the headers on the way makes up the difference of the works, and
at the greatest possible number of links there is no predecessor.
-/
structure Record.Ascends (given : Header → Prop) (record : Record) (height : Height) (depth : Nat)
    (above : Record) : Prop where
  lower : ∃ top, above.height = some top ∧ top.toNat + depth = height.toNat
  way
    : ∃ steps,
        Header.LineTo given above.hash record.hash (steps ++ [above.header])
        ∧ steps.length = depth
        ∧ record.work.toNat = above.work.toNat + Header.totalWork steps
  genesis : depth = height.toNat → above.header.isGenesis = true

omit [HeaderSource σ] in
/-- Each header of a record's lineage has a record that is as far above as the header is in the
lineage.
-/
theorem Index.Grounded.exists_ascends {index : Index (Option σ)} (grounded : index.Grounded)
    {key : BlockHash} {record : Record} {height : Height} {header : Header}
    {steps rest : List Header} (found : index.get? key = some record)
    (known : record.height = some height)
    (lineage : Header.Lineage index.Resides key (steps ++ header :: rest))
    : ∃ entry,
        index.resident.unlinked? header.hash = some entry
        ∧ record.Ascends index.Resides height steps.length entry := by
  have under := Resident.unlinked?_of_get? found
  have own : record.hash = key := grounded.own key record.withoutLinks under
  obtain ⟨counted, work⟩ := grounded.place_eq under lineage
  obtain ⟨lower, upper⟩ := lineage.split
  obtain ⟨_, first, _, member⟩ := upper.exists_head?
  cases first
  obtain ⟨entry, under', rfl⟩ := resides_iff.mp member
  obtain ⟨counted', work'⟩ := grounded.place_eq under' upper
  have count : height.toNat = (steps ++ entry.header :: rest).length - 1 :=
    Height.counted?_eq_some_iff.mp (counted.symm.trans known)
  simp only [List.length_append, List.length_cons, Nat.add_sub_cancel] at count counted'
  have bound : rest.length < UInt32.size := by
    have most := height.toNat_lt
    change rest.length < 2 ^ 32
    omega
  have value : (UInt32.ofNat rest.length).toNat = rest.length := UInt32.toNat_ofNat_of_lt' bound
  refine ⟨entry, under', ⟨UInt32.ofNat rest.length, ?_, ?_⟩, ⟨steps, own ▸ lower, rfl, ?_⟩, ?_⟩
  · rw [counted']
    exact Height.counted?_eq_some_iff.mpr value
  · rw [value]
    omega
  · rw [work', Nat.add_comm, ← Header.totalWork_append]
    exact work
  · intro farthest
    obtain rfl : rest = [] := List.eq_nil_of_length_eq_zero (by omega)
    cases upper with
    | last _ _ genesis => exact genesis
    | cons _ _ _ higher => cases higher

/-- A walk from a record of known height goes along its lineage, and so exactly as far as the height
says.
-/
theorem Index.Grounded.ancestor_meets {index : Index (Option σ)} (grounded : index.Grounded)
    (storeless : index.store = none) {key : BlockHash} {record : Record} {height : Height}
    (found : index.get? key = some record) (known : record.height = some height) (depth : Nat)
    : (IndexM.ancestor key depth).Meets index
        (fun answer after =>
          (answer.isSome = true ↔ depth ≤ height.toNat)
          ∧ ∀ hash,
              answer = some hash
              → ∃ above,
                  after.get? hash = some above
                  ∧ record.Ascends index.Resides height depth above)
        (fun _ _ => False) := by
  have under := Resident.unlinked?_of_get? found
  obtain ⟨headers, lineage, head⟩ := grounded.exists_lineage under
  have counted := (grounded.place_eq under lineage).1
  have count := Height.counted?_eq_some_iff.mp (counted.symm.trans known)
  have nonempty : 0 < headers.length := List.length_pos_of_mem (List.mem_of_mem_head? head)
  have supplied (header : Header) (resides : index.Resides header)
      : Catalog.empty.header? index.resident header.hash = some header := by
    obtain ⟨record, found, rfl⟩ := resides
    have found : index.resident.get? record.header.hash = some record := found
    simp [Catalog.header?, found]
  refine (((grounded.upholds storeless).ancestor_meets Catalog.empty_supplies key depth).and
    (IndexM.takes_ancestor (.lookup key) key depth index)).mono ?_ ?_
  · rintro _ after ⟨⟨_, rfl⟩, steps⟩
    rw [lineage.walk_eq supplied]
    refine ⟨?_, fun hash reached => ?_⟩
    · rw [Option.isSome_map, isSome_getElem?]
      omega
    · obtain ⟨header, there, rfl⟩ := Option.map_eq_some_iff.mp reached
      obtain ⟨inside, rfl⟩ := List.getElem?_eq_some_iff.mp there
      -- the lineage is cut at the header that is reached
      have cut : headers.take depth ++ headers[depth] :: headers.drop (depth + 1) = headers := by
        rw [← List.drop_eq_getElem_cons inside, List.take_append_drop]
      rw [← cut] at lineage
      obtain ⟨entry, under', ascends⟩ := grounded.exists_ascends found known lineage
      rw [← Index.Steps.unlinked?_eq steps storeless] at under'
      obtain ⟨above, found', rfl⟩ := Option.map_eq_some_iff.mp under'
      have far : (headers.take depth).length = depth := List.length_take_of_le (Nat.le_of_lt inside)
      rw [far] at ascends
      exact ⟨above, found', ascends.lower, ascends.way, ascends.genesis⟩
  · rintro failure after ⟨⟨_, cramped⟩, _⟩
    refine cramped fun _ _ _ known => ?_
    cases known

/-- Heights in an index are distances to genesis. Every resident header has a lineage of resident
headers, of which its height and its work are the length and the sum. From a header of known height,
walks succeed exactly up to that many links, with what is then above. No walk leads in a circle.
-/
structure Index.CountsHeights (index : Index σ) : Prop where
  rooted
    : ∀ key record,
        index.get? key = some record
        → ∃ headers,
            Header.Lineage index.Resides key headers
            ∧ headers.head? = some record.header
            ∧ record.height = Height.counted? (headers.length - 1)
            ∧ record.work.toNat = Header.totalWork headers
  ancestor
    : ∀ key record height depth,
        index.get? key = some record
        → record.height = some height
        → (IndexM.ancestor key depth).Meets index
            (fun answer after =>
              (answer.isSome = true ↔ depth ≤ height.toNat)
              ∧ ∀ hash,
                  answer = some hash
                  → ∃ above,
                      after.get? hash = some above
                      ∧ record.Ascends index.Resides height depth above)
            (fun _ _ => False)
  acyclic : ∀ key, ¬ TransGen (Filing.own index.Resides).Leads key key

/-- However an index without store and ceiling was built by reading and extending, its heights are
distances to genesis.
-/
theorem Index.Reached.countsHeights {config : Config} {index : Index (Option σ)}
    (unlimited : config.ceiling = none)
    (reached : Index.Reached (fun store => store = none) Operation.Builds config index)
    : index.CountsHeights := by
  have grounded := reached.grounded unlimited
  have storeless := reached.state reliable_absent.toReadClosed
  refine ⟨fun key record found => ?_, fun key record height depth found known => ?_,
    grounded.acyclic⟩
  · have under := Resident.unlinked?_of_get? found
    obtain ⟨headers, lineage, head⟩ := grounded.exists_lineage under
    obtain ⟨counted, work⟩ := grounded.place_eq under lineage
    exact ⟨headers, lineage, head, counted, work⟩
  · exact grounded.ancestor_meets storeless found known depth

/-- The left branch of the fork in an index without store and ceiling, walked once in between. -/
def Fork.branch : Index (Option MemoryStore) :=
  (Operation.extend leaf 7).next
    ((Operation.ancestor left.hash 1).next
      ((Operation.extend left 6).next ((Operation.extend root 5).next (.new none .unbounded))))

theorem Fork.countsHeights_branch
    : Config.unbounded.ceiling = none
      ∧ branch.get? leaf.hash = some (.unlinked leaf (some 2) (.ofNat 5) 7)
      ∧ branch.CountsHeights := by
  have unlimited : Config.unbounded.ceiling = none := rfl
  have reached
      : Index.Reached (fun store : Option MemoryStore => store = none) Operation.Builds .unbounded
          branch :=
    .performed _ trivial (.performed _ rfl (.performed _ trivial (.performed _ trivial (.new rfl))))
  have held : branch.get? leaf.hash = some (.unlinked leaf (some 2) (.ofNat 5) 7) := by
    decide +kernel
  exact ⟨unlimited, held, Index.Reached.countsHeights unlimited reached⟩

end HeaderChain
