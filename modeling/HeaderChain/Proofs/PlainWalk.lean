import HeaderChain.Proofs.Catalog
import HeaderChain.Proofs.Journal

/-! The walk towards genesis against the plain walk along previous hashes. A step may hydrate headers
and evict others, but it changes neither which headers are available nor what they link to, as long
as everything that can be evicted is also known to the store.
-/

namespace HeaderChain

/-- The hash that lies a number of links above a key, going by which headers are available. -/
def walk (available : BlockHash → Option Header) : Nat → BlockHash → Option BlockHash
  | 0, key => (available key).map fun _ => key
  | depth + 1, key =>
      match available key with
      | none => none
      | some header => if header.isGenesis then none else walk available depth header.prev

theorem walk_of_unavailable {available : BlockHash → Option Header} {key : BlockHash}
    (absent : available key = none) (depth : Nat)
    : walk available depth key = none := by
  cases depth with
  | zero => rw [walk, absent, Option.map_none]
  | succ depth => rw [walk, absent]

/-- From an available header, the walk goes one link at a time, by induction on the depth. -/
theorem follow_walk {available : BlockHash → Option Header} {key : BlockHash} {header : Header}
    (found : available key = some header) (depth : Nat)
    : IndexM.follow (walk available 1) depth key = walk available depth key := by
  induction depth generalizing key header with
  | zero => rw [IndexM.follow, walk, found, Option.map_some]
  | succ depth ih =>
      rw [IndexM.follow, walk, walk, found]
      dsimp only
      cases genesis : header.isGenesis with
      | true => rfl
      | false =>
          rw [if_neg Bool.false_ne_true, if_neg Bool.false_ne_true, walk]
          cases above : available header.prev with
          | none => exact (walk_of_unavailable above depth).symm
          | some parent => exact ih above

namespace Catalog

/-- The header that is resident under a key or else known under it. -/
def header? (catalog : Catalog) (resident : Resident) (key : BlockHash) : Option Header :=
  ((resident.get? key).map Record.header).or ((catalog.entry key).map KnownHeader.header)

/-- The work that a record may have that becomes resident: that of a record from the start, that of
an entry, or a sum on top of such work.
-/
inductive Arises (catalog : Catalog) (start : Resident) : BlockHash → Work → Prop
  | resident {key record} (found : start.get? key = some record)
    : Arises catalog start key record.work
  | stored {key entry} (known : catalog.entry key = some entry)
    : Arises catalog start key entry.chainWork
  | sum {key entry below total} (known : catalog.entry key = some entry)
    (above : Arises catalog start entry.header.prev below)
    (sum : below.add? (catalog.workOf entry.header) = some total)
    : Arises catalog start key total

/-- No sum of work overflows: whatever work the parent of a known header may have, there is room for
that of the header.
-/
def Roomy (catalog : Catalog) (start : Resident) : Prop :=
  ∀ key entry below,
    catalog.entry key = some entry
    → catalog.Arises start entry.header.prev below
    → ∃ total, below.add? (catalog.workOf entry.header) = some total

/-- Headers are filed under their own hashes, and one that is both resident and known is the same.
Whatever can be evicted can be hydrated again: nothing is known at all, or there is no ceiling, or
all that is resident is known.
-/
structure Backs (catalog : Catalog) (resident : Resident) : Prop where
  keyed : ∀ key entry, catalog.entry key = some entry → entry.header.hash = key
  own : ∀ key record, resident.unlinked? key = some record → record.hash = key
  same
    : ∀ key record entry,
        resident.unlinked? key = some record
        → catalog.entry key = some entry
        → record.header = entry.header
  backed
    : (∀ key, catalog.entry key = none)
      ∨ resident.config.ceiling = none
      ∨ ∀ key record, resident.unlinked? key = some record → catalog.knows key = true

variable {catalog : Catalog}

-----------------------------------------------------------------------------------------
-- What is available
-----------------------------------------------------------------------------------------

theorem header?_eq (resident : Resident) (key : BlockHash)
    : catalog.header? resident key
      = ((resident.unlinked? key).map Record.header).or
          ((catalog.entry key).map KnownHeader.header) := by
  rw [header?, Resident.unlinked?, Option.map_map]
  rfl

/-- Hydrating a known header keeps available what is: an evicted record is known as well. -/
theorem Backs.header?_enter {resident : Resident} {key : BlockHash} {entry : KnownHeader}
    {record : Record} (backs : catalog.Backs resident) (absent : resident.get? key = none)
    (known : catalog.entry key = some entry) (header : record.header = entry.header)
    : catalog.header? (resident.enter key record) = catalog.header? resident := by
  funext other
  rw [header?_eq, header?_eq]
  by_cases same : other = key
  · subst same
    rw [Resident.unlinked?_enter_self absent, Resident.unlinked?_eq_none_iff.mpr absent, known]
    exact congrArg some header
  · cases stays : (resident.enter key record).unlinked? other with
    | some kept =>
        have was := Resident.unlinked?_enter stays
        rw [if_neg same] at was
        rw [was]
    | none =>
        cases was : resident.unlinked? other with
        | none => rfl
        | some evicted =>
            rcases backs.backed with nothing | unlimited | all
            · rw [nothing key] at known
              cases known
            · rw [Resident.unlinked?, Resident.get?_enter_of_unlimited unlimited,
                if_neg same, ← Resident.unlinked?, was] at stays
              cases stays
            · obtain ⟨entry', known'⟩ := knows_iff.mp (all other evicted was)
              rw [known']
              exact congrArg some (backs.same other evicted entry' was known').symm

theorem Backs.enter {resident : Resident} {key : BlockHash} {entry : KnownHeader}
    {record : Record} (backs : catalog.Backs resident)
    (known : catalog.entry key = some entry) (header : record.header = entry.header)
    : catalog.Backs (resident.enter key record) := by
  have origin {other : BlockHash} {kept : Record}
      (found : (resident.enter key record).unlinked? other = some kept)
      : (other = key ∧ kept.header = entry.header) ∨ resident.unlinked? other = some kept := by
    have was := Resident.unlinked?_enter found
    split at was
    · next same =>
        cases was
        exact .inl ⟨same, header⟩
    · exact .inr was
  refine ⟨backs.keyed, ?_, ?_, ?_⟩
  · intro other kept found
    rcases origin found with ⟨rfl, new⟩ | was
    · rw [Record.hash, new]
      exact backs.keyed other entry known
    · exact backs.own other kept was
  · intro other kept entry' found known'
    rcases origin found with ⟨rfl, new⟩ | was
    · rw [known] at known'
      cases known'
      exact new
    · exact backs.same other kept entry' was known'
  · have settings : (resident.enter key record).config = resident.config :=
      Resident.config_apply resident (.hydrated key record)
    rw [settings]
    refine backs.backed.imp id (Or.imp id ?_)
    intro all other kept found
    rcases origin found with ⟨rfl, _⟩ | was
    · exact knows_iff.mpr ⟨entry, known⟩
    · exact all other kept was

theorem Backs.hash_eq {resident : Resident} {key : BlockHash} {record : Record}
    (backs : catalog.Backs resident) (found : resident.get? key = some record)
    : record.hash = key :=
  have own := backs.own key _ (Resident.unlinked?_of_get? found)
  own

/-- The work that hydration finds arises from the start. -/
theorem Arises.of_position? {start : Resident} {key : BlockHash} {entry : KnownHeader}
    {parent : Option Record} {height : Option Height} {work : Work}
    (known : catalog.entry key = some entry)
    (above : ∀ record, parent = some record → catalog.Arises start entry.header.prev record.work)
    (position : catalog.position? entry parent = some (height, work))
    : catalog.Arises start key work := by
  cases parent with
  | none =>
      cases position
      exact .stored known
  | some record =>
      obtain ⟨total, sum, same⟩ := Option.map_eq_some_iff.mp position
      cases same
      exact .sum known (above record rfl) sum

-----------------------------------------------------------------------------------------
-- Walks
-----------------------------------------------------------------------------------------

variable {σ : Type} [HeaderSource σ] {states : σ → Prop} {start : Resident} {index : Index σ}

/-- What a walk keeps: the same headers are available as at the start, and the work of resident
records arises from there.
-/
structure Upholds (catalog : Catalog) (states : σ → Prop) (start : Resident) (index : Index σ)
    : Prop where
  state : states index.store
  backs : catalog.Backs index.resident
  available : catalog.header? index.resident = catalog.header? start
  arises
    : ∀ key record,
        index.resident.unlinked? key = some record → catalog.Arises start key record.work

omit [HeaderSource σ] in
theorem Upholds.joined (upholds : catalog.Upholds states start index) (child parent : BlockHash)
    : catalog.Upholds states start (index.joined child parent) := by
  obtain ⟨state, ⟨keyed, own, same, backed⟩, available, arises⟩ := upholds
  refine ⟨?_, ⟨keyed, ?_, ?_, ?_⟩, ?_, ?_⟩
  · simpa only [Index.store_joined] using state
  · simpa only [Index.unlinked?_joined] using own
  · simpa only [Index.unlinked?_joined] using same
  · simpa only [Index.unlinked?_joined, Index.config_joined] using backed
  · rw [← available]
    funext key
    simp only [header?_eq, Index.unlinked?_joined]
  · simpa only [Index.unlinked?_joined] using arises

omit [HeaderSource σ] in
theorem Upholds.arises_of_get? {key : BlockHash} {record : Record}
    (upholds : catalog.Upholds states start index)
    (found : index.resident.get? key = some record)
    : catalog.Arises start key record.work :=
  have above := upholds.arises key _ (Resident.unlinked?_of_get? found)
  above

/-- A lookup answers an available header and keeps what a walk keeps. It fails only where a sum of
work overflows.
-/
theorem Upholds.lookup_meets (upholds : catalog.Upholds states start index)
    (supplies : catalog.Supplies states) (key : BlockHash)
    : (IndexM.lookup key).Meets index
        (fun answer after =>
          catalog.Upholds states start after
          ∧ answer = after.resident.get? key
          ∧ answer.map Record.header = catalog.header? start key)
        (fun failure _ => failure = .workOverflow ∧ ¬ catalog.Roomy start) := by
  refine (supplies.lookup_meets upholds.state key).mono ?_ ?_
  · intro answer after looked
    cases looked with
    | resident found =>
        refine ⟨upholds, found.symm, ?_⟩
        rw [← upholds.available, header?, found]
        rfl
    | unknown absent unknown state =>
        refine ⟨{ upholds with state }, absent.symm, ?_⟩
        rw [← upholds.available, header?, absent, unknown]
        rfl
    | @hydrated store entry height work record absent known position state entered =>
        let hydrated : Record := .unlinked entry.header height work entry.firstSeen
        have available : catalog.header? (index.resident.enter key hydrated) = _ :=
          upholds.backs.header?_enter absent known rfl
        have upheld : catalog.Upholds states start
            (Index.changed { index with store } (.hydrated key hydrated)) := by
          refine ⟨state, upholds.backs.enter known rfl, available.trans upholds.available, ?_⟩
          intro other kept found
          have was := Resident.unlinked?_enter found
          split at was
          · next same =>
              cases was
              refine same ▸ Arises.of_position? known ?_ position
              intro parent resident
              exact upholds.arises_of_get? resident
          · exact upholds.arises other kept was
        refine ⟨upheld, entered.symm, ?_⟩
        rw [← upheld.available, header?]
        change _ = (((index.resident.enter key hydrated).get? key).map Record.header).or _
        rw [entered]
        rfl
  · intro failure after overflow
    obtain ⟨same, entry, known, none⟩ := overflow
    refine ⟨same, fun roomy => ?_⟩
    cases resident : index.resident.get? entry.header.prev with
    | none =>
        rw [resident] at none
        cases none
    | some parent =>
        obtain ⟨total, sum⟩ := roomy key entry _ known (upholds.arises_of_get? resident)
        rw [resident, position?, sum] at none
        cases none

/-- A walk to the parent answers the record one link above. -/
theorem Upholds.parent_meets (upholds : catalog.Upholds states start index)
    (supplies : catalog.Supplies states) (key : BlockHash)
    : (IndexM.parent key).Meets index
        (fun answer after =>
          catalog.Upholds states start after
          ∧ answer.map Record.hash = walk (catalog.header? start) 1 key
          ∧ ∀ record, answer = some record → after.resident.get? record.hash = some record)
        (fun failure _ => failure = .workOverflow ∧ ¬ catalog.Roomy start) := by
  refine IndexM.parent_meets_of_lookups ?_
  refine (upholds.lookup_meets supplies key).mono ?_ fun _ _ => id
  intro found between looked
  obtain ⟨upheld, _, available⟩ := looked
  rw [walk, ← available]
  cases found with
  | none => exact ⟨upheld, rfl, fun _ none => nomatch none⟩
  | some record =>
      simp only [Option.map_some]
      split
      · exact ⟨upheld, rfl, fun _ none => nomatch none⟩
      · refine (upheld.lookup_meets supplies record.prev).mono ?_ fun _ _ => id
        intro above after looked
        obtain ⟨upheld', answered, available'⟩ := looked
        have named : catalog.header? start record.header.prev = above.map Record.header :=
          available'.symm
        rw [walk, named]
        cases above with
        | none => exact ⟨upheld', rfl, fun _ none => nomatch none⟩
        | some parent =>
            have joined := upheld'.joined key record.prev
            obtain ⟨linked, found, _⟩ := Index.exists_get?_joined answered.symm key record.prev
            have own : linked.hash = record.prev := joined.backs.hash_eq found
            dsimp only
            rw [found]
            refine ⟨joined, congrArg some own, ?_⟩
            intro answer same
            cases same
            rw [own]
            exact found

theorem Upholds.ancestor_meets (upholds : catalog.Upholds states start index)
    (supplies : catalog.Supplies states) (key : BlockHash) (depth : Nat)
    : (IndexM.ancestor key depth).Meets index
        (fun answer after =>
          catalog.Upholds states start after
          ∧ answer = walk (catalog.header? start) depth key)
        (fun failure _ => failure = .workOverflow ∧ ¬ catalog.Roomy start) := by
  rw [IndexM.ancestor, IndexM.meets_bind]
  refine (upholds.lookup_meets supplies key).mono ?_ fun _ _ => id
  intro found between looked
  obtain ⟨upheld, answered, available⟩ := looked
  cases found with
  | none => exact ⟨upheld, (walk_of_unavailable available.symm depth).symm⟩
  | some record =>
      have own : record.hash = key := upheld.backs.hash_eq answered.symm
      rw [← follow_walk available.symm depth, ← own]
      refine IndexM.climb_meets_of_parents ?_ depth record.hash upheld
      intro key index upholds
      refine (upholds.parent_meets supplies key).mono ?_ fun _ _ => id
      intro answer after walked
      exact ⟨walked.1, walked.2.1⟩

/-- Over a consistent catalog that the resident records agree with, the only work that arises is that
of the entries.
-/
theorem Consistent.work_of_arises {key : BlockHash} {work : Work}
    (consistent : catalog.Consistent) (agrees : catalog.Agrees start)
    (arises : catalog.Arises start key work)
    : ∃ entry, catalog.entry key = some entry ∧ work = entry.chainWork := by
  induction arises with
  | @resident key record found =>
      obtain ⟨entry, known, same⟩ := agrees key record found
      exact ⟨entry, known, same.work⟩
  | stored known => exact ⟨_, known, rfl⟩
  | @sum key entry below total known _ sum ih =>
      obtain ⟨parent, knownParent, rfl⟩ := ih
      refine ⟨entry, known, Work.toNat_inj.mp ?_⟩
      rw [Work.add?_eq_some_iff.mp sum, consistent.work key entry parent known knownParent]

theorem Consistent.roomy (consistent : catalog.Consistent) (agrees : catalog.Agrees start)
    : catalog.Roomy start := by
  intro key entry below known above
  obtain ⟨parent, knownParent, rfl⟩ := consistent.work_of_arises agrees above
  exact ⟨entry.chainWork,
    Work.add?_eq_some_iff.mpr (consistent.work key entry parent known knownParent)⟩

end Catalog

-----------------------------------------------------------------------------------------
-- Reached indexes
-----------------------------------------------------------------------------------------

variable {σ : Type} [HeaderSource σ]

/-- Walks of an index answer what the plain walk does on the headers that are available before them,
and fail only where a sum of work overflows. The record of a parent is resident afterwards.
-/
structure Index.WalksPlainly (catalog : Catalog) (index : Index σ) : Prop where
  ancestor
    : ∀ key (depth : UInt32),
        (IndexM.ancestor key depth.toNat).Meets index
          (fun answer _ => answer = walk (catalog.header? index.resident) depth.toNat key)
          (fun failure _ => failure = .workOverflow ∧ ¬ catalog.Roomy index.resident)
  parent
    : ∀ key,
        (IndexM.parent key).Meets index
          (fun answer after =>
            match walk (catalog.header? index.resident) 1 key with
            | none => answer = none
            | some above =>
                ∃ record,
                  answer = some record
                  ∧ record.hash = above
                  ∧ catalog.header? index.resident above = some record.header
                  ∧ after.get? above = some record)
          (fun failure _ => failure = .workOverflow ∧ ¬ catalog.Roomy index.resident)

/-- However an index was reached, its walks are plain walks, whatever its ceiling, if what it may
evict is known to the store. Of the store it is only assumed that it answers all along from what it
knows, and that a header that is both known and resident is the same.
-/
theorem Index.Reached.walksPlainly {history states : σ → Prop} {catalog : Catalog}
    {config : Config} {index : Index σ} (wellKeyed : WellKeyed history)
    (reached : Index.Reached history (fun _ => True) config index)
    (supplies : catalog.Supplies states) (state : states index.store)
    (keyed : ∀ key entry, catalog.entry key = some entry → entry.header.hash = key)
    (distinct
      : ∀ key record entry,
          index.get? key = some record
          → catalog.entry key = some entry
          → record.hash = entry.header.hash
          → record.header = entry.header)
    (backed
      : (∀ key, catalog.entry key = none)
        ∨ index.ceiling = none
        ∨ ∀ key record, index.get? key = some record → catalog.knows key = true)
    : index.WalksPlainly catalog := by
  have backs : catalog.Backs index.resident := by
    refine ⟨keyed, fun key record => reached.hash_eq wellKeyed, ?_, ?_⟩
    · intro key record entry found known
      obtain ⟨held, under, same⟩ := Option.map_eq_some_iff.mp found
      have own := (reached.hash_eq wellKeyed found).trans (keyed key entry known).symm
      subst same
      exact distinct key held entry under known own
    · refine backed.imp id (Or.imp id ?_)
      intro all key record found
      obtain ⟨held, under, _⟩ := Option.map_eq_some_iff.mp found
      exact all key held under
  have upholds : catalog.Upholds states index.resident index := by
    refine ⟨state, backs, rfl, ?_⟩
    intro key record found
    obtain ⟨held, under, rfl⟩ := Option.map_eq_some_iff.mp found
    have arises : catalog.Arises index.resident key held.work := .resident under
    exact arises
  constructor
  · intro key depth
    refine (upholds.ancestor_meets supplies key depth.toNat).mono ?_ fun _ _ => id
    intro answer after walked
    exact walked.2
  · intro key
    refine (upholds.parent_meets supplies key).mono ?_ fun _ _ => id
    intro answer after walked
    obtain ⟨upheld, above, resident⟩ := walked
    rw [← above]
    cases answer with
    | none => rfl
    | some record =>
        have found := resident record rfl
        refine ⟨record, rfl, rfl, ?_, found⟩
        rw [← upheld.available, Catalog.header?, found]
        rfl

/-- An index with room for one record, which has a child. -/
def Fork.lone : Index MemoryStore :=
  (Operation.lookup left.hash).next (.new Fork.store ⟨1⟩)

theorem Fork.agrees_lone : store.catalog.Agrees Fork.lone.resident := by
  have entries
      : lone.resident.table.entries = [(left.hash, .unlinked left (some 1) (.ofNat 4) 6)] := by
    decide +kernel
  intro key record found
  rw [Resident.get?, KeyedTable.get?, entries, List.find?_singleton] at found
  split at found
  · next same =>
      obtain rfl : left.hash = key := of_decide_eq_true same
      cases found
      have known : store.headers.get? left.hash = some leftEntry := by
        rw [get?_store, if_neg left_ne_right, if_pos rfl]
      exact ⟨leftEntry, known, rfl, rfl, rfl⟩
  · cases found

-- The step to the root evicts the child it comes from.
theorem Fork.walksPlainly_lone
    : walk (store.catalog.header? lone.resident) 1 left.hash = some root.hash
      ∧ store.catalog.Roomy lone.resident
      ∧ lone.WalksPlainly store.catalog := by
  have above : walk (store.catalog.header? lone.resident) 1 left.hash = some root.hash := by
    decide +kernel
  have serves := store.serves_catalog
  have wellKeyed := serves.wellKeyed holds_keyed
  let states (other : MemoryStore) : Prop :=
    other.headers = store.headers ∧ other.poisoned = false
  have reached : Index.Reached states (fun _ => True) ⟨1⟩ lone :=
    .performed _ trivial (.new ⟨rfl, rfl⟩)
  refine ⟨above, consistent_catalog.roomy agrees_lone, ?_⟩
  refine Index.Reached.walksPlainly wellKeyed reached serves.supplies
    (reached.state wellKeyed.toReadClosed) holds_keyed ?_ (.inr (.inr ?_))
  · intro key record entry found known _
    obtain ⟨entry', known', same⟩ := agrees_lone key record found
    rw [known] at known'
    cases known'
    exact same.header
  · intro key record found
    obtain ⟨entry, known, _⟩ := agrees_lone key record found
    exact Catalog.knows_iff.mpr ⟨entry, known⟩

end HeaderChain
