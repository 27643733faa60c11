import HeaderChain.Proofs.Extension
import Mathlib.Data.List.Sort

/-! Asking whether a header would win, and then adding it. The answer and the listing of candidates
compare in different ways, but what is asked about is the work that the header gets, so the answer
tells on which side of the other candidate the header will stand.
-/

namespace HeaderChain

variable {σ : Type}

/-- One hash stands before another in the listing of candidates. -/
def Index.Lists (index : Index σ) (first second : BlockHash) : Prop :=
  [first, second].Sublist index.tips

instance (index : Index σ) (first second : BlockHash) : Decidable (index.Lists first second) :=
  inferInstanceAs (Decidable (List.Sublist _ _))

/-- Of two candidates, the one whose record comes first is listed first. -/
theorem Resident.Candidates.sublist_hashes {resident : Resident} {standing : BlockHash → Prop}
    {left right : BlockHash} {first second : Record} (candidates : resident.Candidates standing)
    (found : resident.get? left = some first) (found' : resident.get? right = some second)
    (listed : left ∈ resident.tips.hashes) (listed' : right ∈ resident.tips.hashes)
    (precedes : first.tip.Precedes second.tip)
    : [left, right].Sublist resident.tips.hashes := by
  have antisymm : Std.Antisymm Tip.Precedes :=
    ⟨fun tip _ before after => (tip.precedes_irrefl (Tip.precedes_trans before after)).elim⟩
  have member {key : BlockHash} {record : Record} (found : resident.get? key = some record)
      (listed : key ∈ resident.tips.hashes)
      : record.tip ∈ resident.tips.members ∧ record.tip.hash = key := by
    obtain ⟨tip, member, rfl⟩ := List.mem_map.mp listed
    obtain ⟨record', under, same⟩ := candidates.listing.record_of_mem member
    obtain rfl : record = record' := Option.some.inj (found.symm.trans under)
    rw [same]
    exact ⟨member, rfl⟩
  obtain ⟨above, rfl⟩ := member found listed
  obtain ⟨below, rfl⟩ := member found' listed'
  have different : first.tip ≠ second.tip := fun same =>
    second.tip.precedes_irrefl (same ▸ precedes)
  have pair : [first.tip, second.tip].Sublist resident.tips.members :=
    List.sublist_of_subperm_of_pairwise
      (List.subperm_of_subset (by simp [different]) (by simp [above, below]))
      (by simp [precedes]) candidates.sorted
  exact pair.map Tip.hash

variable [HeaderSource σ] {states : σ → Prop} {workOf : Header → Work} {config : Config}
  {index : Index σ}

/-- A key that is neither resident nor known is looked up in vain. -/
theorem Unfailing.lookup_unknown (unfailing : Unfailing states workOf)
    (state : states index.store) {key : BlockHash} (absent : index.get? key = none)
    (unknown : ¬ index.Knows key)
    : (IndexM.lookup key).Meets index
        (fun answer after =>
          answer = none ∧ ∃ store, states store ∧ after = { index with store })
        (fun _ _ => False) := by
  obtain ⟨answer, after, asked⟩ := unfailing.fetched index.store key state
  have held : index.resident.get? key = none := absent
  cases answer with
  | none =>
      have state' : states after := StoreRead.final_of_ok asked ▸ unfailing.fetch _ key state
      simp only [IndexM.lookup, IndexM.hydrate, IndexM.meets_bind, IndexM.meets_resident, held,
        IndexM.meets_ofStore, asked, IndexM.meets_pure]
      exact ⟨trivial, after, state', rfl⟩
  | some seen => exact (unknown ⟨seen, after, asked⟩).elim

/-- About a header that is neither resident nor known, the question is whether its work exceeds that
of the other record.
-/
theorem Unfailing.isMoreWork_meets (unfailing : Unfailing states workOf)
    (state : states index.store) {base : Record} (other : Record) {key : BlockHash}
    {work total : Work} (absent : index.get? key = none) (unknown : ¬ index.Knows key)
    (sum : base.work.add? work = some total)
    : (IndexM.isMoreWork base other key work).Meets index
        (fun answer after =>
          (answer = true ↔ other.work < total)
          ∧ ∃ store, states store ∧ after = { index with store })
        (fun _ _ => False) := by
  simp only [IndexM.isMoreWork, IndexM.meets_bind, IndexM.meets_sum, sum]
  split
  · exact ⟨decide_eq_true_iff, index.store, state, rfl⟩
  · next tie =>
      have tie : total = other.work := Classical.not_not.mp tie
      rw [IndexM.meets_bind]
      refine (unfailing.lookup_unknown state absent unknown).mono ?_ fun _ _ => id
      rintro _ after ⟨rfl, kept⟩
      refine ⟨iff_of_false Bool.false_ne_true ?_, kept⟩
      rw [tie]
      exact Nat.lt_irrefl other.work.toNat

/-- What the answer to the question tells about an extension right after it. The question changes
nothing, the extension succeeds, and if the other candidate is still there afterwards, a header that
wins stands before it, and one that does not and came later stands after it.
-/
structure Index.Forecast (base other : Record) (header : Header) (work : Work) (firstSeen : UInt64)
    (index : Index σ) (answer : Bool) (between after : Index σ) : Prop where
  asked : IndexM.isMoreWork base other header.hash work index = .ok answer between
  resident : between.resident = index.resident
  journal : between.journal = index.journal
  extended : IndexM.extend header firstSeen between = .ok true after
  distinct : after.tips.Nodup
  won : other.hash ∈ after.tips → answer = true → after.Lists header.hash other.hash
  lost
    : other.hash ∈ after.tips
      → answer = false
      → other.firstSeen < firstSeen
      → after.Lists other.hash header.hash

omit [HeaderSource σ] in
/-- A record that is still resident after a header was entered is the one from before, apart from
its links.
-/
theorem Index.withoutLinks_eq_of_entered {between after : Index σ} {header : Header}
    {height : Option Height} {work : Work} {firstSeen : UInt64} {key : BlockHash}
    {record kept : Record} (found : between.get? key = some record)
    (absent : between.get? header.hash = none)
    (entered : after = between.changed (.indexed (.unlinked header height work firstSeen)))
    (stays : after.get? key = some kept)
    : kept.withoutLinks = record.withoutLinks := by
  have apart : ¬ key = (Record.unlinked header height work firstSeen).hash := by
    rintro rfl
    cases absent.symm.trans found
  subst entered
  have under := Resident.unlinked?_enter (Resident.unlinked?_of_get? stays)
  rw [if_neg apart] at under
  exact Option.some.inj (under.symm.trans (Resident.unlinked?_of_get? found))

omit [HeaderSource σ] in
/-- The header on top is listed before a candidate of less work, and after one of more work or of
the same work that came earlier.
-/
theorem Index.Topped.lists {standing : BlockHash → Prop} {after : Index σ} {header : Header}
    {height : Option Height} {work : Work} {firstSeen : UInt64} {key : BlockHash} {rival : Record}
    (topped : after.Topped header height work firstSeen)
    (candidates : after.resident.Candidates standing) (found : after.get? key = some rival)
    (listed : key ∈ after.tips)
    : (rival.work < work → after.Lists header.hash key)
      ∧ (work < rival.work ∨ rival.work = work ∧ rival.firstSeen < firstSeen
        → after.Lists key header.hash) := by
  obtain ⟨record, under, same⟩ := topped.record
  obtain rfl : record.work = work := congrArg Record.work same
  obtain rfl : record.firstSeen = firstSeen := congrArg Record.firstSeen same
  constructor
  · intro more
    exact candidates.sublist_hashes under found topped.candidate listed (.inl (.inl more))
  · intro ahead
    exact candidates.sublist_hashes found under listed topped.candidate (.inl ahead)

/-- Over a store that never fails, the answer for a child of a resident record that is neither
resident nor known forecasts where an extension with it puts it.
-/
theorem Index.Reached.forecast {base other : Record} {baseKey otherKey : BlockHash}
    {header : Header} (unfailing : Unfailing states workOf)
    (reached : Index.Reached states (fun _ => True) config index)
    (onBase : index.get? baseKey = some base) (found : index.get? otherKey = some other)
    (later : header.isGenesis = false) (child : header.prev = base.hash)
    (absent : index.get? header.hash = none) (unknown : ¬ index.Knows header.hash)
    (room : base.work.toNat + (workOf header).toNat < Work.capacity) (firstSeen : UInt64)
    : ∃ answer between after,
        index.Forecast base other header (workOf header) firstSeen answer between after := by
  have state := reached.state unfailing.toReadClosed
  have baseOwn := reached.hash_eq unfailing.toWellKeyed (Resident.unlinked?_of_get? onBase)
  have otherOwn := reached.hash_eq unfailing.toWellKeyed (Resident.unlinked?_of_get? found)
  obtain ⟨total, sum⟩ := Work.exists_add? room
  obtain ⟨answer, between, asked, wins, store, state', rfl⟩ :=
    (unfailing.isMoreWork_meets state other absent unknown sum).exists_ok
  have onParent : index.resident.get? header.prev = some base := by
    rw [child]
    exact baseOwn ▸ onBase
  have sum' : base.work.add? (HeaderSource.workOf store header) = some total := by
    rwa [unfailing.ownWork store header state']
  have absent' : ({ index with store } : Index σ).get? header.hash = none := absent
  -- named, so that nothing but the equation unfolds it
  obtain ⟨after, entered⟩
      : ∃ after,
          after
          = ({ index with store } : Index σ).changed
              (.indexed (.unlinked header base.childHeight? total firstSeen)) :=
    ⟨_, rfl⟩
  have run : IndexM.extend header firstSeen { index with store } = .ok true after :=
    entered ▸ IndexM.extend_eq_new absent (.child later onParent) sum'
  have reached' := (reached.restocked store state').extended run
  have topped := reached'.topped unfailing.toWellKeyed absent' entered
  have candidates := reached'.candidates unfailing.toWellKeyed
  have found' : ({ index with store } : Index σ).get? other.hash = some other := by
    rw [← otherOwn] at found
    exact found
  have stays (listed : other.hash ∈ after.tips)
      : ∃ rival,
          after.get? other.hash = some rival
          ∧ rival.work = other.work
          ∧ rival.firstSeen = other.firstSeen := by
    obtain ⟨rival, under⟩ := (candidates.mem_hashes_iff.mp listed).1
    have same := Index.withoutLinks_eq_of_entered found' absent' entered under
    obtain ⟨_, _, work, seen⟩ := Record.withoutLinks_inj.mp same
    exact ⟨rival, under, work, seen⟩
  refine ⟨answer, _, after, asked, rfl, rfl, run, candidates.listing.hashes_nodup, ?_, ?_⟩
  · intro listed win
    obtain ⟨rival, under, work, _⟩ := stays listed
    refine (topped.lists candidates under listed).1 ?_
    rw [work]
    exact wins.mp win
  · intro listed lose earlier
    obtain ⟨rival, under, work, seen⟩ := stays listed
    refine (topped.lists candidates under listed).2 ?_
    rw [work, seen]
    have least : ¬ other.work < total := fun more => by simp [wins.mpr more] at lose
    rcases Nat.lt_or_eq_of_le (Nat.le_of_not_lt least) with less | equal
    · exact .inl less
    · exact .inr ⟨(Work.toNat_inj.mp equal).symm, earlier⟩

namespace Fork

/-- An index without store and with room for two records, after extensions with the root and its
left child.
-/
def tight : Index (Option MemoryStore) :=
  (Operation.extend left 6).next ((Operation.extend root 5).next (.new none ⟨2⟩))

/-- The record of the root in it. -/
def rootRecord : Record :=
  .unlinked root (some 0) (.ofNat 2) 5

/-- The record of the left child in it. -/
def leftRecord : Record :=
  .unlinked left (some 1) (.ofNat 4) 6

-- The children tie, so the later one loses. It evicts the root that it was put on top of.
theorem forecast_tied
    : ∃ answer between after,
        tight.Forecast rootRecord leftRecord right right.work 8 answer between after
        ∧ answer = false
        ∧ after.tips = [left.hash, right.hash] := by
  have reached
      : Index.Reached (fun store : Option MemoryStore => store = none) (fun _ => True) ⟨2⟩
          tight :=
    .performed _ trivial (.performed _ trivial (.new rfl))
  have held
      : tight.get? root.hash = some rootRecord
        ∧ tight.get? left.hash = some leftRecord
        ∧ tight.get? right.hash = none := by
    decide +kernel
  have unknown : ¬ tight.Knows right.hash := by
    rintro ⟨seen, after, served⟩
    rw [reached.state reliable_absent.toReadClosed] at served
    cases served
  have ended
      : (IndexM.isMoreWork rootRecord leftRecord right.hash right.work).Meets tight
          (fun answer between =>
            answer = false
            ∧ (IndexM.extend right 8).Meets between
                (fun _ after => after.tips = [left.hash, right.hash]) (fun _ _ => False))
          (fun _ _ => False) := by
    decide +kernel
  obtain ⟨answer, between, after, forecast⟩ :=
    Index.Reached.forecast reliable_absent.toUnfailing reached held.1 held.2.1
      (decide_eq_false root_ne_zero) rfl held.2.2 unknown (by decide) 8
  obtain ⟨lost, listed⟩ := ended.of_ok forecast.asked
  exact ⟨answer, between, after, forecast, lost, listed.of_ok forecast.extended⟩

end Fork

end HeaderChain
