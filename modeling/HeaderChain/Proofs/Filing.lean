import HeaderChain.Proofs.Line
import HeaderChain.Proofs.StoredHeaders
import Mathlib.Data.FinEnum

/-! Which headers a store serves under which keys, and where walks to the parent can lead then. The
store may tell any heights and works, lack headers or fail.
-/

namespace HeaderChain

/-- A relation of keys with the headers that may be found under them. -/
abbrev Filing := BlockHash → Header → Prop

namespace Filing

/-- The given headers, each under its own hash. -/
def own (given : Header → Prop) : Filing :=
  fun key header => given header ∧ header.hash = key

/-- A store in one of the given states serves headers under the keys they are filed by. -/
structure Serves {σ : Type} [HeaderSource σ] (filing : Filing) (states : σ → Prop) : Prop
    extends ReadClosed states where
  served
    : ∀ store key header firstSeen after,
        states store
        → HeaderSource.fetch key store = .ok (some ⟨header, firstSeen⟩) after
        → filing key header

/-- An operation adds headers only that are filed under their own hashes. Heights and baselines are
up to the caller.
-/
def Allows (filing : Filing) : Operation → Prop
  | .insert header _ _ _ => filing header.hash header
  | .extend header _ => filing header.hash header
  | _ => True

/-- A walk from a key may lead to the hash of a header that is filed as the one before the key's. -/
inductive Leads (filing : Filing) : BlockHash → BlockHash → Prop
  | up {key below above} (member : filing key below) (later : below.isGenesis = false)
    (member' : filing below.prev above)
    : Leads filing key above.hash

variable {filing : Filing}

/-- Where no walk can lead back to a key that it came from, all walks are finite, since there are
only so many keys.
-/
theorem wellFounded_leads (acyclic : ∀ key, ¬ Relation.TransGen filing.Leads key key)
    : WellFounded (flip filing.Leads) := by
  have keys : Finite BlockHash := .of_injective Digest.value fun left right same => by
    cases left
    cases right
    exact congrArg Digest.mk same
  have trans : IsTrans BlockHash (Relation.TransGen (flip filing.Leads)) :=
    ⟨fun _ _ _ => .trans⟩
  have irrefl : Std.Irrefl (Relation.TransGen (flip filing.Leads)) :=
    ⟨fun key cycle => acyclic key (Relation.transGen_swap.mp cycle)⟩
  have wellFounded := Finite.wellFounded_of_trans_of_irrefl (Relation.TransGen (flip filing.Leads))
  exact Subrelation.wf (fun leads => Relation.TransGen.single leads) wellFounded

variable {σ : Type} [HeaderSource σ] {states : σ → Prop} {index : Index σ}

/-- The store is in one of its states, and every resident record is of a header that is filed under
the record's key.
-/
structure Holds (filing : Filing) (states : σ → Prop) (index : Index σ) : Prop where
  state : states index.store
  filed : ∀ key entry, index.resident.unlinked? key = some entry → filing key entry.header

omit [HeaderSource σ] in
theorem Holds.of_get? {key : BlockHash} {record : Record} (holds : filing.Holds states index)
    (found : index.resident.get? key = some record)
    : filing key record.header :=
  holds.filed key record.withoutLinks (Resident.unlinked?_of_get? found)

/-- A memory store serves its headers under the keys of its entries. -/
theorem serves_memory (filing : Filing)
    : filing.Serves (MemoryStore.Holds fun key entry => filing key entry.header) where
  toReadClosed := MemoryStore.readClosed_holds _
  served store key header firstSeen after held served := by
    obtain ⟨entry, filed, rfl⟩ := held.exists_served served
    exact filed

-----------------------------------------------------------------------------------------
-- Steps
-----------------------------------------------------------------------------------------

/-- A step brings in a header only that the store serves or that the operation adds. -/
theorem Holds.step {operation : Operation} {before after : Index σ}
    (holds : filing.Holds states before) (serves : filing.Serves states)
    (allows : filing.Allows operation) (step : Index.Step operation before after)
    : filing.Holds states after := by
  refine ⟨step.states_kept serves.toReadClosed holds.state, ?_⟩
  intro key entry found
  rcases step.origin found with kept | admits
  · exact holds.filed key entry kept
  · cases admits with
    | hydrated asked => exact serves.served _ _ _ _ _ holds.state asked
    | indexed offered =>
        cases offered with
        | stated => exact allows
        | first => exact allows
        | child => exact allows

theorem Holds.steps {operation : Operation} {before after : Index σ}
    (holds : filing.Holds states before) (serves : filing.Serves states)
    (allows : filing.Allows operation) (steps : Index.Steps operation before after)
    : filing.Holds states after := by
  induction steps with
  | refl => exact holds
  | tail _ step ih => exact ih.step serves allows step

/-- However an index was reached, its records are filed under their keys. -/
theorem holds_of_reached {config : Config} (serves : filing.Serves states)
    (reached : Index.Reached states filing.Allows config index)
    : filing.Holds states index := by
  let property (index : Index σ) : Prop :=
    ∀ key entry, index.resident.unlinked? key = some entry → filing key entry.header
  have kept : states index.store ∧ property index := by
    refine reached.invariant property serves.toReadClosed ?_ ?_ ?_
    · intro store key entry found
      cases found
    · intro index store filed
      exact filed
    · intro operation before after allows state filed step
      exact (Holds.mk state filed).step serves allows step |>.filed
  exact ⟨kept.1, kept.2⟩

-----------------------------------------------------------------------------------------
-- Walks to the parent
-----------------------------------------------------------------------------------------

theorem Holds.lookup_meets (holds : filing.Holds states index) (serves : filing.Serves states)
    (key : BlockHash)
    : (IndexM.lookup key).Meets index
        (fun answer after =>
          filing.Holds states after
          ∧ answer = after.resident.get? key)
        (fun failure _ => failure ≠ .unfinished) := by
  have allows : filing.Allows (.lookup key) := trivial
  refine ((IndexM.lookup_meets key).and (IndexM.lookup_keeps key)).mono ?_ ?_
  · intro answer after met
    obtain ⟨looked, _⟩ := met
    exact ⟨holds.steps serves allows looked.steps, looked.answered⟩
  · intro failure after met
    exact met.2.1

omit [HeaderSource σ] in
/-- Links are no matter to where headers are filed. -/
theorem Holds.joined (holds : filing.Holds states index) (child parent : BlockHash)
    : filing.Holds states (index.joined child parent) where
  state := by
    rw [Index.store_joined]
    exact holds.state
  filed key entry found := by
    rw [Index.unlinked?_joined] at found
    exact holds.filed key entry found

/-- A walk to the parent leads where the filing does. -/
theorem Holds.parent_meets (holds : filing.Holds states index) (serves : filing.Serves states)
    (key : BlockHash)
    : (IndexM.parent key).Meets index
        (fun answer after =>
          filing.Holds states after
          ∧ ∀ above, answer = some above → filing.Leads key above.hash)
        (fun failure _ => failure ≠ .unfinished) := by
  refine IndexM.parent_meets_of_lookups ?_
  refine (holds.lookup_meets serves key).mono ?_ fun _ _ => id
  intro found between looked
  obtain ⟨holds', answered⟩ := looked
  have ended {after : Index σ} (holds : filing.Holds states after)
      : filing.Holds states after
        ∧ ∀ above, (none : Option Record) = some above → filing.Leads key above.hash :=
    ⟨holds, fun _ none => nomatch none⟩
  cases found with
  | none => exact ended holds'
  | some below =>
      dsimp only
      split
      · exact ended holds'
      · next later =>
          refine (holds'.lookup_meets serves below.prev).mono ?_ fun _ _ => id
          intro found' after looked'
          obtain ⟨holds'', answered'⟩ := looked'
          cases found' with
          | none => exact ended holds''
          | some =>
              have joined := holds''.joined key below.prev
              refine ⟨joined, ?_⟩
              intro above found
              exact .up (holds'.of_get? answered.symm) (Bool.eq_false_iff.mpr later)
                (joined.of_get? found)

end Filing

end HeaderChain
