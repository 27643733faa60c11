import HeaderChain.Proofs.Run

/-! The journal of an index is the history of its resident part: replaying it gives the resident
part back, and every change in it was in order when it was made.
-/

namespace HeaderChain

/-- A change as operations make it: what enters is new and without links, what is removed is there,
and a link leads from a resident record to the resident one its header names.
-/
inductive Change.Fits (resident : Resident) : Change → Prop
  | hydrated {key header height work firstSeen} (absent : resident.get? key = none)
    : Fits resident (.hydrated key (.unlinked header height work firstSeen))
  | indexed {header height work firstSeen} (absent : resident.get? header.hash = none)
    : Fits resident (.indexed (.unlinked header height work firstSeen))
  | removed {key record} (found : resident.get? key = some record)
    : Fits resident (.removed key)
  | linked {child below above} (found : resident.get? child = some below)
    (later : below.header.isGenesis = false) (parent : resident.get? below.prev = some above)
    : Fits resident (.linked child below.prev)
  | trimmed : Fits resident .trimmed

/-- A change keeps the records in their order, and one that enters goes to the back. -/
theorem Change.Fits.keys_sublist {resident : Resident} {change : Change}
    (fits : change.Fits resident)
    : (resident.apply change).table.keys.Sublist
        (resident.table.keys ++ (change.entry?.map Prod.fst).toList) := by
  cases fits with
  | hydrated absent =>
      rw [Resident.apply, Resident.keys_enter absent]
      exact List.drop_sublist _ _
  | indexed absent =>
      rw [Resident.apply, Resident.enterTip, Resident.keys_enter]
      · exact List.drop_sublist _ _
      · exact absent
  | removed found =>
      rw [Resident.apply, Resident.keys_remove found]
      exact List.filter_sublist.trans (List.sublist_append_left _ _)
  | linked =>
      rw [Resident.apply, Resident.keys_link]
      exact List.sublist_append_left _ _
  | trimmed =>
      rw [Resident.apply, Resident.keys_evictToCeiling]
      exact (List.drop_sublist _ _).trans (List.sublist_append_left _ _)

theorem Change.Fits.absent_of_entry {resident : Resident} {change : Change} {key : BlockHash}
    {record : Record} (fits : change.Fits resident) (entry : change.entry? = some (key, record))
    : resident.get? key = none := by
  cases fits with
  | hydrated absent =>
      cases entry
      exact absent
  | indexed absent =>
      cases entry
      exact absent
  | removed => cases entry
  | linked => cases entry
  | trimmed => cases entry

/-- A hydrated record is filed under the hash of its own header. -/
def Change.Keyed : Change → Prop
  | .hydrated key record => record.hash = key
  | _ => True

/-- A journal, latest change first, in which every change fits what the earlier ones made. -/
inductive Recorded (config : Config) : List Change → Prop
  | nil : Recorded config []
  | cons {change earlier} (before : Recorded config earlier)
    (fits : change.Fits (Resident.replay config earlier))
    : Recorded config (change :: earlier)

@[simp] theorem Resident.replay_cons (config : Config) (change : Change) (earlier : List Change)
    : Resident.replay config (change :: earlier)
      = (Resident.replay config earlier).apply change :=
  rfl

theorem Recorded.suffix {config : Config} {past journal : List Change}
    (recorded : Recorded config journal) (earlier : past <:+ journal)
    : Recorded config past := by
  induction recorded with
  | nil => exact List.suffix_nil.mp earlier ▸ .nil
  | cons before fits ih =>
      rcases List.suffix_cons_iff.mp earlier with rfl | inner
      · exact .cons before fits
      · exact ih inner

variable {σ : Type} [HeaderSource σ]

/-- A step leaves the resident part and the journal alone, or enters one fitting change in both. -/
theorem Index.Step.changes {operation : Operation} {before after : Index σ}
    (step : Index.Step operation before after)
    : (after.resident = before.resident ∧ after.journal = before.journal)
      ∨ ∃ change,
          change.Fits before.resident
          ∧ after.resident = before.resident.apply change
          ∧ after.journal = change :: before.journal := by
  cases step with
  | fetched => exact .inl ⟨rfl, rfl⟩
  | heightAsked => exact .inl ⟨rfl, rfl⟩
  | workAsked => exact .inl ⟨rfl, rfl⟩
  | hydrated absent => exact .inr ⟨_, .hydrated absent, rfl, rfl⟩
  | indexed _ absent => exact .inr ⟨_, .indexed absent, rfl, rfl⟩
  | removed _ found => exact .inr ⟨_, .removed found, rfl, rfl⟩
  | linked found later parent => exact .inr ⟨_, .linked found later parent, rfl, rfl⟩
  | trimmed => exact .inr ⟨_, .trimmed, rfl, rfl⟩

variable {states : σ → Prop} {allowed : Operation → Prop} {config : Config}

/-- A step keeps the journal in order and telling what is resident. -/
theorem Index.Step.recorded {operation : Operation} {before after : Index σ}
    (step : Index.Step operation before after)
    (kept
      : before.resident = Resident.replay config before.journal
        ∧ Recorded config before.journal)
    : after.resident = Resident.replay config after.journal ∧ Recorded config after.journal := by
  obtain ⟨replayed, recorded⟩ := kept
  rcases step.changes with ⟨resident, journal⟩ | ⟨change, fits, resident, journal⟩
  · exact ⟨by rw [resident, journal, replayed], journal ▸ recorded⟩
  · refine ⟨by rw [resident, journal, Resident.replay_cons, replayed], ?_⟩
    rw [journal]
    exact .cons recorded (replayed ▸ fits)

/-- The journal of every index that is reached is in order and tells what is resident. -/
theorem Index.Reached.recorded (closed : ReadClosed states) {index : Index σ}
    (reached : Index.Reached states allowed config index)
    : index.resident = Resident.replay config index.journal ∧ Recorded config index.journal := by
  let property (index : Index σ) : Prop :=
    index.resident = Resident.replay config index.journal ∧ Recorded config index.journal
  refine (reached.invariant property closed ?_ ?_ ?_).2
  · intro store
    exact ⟨rfl, .nil⟩
  · intro index store recorded
    exact recorded
  · intro operation before after _ _ kept step
    exact step.recorded kept

/-- If hydrations are of headers under their own hashes, so are all resident records. -/
theorem Recorded.hash_eq {journal : List Change} (recorded : Recorded config journal)
    (keyed : ∀ change ∈ journal, change.Keyed) {key : BlockHash} {record : Record}
    (found : (Resident.replay config journal).unlinked? key = some record)
    : record.hash = key := by
  induction recorded with
  | nil => cases found
  | cons _ fits ih =>
      rcases Resident.unlinked?_apply found with ⟨entered, entry, same⟩ | was
      · have own := keyed _ List.mem_cons_self
        rw [← same]
        cases fits with
        | hydrated =>
            cases entry
            exact own
        | indexed =>
            cases entry
            rfl
        | removed => cases entry
        | linked => cases entry
        | trimmed => cases entry
      · exact ih (fun other member => keyed other (List.mem_cons_of_mem _ member)) was

/-- Over a store that serves headers under their own hashes, a step hydrates none under another. -/
theorem Index.Step.keyed {operation : Operation} {before after : Index σ}
    (step : Index.Step operation before after) (wellKeyed : WellKeyed states)
    (state : states before.store) (keyed : ∀ change ∈ before.journal, change.Keyed)
    : ∀ change ∈ after.journal, change.Keyed := by
  have entered (change : Change) (fits : change.Keyed)
      : ∀ other ∈ change :: before.journal, other.Keyed := by
    intro other member
    rcases List.mem_cons.mp member with rfl | earlier
    · exact fits
    · exact keyed other earlier
  cases step with
  | fetched => exact keyed
  | heightAsked => exact keyed
  | workAsked => exact keyed
  | @hydrated key header firstSeen height total served last _ answered =>
      have own : header.hash = key := wellKeyed.served _ _ _ _ _ state answered
      exact entered (.hydrated key (.unlinked header height total firstSeen)) own
  | indexed => exact entered (.indexed _) trivial
  | removed => exact entered (.removed _) trivial
  | linked => exact entered (.linked _ _) trivial
  | trimmed => exact entered .trimmed trivial

/-- Over such a store, every hydration in the journal is of a header under its own hash. -/
theorem Index.Reached.keyed (wellKeyed : WellKeyed states) {index : Index σ}
    (reached : Index.Reached states allowed config index)
    : ∀ change ∈ index.journal, change.Keyed := by
  let property (index : Index σ) : Prop := ∀ change ∈ index.journal, change.Keyed
  refine (reached.invariant property wellKeyed.toReadClosed ?_ ?_ ?_).2
  · intro store change member
    cases member
  · intro index store keyed
    exact keyed
  · intro operation before after _ state keyed step
    exact step.keyed wellKeyed state keyed

/-- Over such a store, every resident record is filed under its own hash. -/
theorem Index.Reached.hash_eq (wellKeyed : WellKeyed states) {index : Index σ}
    (reached : Index.Reached states allowed config index) {key : BlockHash} {record : Record}
    (found : index.resident.unlinked? key = some record)
    : record.hash = key := by
  obtain ⟨replayed, recorded⟩ := reached.recorded wellKeyed.toReadClosed
  rw [replayed] at found
  exact recorded.hash_eq (reached.keyed wellKeyed) found

end HeaderChain
