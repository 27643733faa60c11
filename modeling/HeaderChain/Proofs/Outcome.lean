import HeaderChain.Index.Operation

/-! What an action on an index brings about, stated as a condition on its answer or its failure
and on the index it leaves. The condition is computed along the action.
-/

namespace HeaderChain

/-- The store after a read, whether it was answered or failed. -/
def StoreRead.final {σ α : Type} (read : StoreRead σ α) (store : σ) : σ :=
  match read store with
  | .ok _ store => store
  | .error _ store => store

theorem StoreRead.final_of_ok {σ α : Type} {read : StoreRead σ α} {store after : σ} {answer : α}
    (done : read store = .ok answer after)
    : read.final store = after := by
  rw [final, done]

theorem StoreRead.final_of_error {σ α : Type} {read : StoreRead σ α} {store after : σ}
    {error : StoreError} (done : read store = .error error after)
    : read.final store = after := by
  rw [final, done]

/-- The index after a change of its resident part. -/
def Index.changed {σ : Type} (index : Index σ) (change : Change) : Index σ :=
  { index with
    resident := index.resident.apply change
    journal := change :: index.journal }

namespace IndexM

variable {σ α β : Type}

/-- The outcome of an action satisfies one condition if there is an answer, and another if the
action fails.
-/
def Meets (action : IndexM σ α) (index : Index σ) (answered : α → Index σ → Prop)
    (failed : Failure → Index σ → Prop)
    : Prop :=
  match action index with
  | .ok answer after => answered answer after
  | .error failure after => failed failure after

section Meets

variable {index : Index σ} {answered : α → Index σ → Prop} {failed : Failure → Index σ → Prop}

instance {action : IndexM σ α} [∀ answer after, Decidable (answered answer after)]
    [∀ failure after, Decidable (failed failure after)]
    : Decidable (action.Meets index answered failed) :=
  match outcome : action index with
  | .ok answer after => decidable_of_iff (answered answer after) (by rw [Meets, outcome])
  | .error failure after => decidable_of_iff (failed failure after) (by rw [Meets, outcome])

/-- Weaker conditions are met as well. -/
theorem Meets.mono {action : IndexM σ α} {answered' : α → Index σ → Prop}
    {failed' : Failure → Index σ → Prop}
    (met : action.Meets index answered failed)
    (answers : ∀ answer after, answered answer after → answered' answer after)
    (failures : ∀ failure after, failed failure after → failed' failure after)
    : action.Meets index answered' failed' := by
  rw [Meets] at met ⊢
  split at met
  · exact answers _ _ met
  · exact failures _ _ met

/-- An action has the outcome that it has. -/
theorem meets_outcome (action : IndexM σ α) (index : Index σ)
    : action.Meets index (fun answer after => action index = .ok answer after)
        (fun failure after => action index = .error failure after) := by
  rw [Meets]
  split
  · assumption
  · assumption

/-- An action that cannot fail has an answer. -/
theorem Meets.exists_ok {action : IndexM σ α}
    (met : action.Meets index answered fun _ _ => False)
    : ∃ answer after, action index = .ok answer after ∧ answered answer after := by
  rw [Meets] at met
  split at met
  · next answer after same => exact ⟨answer, after, same, met⟩
  · exact met.elim

/-- An action that never answers fails. -/
theorem Meets.exists_error {action : IndexM σ α}
    (met : action.Meets index (fun _ _ => False) failed)
    : ∃ failure after, action index = .error failure after ∧ failed failure after := by
  rw [Meets] at met
  split at met
  · exact met.elim
  · next failure after same => exact ⟨failure, after, same, met⟩

/-- What an action meets holds of each answer it gives. -/
theorem Meets.of_ok {action : IndexM σ α} {answer : α} {after : Index σ}
    (met : action.Meets index answered failed) (done : action index = .ok answer after)
    : answered answer after := by
  simpa only [Meets, done] using met

/-- What an action meets holds where it fails. -/
theorem Meets.of_error {action : IndexM σ α} {failure : Failure} {after : Index σ}
    (met : action.Meets index answered failed) (done : action index = .error failure after)
    : failed failure after := by
  simpa only [Meets, done] using met

/-- What an action meets separately it meets together. -/
theorem Meets.and {action : IndexM σ α} {answered' : α → Index σ → Prop}
    {failed' : Failure → Index σ → Prop} (met : action.Meets index answered failed)
    (met' : action.Meets index answered' failed')
    : action.Meets index (fun answer after => answered answer after ∧ answered' answer after)
        (fun failure after => failed failure after ∧ failed' failure after) := by
  revert met met'
  rw [Meets, Meets, Meets]
  cases action index <;> exact And.intro

/-- A sequence meets what its second part meets wherever the first part leads. -/
@[simp] theorem meets_bind {action : IndexM σ β} {next : β → IndexM σ α}
    : (action >>= next).Meets index answered failed
      ↔ action.Meets index (fun answer after => (next answer).Meets after answered failed)
          failed := by
  simp only [Meets, bind, EStateM.bind]
  cases action index <;> rfl

@[simp] theorem meets_pure {answer : α}
    : (pure answer : IndexM σ α).Meets index answered failed ↔ answered answer index :=
  Iff.rfl

@[simp] theorem meets_throw {failure : Failure}
    : (throw failure : IndexM σ α).Meets index answered failed ↔ failed failure index :=
  Iff.rfl

end Meets

variable {index : Index σ} {failed : Failure → Index σ → Prop}

@[simp] theorem meets_resident {answered : Resident → Index σ → Prop}
    : (resident : IndexM σ Resident).Meets index answered failed
      ↔ answered index.resident index :=
  Iff.rfl

@[simp] theorem meets_commit {change : Change} {answered : Unit → Index σ → Prop}
    : (commit change : IndexM σ Unit).Meets index answered failed
      ↔ answered () (index.changed change) :=
  Iff.rfl

@[simp] theorem meets_workOf [HeaderSource σ] {header : Header}
    {answered : Work → Index σ → Prop}
    : (workOf header : IndexM σ Work).Meets index answered failed
      ↔ answered (HeaderSource.workOf index.store header) index :=
  Iff.rfl

/-- A read meets a condition on what the store answers, and leaves all but the store alone. -/
theorem meets_ofStore {read : StoreRead σ α} {answered : α → Index σ → Prop}
    : (ofStore read).Meets index answered failed
      ↔ match read index.store with
        | .ok answer store => answered answer { index with store }
        | .error error store => failed (.storage error) { index with store } := by
  rw [Meets, ofStore]
  cases read index.store <;> rfl

/-- A sum meets a condition on its value, or fails where it has none. -/
theorem meets_sum {left right : Work} {answered : Work → Index σ → Prop}
    : (sum left right : IndexM σ Work).Meets index answered failed
      ↔ match left.add? right with
        | some work => answered work index
        | none => failed .workOverflow index := by
  rw [sum]
  cases left.add? right <;> rfl

end IndexM

end HeaderChain
